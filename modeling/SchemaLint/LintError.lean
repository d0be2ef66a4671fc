import SchemaLint.Parse.File
import SchemaLint.Rule.Registry
import SchemaLint.Store

/-!
# Why a file could not be linted

Failures that rules report are never errors.  An error means that a file has no report at all.
-/

set_option autoImplicit false
set_option relaxedAutoImplicit false

namespace SchemaLint

inductive LintError
  | ruleFault (ruleId : String) (fault : RuleFault)
  | editConflict (first second : Edit)
  | fixVerification (ruleId : String) (failures : List Failure)
  | fixReparse (filename : String) (e : ParseError)
  | parse (e : ParseError)
  | store (path : String) (fault : StoreFault)
  | registry (e : RegistryError)
  deriving DecidableEq, Repr

namespace LintError

def message : LintError → String
  | .ruleFault ruleId fault => s!"rule {ruleId} failed: {fault.message}"
  | .editConflict first second => s!"conflicting edits: {first.render} overlaps {second.render}"
  | .fixVerification ruleId failures =>
    s!"fix for {ruleId} did not resolve {failures.length} failure(s): " ++
      "; ".intercalate (failures.map Failure.render)
  | .fixReparse filename e => s!"fixed text of {filename} failed to parse: {e.render}"
  | .parse e => s!"parse error: {e.render}"
  | .store path fault => s!"IO error on {path}: {fault.message}"
  | .registry e => s!"registry error: {e.message}"

def ofEditError : EditError → LintError
  | .invalid edit reason => .ruleFault edit.ruleId (.invalidEdit edit reason)
  | .conflict first second => .editConflict first second

end LintError

end SchemaLint
