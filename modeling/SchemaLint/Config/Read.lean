import SchemaLint.Config
import SchemaLint.Toml.Document

/-!
# Reading settings

Settings are written in TOML.  What is set must have the right type; keys that mean nothing here are
passed over.  A section may also be written as a list of its values in order.
-/

set_option autoImplicit false
set_option relaxedAutoImplicit false

namespace SchemaLint

open Toml (Value Entries)

/-- The values that a section gives its settings, named in their order; none for a value that is no
section. -/
def sectionValues? (names : List String) : Value → Option (List (Option Value))
  | .table _ entries => some (names.map (Entries.get? entries))
  | .moment => some (names.map fun _ => none)
  | .array elements => some ((List.range names.length).map fun i => elements[i]?)
  | .tables elements =>
    some ((List.range names.length).map fun i => (elements[i]?).map (.table .header))
  | _ => none

def boolOf? : Value → Option Bool
  | .boolean b => some b
  | _ => none

def textOf? : Value → Option String
  | .text s => some s
  | _ => none

def countOf? : Value → Option Nat
  | .integer n => if 0 ≤ n then some n.toNat else none
  | _ => none

def textsOf? : Value → Option (List String)
  | .array elements => elements.mapM textOf?
  | .tables [] => some []
  | _ => none

def isEmptyValue : Value → Bool
  | .array elements => elements.isEmpty
  | .table _ entries => entries.isEmpty
  | .tables elements => elements.isEmpty
  | _ => false

/-- A severity: its name, or a table that holds nothing but that name with an empty value. -/
def severityOf? : Value → Option Severity
  | .text s => Severity.ofName? s
  | .table _ [(name, v)] => if isEmptyValue v then Severity.ofName? name else none
  | _ => none

/-- A setting that may be left out; what is set has to have the right type. -/
def setting? {α : Type} (read : Value → Option α) (v : Option Value) : Option (Option α) :=
  match v with
  | none => some none
  | some v => (read v).map some

def RuleSettings.ofValue? (v : Value) : Option RuleSettings := do
  match ← sectionValues? ["enabled", "severity"] v with
  | [enabled, severity] => return ⟨← setting? boolOf? enabled, ← setting? severityOf? severity⟩
  | _ => none

def LintSettings.ofValue? (v : Value) : Option LintSettings := do
  let names := ["exclude", "respect_gitignore", "respect_allow_comments", "parallelism"]
  match ← sectionValues? names v with
  | [exclude, gitignore, directives, parallelism] =>
    let exclude ← setting? textsOf? exclude
    let gitignore ← setting? boolOf? gitignore
    let directives ← setting? boolOf? directives
    let parallelism ← setting? countOf? parallelism
    return ⟨exclude.getD [], gitignore.getD true, directives.getD true, parallelism⟩
  | _ => none

def rulesOf? : Value → Option (List (String × RuleSettings))
  | .table _ entries =>
    entries.mapM fun (id, v) => (RuleSettings.ofValue? v).map fun settings => (id, settings)
  | _ => none

namespace Config

def ofEntries? (entries : Entries) : Option Config := do
  let preset ← setting? textOf? (entries.get? "preset")
  let lint ← setting? LintSettings.ofValue? (entries.get? "lint")
  let rules ← setting? rulesOf? (entries.get? "rules")
  return ⟨preset, lint.getD .default, rules.getD []⟩

def read? (text : String) : Option Config := do
  ofEntries? (← Toml.document? text.toList)

end Config

end SchemaLint
