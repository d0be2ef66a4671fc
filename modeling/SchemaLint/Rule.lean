import SchemaLint.Edit.Apply
import SchemaLint.Failure
import SchemaLint.Locate
import SchemaLint.Tree.Node

/-!
# Rules

A rule looks at single nodes.  It may report failures, propose an edit for a failure it reported,
or break down over a node.
-/

set_option autoImplicit false
set_option relaxedAutoImplicit false

namespace SchemaLint

/-- The breakdown of a rule, with whatever it had to say. -/
structure Crash where
  message : String
  deriving DecidableEq, Repr

inductive FixObstacle
  | crashed (crash : Crash)
  | notLocated (e : LocateError)
  deriving DecidableEq, Repr

/-- A rule.  It is asked for edits only when it is both built to fix and able to. -/
structure Rule where
  id : String
  description : String
  severity : Severity
  fixMode : Bool
  fixable : Bool
  appliesTo : NodeKind → Bool
  evaluate : Node → Except Crash (List Failure)
  fix : SourceText → Node → Failure → Except FixObstacle (Option Edit)

namespace Rule

def fixes (r : Rule) : Bool :=
  r.fixMode && r.fixable

/-- A rule in messages: its quoted id. -/
def render (r : Rule) : String :=
  s!"Rule({Text.quoteText r.id})"

end Rule

inductive RuleFault
  | crashed (crash : Crash)
  | notLocated (failure : Failure) (e : LocateError)
  | foreignEdit (ruleId : String)
  | invalidEdit (edit : Edit) (reason : Misfit)
  deriving DecidableEq, Repr

def RuleFault.message : RuleFault → String
  | .crashed crash => crash.message
  | .notLocated failure e => s!"could not fix {failure.render}: {e.message}"
  | .foreignEdit ruleId => s!"produced an edit attributed to {ruleId}"
  | .invalidEdit edit reason => (EditError.invalid edit reason).message

end SchemaLint
