import SchemaLint.Position

/-!
# Failures

What a rule has against a place of a file, and how much weight that has.
-/

set_option autoImplicit false
set_option relaxedAutoImplicit false

namespace SchemaLint

inductive Severity
  | info | warning | error
  deriving DecidableEq, Repr, Inhabited

namespace Severity

def rank : Severity → Nat
  | .info => 0
  | .warning => 1
  | .error => 2

def isBelow (a b : Severity) : Bool :=
  a.rank < b.rank

def render : Severity → String
  | .info => "info"
  | .warning => "warning"
  | .error => "error"

def ofName? : String → Option Severity
  | "info" => some .info
  | "warning" => some .warning
  | "error" => some .error
  | _ => none

theorem ofName?_render (s : Severity) : ofName? s.render = some s := by
  cases s <;> rfl

end Severity

structure Failure where
  position : Position
  ruleId : String
  message : String
  severity : Severity
  deriving DecidableEq, Repr, Inhabited

/-- A failure on one line: place, message, rule. -/
def Failure.render (f : Failure) : String :=
  s!"[{f.position.render}] {f.message} ({f.ruleId})"

/-- A failure as a note in the margin of a text: its words, the labels at byte offsets, and a hint
where there is one. -/
structure Diagnostic where
  message : String
  labels : List (Nat × Nat × String)
  help : Option String
  deriving DecidableEq, Repr

/-- The note for a failure.  Its label stands at the failure's place and has no width. -/
def Failure.diagnostic (f : Failure) (help : Option String) : Diagnostic :=
  ⟨s!"[{f.ruleId}] {f.message}", [(f.position.offset, 0, f.severity.render)], help⟩

end SchemaLint
