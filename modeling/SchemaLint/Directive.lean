import SchemaLint.Failure
import SchemaLint.Text.Search

/-!
# Directives

A comment on a line can allow some rules their failures on that line and on the next.  It names the
rules, or `all`, and may give a reason.
-/

set_option autoImplicit false
set_option relaxedAutoImplicit false

namespace SchemaLint

structure Directive where
  rules : List String
  reason : Option String
  deriving DecidableEq, Repr

namespace Directive

/-- The reason at the end of a directive: a quoted text behind `reason=`. -/
def reason? (rest : List Char) : Option String := do
  let value ← Text.dropStart? "reason=".toList (Text.trim rest)
  let inner ← Text.dropStart? ['"'] (Text.trim value)
  let (reason, _) ← Text.cutAround? ['"'] inner
  return String.ofList reason

def rulesOf (list : List Char) : List String :=
  (((Text.splitOn ',' list).map Text.trim).filter (!·.isEmpty)).map String.ofList

def ofComment? (comment : List Char) : Option Directive := do
  let content ← Text.dropStart? "proto-lint:".toList (Text.trim comment)
  let arguments ← Text.dropStart? "allow(".toList (Text.trim content)
  let (list, rest) ← Text.cutAround? [')'] (Text.trim arguments)
  let rules := rulesOf list
  if rules.isEmpty then none else some ⟨rules, reason? rest⟩

/-- The directive on a line: the text behind its first two slashes. -/
def ofLine? (line : List Char) : Option Directive := do
  let (_, comment) ← Text.cutAround? ['/', '/'] (Text.trim line)
  ofComment? comment

def covers (d : Directive) (ruleId : String) : Bool :=
  d.rules.contains ruleId || d.rules.contains "all"

end Directive

/-- Whether a rule is allowed at a line, and why. -/
inductive AllowCheck
  | denied
  | allowed (reason : Option String)
  deriving DecidableEq, Repr

structure Allowances where
  lines : List (Option Directive)
  deriving DecidableEq, Repr

namespace Allowances

def none : Allowances :=
  ⟨[]⟩

def scan (text : String) : Allowances :=
  ⟨(Text.lines text.toList).map Directive.ofLine?⟩

def isEmpty (a : Allowances) : Bool :=
  a.lines.all Option.isNone

def directiveAt (a : Allowances) (line : Nat) : Option Directive :=
  match line with
  | 0 => Option.none
  | n + 1 => (a.lines[n]?).join

/-- Ask for a rule at a line: the directive on the line before counts first, then the line's own. -/
def check (a : Allowances) (line : Nat) (ruleId : String) : AllowCheck :=
  match (a.directiveAt (line - 1)).filter (·.covers ruleId) with
  | some d => .allowed d.reason
  | Option.none =>
    match (a.directiveAt line).filter (·.covers ruleId) with
    | some d => .allowed d.reason
    | Option.none => .denied

/-- Whether a failure is allowed. -/
def allows (a : Allowances) (f : Failure) : Bool :=
  a.check f.position.line f.ruleId ≠ .denied

end Allowances

end SchemaLint
