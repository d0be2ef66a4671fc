import SchemaLint.Text.Quoted

/-!
# Edits

An edit replaces the text between two byte offsets.  An edit whose offsets are equal inserts.
-/

set_option autoImplicit false
set_option relaxedAutoImplicit false

namespace SchemaLint

structure Edit where
  ruleId : String
  start : Nat
  stop : Nat
  replacement : String
  deriving DecidableEq, Repr, Inhabited

namespace Edit

/-- Whether two edits touch the same bytes, or insert at the same place. -/
def overlaps (a b : Edit) : Bool :=
  if a.start = a.stop && b.start = b.stop then a.start = b.start
  else a.start < b.stop && b.start < a.stop

def render (e : Edit) : String :=
  s!"{e.ruleId}@{e.start}..{e.stop} -> {Text.quoteText e.replacement}"

/-- The order in which edits are applied: by start, end, rule and replacement. -/
def precedes (a b : Edit) : Bool :=
  if a.start ≠ b.start then a.start < b.start
  else if a.stop ≠ b.stop then a.stop < b.stop
  else if a.ruleId ≠ b.ruleId then a.ruleId < b.ruleId
  else a.replacement ≤ b.replacement

end Edit

end SchemaLint
