import SchemaLint.Command.Glob
import SchemaLint.Text.Search

/-!
# Exclude patterns

The patterns with which settings and command line leave files out.  A question mark stands for one
character and a star for any number, slashes included; two stars stand for whole directories and
have to be a whole step of the path; brackets hold a set of characters.
-/

set_option autoImplicit false
set_option relaxedAutoImplicit false

namespace SchemaLint.Exclude

/-- The ranges that the text between brackets denotes: single characters, and two ends around a
hyphen. -/
def ranges : List Char → List (Nat × Nat)
  | low :: '-' :: high :: rest => (low.toNat, high.toNat) :: ranges rest
  | c :: rest => (c.toNat, c.toNat) :: ranges rest
  | [] => []

/-- Cut a set of characters off a text, behind the bracket that opens it.  The set has at least one
character, so a bracket that comes first does not close it. -/
def charSet? (cs : List Char) : Option (CodeSet × List Char) :=
  match cs with
  | '!' :: c :: rest =>
    (Text.cutAround? [']'] rest).map fun (inner, after) => (⟨true, ranges (c :: inner)⟩, after)
  | ['!'] => none
  | c :: rest =>
    (Text.cutAround? [']'] rest).map fun (inner, after) => (⟨false, ranges (c :: inner)⟩, after)
  | [] => none

theorem length_lt_of_charSet? {cs after : List Char} {s : CodeSet}
    (h : charSet? cs = some (s, after)) : after.length < cs.length := by
  unfold charSet? at h
  split at h
  · obtain ⟨⟨b, a⟩, hba, heq⟩ := Option.map_eq_some_iff.1 h
    obtain ⟨_, rfl⟩ := Prod.mk.inj heq
    simp [Text.cutAround?_eq_some hba]
    omega
  · simp at h
  · obtain ⟨⟨b, a⟩, hba, heq⟩ := Option.map_eq_some_iff.1 h
    obtain ⟨_, rfl⟩ := Prod.mk.inj heq
    simp [Text.cutAround?_eq_some hba]
    omega
  · simp at h

def starsThen : List Glob → List Glob
  | [] => [.many .all]
  | parts => .directories :: parts

def readFrom? (atStep : Bool) (cs : List Char) : Option (List Glob) :=
  match cs with
  | [] => some []
  | '?' :: rest => (readFrom? false rest).map (.one .all :: ·)
  | '*' :: '*' :: '/' :: rest => if atStep then (readFrom? true rest).map starsThen else none
  | ['*', '*'] => if atStep then some [.many .all] else none
  | '*' :: '*' :: _ => none
  | '*' :: rest => (readFrom? false rest).map (.many .all :: ·)
  | '[' :: rest =>
    match h : charSet? rest with
    | some (s, after) =>
      have := length_lt_of_charSet? h
      (readFrom? false after).map (.one s :: ·)
    | none => none
  | c :: rest => (readFrom? (c = '/') rest).map (.one (.only c.toNat) :: ·)
termination_by cs.length

def read? (pattern : String) : Option Glob :=
  (readFrom? true pattern.toList).map Glob.sequence

def leavesOut (pattern : Glob) (path : String) : Bool :=
  pattern.accepts (path.toList.map Char.toNat)

end SchemaLint.Exclude
