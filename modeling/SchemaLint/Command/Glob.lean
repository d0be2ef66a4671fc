/-!
# Path patterns

A pattern takes pieces of a text, and matches the text if it can take all of it.  Texts are lists of
codes, which may be the numbers of characters or of bytes.

Taking is a step from some places of the text to others.  A place stands before each code and one
more at the end, so a set of places is a list of marks that is one longer than the text.  A pattern
moves all marks at once, which keeps the work proportional to its size however often it branches.
-/

set_option autoImplicit false
set_option relaxedAutoImplicit false

namespace SchemaLint

/-- A set of codes: those within some ranges, or all others. -/
structure CodeSet where
  negated : Bool
  ranges : List (Nat × Nat)
  deriving DecidableEq, Repr

namespace CodeSet

def all : CodeSet :=
  ⟨true, []⟩

def allBut (n : Nat) : CodeSet :=
  ⟨true, [(n, n)]⟩

def only (n : Nat) : CodeSet :=
  ⟨false, [(n, n)]⟩

def has (s : CodeSet) (n : Nat) : Bool :=
  (s.ranges.any fun (low, high) => low ≤ n && n ≤ high) != s.negated

end CodeSet

/-- A pattern: nothing, one code of a set, any number of them, one pattern after another, or one
pattern or another. -/
inductive Glob
  | empty
  | one (s : CodeSet)
  | many (s : CodeSet)
  | both (first second : Glob)
  | either (first second : Glob)
  deriving DecidableEq, Repr

namespace Glob

def andThen : Glob → Glob → Glob
  | .empty, b => b
  | a, .empty => a
  | a, b => .both a b

def sequence (globs : List Glob) : Glob :=
  globs.foldr andThen .empty

/-- One of some patterns, of which those that take nothing do not count; nothing if none is left. -/
def choice : List Glob → Glob
  | [] => .empty
  | .empty :: rest => choice rest
  | a :: rest =>
    match choice rest with
    | .empty => a
    | b => .either a b

def exactly (codes : List Nat) : Glob :=
  sequence (codes.map fun n => .one (.only n))

def slash : Glob :=
  .one (.only 47)

/-- Whole directories, each with the slash behind it: nothing, or what ends in a slash. -/
def directories : Glob :=
  .either .empty (.both (.many .all) slash)

def spread (s : CodeSet) : Bool → List Nat → List Bool → List Bool
  | arriving, c :: cs, mark :: marks =>
    (arriving || mark) :: spread s ((arriving || mark) && s.has c) cs marks
  | arriving, [], mark :: _ => [arriving || mark]
  | _, _, [] => []

def reach (codes : List Nat) : Glob → List Bool → List Bool
  | .empty, marks => marks
  | .one s, marks => false :: List.zipWith (fun mark c => mark && s.has c) marks codes
  | .many s, marks => spread s false codes marks
  | .both a b, marks => reach codes b (reach codes a marks)
  | .either a b, marks => List.zipWith or (reach codes a marks) (reach codes b marks)

def accepts (g : Glob) (codes : List Nat) : Bool :=
  (g.reach codes (true :: codes.map fun _ => false)).getLast? = some true

end Glob

end SchemaLint
