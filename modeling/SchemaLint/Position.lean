import SchemaLint.Text.Bytes

/-!
# Positions

A position names a place of a schema file three ways at once: by the number of bytes before it, and
by its line and column as an editor counts them.
-/

set_option autoImplicit false
set_option relaxedAutoImplicit false

namespace SchemaLint

/-- A place of a named file.  The offset counts bytes from zero; the line and the column count line
ends and characters from one. -/
structure Position where
  filename : String
  offset : Nat
  line : Nat
  column : Nat
  deriving DecidableEq, Repr, Inhabited

namespace Position

def start (filename : String) : Position :=
  ⟨filename, 0, 1, 1⟩

def next (p : Position) (c : Char) : Position :=
  if c = '\n' then { p with offset := p.offset + c.utf8Size, line := p.line + 1, column := 1 }
  else { p with offset := p.offset + c.utf8Size, column := p.column + 1 }

def advance (p : Position) (cs : List Char) : Position :=
  cs.foldl next p

/-- The place behind the front of a file, counted anew: the bytes of the front, its line ends, and the
characters behind the last of those. -/
def behind (filename : String) (front : List Char) : Position where
  filename := filename
  offset := Text.byteLength front
  line := 1 + front.count '\n'
  column := 1 + (front.reverse.takeWhile (· ≠ '\n')).length

def render (p : Position) : String :=
  s!"{p.filename}:{p.line}:{p.column}"

@[simp] theorem advance_nil (p : Position) : p.advance [] = p := rfl

@[simp] theorem advance_cons (p : Position) (c : Char) (cs : List Char) :
    p.advance (c :: cs) = (p.next c).advance cs := rfl

@[simp] theorem advance_append (p : Position) (as bs : List Char) :
    p.advance (as ++ bs) = (p.advance as).advance bs := List.foldl_append

theorem next_behind (filename : String) (front : List Char) (c : Char) :
    (behind filename front).next c = behind filename (front ++ [c]) := by
  unfold next behind
  by_cases hc : c = '\n'
  · simp [hc, Text.byteLength, Nat.add_assoc]
  · simp [hc, Text.byteLength, Nat.add_comm]

theorem advance_behind (filename : String) (front cs : List Char) :
    (behind filename front).advance cs = behind filename (front ++ cs) := by
  induction cs generalizing front with
  | nil => simp
  | cons c cs ih =>
    rw [advance_cons, next_behind, ih, List.append_assoc, List.singleton_append]

/-- Counted along from the start, a place is the same as when it is counted anew. -/
theorem advance_start (filename : String) (front : List Char) :
    (start filename).advance front = behind filename front :=
  advance_behind filename [] front

end Position

/-- The places where a declaration begins and where its closing token begins. -/
structure Span where
  first : Position
  last : Position
  deriving DecidableEq, Repr, Inhabited

end SchemaLint
