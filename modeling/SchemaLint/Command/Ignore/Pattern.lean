import SchemaLint.Command.Glob

/-!
# Patterns of ignore files

A star and a question mark stop at slashes, two stars that are a whole step stand for any number of
directories, brackets hold a set of characters, braces hold alternatives, which may be nested, and a
backslash takes the next character as it is.  Patterns are matched byte by byte: what stands for one
character stands for one byte.  A pattern has a height, since braces may not be nested at will.
-/

set_option autoImplicit false
set_option relaxedAutoImplicit false

namespace SchemaLint.Ignore

def bytesOf (c : Char) : List Nat :=
  (String.utf8EncodeChar c).map UInt8.toNat

/-- The byte ranges of a range of characters.  They are what its two ends are written with: the
bytes of both, with a range from the last byte of the lower end to the first byte of the upper
end. -/
def byteRanges (low high : Char) : List (Nat × Nat) :=
  let single := fun (n : Nat) => (n, n)
  if low = high then (bytesOf low).map single
  else
    let (lows, highs) := (bytesOf low, bytesOf high)
    lows.dropLast.map single ++ [(lows.getLastD 0, highs.headD 0)] ++ highs.tail.map single

/-- What a bracket opens: a set of characters and what follows it, no set because nothing closes it,
or a range whose ends are in the wrong order. -/
inductive Bracket
  | set (s : CodeSet) (after : List Char)
  | unclosed
  | disordered
  deriving DecidableEq, Repr

/-- The characters of a set as far as they are read: the ranges, last first, and whether a hyphen
waits for the upper end of the last one. -/
structure SetReading where
  ranges : List (Char × Char)
  waits : Bool

namespace SetReading

def add? (r : SetReading) (c : Char) : Option SetReading :=
  match r.waits, r.ranges with
  | true, (low, _) :: others => if low ≤ c then some ⟨(low, c) :: others, false⟩ else none
  | _, ranges => some ⟨(c, c) :: ranges, false⟩

def close (r : SetReading) : List (Char × Char) :=
  if r.waits then ('-', '-') :: r.ranges else r.ranges

end SetReading

/-- Read a set to the bracket that closes it.  A closing bracket or hyphen that comes first stands
for itself. -/
def readSet (negated : Bool) (r : SetReading) : List Char → Bracket
  | [] => .unclosed
  | c :: rest =>
    let isFirst := r.ranges.isEmpty
    if c = ']' && !isFirst then
      .set ⟨negated, r.close.flatMap fun (low, high) => byteRanges low high⟩ rest
    else if c = '-' && !isFirst && !r.waits then readSet negated { r with waits := true } rest
    else
      match r.add? c with
      | some r => readSet negated r rest
      | none => .disordered

def bracket : List Char → Bracket
  | '!' :: rest => readSet true ⟨[], false⟩ rest
  | '^' :: rest => readSet true ⟨[], false⟩ rest
  | cs => readSet false ⟨[], false⟩ cs

theorem length_lt_of_readSet {negated : Bool} {r : SetReading} {cs after : List Char} {s : CodeSet}
    (h : readSet negated r cs = .set s after) : after.length < cs.length := by
  induction cs generalizing r with
  | nil => simp [readSet] at h
  | cons c rest ih =>
    unfold readSet at h
    simp only at h
    split at h
    · obtain ⟨_, rfl⟩ := Bracket.set.inj h
      simp
    · split at h
      · exact Nat.lt_succ_of_lt (ih h)
      · split at h
        · exact Nat.lt_succ_of_lt (ih h)
        · simp at h

theorem length_lt_of_bracket {cs after : List Char} {s : CodeSet}
    (h : bracket cs = .set s after) : after.length < cs.length := by
  unfold bracket at h
  split at h
  · exact Nat.lt_succ_of_lt (length_lt_of_readSet h)
  · exact Nat.lt_succ_of_lt (length_lt_of_readSet h)
  · exact length_lt_of_readSet h

/-- A piece of a pattern: two stars for whole directories in front, in between or at the end, one
star, a set, a character that stands for itself, or alternatives in braces. -/
inductive Piece
  | inFront | between | atEnd | star
  | set (s : CodeSet)
  | literal (c : Char)
  | braces (alternatives : List (List Piece))
  deriving Repr

abbrev Pattern := List Piece

def withinStep : CodeSet :=
  .allBut 47

mutual

def Piece.glob : Piece → Glob
  | .inFront => .directories
  | .between => .both .slash .directories
  | .atEnd => .both .slash (.many .all)
  | .star => .many withinStep
  | .set s => .one s
  | .literal c => .exactly (bytesOf c)
  | .braces alternatives => .choice (globs alternatives)

def globOfPieces : Pattern → Glob
  | [] => .empty
  | p :: ps => p.glob.andThen (globOfPieces ps)

def globs : List Pattern → List Glob
  | [] => []
  | alternative :: others => globOfPieces alternative :: globs others

end

/-- What a pattern takes.  Two stars alone take everything. -/
def Pattern.glob : Pattern → Glob
  | [.inFront] => .many .all
  | pattern => globOfPieces pattern

/-- The size of some pieces: how many parts stand beside each other, and how high the highest is. -/
structure Extent where
  parts : Nat
  height : Nat
  deriving DecidableEq, Repr

namespace Extent

def beside (a b : Extent) : Extent :=
  ⟨a.parts + b.parts, max a.height b.height⟩

def sequenceHeight (x : Extent) : Nat :=
  if x.parts ≤ 1 then x.height else x.height + 1

def choiceHeight : List Extent → Nat
  | [] => 0
  | [x] => x.sequenceHeight
  | xs => (xs.map sequenceHeight).foldl max 0 + 1

def braces (xs : List Extent) : Extent :=
  match xs.filter (0 < ·.parts) with
  | [] => ⟨0, 0⟩
  | counted => ⟨1, choiceHeight counted + 1⟩

end Extent

mutual

/-- The size of a piece.  A character counts as its bytes, a set as one or, with several ranges, as
one around another, and a star as a repetition around a set.  Directories in front and in between
are a group around a choice around a sequence around a repetition. -/
def Piece.extent : Piece → Extent
  | .inFront | .between => ⟨1, 4⟩
  | .atEnd => ⟨2, 1⟩
  | .star => ⟨1, 2⟩
  | .set s => ⟨1, if s.ranges.length ≤ 1 then 1 else 2⟩
  | .literal c => ⟨c.utf8Size, 0⟩
  | .braces alternatives => .braces (extents alternatives)

def extentOfPieces : Pattern → Extent
  | [] => ⟨0, 0⟩
  | p :: ps => p.extent.beside (extentOfPieces ps)

def extents : List Pattern → List Extent
  | [] => []
  | alternative :: others => extentOfPieces alternative :: extents others

end

def heightLimit : Nat := 250

def Pattern.isTooHigh (pattern : Pattern) : Bool :=
  heightLimit < (extentOfPieces pattern).height + 1

/-- Braces under way: the pieces before them, last first, and the finished alternatives. -/
structure OpenBrace where
  before : List Piece
  done : List Pattern

/-- A pattern as far as it is read: the braces around, from the inside out, and the pieces of the
alternative under way, last first. -/
structure Reading where
  around : List OpenBrace
  pieces : List Piece

namespace Reading

def alternative (r : Reading) : Pattern :=
  r.pieces.reverse

def finish? (r : Reading) : Option Pattern :=
  if r.around.isEmpty then some r.alternative else none

def add (r : Reading) (p : Piece) : Reading :=
  { r with pieces := p :: r.pieces }

def openBrace (r : Reading) : Reading :=
  ⟨⟨r.pieces, []⟩ :: r.around, []⟩

/-- Begin the next alternative; a comma outside braces stands for itself. -/
def comma (r : Reading) : Reading :=
  match r.around with
  | [] => r.add (.literal ',')
  | b :: outer => ⟨{ b with done := b.done ++ [r.alternative] } :: outer, []⟩

def closeBrace? (r : Reading) : Option Reading :=
  match r.around with
  | [] => none
  | b :: outer => some ⟨outer, .braces (b.done ++ [r.alternative]) :: b.before⟩

def deepen (r : Reading) (piece : Piece) : Reading :=
  match r.pieces with
  | .inFront :: _ => r
  | .atEnd :: _ => r
  | _ :: others => { r with pieces := piece :: others }
  | [] => { r with pieces := [piece] }

def stars (r : Reading) (before after : Option Char) : Reading × Bool :=
  let inBraces := !r.around.isEmpty
  let plain := ((r.add .star).add .star, false)
  if r.pieces.isEmpty then
    if after = none then (⟨r.around, [.inFront]⟩, false)
    else if after = some '/' then (⟨r.around, [.inFront]⟩, true)
    else plain
  else if before = some '/' || (inBraces && (before = some ',' || before = some '\x7b')) then
    if after = none || (inBraces && (after = some ',' || after = some '\x7d')) then
      (r.deepen .atEnd, false)
    else if after = some '/' then (r.deepen .between, true)
    else plain
  else plain

/-- Read the rest of a pattern, given whether a bracket is known to be unclosed and the character
before.  Once a bracket is unclosed it stands for itself, and so do all behind it. -/
def run? (r : Reading) (unclosed : Bool) (before : Option Char) (cs : List Char) :
    Option Pattern :=
  match cs with
  | [] => r.finish?
  | '?' :: rest => (r.add (.set withinStep)).run? unclosed (some '?') rest
  | '*' :: '*' :: '/' :: rest =>
    let (next, takesSlash) := r.stars before (some '/')
    if takesSlash then next.run? unclosed (some '/') rest
    else next.run? unclosed (some '*') ('/' :: rest)
  | '*' :: '*' :: rest => (r.stars before rest.head?).1.run? unclosed (some '*') rest
  | '*' :: rest => (r.add .star).run? unclosed (some '*') rest
  | '[' :: rest =>
    if unclosed then (r.add (.literal '[')).run? unclosed (some '[') rest
    else
      match h : bracket rest with
      | .set s after =>
        have := length_lt_of_bracket h
        (r.add (.set s)).run? unclosed (some ']') after
      | .unclosed => (r.add (.literal '[')).run? true (some '[') rest
      | .disordered => none
  | '\x7b' :: rest => r.openBrace.run? unclosed (some '\x7b') rest
  | '\x7d' :: rest => r.closeBrace?.bind fun next => next.run? unclosed (some '\x7d') rest
  | ',' :: rest => r.comma.run? unclosed (some ',') rest
  | '\\' :: c :: rest => (r.add (.literal c)).run? unclosed (some c) rest
  | ['\\'] => none
  | c :: rest => (r.add (.literal c)).run? unclosed (some c) rest
termination_by cs.length

end Reading

/-- The pattern of a text: none where braces are not paired, a range has its ends in the wrong
order, or a backslash comes last. -/
def Pattern.read? (cs : List Char) : Option Pattern :=
  Reading.run? ⟨[], []⟩ false none cs

end SchemaLint.Ignore
