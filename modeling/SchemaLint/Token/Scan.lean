import SchemaLint.Text.Blank
import SchemaLint.Token

/-!
# Reading one token off a text

Each scanner cuts a list of characters in two and says what it took; the lemmas state that nothing
is lost and that the cut makes progress.
-/

set_option autoImplicit false
set_option relaxedAutoImplicit false

namespace SchemaLint

/-- Why a text is no sequence of tokens. -/
inductive LexFault
  | openComment | openString | unexpected (c : Char)
  deriving DecidableEq, Repr

namespace Scan

def isWordStart (c : Char) : Bool :=
  c.isAlpha || c = '_'

def isWordPart (c : Char) : Bool :=
  c.isAlphanum || c = '_'

def isPunctuation (c : Char) : Bool :=
  ('!' ≤ c && c ≤ '/') || (':' ≤ c && c ≤ '@') || ('[' ≤ c && c ≤ '\x60') || ('\x7b' ≤ c && c ≤ '~')

def closeComment? : List Char → Option (List Char × List Char)
  | [] => none
  | '*' :: '/' :: rest => some (['*', '/'], rest)
  | c :: cs => (closeComment? cs).map fun (body, rest) => (c :: body, rest)

/-- The blanks and comments at the start of a text, and what stands behind them.  When `isOpen`
holds, that is a block comment without an end. -/
structure Gap where
  taken : List Char
  rest : List Char
  isOpen : Bool

def Gap.after (g : Gap) (cs : List Char) : Gap :=
  { g with taken := cs ++ g.taken }

theorem closeComment?_append {cs body rest : List Char}
    (h : closeComment? cs = some (body, rest)) : body ++ rest = cs := by
  fun_induction closeComment? cs generalizing body rest with
  | case1 => simp at h
  | case2 tail =>
    simp only [Option.some.injEq, Prod.mk.injEq] at h
    obtain ⟨rfl, rfl⟩ := h
    rfl
  | case3 c cs _ ih =>
    obtain ⟨⟨b, r⟩, hcut, heq⟩ := Option.map_eq_some_iff.1 h
    simp only [Prod.mk.injEq] at heq
    obtain ⟨rfl, rfl⟩ := heq
    simp [ih hcut]

def gap (cs : List Char) : Gap :=
  match cs with
  | [] => ⟨[], [], false⟩
  | '/' :: '/' :: rest =>
    (gap (rest.dropWhile (· ≠ '\n'))).after ('/' :: '/' :: rest.takeWhile (· ≠ '\n'))
  | '/' :: '*' :: rest =>
    match _hcut : closeComment? rest with
    | none => ⟨[], '/' :: '*' :: rest, true⟩
    | some (body, rest') => (gap rest').after ('/' :: '*' :: body)
  | c :: rest => if Text.isBlank c then (gap rest).after [c] else ⟨[], c :: rest, false⟩
termination_by cs.length
decreasing_by
  · have := (rest.dropWhile_suffix (· ≠ '\n')).length_le
    simp only [List.length_cons]
    omega
  · have := congrArg List.length (closeComment?_append _hcut)
    simp only [List.length_append, List.length_cons] at this ⊢
    omega
  · simp

theorem gap_append (cs : List Char) : (gap cs).taken ++ (gap cs).rest = cs := by
  fun_induction gap cs with
  | case1 => rfl
  | case2 rest ih =>
    simp only [Gap.after, List.cons_append, List.append_assoc, ih]
    rw [List.takeWhile_append_dropWhile]
  | case3 rest hcut => simp
  | case4 rest body rest' hcut ih => simp [Gap.after, ih, closeComment?_append hcut]
  | case5 c rest _ _ hblank ih => simp [Gap.after, ih]
  | case6 c rest _ _ hblank => simp

/-- Cut a quoted string, its opening quote already taken, after its closing quote.  A backslash
keeps the character after it from ending the string; when the string has no end, the cut stands
where that shows: before a line end or at the end of the text. -/
def closeString (quote : Char) : List Char → List Char × List Char × Bool
  | [] => ([], [], false)
  | ['\\'] => (['\\'], [], false)
  | '\\' :: c :: cs =>
    let (taken, rest, closed) := closeString quote cs
    ('\\' :: c :: taken, rest, closed)
  | c :: cs =>
    if c = '\n' then ([], c :: cs, false)
    else if c = quote then ([c], cs, true)
    else
      let (taken, rest, closed) := closeString quote cs
      (c :: taken, rest, closed)

def isHexadecimal : List Char → Bool
  | '0' :: 'x' :: _ => true
  | '0' :: 'X' :: _ => true
  | _ => false

/-- Cut a number after its last character, given the character before.  A sign belongs to it only
right after an exponent mark, which a hexadecimal number does not have. -/
def number (isHex : Bool) (before : Char) : List Char → List Char × List Char
  | [] => ([], [])
  | c :: cs =>
    if c.isAlphanum || c = '.' || c = '_' ||
        ((c = '+' || c = '-') && (before = 'e' || before = 'E') && !isHex) then
      let (taken, rest) := number isHex c cs
      (c :: taken, rest)
    else ([], c :: cs)

/-- Whether a text begins with a number: a digit, or a point and a digit. -/
def beginsNumber : List Char → Bool
  | '.' :: c :: _ => c.isDigit
  | c :: _ => c.isDigit
  | [] => false

/-- What stands at the start of a text without a gap: a token, nothing, or a fault together with
the characters that had to be read to notice it. -/
inductive Head
  | token (kind : TokenKind) (text rest : List Char)
  | nothing
  | faulty (fault : LexFault) (read rest : List Char)

def head : List Char → Head
  | [] => .nothing
  | c :: cs =>
    if isWordStart c then
      .token .identifier (c :: cs.takeWhile isWordPart) (cs.dropWhile isWordPart)
    else if beginsNumber (c :: cs) then
      let (taken, rest) := number (isHexadecimal (c :: cs)) c cs
      .token .number (c :: taken) rest
    else if c = '"' || c = '\'' then
      let (taken, rest, closed) := closeString c cs
      if closed then .token .string (c :: taken) rest
      else .faulty .openString (c :: taken) rest
    else if isPunctuation c then .token .symbol [c] cs
    else .faulty (.unexpected c) [] (c :: cs)

theorem closeString_append (quote : Char) (cs : List Char) :
    (closeString quote cs).1 ++ (closeString quote cs).2.1 = cs := by
  fun_induction closeString quote cs <;> simp_all

theorem number_append (isHex : Bool) (before : Char) (cs : List Char) :
    (number isHex before cs).1 ++ (number isHex before cs).2 = cs := by
  fun_induction number isHex before cs <;> simp_all

theorem head_token {cs text rest : List Char} {kind : TokenKind}
    (h : head cs = .token kind text rest) : text ++ rest = cs ∧ text ≠ [] := by
  cases cs with
  | nil => simp [head] at h
  | cons c cs =>
    have hs := closeString_append c cs
    have hn := number_append (isHexadecimal (c :: cs)) c cs
    grind [head, List.takeWhile_append_dropWhile]

end Scan

end SchemaLint
