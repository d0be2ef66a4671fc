/-!
# Byte offsets in a text

A place in a text is named by the number of UTF-8 bytes before it.  Not every number names a
place: one that falls inside a character or past the end does not.
-/

set_option autoImplicit false
set_option relaxedAutoImplicit false

namespace SchemaLint.Text

def byteLength : List Char → Nat
  | [] => 0
  | c :: cs => c.utf8Size + byteLength cs

def splitAtByte? : List Char → Nat → Option (List Char × List Char)
  | cs, 0 => some ([], cs)
  | [], _ + 1 => none
  | c :: cs, n + 1 =>
    if c.utf8Size ≤ n + 1 then
      (splitAtByte? cs (n + 1 - c.utf8Size)).map fun (taken, rest) => (c :: taken, rest)
    else none

def afterByte? : List Char → Nat → Option (List Char)
  | cs, 0 => some cs
  | [], _ + 1 => none
  | c :: cs, n + 1 => if c.utf8Size ≤ n + 1 then afterByte? cs (n + 1 - c.utf8Size) else none

/-- Whether a number of bytes names a place of the text. -/
def isPlace (cs : List Char) (n : Nat) : Bool :=
  (afterByte? cs n).isSome

/-- The part of a text between two of its places. -/
def slice? (cs : List Char) (start stop : Nat) : Option (List Char) :=
  if start ≤ stop then do
    let rest ← afterByte? cs start
    let (taken, _) ← splitAtByte? rest (stop - start)
    return taken
  else none

/-- The characters of a text that begin within its first `n` bytes. -/
def takeBytes : List Char → Nat → List Char
  | _, 0 => []
  | [], _ + 1 => []
  | c :: cs, n + 1 => c :: takeBytes cs (n + 1 - c.utf8Size)

def dropBytes : List Char → Nat → List Char
  | cs, 0 => cs
  | [], _ + 1 => []
  | c :: cs, n + 1 => dropBytes cs (n + 1 - c.utf8Size)

@[simp] theorem byteLength_append (as bs : List Char) :
    byteLength (as ++ bs) = byteLength as + byteLength bs := by
  induction as with
  | nil => simp [byteLength]
  | cons a as ih => simp [byteLength, ih, Nat.add_assoc]

theorem splitAtByte?_append (as bs : List Char) :
    splitAtByte? (as ++ bs) (byteLength as) = some (as, bs) := by
  induction as with
  | nil => cases bs <;> rfl
  | cons a as ih =>
    obtain ⟨n, hn⟩ : ∃ n, a.utf8Size + byteLength as = n + 1 :=
      ⟨a.utf8Size + byteLength as - 1, by have := a.utf8Size_pos; omega⟩
    have hle : a.utf8Size ≤ n + 1 := by omega
    have hsub : n + 1 - a.utf8Size = byteLength as := by omega
    simp [byteLength, splitAtByte?, hn, hle, hsub, ih]

theorem append_of_splitAtByte? {cs taken rest : List Char} {n : Nat}
    (h : splitAtByte? cs n = some (taken, rest)) :
    taken ++ rest = cs ∧ byteLength taken = n := by
  fun_induction splitAtByte? cs n generalizing taken rest with
  | case1 cs => simp_all [byteLength]
  | case2 n => simp at h
  | case3 c cs n hle ih =>
    obtain ⟨⟨t, r⟩, hcut, heq⟩ := Option.map_eq_some_iff.1 h
    simp only [Prod.mk.injEq] at heq
    obtain ⟨rfl, rfl⟩ := heq
    obtain ⟨happ, hlen⟩ := ih hcut
    refine ⟨by simp [happ], ?_⟩
    simp only [byteLength, hlen]
    omega
  | case4 c cs n hlt => simp at h

theorem splitAtByte?_map_snd (cs : List Char) (n : Nat) :
    (splitAtByte? cs n).map Prod.snd = afterByte? cs n := by
  fun_induction splitAtByte? cs n with
  | case1 cs => simp [afterByte?]
  | case2 n => simp [afterByte?]
  | case3 c cs n hle ih => simp [afterByte?, hle, ← ih, Function.comp_def]
  | case4 c cs n hlt => simp [afterByte?, hlt]

theorem isPlace_iff {cs : List Char} {n : Nat} :
    isPlace cs n = true ↔ ∃ taken rest, splitAtByte? cs n = some (taken, rest) := by
  simp [isPlace, ← splitAtByte?_map_snd, Option.isSome_iff_exists]

theorem takeBytes_dropBytes_of_splitAtByte? {cs taken rest : List Char} {n : Nat}
    (h : splitAtByte? cs n = some (taken, rest)) :
    takeBytes cs n = taken ∧ dropBytes cs n = rest := by
  fun_induction splitAtByte? cs n generalizing taken rest with
  | case1 cs => cases cs <;> simp_all [takeBytes, dropBytes]
  | case2 n => simp at h
  | case3 c cs n hle ih =>
    obtain ⟨⟨t, r⟩, hcut, heq⟩ := Option.map_eq_some_iff.1 h
    simp only [Prod.mk.injEq] at heq
    obtain ⟨rfl, rfl⟩ := heq
    obtain ⟨htake, hdrop⟩ := ih hcut
    simp [takeBytes, dropBytes, htake, hdrop]
  | case4 c cs n hlt => simp at h

end SchemaLint.Text
