import SchemaLint.Locate
import SchemaLint.Proofs.Outcome
import SchemaLint.Proofs.Token.Exact

/-!
# Searches at any place

A search may set in anywhere in a text, also at a position that belongs to another text.  If the
position names no place of the text, it says so.  Otherwise it reads the text from there on, and what
it finds are the bytes of a token read there.
-/

set_option autoImplicit false
set_option relaxedAutoImplicit false

namespace SchemaLint

/-- Whether some bytes of a text are the characters of a word. -/
def SourceText.Spells (s : SourceText) (range : ByteRange) (word : String) : Prop :=
  Text.slice? s.text range.start range.stop = some word.toList

instance (s : SourceText) (range : ByteRange) (word : String) : Decidable (s.Spells range word) :=
  inferInstanceAs (Decidable (_ = _))

theorem SourceText.spells_rightUnique (s : SourceText) : Relator.RightUnique s.Spells :=
  fun _ _ _ h h' => String.toList_injective (Option.some.inj (h.symm.trans h'))

theorem Reading.prefix_upTo (ends : Token → Bool) (r : Reading) :
    (r.upTo ends).lexemes <+: r.lexemes := by
  obtain ⟨ls, fault⟩ := r
  induction ls with
  | nil => simp [upTo]
  | cons l ls ih =>
    unfold upTo
    split
    · exact ⟨ls, rfl⟩
    · exact List.cons_prefix_cons.2 ⟨rfl, ih⟩

theorem Reading.lack_ne (r : Reading) (n : Nat) : r.lack ≠ .outOfRange n := by
  unfold lack
  split <;> simp

theorem Reading.uncons_eq_ok_iff {r others : Reading} {t : Token} :
    r.uncons = .ok (t, others) ↔
      ∃ l ls, r.lexemes = l :: ls ∧ t = l.token ∧ others = ⟨ls, r.fault⟩ := by
  obtain ⟨ls, fault⟩ := r
  cases ls with
  | nil => simp [uncons]
  | cons l ls => simp [uncons, eq_comm]

theorem Reading.uncons_ne {r : Reading} (n : Nat) : r.uncons ≠ .error (.outOfRange n) := by
  unfold uncons
  split
  · simpa using r.lack_ne n
  · simp

theorem Reading.afterKeyword_eq_ok_iff {r others : Reading} {word : String} :
    r.afterKeyword word = .ok others ↔
      ∃ l ls, r.lexemes = l :: ls ∧ l.token.isWord word = true ∧ others = ⟨ls, r.fault⟩ := by
  unfold afterKeyword
  rw [bind_eq_ok_iff]
  constructor
  · rintro ⟨⟨t, rest⟩, huncons, h⟩
    obtain ⟨l, ls, hls, rfl, rfl⟩ := uncons_eq_ok_iff.1 huncons
    dsimp only at h
    split at h
    · rename_i hword
      exact ⟨l, ls, hls, hword, (Except.ok.inj h).symm⟩
    · cases h
  · rintro ⟨l, ls, hls, hword, rfl⟩
    exact ⟨(l.token, ⟨ls, r.fault⟩), uncons_eq_ok_iff.2 ⟨l, ls, hls, rfl, rfl⟩, if_pos hword⟩

theorem Reading.afterKeyword_ne {r : Reading} {word : String} (n : Nat) :
    r.afterKeyword word ≠ .error (.outOfRange n) := by
  intro h
  rcases bind_eq_error_iff.1 h with h | ⟨⟨t, others⟩, -, h⟩
  · exact uncons_ne n h
  · dsimp only at h
    split at h <;> cases h

theorem Lexer.slice_of_mem {front : List Char} {x : Lexer} {l : Lexeme}
    (place : Text.byteLength front = x.position.offset) (mem : l ∈ x.read.lexemes) :
    Text.slice? (front ++ x.rest) l.token.range.start l.token.range.stop =
      some l.token.text.toList := by
  obtain ⟨rest, hrest, -, hplaced, -⟩ :=
    read_eq_iff_fits.1 (show x.read = ⟨x.read.lexemes, x.read.fault⟩ from rfl)
  rw [hrest]
  exact hplaced.slice_eq place l mem

namespace SourceText

variable {s : SourceText} {p : Position} {ends : Token → Bool} {reading : Reading}

theorem readFrom_eq_ok_iff : s.readFrom p ends = .ok reading ↔
    ∃ front rest, s.text = front ++ rest ∧ Text.byteLength front = p.offset ∧
      reading = (⟨rest, p⟩ : Lexer).read.upTo ends := by
  unfold readFrom
  constructor
  · intro h
    cases hafter : Text.afterByte? s.text p.offset with
    | none => simp [hafter] at h
    | some rest =>
      obtain ⟨front, rest', htext, hlength⟩ : ∃ as bs, s.text = as ++ bs ∧
          Text.byteLength as = p.offset :=
        Text.isPlace_iff_exists_append.1 (by simp [Text.isPlace, hafter])
      rw [htext, ← hlength, Text.afterByte?_append] at hafter
      obtain rfl := Option.some.inj hafter
      have hagain := Text.afterByte?_append front rest'
      rw [← htext, hlength] at hagain
      simp only [hagain, Lexer.readUpTo_eq] at h
      exact ⟨front, rest', htext, hlength, (Except.ok.inj h).symm⟩
  · rintro ⟨front, rest, htext, hlength, rfl⟩
    rw [htext, ← hlength, Text.afterByte?_append]
    simp only [Lexer.readUpTo_eq]

theorem readFrom_eq_error_iff {e : LocateError} : s.readFrom p ends = .error e ↔
    Text.isPlace s.text p.offset = false ∧ e = .outOfRange p.offset := by
  unfold readFrom Text.isPlace
  cases Text.afterByte? s.text p.offset with
  | none => simp [eq_comm]
  | some rest => simp

theorem mem_of_lastBeforeAssign {lack notFound : LocateError} {last : Option Token}
    {ts : List Token} {t : Token} (h : lastBeforeAssign lack notFound last ts = .ok t) :
    last = some t ∨ t ∈ ts := by
  induction ts generalizing last with
  | nil => simp [lastBeforeAssign] at h
  | cons u ts ih =>
    unfold lastBeforeAssign at h
    split at h
    · cases last with
      | none => simp at h
      | some found => exact .inl (congrArg some (Except.ok.inj h))
    · split at h
      · cases h
      · rcases ih h with hlast | hmem
        · split at hlast
          · exact .inr (by simp [Option.some.inj hlast])
          · exact .inl hlast
        · exact .inr (List.mem_cons_of_mem u hmem)

theorem lastBeforeAssign_ne {lack notFound e : LocateError} (lacks : lack ≠ e)
    (misses : notFound ≠ e) {last : Option Token} {ts : List Token} :
    lastBeforeAssign lack notFound last ts ≠ .error e := by
  induction ts generalizing last with
  | nil => simpa [lastBeforeAssign] using lacks
  | cons u ts ih =>
    unfold lastBeforeAssign
    split
    · cases last <;> simp [misses]
    · split
      · simpa using misses
      · exact ih

def pick (notFound : LocateError) (reading : Reading) : NamePlace → Except LocateError Token
  | .afterKeyword word => do
    let others ← reading.afterKeyword word
    pure (← others.uncons).1
  | .leading => do pure (← reading.uncons).1
  | .beforeAssign => lastBeforeAssign reading.lack notFound none reading.tokens

theorem locateName_eq_pick (s : SourceText) (p : Position) (name : String) (place : NamePlace) :
    s.locateName p name place = (do
      let reading ← s.readFrom p followsName
      let found ← pick (.nameNotFound name p.offset) reading place
      if found.isWord name then return found.range
      else throw (.nameNotFound name p.offset)) := by
  unfold locateName pick
  cases place <;> simp only [bind_assoc, pure_bind]

variable {notFound : LocateError} {place : NamePlace} {t : Token}

theorem mem_of_pick (h : pick notFound reading place = .ok t) :
    ∃ l ∈ reading.lexemes, t = l.token := by
  cases place with
  | afterKeyword word =>
    obtain ⟨others, hothers, h⟩ := bind_eq_ok_iff.1 h
    obtain ⟨k, ls, hls, -, rfl⟩ := Reading.afterKeyword_eq_ok_iff.1 hothers
    obtain ⟨⟨u, behind⟩, huncons, h⟩ := bind_eq_ok_iff.1 h
    obtain ⟨l, ms, hms, rfl, -⟩ := Reading.uncons_eq_ok_iff.1 huncons
    obtain rfl : ls = l :: ms := hms
    exact ⟨l, by simp [hls], (Except.ok.inj h).symm⟩
  | leading =>
    obtain ⟨⟨u, behind⟩, huncons, h⟩ := bind_eq_ok_iff.1 h
    obtain ⟨l, ms, hms, rfl, -⟩ := Reading.uncons_eq_ok_iff.1 huncons
    exact ⟨l, by simp [hms], (Except.ok.inj h).symm⟩
  | beforeAssign =>
    rcases mem_of_lastBeforeAssign h with hnone | hmem
    · cases hnone
    · obtain ⟨l, hl, rfl⟩ := List.mem_map.1 hmem
      exact ⟨l, hl, rfl⟩

theorem pick_ne {n : Nat} (misses : notFound ≠ .outOfRange n) :
    pick notFound reading place ≠ .error (.outOfRange n) := by
  intro h
  cases place with
  | afterKeyword word =>
    rcases bind_eq_error_iff.1 h with h | ⟨others, -, h⟩
    · exact Reading.afterKeyword_ne n h
    · rcases bind_eq_error_iff.1 h with h | ⟨x, -, h⟩
      · exact Reading.uncons_ne n h
      · cases h
  | leading =>
    rcases bind_eq_error_iff.1 h with h | ⟨x, -, h⟩
    · exact Reading.uncons_ne n h
    · cases h
  | beforeAssign => exact lastBeforeAssign_ne (reading.lack_ne n) misses h

theorem word_of_locateName {name : String} {range : ByteRange}
    (found : s.locateName p name place = .ok range) :
    s.Spells range name ∧
      ∃ rest, Text.afterByte? s.text p.offset = some rest ∧
        ∃ l ∈ (⟨rest, p⟩ : Lexer).read.lexemes,
          l.token.kind = .identifier ∧ l.token.text = name ∧ range = l.token.range := by
  rw [locateName_eq_pick] at found
  obtain ⟨reading, hreading, found⟩ := bind_eq_ok_iff.1 found
  obtain ⟨t, ht, found⟩ := bind_eq_ok_iff.1 found
  obtain ⟨front, rest, htext, hlength, rfl⟩ := readFrom_eq_ok_iff.1 hreading
  obtain ⟨l, hl, rfl⟩ := mem_of_pick ht
  have hmem := (Reading.prefix_upTo followsName _).subset hl
  split at found
  · rename_i hword
    obtain rfl := Except.ok.inj found
    obtain ⟨hkind, rfl⟩ : l.token.kind = .identifier ∧ l.token.text = name := by
      simpa [Token.isWord] using hword
    have hslice := Lexer.slice_of_mem (x := ⟨rest, p⟩) hlength hmem
    have hafter := Text.afterByte?_append front rest
    rw [← htext] at hslice hafter
    exact ⟨hslice, rest, by rwa [← hlength], l, hmem, hkind, rfl, rfl⟩
  · cases found

theorem locateName_outOfRange_iff {name : String} :
    (∃ n, s.locateName p name place = .error (.outOfRange n)) ↔
      Text.isPlace s.text p.offset = false := by
  rw [locateName_eq_pick]
  constructor
  · rintro ⟨n, h⟩
    rcases bind_eq_error_iff.1 h with h | ⟨reading, -, h⟩
    · exact (readFrom_eq_error_iff.1 h).1
    · rcases bind_eq_error_iff.1 h with h | ⟨t, -, h⟩
      · exact absurd h (pick_ne (by simp))
      · split at h <;> cases h
  · intro h
    refine ⟨p.offset, ?_⟩
    rw [readFrom_eq_error_iff.2 ⟨h, rfl⟩]
    rfl

end SourceText

end SchemaLint
