import Mathlib.Algebra.GroupWithZero.Nat
import SchemaLint.Proofs.Token.Tiling

/-!
# Places in a text with other tokens

When tokens get other texts, what stands behind them moves.  How far it moves can be read off the
old tokens and the new texts alone.
-/

set_option autoImplicit false
set_option relaxedAutoImplicit false

namespace SchemaLint

/-- A token and the text that is written in its place. -/
structure Change where
  token : Token
  text : String
  deriving DecidableEq, Repr

namespace Change

def oldBytes (cs : List Change) : Nat :=
  (cs.map (·.token.text.utf8ByteSize)).sum

def newBytes (cs : List Change) : Nat :=
  (cs.map (·.text.utf8ByteSize)).sum

def oldColumns (cs : List Change) : Nat :=
  (cs.map (·.token.text.length)).sum

def newColumns (cs : List Change) : Nat :=
  (cs.map (·.text.length)).sum

def onLine (line : Nat) (cs : List Change) : List Change :=
  cs.filter (·.token.position.line = line)

/-- Where a place of the old text is found in the new one: on the same line, farther by the bytes
that the tokens before it have gained, and by the columns that those on its line have gained. -/
def shift (cs : List Change) (p : Position) : Position :=
  let before := cs.filter (·.token.position.offset < p.offset)
  let beside := onLine p.line before
  { p with
    offset := p.offset + newBytes before - oldBytes before
    column := p.column + newColumns beside - oldColumns beside }

theorem onLine_append (line : Nat) (cs ds : List Change) :
    onLine line (cs ++ ds) = onLine line cs ++ onLine line ds := List.filter_append ..

theorem onLine_eq_nil {line : Nat} {cs : List Change}
    (h : ∀ c ∈ cs, c.token.position.line < line) : onLine line cs = [] := by
  unfold onLine
  rw [List.filter_eq_nil_iff]
  intro c hc
  have := h c hc
  simp only [decide_eq_true_eq]
  omega

/-- The places reached in the old and in the new text behind some changes. -/
structure Shifted (done : List Change) (p p' : Position) : Prop where
  filename : p'.filename = p.filename
  line : p'.line = p.line
  offset : p'.offset + oldBytes done = p.offset + newBytes done
  column : p'.column + oldColumns (onLine p.line done) =
    p.column + newColumns (onLine p.line done)
  passed : ∀ c ∈ done, c.token.position.offset < p.offset ∧ c.token.position.line ≤ p.line

namespace Shifted

variable {done : List Change} {p p' : Position}

theorem refl (p : Position) : Shifted [] p p :=
  ⟨rfl, rfl, rfl, rfl, by simp⟩

theorem next (h : Shifted done p p') (c : Char) : Shifted done (p.next c) (p'.next c) := by
  have hoffset := h.offset
  have hline := h.line
  have hsize := c.utf8Size_pos
  by_cases hc : c = '\n'
  · have hnone : onLine (p.line + 1) done = [] :=
      onLine_eq_nil fun d hd => Nat.lt_succ_of_le (h.passed d hd).2
    simp only [Position.next, hc, if_true] at hsize ⊢
    refine ⟨h.filename, by simp only; omega, by simp only; omega, by rw [hnone]; rfl, ?_⟩
    intro d hd
    obtain ⟨before, above⟩ := h.passed d hd
    simp only
    omega
  · have hcolumn := h.column
    simp only [Position.next, hc, if_false]
    refine ⟨h.filename, hline, by simp only; omega, by simp only; omega, ?_⟩
    intro d hd
    obtain ⟨before, above⟩ := h.passed d hd
    simp only
    omega

theorem advance (h : Shifted done p p') (cs : List Char) :
    Shifted done (p.advance cs) (p'.advance cs) := by
  induction cs generalizing p p' with
  | nil => exact h
  | cons c cs ih => exact ih (h.next c)

end Shifted

end Change

theorem Position.line_le_advance (p : Position) (cs : List Char) : p.line ≤ (p.advance cs).line := by
  induction cs generalizing p with
  | nil => exact Nat.le_refl _
  | cons c cs ih =>
    refine Nat.le_trans ?_ (ih (p.next c))
    unfold next
    split <;> simp

theorem Position.advance_of_notMem {cs : List Char} (h : '\n' ∉ cs) (p : Position) :
    p.advance cs = ⟨p.filename, p.offset + Text.byteLength cs, p.line, p.column + cs.length⟩ := by
  induction cs generalizing p with
  | nil => rfl
  | cons c cs ih =>
    obtain ⟨hc, hcs⟩ : ¬ '\n' = c ∧ '\n' ∉ cs := by simpa using h
    have hc : c ≠ '\n' := fun e => hc e.symm
    rw [advance_cons, ih hcs]
    simp only [next, hc, if_false, Text.byteLength, List.length_cons, Nat.add_assoc,
      Nat.add_comm 1]

namespace Change.Shifted

variable {done : List Change} {p p' : Position}

private theorem passed_snoc {c : Change} {cs : List Char} (h : Shifted done p p')
    (here : c.token.position = p) (nonempty : 0 < Text.byteLength cs) :
    ∀ d ∈ done ++ [c], d.token.position.offset < (p.advance cs).offset ∧
      d.token.position.line ≤ (p.advance cs).line := by
  have hoffset := p.offset_advance cs
  have hline := p.line_le_advance cs
  intro d hd
  rcases List.mem_append.1 hd with hd | hd
  · obtain ⟨before, above⟩ := h.passed d hd
    omega
  · obtain rfl : d = c := by simpa using hd
    rw [here]
    omega

private theorem sums_append (done : List Change) (c : Change) :
    oldBytes (done ++ [c]) = oldBytes done + c.token.text.utf8ByteSize ∧
      newBytes (done ++ [c]) = newBytes done + c.text.utf8ByteSize ∧
      oldColumns (done ++ [c]) = oldColumns done + c.token.text.length ∧
      newColumns (done ++ [c]) = newColumns done + c.text.length := by
  simp [oldBytes, newBytes, oldColumns, newColumns]

theorem keep (h : Shifted done p p') {t : Token} (here : t.position = p)
    (nonempty : t.text.toList ≠ []) :
    Shifted (done ++ [⟨t, t.text⟩]) (p.advance t.text.toList) (p'.advance t.text.toList) := by
  have hmove := h.advance t.text.toList
  have hpos : 0 < Text.byteLength t.text.toList := by
    obtain ⟨c, cs, hcs⟩ := List.exists_cons_of_ne_nil nonempty
    have := c.utf8Size_pos
    rw [hcs, Text.byteLength]
    omega
  obtain ⟨hold, hnew, -, -⟩ := sums_append done ⟨t, t.text⟩
  refine ⟨hmove.filename, hmove.line, ?_, ?_, passed_snoc h here hpos⟩
  · have := hmove.offset
    rw [hold, hnew]
    simp only
    omega
  · have hcolumn := hmove.column
    rw [onLine_append]
    by_cases hline : t.position.line = (p.advance t.text.toList).line
    · have hone : onLine (p.advance t.text.toList).line [⟨t, t.text⟩] = [⟨t, t.text⟩] := by
        simp [onLine, hline]
      obtain ⟨-, -, hold, hnew⟩ :=
        sums_append (onLine (p.advance t.text.toList).line done) ⟨t, t.text⟩
      rw [hone, hold, hnew]
      simp only
      omega
    · have hnone : onLine (p.advance t.text.toList).line [⟨t, t.text⟩] = [] := by
        simp [onLine, hline]
      rw [hnone, List.append_nil]
      exact hcolumn

theorem replace (h : Shifted done p p') {t : Token} {text : String} (here : t.position = p)
    (nonempty : t.text.toList ≠ []) (line : '\n' ∉ t.text.toList) (line' : '\n' ∉ text.toList) :
    Shifted (done ++ [⟨t, text⟩]) (p.advance t.text.toList) (p'.advance text.toList) := by
  have hpos : 0 < Text.byteLength t.text.toList := by
    obtain ⟨c, cs, hcs⟩ := List.exists_cons_of_ne_nil nonempty
    have := c.utf8Size_pos
    rw [hcs, Text.byteLength]
    omega
  have hpassed := passed_snoc (c := ⟨t, text⟩) h here hpos
  obtain ⟨hold, hnew, -, -⟩ := sums_append done ⟨t, text⟩
  have hbytes := Text.utf8ByteSize_ofList t.text.toList
  have hbytes' := Text.utf8ByteSize_ofList text.toList
  rw [String.ofList_toList] at hbytes hbytes'
  rw [Position.advance_of_notMem line] at hpassed ⊢
  rw [Position.advance_of_notMem line']
  have hoffset := h.offset
  have hcolumn := h.column
  refine ⟨h.filename, h.line, ?_, ?_, hpassed⟩
  · rw [hold, hnew, hbytes, hbytes']
    simp only
    omega
  · have hone : onLine p.line [⟨t, text⟩] = [⟨t, text⟩] := by simp [onLine, here]
    obtain ⟨-, -, hold, hnew⟩ := sums_append (onLine p.line done) ⟨t, text⟩
    simp only
    rw [onLine_append, hone, hold, hnew]
    simp only [String.length_toList]
    omega

theorem shift_eq (h : Shifted done p p') {todo : List Change}
    (ahead : ∀ c ∈ todo, p.offset ≤ c.token.position.offset) :
    shift (done ++ todo) p = p' := by
  have hbefore : (done ++ todo).filter (·.token.position.offset < p.offset) = done := by
    rw [List.filter_append]
    have hdone : done.filter (·.token.position.offset < p.offset) = done := by
      rw [List.filter_eq_self]
      intro c hc
      simpa using (h.passed c hc).1
    have htodo : todo.filter (·.token.position.offset < p.offset) = [] := by
      rw [List.filter_eq_nil_iff]
      intro c hc
      simpa using ahead c hc
    rw [hdone, htodo, List.append_nil]
  have hoffset : p.offset + newBytes done - oldBytes done = p'.offset := by
    rw [← h.offset, Nat.add_sub_cancel]
  have hcolumn : p.column + newColumns (onLine p.line done) - oldColumns (onLine p.line done) =
      p'.column := by
    rw [← h.column, Nat.add_sub_cancel]
  unfold shift
  simp only [hbefore]
  rw [hoffset, hcolumn, ← h.filename, ← h.line]

end Change.Shifted

theorem Scan.newline_notMem_of_isIdentifier {text : List Char} (word : isIdentifier text = true) :
    '\n' ∉ text := by
  cases text with
  | nil => simp
  | cons c cs =>
    obtain ⟨hc, hcs⟩ : isWordStart c = true ∧ ∀ d ∈ cs, isWordPart d = true := by
      simpa [isIdentifier] using word
    intro hmem
    rcases List.mem_cons.1 hmem with rfl | hmem
    · simp [isWordStart] at hc
    · have := hcs _ hmem
      simp [isWordPart] at this

namespace Change

/-- The changes that turn lexemes into others, token by token. -/
def between (ls ls' : List Lexeme) : List Change :=
  List.zipWith (fun l l' => ⟨l.token, l'.token.text⟩) ls ls'

theorem mem_tokens_of_mem_between {ls ls' : List Lexeme} {c : Change} (h : c ∈ between ls ls') :
    ∃ l ∈ ls, c.token = l.token := by
  induction ls generalizing ls' with
  | nil => simp [between] at h
  | cons l ls ih =>
    cases ls' with
    | nil => simp [between] at h
    | cons l' ls' =>
      rcases List.mem_cons.1 h with rfl | h
      · exact ⟨l, by simp, rfl⟩
      · obtain ⟨m, hm, he⟩ := ih h
        exact ⟨m, by simp [hm], he⟩

/-- Lexemes with other identifiers, at the places that the changes give, are placed as a text that
is written with them; and the end of the old text is found at the end of that text. -/
theorem Shifted.placed {x : Lexer} {ls ls' : List Lexeme} {trail : List Char}
    {done cs : List Change} {p' : Position} (h : Lexer.Tiles x ls trail)
    (rewords : List.Forall₂ Lexeme.Rewords ls ls') (reached : Shifted done x.position p')
    (changes : cs = done ++ between ls ls')
    (moved : ls'.map (·.token.position) = ls.map (shift cs ·.token.position)) :
    Lexeme.Placed p' ls' ∧
      shift cs (x.position.advance x.rest) = p'.advance (Lexeme.spelled ls' ++ trail) := by
  induction h generalizing ls' done p' with
  | @finished x hgap =>
    cases rewords
    have none : ∀ c ∈ ([] : List Change), (x.position.advance x.rest).offset ≤
        c.token.position.offset := by simp
    rw [changes]
    exact ⟨trivial, (reached.advance x.rest).shift_eq none⟩
  | @lexeme x after l ls trail hl others ih =>
    have tiles : Lexer.Tiles x (l :: ls) trail := .lexeme hl others
    cases rewords with
    | @cons _ l' _ ls' hw hws =>
      obtain ⟨here, moved⟩ := List.cons.inj moved
      have hgap : Shifted done l.token.position (p'.advance l.gap) := by
        rw [hl.here]
        exact reached.advance l.gap
      have ahead : ∀ c ∈ between (l :: ls) (l' :: ls'),
          l.token.position.offset ≤ c.token.position.offset := by
        intro c hc
        obtain ⟨m, hm, he⟩ := mem_tokens_of_mem_between hc
        rw [he]
        rcases List.mem_cons.1 hm with rfl | hm
        · exact Nat.le_refl _
        · have hle := others.placed.le_offset m hm
          have hthere := hl.there
          rw [Lexeme.chars, Position.advance_append, ← hl.here] at hthere
          have := l.token.position.offset_advance l.token.text.toList
          rw [hthere] at hle
          omega
      have hplace := hgap.shift_eq ahead
      rw [← changes] at hplace
      have hnonempty := tiles.text_ne_nil l (by simp)
      have hstep : Shifted (done ++ [⟨l.token, l'.token.text⟩]) after.position
          (p'.advance l'.chars) := by
        rw [hl.there, Lexeme.chars, Lexeme.chars, Position.advance_append,
          Position.advance_append, ← hl.here, hw.gap]
        rcases hw.text with he | ⟨hkind, hword'⟩
        · rw [he]
          exact hgap.keep rfl hnonempty
        · have hword := tiles.isIdentifier l (by simp) hkind
          exact hgap.replace rfl hnonempty (Scan.newline_notMem_of_isIdentifier hword)
            (Scan.newline_notMem_of_isIdentifier hword')
      obtain ⟨hplaced, hend⟩ := ih hws hstep (by rw [changes, List.append_assoc]; rfl) moved
      refine ⟨⟨?_, hplaced⟩, ?_⟩
      · rw [hw.gap]
        exact here.trans hplace
      · have hrest := tiles.rest_eq
        rw [hrest, Lexeme.spelled_cons, Lexeme.spelled_cons, List.append_assoc, List.append_assoc,
          Position.advance_append, Position.advance_append p', ← hl.there, ← others.rest_eq]
        exact hend

theorem shift_start (cs : List Change) (filename : String) :
    shift cs (.start filename) = .start filename := by
  have hnone : cs.filter (·.token.position.offset < (Position.start filename).offset) = [] := by
    rw [List.filter_eq_nil_iff]
    intro c _
    simp [Position.start]
  unfold shift
  simp only [hnone]
  rfl

end Change

end SchemaLint
