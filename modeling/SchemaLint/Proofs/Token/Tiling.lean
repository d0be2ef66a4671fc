import Mathlib.Data.List.Forall2
import SchemaLint.Proofs.Text.Cut
import SchemaLint.Proofs.Token.Scan
import SchemaLint.Token.Lexer

/-!
# Lexemes and the text they were read from

The lexemes of a text with the gap at its end are the text.  Conversely a list of lexemes that was
read can be read again: from any of its tokens on, and with other identifiers in the place of some.
-/

set_option autoImplicit false
set_option relaxedAutoImplicit false

namespace SchemaLint

theorem Position.offset_advance (p : Position) (cs : List Char) :
    (p.advance cs).offset = p.offset + Text.byteLength cs := by
  induction cs generalizing p with
  | nil => rfl
  | cons c cs ih =>
    rw [advance_cons, ih]
    unfold next
    split <;> simp only [Text.byteLength] <;> omega

theorem Text.utf8ByteSize_ofList (cs : List Char) :
    (String.ofList cs).utf8ByteSize = byteLength cs := by
  induction cs with
  | nil => rfl
  | cons c cs ih =>
    have h : String.ofList (c :: cs) = String.singleton c ++ String.ofList cs := by
      apply String.toList_injective
      simp
    rw [h, String.utf8ByteSize_append, String.utf8ByteSize_singleton, ih]
    rfl

theorem Token.byteLength_text (t : Token) : Text.byteLength t.text.toList = t.text.utf8ByteSize := by
  rw [← Text.utf8ByteSize_ofList, String.ofList_toList]

namespace Lexeme

def chars (l : Lexeme) : List Char :=
  l.gap ++ l.token.text.toList

/-- Some lexemes as written, the first gap included. -/
def spelled (ls : List Lexeme) : List Char :=
  ls.flatMap chars

@[simp] theorem spelled_nil : spelled [] = [] := rfl

@[simp] theorem spelled_cons (l : Lexeme) (ls : List Lexeme) :
    spelled (l :: ls) = l.chars ++ spelled ls := rfl

@[simp] theorem spelled_append (ls ms : List Lexeme) :
    spelled (ls ++ ms) = spelled ls ++ spelled ms := List.flatMap_append

/-- Whether lexemes that are written from a position on know where they stand. -/
def Placed : Position → List Lexeme → Prop
  | _, [] => True
  | p, l :: ls => l.token.position = p.advance l.gap ∧ Placed (p.advance l.chars) ls

theorem placed_append {p : Position} {ls ms : List Lexeme} :
    Placed p (ls ++ ms) ↔ Placed p ls ∧ Placed (p.advance (spelled ls)) ms := by
  induction ls generalizing p with
  | nil => simp [Placed]
  | cons l ls ih => simp [Placed, ih, and_assoc]

theorem Placed.le_offset {p : Position} {ls : List Lexeme} (h : Placed p ls) :
    ∀ l ∈ ls, p.offset ≤ l.token.position.offset := by
  induction ls generalizing p with
  | nil => simp
  | cons l ls ih =>
    obtain ⟨here, others⟩ := h
    have hgap := p.offset_advance l.gap
    have hchars := p.offset_advance l.chars
    intro m hm
    rcases List.mem_cons.1 hm with rfl | hm
    · rw [here]
      omega
    · have := ih others m hm
      omega

/-- A lexeme with the same gap and a token of the same kind, which has the same text unless it is an
identifier. -/
structure Rewords (l l' : Lexeme) : Prop where
  gap : l'.gap = l.gap
  kind : l'.token.kind = l.token.kind
  text : l'.token.text = l.token.text ∨
    l.token.kind = .identifier ∧ Scan.isIdentifier l'.token.text.toList = true

end Lexeme

namespace Lexer

structure Takes (x : Lexer) (l : Lexeme) (after : Lexer) : Prop where
  gap : Scan.gap x.rest = ⟨l.gap, l.token.text.toList ++ after.rest, false⟩
  head : Scan.head (l.token.text.toList ++ after.rest) =
    .token l.token.kind l.token.text.toList after.rest
  here : l.token.position = x.position.advance l.gap
  there : after.position = x.position.advance l.chars

theorem next_eq_lexeme_iff {x after : Lexer} {l : Lexeme} :
    x.next = .lexeme l after ↔ x.Takes l after := by
  constructor
  · intro h
    simp only [next] at h
    split at h
    · simp at h
    · rename_i hopen
      split at h
      · simp at h
      · rename_i kind text rest hhead
        obtain ⟨rfl, rfl⟩ := Step.lexeme.inj h
        have happ := (Scan.head_token hhead).1
        constructor
        · simp only [String.toList_ofList, happ]
          rw [← Bool.eq_false_iff.2 hopen]
        · simpa only [String.toList_ofList, happ] using hhead
        · rfl
        · simp only [Lexeme.chars, String.toList_ofList, Position.advance_append]
      · simp at h
  · intro h
    simp only [next, h.gap, h.head, Bool.false_eq_true, if_false]
    rw [← h.here, String.ofList_toList]
    cases l with | mk gap token
    cases after with | mk rest position
    have hthere := h.there
    simp only [Lexeme.chars, Position.advance_append, ← h.here] at hthere
    rw [hthere]

/-- A lexer reads exactly these lexemes, and behind them only the gap at the end of the text. -/
inductive Tiles : Lexer → List Lexeme → List Char → Prop
  | finished {x : Lexer} (h : Scan.gap x.rest = ⟨x.rest, [], false⟩) : Tiles x [] x.rest
  | lexeme {x after : Lexer} {l : Lexeme} {ls : List Lexeme} {trail : List Char}
      (h : x.Takes l after) (others : Tiles after ls trail) : Tiles x (l :: ls) trail

theorem Takes.endsGap {x after : Lexer} {l : Lexeme} (h : x.Takes l after) :
    Scan.endsGap (l.token.text.toList ++ after.rest) = true := by
  have closed : (Scan.gap x.rest).isOpen = false := by rw [h.gap]
  have more : (Scan.gap x.rest).rest ≠ [] := by
    rw [h.gap]
    exact List.append_ne_nil_of_left_ne_nil (Scan.head_token h.head).2 _
  have := Scan.endsGap_rest_gap closed more
  rwa [h.gap] at this

theorem gap_of_finished {x after : Lexer} {gap : List Char}
    (h : x.next = .finished gap after) : Scan.gap x.rest = ⟨x.rest, [], false⟩ := by
  simp only [next] at h
  split at h
  · simp at h
  · rename_i hopen
    split at h
    · rename_i hhead
      have hnil : (Scan.gap x.rest).rest = [] := by
        cases hr : (Scan.gap x.rest).rest with
        | nil => rfl
        | cons c cs =>
          rw [hr] at hhead
          grind [Scan.head]
      have happ := Scan.gap_append x.rest
      rw [hnil, List.append_nil] at happ
      rw [Bool.not_eq_true] at hopen
      calc Scan.gap x.rest
        _ = ⟨(Scan.gap x.rest).taken, (Scan.gap x.rest).rest, (Scan.gap x.rest).isOpen⟩ := rfl
        _ = ⟨x.rest, [], false⟩ := by rw [happ, hnil, hopen]
    · simp at h
    · simp at h

theorem read_of_lexeme {x after : Lexer} {l : Lexeme} (h : x.next = .lexeme l after) :
    x.read = ⟨l :: after.read.lexemes, after.read.fault⟩ := by
  rw [read]
  split <;> simp_all

theorem read_of_finished {x after : Lexer} {gap : List Char}
    (h : x.next = .finished gap after) :
    x.read = ⟨[], none⟩ := by
  rw [read]
  split <;> simp_all

theorem read_of_failed {x after : Lexer} {e : LexError} (h : x.next = .failed e after) :
    x.read = ⟨[], some e⟩ := by
  rw [read]
  split <;> simp_all

theorem read_eq_iff {x : Lexer} {ls : List Lexeme} :
    x.read = ⟨ls, none⟩ ↔ ∃ trail, Tiles x ls trail := by
  constructor
  · intro h
    induction x using read.induct generalizing ls with
    | case1 x e after hnext =>
      rw [read_of_failed hnext] at h
      cases (Reading.mk.inj h).2
    | case2 x gap after hnext =>
      rw [read_of_finished hnext] at h
      obtain ⟨rfl, -⟩ := Reading.mk.inj h
      exact ⟨x.rest, .finished (gap_of_finished hnext)⟩
    | case3 x l after hnext ih =>
      rw [read_of_lexeme hnext] at h
      obtain ⟨rfl, hfault⟩ := Reading.mk.inj h
      obtain ⟨trail, htrail⟩ := ih (by rw [← hfault])
      exact ⟨trail, .lexeme (next_eq_lexeme_iff.1 hnext) htrail⟩
  · rintro ⟨trail, h⟩
    induction h with
    | @finished x h =>
      have hnext : x.next = .finished x.rest ⟨[], x.position.advance x.rest⟩ := by
        simp only [next, h]
        rfl
      exact read_of_finished hnext
    | lexeme h _ ih => rw [read_of_lexeme (next_eq_lexeme_iff.2 h), ih]

namespace Tiles

variable {x : Lexer} {ls : List Lexeme} {trail : List Char}

theorem rest_eq (h : Tiles x ls trail) : x.rest = Lexeme.spelled ls ++ trail := by
  induction h with
  | finished h => rfl
  | @lexeme x after l ls trail h _ ih =>
    have happ := Scan.gap_append x.rest
    rw [h.gap] at happ
    simp only [Lexeme.spelled_cons, Lexeme.chars, List.append_assoc, ← ih]
    exact happ.symm

theorem placed (h : Tiles x ls trail) : Lexeme.Placed x.position ls := by
  induction h with
  | finished h => trivial
  | lexeme h _ ih => exact ⟨h.here, h.there ▸ ih⟩

theorem text_ne_nil (h : Tiles x ls trail) : ∀ l ∈ ls, l.token.text.toList ≠ [] := by
  induction h with
  | finished h => simp
  | lexeme h _ ih =>
    intro m hm
    rcases List.mem_cons.1 hm with rfl | hm
    · exact (Scan.head_token h.head).2
    · exact ih m hm

theorem isIdentifier (h : Tiles x ls trail) :
    ∀ l ∈ ls, l.token.kind = .identifier → Scan.isIdentifier l.token.text.toList = true := by
  induction h with
  | finished h => simp
  | lexeme h _ ih =>
    intro m hm hkind
    rcases List.mem_cons.1 hm with rfl | hm
    · have hhead := h.head
      rw [hkind] at hhead
      exact (Scan.stops_of_head_identifier hhead).1
    · exact ih m hm hkind

theorem drop {ms : List Lexeme} (h : Tiles x (ls ++ ms) trail) :
    Tiles ⟨Lexeme.spelled ms ++ trail, x.position.advance (Lexeme.spelled ls)⟩ ms trail := by
  induction ls generalizing x with
  | nil =>
    have he := h.rest_eq
    rw [List.nil_append] at he h
    rw [← he]
    exact h
  | cons l ls ih =>
    cases h with
    | lexeme hl others =>
      have := ih others
      rw [hl.there, ← Position.advance_append] at this
      exact this

/-- Reading can set in at the beginning of a token; only the gap before it is lost. -/
theorem resume {l : Lexeme} (h : Tiles x (l :: ls) trail) :
    Tiles ⟨l.token.text.toList ++ (Lexeme.spelled ls ++ trail), l.token.position⟩
      ({ l with gap := [] } :: ls) trail := by
  cases h with
  | lexeme hl others =>
    rw [← others.rest_eq]
    refine .lexeme ⟨Scan.gap_of_endsGap hl.endsGap, hl.head, rfl, ?_⟩ others
    rw [hl.there, hl.here]
    simp [Lexeme.chars]

theorem cut {filename : String} {text : List Char} {ms : List Lexeme} {l : Lexeme}
    (h : Tiles (start filename text) (ls ++ l :: ms) trail) :
    text = Lexeme.spelled ls ++ l.gap ++ (l.token.text.toList ++ (Lexeme.spelled ms ++ trail)) ∧
      l.token.position.offset = Text.byteLength (Lexeme.spelled ls ++ l.gap) := by
  have hwhole := h.rest_eq
  have hplace := (Lexeme.placed_append.1 h.placed).2.1
  rw [← Position.advance_append] at hplace
  refine ⟨by simpa [start, Lexeme.chars] using hwhole, ?_⟩
  rw [hplace, Position.offset_advance]
  exact Nat.zero_add _

theorem alike {ls ls' : List Lexeme} (h : Tiles x ls trail)
    (rewords : List.Forall₂ Lexeme.Rewords ls ls') :
    Scan.Alike (Lexeme.spelled ls ++ trail) (Lexeme.spelled ls' ++ trail) := by
  cases rewords with
  | nil => exact .inl rfl
  | @cons l l' ls ls' hl others =>
    have hne := h.text_ne_nil l (by simp)
    have hword := h.isIdentifier l (by simp)
    simp only [Lexeme.spelled_cons, Lexeme.chars, List.append_assoc, hl.gap]
    cases hgap : l.gap with
    | cons c cs => exact .inl rfl
    | nil =>
      rcases hl.text with he | ⟨hkind, hword'⟩
      · obtain ⟨c, cs, htext⟩ := List.exists_cons_of_ne_nil hne
        rw [he, htext]
        exact .inl rfl
      · exact .inr ⟨Scan.any_isWordStart_of_isIdentifier (hword hkind) _,
          Scan.any_isWordStart_of_isIdentifier hword' _⟩

/-- A text with other identifiers in the place of some is read just so. -/
theorem reword {ls' : List Lexeme} {p : Position} (h : Tiles x ls trail)
    (rewords : List.Forall₂ Lexeme.Rewords ls ls') (placed : Lexeme.Placed p ls') :
    Tiles ⟨Lexeme.spelled ls' ++ trail, p⟩ ls' trail := by
  induction h generalizing ls' p with
  | finished hgap =>
    cases rewords
    exact .finished hgap
  | @lexeme x after l ls trail hl others ih =>
    cases rewords with
    | @cons _ l' _ ls' hw hws =>
      obtain ⟨here, placed⟩ := placed
      have go_on := others.alike hws
      rw [← others.rest_eq] at go_on
      have ends : Scan.endsGap (l'.token.text.toList ++ (Lexeme.spelled ls' ++ trail)) = true := by
        rcases hw.text with he | ⟨-, hword⟩
        · rw [he]
          exact go_on.endsGap (Scan.head_token hl.head).2 hl.endsGap
        · exact Scan.endsGap_identifier hword _
      have taken : Takes ⟨Lexeme.spelled (l' :: ls') ++ trail, p⟩ l'
          ⟨Lexeme.spelled ls' ++ trail, p.advance l'.chars⟩ := by
        constructor
        · have closed : (Scan.gap x.rest).isOpen = false := by rw [hl.gap]
          have more : (Scan.gap x.rest).rest ≠ [] := by
            rw [hl.gap]
            exact List.append_ne_nil_of_left_ne_nil (Scan.head_token hl.head).2 _
          have := Scan.gap_taken_append closed more ends
          simp only [hl.gap, ← hw.gap] at this
          simpa only [Lexeme.spelled_cons, Lexeme.chars, List.append_assoc] using this
        · rcases hw.text with he | ⟨hkind, hword⟩
          · rw [hw.kind, he]
            exact Scan.head_text_append hl.head go_on
          · have hhead := hl.head
            rw [hkind] at hhead
            rw [hw.kind, hkind]
            exact Scan.head_identifier hword (go_on.stops (Scan.stops_of_head_identifier hhead).2)
        · exact here
        · rfl
      exact .lexeme taken (ih hws placed)

end Tiles

end Lexer

end SchemaLint
