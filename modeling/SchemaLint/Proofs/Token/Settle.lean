import SchemaLint.Proofs.Token.Exact

/-!
# Lexemes in another text

Whether lexemes may stand in a text depends on little of what stands behind them.  So they may be cut
out of one text and put into another, where they only have other places.
-/

set_option autoImplicit false
set_option relaxedAutoImplicit false

namespace SchemaLint

namespace Scan

/-- Whether a text goes on like another one, or with a blank, or not at all. -/
def Milder (after after' : List Char) : Prop :=
  ∀ d ∈ after'.head?, Text.isBlank d = true ∨ d ∈ after.head?

theorem goesOn_of_isBlank {isHex : Bool} {before c : Char} (h : Text.isBlank c = true) :
    goesOn isHex before c = false := by
  have hpart : isWordPart c = false := by
    rw [← Bool.not_eq_true]
    intro hpart
    rw [isBlank_of_isWordPart hpart] at h
    cases h
  simp only [isWordPart, Bool.or_eq_false_iff, decide_eq_false_iff_not] at hpart
  have hmark : c ≠ '.' ∧ c ≠ '+' ∧ c ≠ '-' := by
    refine ⟨?_, ?_, ?_⟩ <;>
    · rintro rfl
      exact absurd h (by decide)
  simp [goesOn, hpart, hmark]

theorem Milder.stops {after after' : List Char} (milder : Milder after after')
    {P : Char → Prop} (blank : ∀ d, Text.isBlank d = true → P d)
    (stops : ∀ d ∈ after.head?, P d) : ∀ d ∈ after'.head?, P d := by
  intro d hd
  rcases milder d hd with hblank | hd
  · exact blank d hblank
  · exact stops d hd

theorem IsToken.milder {kind : TokenKind} {text after after' : List Char}
    (h : IsToken kind text after) (milder : Milder after after') : IsToken kind text after' := by
  have part : ∀ d, Text.isBlank d = true → isWordPart d = false := by
    intro d hd
    have hgoes := @goesOn_of_isBlank false d d hd
    simp only [goesOn, Bool.or_eq_false_iff] at hgoes
    simp [isWordPart, hgoes]
  cases h with
  | identifier word stops => exact .identifier word (milder.stops part stops)
  | number begins parts stops =>
    exact .number begins parts fun b hb =>
      milder.stops (fun d hd => goesOn_of_isBlank hd) (stops b hb)
  | string opens quoted => exact .string opens quoted
  | symbol mark alone point slash =>
    refine .symbol mark alone (fun hc => milder.stops (fun d hd => ?_) (point hc))
      (fun hc => milder.stops (fun d hd => ?_) (slash hc))
    · rw [← Bool.not_eq_true]
      intro hdigit
      exact absurd (part d hd) (by simp [isWordPart_of_isDigit hdigit])
    · refine ⟨?_, ?_⟩ <;>
      · rintro rfl
        exact absurd hd (by decide)

theorem Spacing.congr {spacing after after' : List Char} (h : Spacing spacing after)
    (same : after'.head? = after.head?) : Spacing spacing after' := by
  induction h with
  | nil => exact .nil
  | @cons first others after filler _ ih =>
    refine .cons ?_ (ih same)
    have hhead : (others ++ after').head? = (others ++ after).head? := by
      simp [List.head?_append, same]
    cases filler with
    | blank blank => exact .blank blank
    | block first => exact .block first
    | line single ends =>
      refine .line single ?_
      rcases ends with hnil | ⟨below, hbelow⟩
      · rw [hnil] at hhead
        exact .inl (List.head?_eq_none_iff.1 hhead)
      · rw [hbelow] at hhead
        obtain ⟨tail, htail⟩ := List.head?_eq_some_iff.1 hhead
        exact .inr ⟨tail, htail⟩

end Scan

namespace Lexeme

open Scan (Spacing)

theorem Fits.milder {ls : List Lexeme} {after after' : List Char} (h : Fits ls after)
    (milder : Scan.Milder after after') : Fits ls after' := by
  induction ls with
  | nil => trivial
  | cons l ls ih =>
    obtain ⟨hspacing, htoken, hothers⟩ := h
    obtain ⟨c, cs, htext⟩ := List.exists_cons_of_ne_nil htoken.ne_nil
    refine ⟨hspacing.congr (by simp [htext]), htoken.milder fun d hd => ?_, ih hothers⟩
    cases hrow : spelled ls with
    | nil =>
      rw [hrow] at hd
      exact milder d hd
    | cons e row =>
      rw [hrow] at hd
      exact .inr hd

/-- Lexemes that are placed anew, from a position on. -/
def settle : Position → List Lexeme → List Lexeme
  | _, [] => []
  | p, l :: ls =>
    ⟨l.gap, ⟨l.token.kind, l.token.text, p.advance l.gap⟩⟩ :: settle (p.advance l.chars) ls

variable (p : Position) (ls : List Lexeme)

theorem spelled_settle : spelled (settle p ls) = spelled ls := by
  induction ls generalizing p with
  | nil => rfl
  | cons l ls ih =>
    rw [settle, spelled_cons, spelled_cons, ih]
    rfl

theorem placed_settle : Placed p (settle p ls) := by
  induction ls generalizing p with
  | nil => trivial
  | cons l ls ih => exact ⟨rfl, ih _⟩

theorem fits_settle {after : List Char} : Fits (settle p ls) after ↔ Fits ls after := by
  induction ls generalizing p with
  | nil => exact Iff.rfl
  | cons l ls ih =>
    simp only [settle, Fits, spelled_settle, ih]

theorem Fits.behind_semicolon {ls : List Lexeme} {semi : Lexeme} {after : List Char}
    (h : Fits (ls ++ [semi]) after) (ends : semi.token.isSymbol ';' = true) (after' : List Char) :
    Fits (ls ++ [semi]) after' := by
  obtain ⟨hkind, htext⟩ : semi.token.kind = .symbol ∧ semi.token.text.toList = [';'] := by
    simpa [Token.isSymbol] using ends
  rw [fits_append] at h ⊢
  obtain ⟨hls, hspacing, -⟩ := h
  obtain ⟨c, cs, hchars⟩ : ∃ c cs, semi.chars = c :: cs :=
    List.exists_cons_of_ne_nil (by simp [chars, htext])
  refine ⟨hls.milder fun d hd => .inr ?_, hspacing.congr (by simp [htext]), ?_, trivial⟩
  · simpa [hchars] using hd
  · rw [hkind, htext]
    exact .symbol (by decide) (by decide) (by simp) (by simp)

end Lexeme

open Lexeme (spelled Fits Placed)

/-- A lexer reads the lexemes at the front of its text, and then what stands behind them. -/
theorem Lexer.read_append {p : Position} {ls : List Lexeme} {after : List Char}
    (fits : Fits ls after) (placed : Placed p ls) :
    ∃ more : Reading, (⟨spelled ls ++ after, p⟩ : Lexer).read = ⟨ls ++ more.lexemes, more.fault⟩ := by
  induction ls generalizing p with
  | nil => exact ⟨_, rfl⟩
  | cons l ls ih =>
    obtain ⟨hspacing, htoken, hfits⟩ := fits
    obtain ⟨hhere, hplaced⟩ := placed
    obtain ⟨more, hmore⟩ := ih hfits hplaced
    have htakes : Takes ⟨spelled (l :: ls) ++ after, p⟩ l ⟨spelled ls ++ after, p.advance l.chars⟩ :=
      takes_iff.2 ⟨by simp, hspacing, htoken, hhere, rfl⟩
    refine ⟨more, ?_⟩
    rw [read_of_lexeme (next_eq_lexeme_iff.2 htakes), hmore]
    rfl

namespace Lexeme

theorem rewords_settle {ls ls' : List Lexeme} (h : List.Forall₂ Rewords ls ls') (p p' : Position) :
    List.Forall₂ Rewords (settle p ls) (settle p' ls') := by
  induction h generalizing p p' with
  | nil => exact .nil
  | cons first others ih => exact .cons ⟨first.gap, first.kind, first.text⟩ (ih _ _)

theorem Fits.reword {ls ls' : List Lexeme} {semi : Lexeme} {after : List Char}
    (h : Fits (ls ++ [semi]) after) (ends : semi.token.isSymbol ';' = true)
    (rewords : List.Forall₂ Rewords ls ls') : Fits (ls' ++ [semi]) after := by
  let p : Position := .start ""
  have hrewords : List.Forall₂ Rewords (settle p (ls ++ [semi])) (settle p (ls' ++ [semi])) :=
    rewords_settle (List.rel_append rewords (.cons ⟨rfl, rfl, .inl rfl⟩ .nil)) p p
  have hread : (⟨spelled (settle p (ls ++ [semi])), p⟩ : Lexer).read =
      ⟨settle p (ls ++ [semi]), none⟩ :=
    Lexer.read_eq_iff_fits.2 ⟨[], by simp, (fits_settle _ _).2 (h.behind_semicolon ends []),
      placed_settle _ _, .nil⟩
  obtain ⟨trail, htiles⟩ := Lexer.read_eq_iff.1 hread
  obtain rfl : [] = trail := by simpa using htiles.rest_eq
  have hagain := Lexer.read_eq_iff.2 ⟨[], htiles.reword hrewords (placed_settle p _)⟩
  obtain ⟨rest, hrest, hfits, -, -⟩ := Lexer.read_eq_iff_fits.1 hagain
  obtain rfl : [] = rest := by simpa using hrest
  exact ((fits_settle _ _).1 hfits).behind_semicolon ends after

end Lexeme

end SchemaLint
