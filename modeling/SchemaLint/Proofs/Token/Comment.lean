import Mathlib.Logic.Relation
import SchemaLint.Proofs.Token.Exact

/-!
# The comments of a text

A text is passed over piece by piece in one way only.  So of two places between its pieces the later
is reached from the earlier, and no line has two comments that end with it.
-/

set_option autoImplicit false
set_option relaxedAutoImplicit false

namespace SchemaLint

namespace Scan

/-- A text, and what is left of it behind the blank, comment or token at its beginning. -/
inductive Passes : List Char → List Char → Prop
  | filler {first after : List Char} (filler : Filler first after) : Passes (first ++ after) after
  | token {kind : TokenKind} {text after : List Char} (token : IsToken kind text after) :
      Passes (text ++ after) after

theorem Filler.ne_nil {first after : List Char} (h : Filler first after) : first ≠ [] := by
  cases h <;> simp

theorem Filler.unique {first after first' after' : List Char} (h : Filler first after)
    (h' : Filler first' after') (same : first ++ after = first' ++ after') : after = after' := by
  have hblank : ∀ c, Text.isBlank c = true → c ≠ '/' := by
    rintro c hc rfl
    exact absurd hc (by decide)
  cases h with
  | blank hc =>
    cases h' with
    | blank => exact (List.cons.inj same).2
    | line => exact absurd (List.cons.inj same).1 (hblank _ hc)
    | block => exact absurd (List.cons.inj same).1 (hblank _ hc)
  | @line content _ single ends =>
    cases h' with
    | blank hc => exact absurd (List.cons.inj same).1.symm (hblank _ hc)
    | @line content' _ single' ends' =>
      have hrest : content ++ after = content' ++ after' := by simpa using same
      rw [← (line_cut single ends).2, ← (line_cut single' ends').2, hrest]
    | block => simp at same
  | @block content _ first =>
    cases h' with
    | blank hc => exact absurd (List.cons.inj same).1.symm (hblank _ hc)
    | line => simp at same
    | @block content' _ first' =>
      have hrest : content ++ ['*', '/'] ++ after = content' ++ ['*', '/'] ++ after' := by
        simpa using same
      have hclose := closeComment?_eq_some_iff.2
        ⟨content, rfl, (rfl : content ++ ['*', '/'] ++ after = _), first⟩
      have hclose' := closeComment?_eq_some_iff.2
        ⟨content', rfl, (rfl : content' ++ ['*', '/'] ++ after' = _), first'⟩
      rw [hrest, hclose'] at hclose
      exact (Prod.mk.inj (Option.some.inj hclose)).2.symm

theorem Filler.not_token {first after text after' : List Char} {kind : TokenKind}
    (h : Filler first after) (h' : IsToken kind text after') (same : first ++ after = text ++ after') :
    False := by
  have hgap := gap_filler h
  rw [same, gap_of_endsGap h'.endsGap_append] at hgap
  have htaken : [] = first ++ (gap after).taken := congrArg Gap.taken hgap
  exact h.ne_nil (List.append_eq_nil_iff.1 htaken.symm).1

theorem passes_unique : Relator.RightUnique Passes := by
  intro cs ds es hds hes
  generalize hcs : cs = cs' at hes
  cases hds with
  | filler filler =>
    cases hes with
    | filler filler' => exact filler.unique filler' hcs
    | token token => exact (filler.not_token token hcs).elim
  | token token =>
    cases hes with
    | filler filler => exact (filler.not_token token hcs.symm).elim
    | token token' =>
      have hhead := token.head_append
      rw [hcs, token'.head_append] at hhead
      exact (Head.token.inj hhead).2.2.symm

open Relation (ReflTransGen)

theorem exists_append_of_passes {cs ds : List Char} (h : ReflTransGen Passes cs ds) :
    ∃ passed, cs = passed ++ ds := by
  induction h with
  | refl => exact ⟨[], rfl⟩
  | tail _ step ih =>
    obtain ⟨passed, rfl⟩ := ih
    cases step with
    | @filler first => exact ⟨passed ++ first, by simp⟩
    | @token _ text => exact ⟨passed ++ text, by simp⟩

theorem passes_spacing {spacing after : List Char} (h : Spacing spacing after) :
    ReflTransGen Passes (spacing ++ after) after := by
  induction h with
  | nil => exact .refl
  | cons filler _ ih =>
    rw [List.append_assoc]
    exact .head (.filler filler) ih

end Scan

open Scan (Spacing Filler IsToken Passes)
open Relation (ReflTransGen)

namespace Lexeme

theorem Fits.passes {ls : List Lexeme} {after : List Char} (h : Fits ls after) :
    ReflTransGen Passes (spelled ls ++ after) after := by
  induction ls with
  | nil => exact .refl
  | cons l ls ih =>
    obtain ⟨hspacing, htoken, hfits⟩ := h
    rw [spelled_cons, chars, List.append_assoc, List.append_assoc]
    exact (Scan.passes_spacing hspacing).trans (.head (.token htoken) (ih hfits))

/-- Whether a text has a seam between two parts of it: whole tokens, blanks and comments make up the
first part, and none of them goes on in the second. -/
def Seam (front rest : List Char) : Prop :=
  ∃ ls gap, front = spelled ls ++ gap ∧ Fits ls (gap ++ rest) ∧ Spacing gap rest

theorem Seam.passes {front rest : List Char} (h : Seam front rest) :
    ReflTransGen Passes (front ++ rest) rest := by
  obtain ⟨ls, gap, rfl, hfits, hspacing⟩ := h
  rw [List.append_assoc]
  exact hfits.passes.trans (Scan.passes_spacing hspacing)

theorem seam_of_read {filename : String} {text : List Char} {ls ms : List Lexeme}
    {fault : Option LexError} (read : (Lexer.start filename text).read = ⟨ls ++ ms, fault⟩)
    {gap rest : List Char} (whole : text = spelled ls ++ (gap ++ rest)) (spacing : Spacing gap rest) :
    Seam (spelled ls ++ gap) rest := by
  obtain ⟨after, hafter, hfits, -, -⟩ := Lexer.read_eq_iff_fits.1 read
  have htext : text = spelled ls ++ (spelled ms ++ after) := by
    rw [← List.append_assoc, ← spelled_append]
    exact hafter
  have hrest : gap ++ rest = spelled ms ++ after := List.append_cancel_left (whole.symm.trans htext)
  refine ⟨ls, gap, rfl, ?_, spacing⟩
  rw [hrest]
  exact (fits_append.1 hfits).1

theorem Seam.not_within {front x y after : List Char} {kind : TokenKind}
    (h : Seam front (x ++ y ++ after)) (token : IsToken kind (x ++ y) after) (hx : x ≠ [])
    (hy : y ≠ []) : ¬Seam (front ++ x) (y ++ after) := by
  intro hwithin
  have hlength := List.length_pos_iff.2 hx
  have hlength' := List.length_pos_iff.2 hy
  have hpasses := hwithin.passes
  rw [List.append_assoc, ← List.append_assoc x] at hpasses
  rcases ReflTransGen.total_of_right_unique Scan.passes_unique h.passes hpasses with hmore | hmore
  · rcases hmore.cases_head with he | ⟨behind, step, more⟩
    · have := congrArg List.length he
      simp only [List.length_append] at this
      omega
    · obtain rfl := Scan.passes_unique step (.token token)
      obtain ⟨passed, hpassed⟩ := Scan.exists_append_of_passes more
      have := congrArg List.length hpassed
      simp only [List.length_append] at this
      omega
  · obtain ⟨passed, hpassed⟩ := Scan.exists_append_of_passes hmore
    have := congrArg List.length hpassed
    simp only [List.length_append] at this
    omega

end Lexeme

open Lexeme (Seam)

private theorem eq_of_passes {front rest front' rest' : List Char}
    (same : front ++ '/' :: '/' :: rest = front' ++ '/' :: '/' :: rest')
    (line : front.count '\n' = front'.count '\n')
    (passes : ReflTransGen Passes ('/' :: '/' :: rest) ('/' :: '/' :: rest')) : rest = rest' := by
  cases passes using ReflTransGen.head_induction_on with
  | refl => rfl
  | @head _ after step more =>
    have hcut := List.takeWhile_append_dropWhile (p := (· ≠ '\n')) (l := rest)
    have hcomment : Passes ('/' :: '/' :: rest) (rest.dropWhile (· ≠ '\n')) := by
      nth_rewrite 1 [← hcut]
      exact .filler (.line (Scan.newline_notMem_takeWhile rest) (Scan.dropWhile_line rest))
    obtain rfl := Scan.passes_unique step hcomment
    obtain ⟨passed, hpassed⟩ := Scan.exists_append_of_passes more
    obtain ⟨below, hbelow⟩ : ∃ below, passed = '\n' :: below := by
      rcases Scan.dropWhile_line rest with hnil | ⟨tail, htail⟩
      · rw [hnil] at hpassed
        simp at hpassed
      · rw [htail] at hpassed
        cases passed with
        | nil => simp at hpassed
        | cons c passed =>
          obtain ⟨rfl, -⟩ := List.cons.inj hpassed
          exact ⟨passed, rfl⟩
    have hfront : front' = front ++ '/' :: '/' :: rest.takeWhile (· ≠ '\n') ++ passed := by
      rw [← hcut, hpassed] at same
      refine (List.append_cancel_right (Eq.trans ?_ same)).symm
      simp
    rw [hfront, hbelow, List.count_append, List.count_cons_self] at line
    rw [List.count_append] at line
    omega

theorem Lexeme.Seam.rest_eq {front rest front' rest' : List Char}
    (h : Seam front ('/' :: '/' :: rest)) (h' : Seam front' ('/' :: '/' :: rest'))
    (same : front ++ '/' :: '/' :: rest = front' ++ '/' :: '/' :: rest')
    (line : front.count '\n' = front'.count '\n') : rest = rest' := by
  have hpasses := h'.passes
  rw [← same] at hpasses
  rcases ReflTransGen.total_of_right_unique Scan.passes_unique h.passes hpasses with hmore | hmore
  · exact eq_of_passes same line hmore
  · exact (eq_of_passes same.symm line.symm hmore).symm

/-- A comment on a line of a text, without its two slashes: it begins at a seam, and reaches to the end
of the line or of the text. -/
def LineComment (text : List Char) (line : Nat) (content : List Char) : Prop :=
  ∃ front after, text = front ++ '/' :: '/' :: (content ++ after) ∧
    Seam front ('/' :: '/' :: (content ++ after)) ∧ Filler ('/' :: '/' :: content) after ∧
      line = 1 + front.count '\n'

end SchemaLint
