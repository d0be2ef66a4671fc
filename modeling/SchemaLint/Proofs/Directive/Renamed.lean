import SchemaLint.Proofs.Directive.Gap
import SchemaLint.Proofs.Parse.File

/-!
# Directives in a renamed file

Every identifier of a declared name stands behind a gap, a point or a mark that begins or ends
something.  So the directives of a file say the same when its declarations are renamed.
-/

set_option autoImplicit false
set_option relaxedAutoImplicit false

namespace SchemaLint

open Piece (flat allRenamed)

namespace Directive

variable {filename ruleId : String} {text trail : List Char} {as ls ls' : List Lexeme}

theorem isWord_of_isIdentifier {word : List Char} (h : Scan.isIdentifier word = true) :
    IsWord word := by
  cases word with
  | nil => simp [Scan.isIdentifier] at h
  | cons c cs =>
    obtain ⟨hc, hcs⟩ : Scan.isWordStart c = true ∧ ∀ d ∈ cs, Scan.isWordPart d = true := by
      simpa [Scan.isIdentifier] using h
    exact ⟨List.cons_ne_nil c cs,
      List.forall_mem_cons.2 ⟨Scan.isWordPart_of_isWordStart hc, hcs⟩⟩

theorem covered_reword (isId : ∀ c ∈ ruleId.toList, Scan.isWordPart c = true)
    (tiles : Lexer.Tiles (Lexer.start filename text) (as ++ ls) trail)
    (rewords : List.Forall₂ Lexeme.Rewords ls ls')
    (borders : ∀ n l l', ls[n]? = some l → ls'[n]? = some l' → l'.token.text ≠ l.token.text →
      ∀ m ∈ (as ++ ls.take n).getLast?, Borders m.token) :
    covered ruleId (Lexeme.spelled as ++ (Lexeme.spelled ls' ++ trail)) =
      covered ruleId (Lexeme.spelled as ++ (Lexeme.spelled ls ++ trail)) := by
  induction rewords generalizing as with
  | nil => rfl
  | @cons l l' ls ls' hl others ih =>
    have hothers : covered ruleId (Lexeme.spelled (as ++ [l]) ++ (Lexeme.spelled ls' ++ trail)) =
        covered ruleId (Lexeme.spelled (as ++ [l]) ++ (Lexeme.spelled ls ++ trail)) := by
      refine ih (by simpa using tiles) fun n k k' hk hk' hne => ?_
      have := borders (n + 1) k k' (by simpa using hk) (by simpa using hk') hne
      simpa using this
    have hfirst : covered ruleId (Lexeme.spelled as ++ (l'.chars ++ (Lexeme.spelled ls' ++ trail))) =
        covered ruleId (Lexeme.spelled as ++ (l.chars ++ (Lexeme.spelled ls' ++ trail))) := by
      unfold Lexeme.chars
      rw [hl.gap]
      by_cases hsame : l'.token.text = l.token.text
      · rw [hsame]
      · obtain ⟨hkind, hword'⟩ := hl.text.resolve_left hsame
        have hword := tiles.isIdentifier l (by simp) hkind
        have hborders := borders 0 l l' rfl rfl hsame
        rw [List.take_zero, List.append_nil] at hborders
        have hshielded := shielded_spelled tiles hkind hborders
        have := covered_shielded hshielded (isWord_of_isIdentifier hword')
          (isWord_of_isIdentifier hword) isId (Lexeme.spelled ls' ++ trail)
        simpa using this
    simp only [Lexeme.spelled_append, Lexeme.spelled_cons, Lexeme.spelled_nil, List.append_nil,
      List.append_assoc] at hothers ⊢
    rw [hfirst, hothers]

private theorem borders_of_endsStatement {t : Token} (h : SourceText.endsStatement t = true) :
    Borders t := by
  simp only [SourceText.endsStatement, Bool.or_eq_true] at h
  rcases h with (h | h) | h
  · exact .inr ⟨_, by decide, by decide, h⟩
  · exact .inr ⟨_, by decide, by decide, h⟩
  · exact .inr ⟨_, by decide, by decide, h⟩

private theorem borders_of_isWord {t : Token} {word : String} (h : t.isWord word = true) :
    Borders t :=
  .inl (Token.kind_of_isWord h)

theorem borders_of_allIntroduced {ps bs cs : List Piece} {d : Declaration} {run us vs : List Lexeme}
    {l : Lexeme} (introduced : Piece.AllIntroduced ps) (split : ps = bs ++ .name d run :: cs)
    (inner : run = us ++ l :: vs) (word : l.token.kind = .identifier) :
    ∀ m ∈ (flat bs ++ us).getLast?, Borders m.token := by
  obtain ⟨lead, before, hlead, ⟨hplace, ⟨names, hspells, -⟩, -⟩, hbegins⟩ :=
    introduced bs d run cs split
  generalize flat cs = after at hplace
  intro m hm
  rcases hspells.point_before inner word with rfl | ⟨point, hpoint, hjoins⟩
  · rw [List.append_nil, hlead, List.getLast?_append] at hm
    cases hplace with
    | package keyword =>
      obtain rfl : _ = m := by simpa using hm
      exact borders_of_isWord keyword
    | keyword _ keyword =>
      obtain rfl : _ = m := by simpa using hm
      exact borders_of_isWord keyword
    | assigned _ _ type =>
      obtain rfl : _ = m := by simpa using hm
      rcases type with hkind | hclose
      · exact .inl hkind
      · exact .inr ⟨'>', by decide, by decide, hclose⟩
    | leading => exact borders_of_endsStatement (hbegins rfl m (by simpa using hm))
  · rw [List.getLast?_append, hpoint] at hm
    obtain rfl : point = m := by simpa using hm
    exact .inr ⟨'.', by decide, by decide, hjoins⟩

end Directive

theorem SchemaFile.ReadFrom.covered_allRenamed {filename ruleId : String} {text trail : List Char}
    {file : SchemaFile} {ps : List Piece} {r : Renaming} (h : ReadFrom filename text file ps trail)
    (wordy : Piece.Rewordable r ps) (isId : ∀ c ∈ ruleId.toList, Scan.isWordPart c = true) :
    Directive.covered ruleId (Lexeme.spelled (allRenamed r ps) ++ trail) =
      Directive.covered ruleId text := by
  have hwhole : text = Lexeme.spelled (flat ps) ++ trail := h.tiles.rest_eq
  have hsame := @Directive.covered_reword filename ruleId text trail [] (flat ps) (allRenamed r ps)
    isId h.tiles wordy.rewords
  rw [Lexeme.spelled_nil, List.nil_append, List.nil_append, ← hwhole] at hsame
  refine hsame fun n l l' hl hl' hne => ?_
  obtain ⟨bs, d, run, cs, us, vs, hsplit, hinner, htake, hword, -⟩ := Piece.exists_name r hl hl' hne
  rw [List.nil_append, htake]
  exact Directive.borders_of_allIntroduced h.unfolds.introduced hsplit hinner hword

end SchemaLint
