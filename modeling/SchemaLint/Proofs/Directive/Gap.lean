import SchemaLint.Proofs.Directive.Shield
import SchemaLint.Proofs.Edit.Splice
import SchemaLint.Proofs.Token.Shape

/-!
# Directives in a file with other names in it

The gap before an identifier shields it, when what stands before the gap is another identifier or
one of some punctuation characters.  So does every name of a declaration stand, and directives do
not depend on names.
-/

set_option autoImplicit false
set_option relaxedAutoImplicit false

namespace SchemaLint

namespace Directive

theorem Shielded.of_shields {before : List Char} (h : Shields before []) : Shielded before :=
  ⟨before, [], by simp, by simp, h⟩

theorem Shielded.blank {text : List Char} {c : Char} (h : Shielded text)
    (blank : Text.isBlank c = true) : Shielded (text ++ [c]) := by
  by_cases hc : c = '\n'
  · rw [hc]
    exact .of_shields .newline
  · obtain ⟨before, blanks, rfl, hblanks, hshields⟩ := h
    refine ⟨before, blanks ++ [c], by simp, ?_, ?_⟩
    · intro b hb
      rcases List.mem_append.1 hb with hb | hb
      · exact hblanks b hb
      · obtain rfl : b = c := by simpa using hb
        exact ⟨blank, hc⟩
    · cases hshields with
      | start => exact .start
      | newline => exact .newline
      | mark hmark hsolid => exact .mark hmark hsolid
      | comment => exact .comment
      | word hpart _ => exact .word hpart (by simp)

theorem shielded_word {text : List Char} {c : Char} (word : text.getLast?.any Scan.isWordPart = true)
    (blank : Text.isBlank c = true) : Shielded (text ++ [c]) := by
  by_cases hc : c = '\n'
  · rw [hc]
    exact .of_shields .newline
  · obtain ⟨d, hd, hpart⟩ := (Option.any_eq_true _ _).1 word
    obtain ⟨front, rfl⟩ := List.getLast?_eq_some_iff.1 hd
    exact ⟨_, [c], rfl, by simpa using ⟨blank, hc⟩, .word hpart (by simp)⟩

theorem shielded_gap {text cs : List Char} (closed : (Scan.gap cs).isOpen = false)
    (more : (Scan.gap cs).rest ≠ [])
    (h : Shielded text ∨ cs.head? = some '\n' ∨
      text.getLast?.any Scan.isWordPart = true ∧ (Scan.gap cs).taken ≠ []) :
    Shielded (text ++ (Scan.gap cs).taken) := by
  fun_induction Scan.gap cs generalizing text with
  | case1 => simp at more
  | case2 rest ih =>
    have hline : (rest.dropWhile (· ≠ '\n')).head? = some '\n' := by
      rcases Scan.dropWhile_line rest with hd | ⟨tail, hd⟩
      · rw [hd] at more
        simp [Scan.gap, Scan.Gap.after] at more
      · rw [hd]
        rfl
    have := @ih (text ++ '/' :: '/' :: rest.takeWhile (· ≠ '\n')) closed more (.inr (.inl hline))
    rw [List.append_assoc] at this
    exact this
  | case3 rest hcut => simp at closed
  | case4 rest body rest' hcut ih =>
    obtain ⟨front, rfl, -, -⟩ := Scan.closeComment?_eq_some_iff.1 hcut
    have hcomment : Shielded (text ++ '/' :: '*' :: front ++ ['*', '/']) := .of_shields .comment
    rw [List.append_assoc, List.cons_append, List.cons_append] at hcomment
    have := ih closed more (.inl hcomment)
    rw [List.append_assoc] at this
    exact this
  | case5 c rest hline hblock hblank ih =>
    have hshielded : Shielded (text ++ [c]) := by
      rcases h with h | h | ⟨hword, -⟩
      · exact h.blank hblank
      · obtain rfl : c = '\n' := by simpa using h
        exact .of_shields .newline
      · exact shielded_word hword hblank
    have := ih closed more (.inl hshielded)
    rw [List.append_assoc] at this
    exact this
  | case6 c rest hline hblock hblank =>
    rw [List.append_nil]
    rcases h with h | h | ⟨-, h⟩
    · exact h
    · obtain rfl : c = '\n' := by simpa using h
      exact absurd (by decide) hblank
    · simp at h

def Borders (t : Token) : Prop :=
  t.kind = .identifier ∨ ∃ c ∈ marks, c ≠ '/' ∧ t.isSymbol c = true

private theorem getLast?_isWordPart {text : List Char} (word : Scan.isIdentifier text = true)
    (before : List Char) : (before ++ text).getLast?.any Scan.isWordPart = true := by
  cases text with
  | nil => simp [Scan.isIdentifier] at word
  | cons c cs =>
    obtain ⟨hc, hcs⟩ : Scan.isWordStart c = true ∧ ∀ d ∈ cs, Scan.isWordPart d = true := by
      simpa [Scan.isIdentifier] using word
    have hall : ∀ d ∈ c :: cs, Scan.isWordPart d = true :=
      List.forall_mem_cons.2 ⟨Scan.isWordPart_of_isWordStart hc, hcs⟩
    rw [List.getLast?_append, List.getLast?_eq_some_getLast (List.cons_ne_nil c cs)]
    exact hall _ (List.getLast_mem _)

variable {filename : String} {text trail : List Char} {as bs : List Lexeme} {l : Lexeme}

private theorem gap_ne_nil {x : Lexer} {m : Lexeme} (tiles : Lexer.Tiles x (m :: l :: bs) trail)
    (word : m.token.kind = .identifier) (word' : l.token.kind = .identifier) : l.gap ≠ [] := by
  intro hgap
  cases tiles with
  | lexeme hm others =>
    have hhead := hm.head
    rw [word] at hhead
    have hstop := (Scan.stops_of_head_identifier hhead).2
    have hl := others.isIdentifier l (by simp) word'
    have hstart := Scan.any_isWordStart_of_isIdentifier hl (Lexeme.spelled bs ++ trail)
    rw [others.rest_eq, Lexeme.spelled_cons, Lexeme.chars, hgap, List.nil_append,
      List.append_assoc] at hstop
    obtain ⟨c, hc, hword⟩ := (Option.any_eq_true _ _).1 hstart
    rw [hc] at hstop
    simp [Scan.isWordPart_of_isWordStart hword] at hstop

theorem shielded_spelled (tiles : Lexer.Tiles (Lexer.start filename text) (as ++ l :: bs) trail)
    (word : l.token.kind = .identifier) (borders : ∀ m ∈ as.getLast?, Borders m.token) :
    Shielded (Lexeme.spelled as ++ l.gap) := by
  have hgap : Scan.gap (Lexeme.spelled (l :: bs) ++ trail) =
      ⟨l.gap, l.token.text.toList ++ (Lexeme.spelled bs ++ trail), false⟩ := by
    have hdrop := tiles.drop
    cases hdrop with
    | lexeme hl others =>
      rw [← others.rest_eq]
      exact hl.gap
  have hmore : l.token.text.toList ++ (Lexeme.spelled bs ++ trail) ≠ [] :=
    List.append_ne_nil_of_left_ne_nil (tiles.text_ne_nil l (by simp)) _
  have hshielded := @shielded_gap (Lexeme.spelled as) (Lexeme.spelled (l :: bs) ++ trail)
  rw [hgap] at hshielded
  refine hshielded rfl hmore ?_
  rcases as.eq_nil_or_concat with rfl | ⟨init, m, rfl⟩
  · exact .inl (.of_shields .start)
  · rw [List.concat_eq_append] at tiles borders ⊢
    rw [List.append_assoc] at tiles
    rw [Lexeme.spelled_append, Lexeme.spelled_cons, Lexeme.spelled_nil, List.append_nil,
      Lexeme.chars, ← List.append_assoc]
    rcases borders m (by simp) with hword | ⟨c, hmark, hsolid, hsymbol⟩
    · have hm := tiles.isIdentifier m (by simp) hword
      exact .inr (.inr ⟨getLast?_isWordPart hm _, gap_ne_nil tiles.drop hword word⟩)
    · have htext : m.token.text.toList = [c] := by
        simp only [Token.isSymbol, Bool.and_eq_true, decide_eq_true_eq] at hsymbol
        exact hsymbol.2
      rw [htext]
      exact .inl (.of_shields (.mark hmark hsolid))

end Directive

end SchemaLint
