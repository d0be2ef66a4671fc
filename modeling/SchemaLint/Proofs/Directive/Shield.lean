import SchemaLint.Proofs.Directive.Line

/-!
# Directives in a text with another word in it

Where a text allows rules does not depend on a word in it that begins a line or stands behind a
mark.
-/

set_option autoImplicit false
set_option relaxedAutoImplicit false

namespace SchemaLint

namespace Directive

def covered (ruleId : String) (text : List Char) : List Bool :=
  (Text.lines text).map (lineCovers ruleId)

inductive Shields : List Char → List Char → Prop
  | start {blanks : List Char} : Shields [] blanks
  | newline {before blanks : List Char} : Shields (before ++ ['\n']) blanks
  | mark {before blanks : List Char} {c : Char} (mark : c ∈ marks) (solid : c ≠ '/') :
      Shields (before ++ [c]) blanks
  | comment {before blanks : List Char} : Shields (before ++ ['*', '/']) blanks
  | word {before blanks : List Char} {c : Char} (part : Scan.isWordPart c = true)
      (apart : blanks ≠ []) : Shields (before ++ [c]) blanks

/-- A text behind which a word is no part of a directive. -/
def Shielded (text : List Char) : Prop :=
  ∃ before blanks, text = before ++ blanks ∧ (∀ b ∈ blanks, Text.isBlank b = true ∧ b ≠ '\n') ∧
    Shields before blanks

private theorem exists_lastLine {text : List Char} (h : Shielded text) :
    ∃ lead line, text = lead ++ line ∧ (lead = [] ∨ ∃ front, lead = front ++ ['\n']) ∧
      '\n' ∉ line ∧ ((∀ b ∈ line, Text.isBlank b = true) ∨
        ∃ before mark blanks, line = before ++ mark :: blanks ∧ Guard mark blanks ∧
          (mark = '/' → before.getLast? ≠ some '/')) := by
  obtain ⟨before, blanks, rfl, hblanks, hshields⟩ := h
  have hline : '\n' ∉ blanks := fun hmem => (hblanks _ hmem).2 rfl
  have hblank : ∀ b ∈ blanks, Text.isBlank b = true := fun b hb => (hblanks b hb).1
  have behind : ∀ front c, before = front ++ [c] → c ≠ '\n' → Guard c blanks →
      (c = '/' → front.getLast? = some '*') →
        ∃ lead line, before ++ blanks = lead ++ line ∧
          (lead = [] ∨ ∃ front, lead = front ++ ['\n']) ∧ '\n' ∉ line ∧
            ((∀ b ∈ line, Text.isBlank b = true) ∨
              ∃ before mark blanks, line = before ++ mark :: blanks ∧ Guard mark blanks ∧
                (mark = '/' → before.getLast? ≠ some '/')) := by
    rintro front c rfl hc hguard hslash
    obtain ⟨lead, last, rfl, hlast, hlead⟩ := Text.exists_last_piece '\n' front
    refine ⟨lead, last ++ c :: blanks, by simp, hlead, ?_, .inr ⟨last, c, blanks, rfl, hguard, ?_⟩⟩
    · intro hmem
      rcases List.mem_append.1 hmem with hmem | hmem
      · exact hlast hmem
      · rcases List.mem_cons.1 hmem with he | hmem
        · exact hc he.symm
        · exact hline hmem
    · intro he h
      have hstar := hslash he
      rw [List.getLast?_append, h] at hstar
      simp at hstar
  cases hshields with
  | start => exact ⟨[], blanks, rfl, .inl rfl, hline, .inl hblank⟩
  | @newline front => exact ⟨front ++ ['\n'], blanks, rfl, .inr ⟨front, rfl⟩, hline, .inl hblank⟩
  | @mark front _ c hmark hsolid =>
    refine behind front c rfl ?_ ⟨.inr hmark, hblank, ?_⟩ fun he => absurd he hsolid
    · rintro rfl
      exact absurd hmark (by decide)
    · intro hword
      simp [(isBlank_of_mem_marks hmark).2] at hword
  | @comment front =>
    refine behind (front ++ ['*']) '/' (by simp) (by decide) ⟨.inr (by decide), hblank, ?_⟩ ?_
    · intro hword
      exact absurd hword (by decide)
    · simp
  | @word front _ c hpart hapart =>
    refine behind front c rfl ?_ ⟨.inl hpart, hblank, fun _ => hapart⟩ ?_
    · rintro rfl
      exact absurd hpart (by decide)
    · rintro rfl
      exact absurd hpart (by decide)

private theorem exists_lines {lead line : List Char}
    (begins : lead = [] ∨ ∃ front, lead = front ++ ['\n']) (single : '\n' ∉ line)
    (after : List Char) : ∃ above rest below, ∀ word, IsWord word →
      Text.lines (lead ++ line ++ (word ++ after)) = above ++ (line ++ (word ++ rest)) :: below := by
  obtain ⟨pieces, hpieces⟩ := Text.exists_splitOn_lead begins
  obtain ⟨first, others, hsplit⟩ := List.exists_cons_of_ne_nil (Text.splitOn_ne_nil '\n' after)
  have hwhole : ∀ word, IsWord word → Text.splitOn '\n' (lead ++ line ++ (word ++ after)) =
      pieces ++ (line ++ (word ++ first)) :: others := by
    intro word hword
    have hnone : '\n' ∉ line ++ word := by
      intro h
      rcases List.mem_append.1 h with h | h
      · exact single h
      · exact absurd (hword.2 _ h) (by decide)
    have := Text.splitOn_append_of_notMem hnone hsplit
    rw [List.append_assoc, hpieces, ← List.append_assoc line, this, List.append_assoc]
  rcases others.eq_nil_or_concat with rfl | ⟨init, last, rfl⟩
  · refine ⟨pieces.map Text.dropReturn, first, [], fun word hword => ?_⟩
    have hfull : line ++ (word ++ first) ≠ [] := by simp [hword.1]
    rw [Text.lines_eq (hwhole word hword), if_neg hfull]
  · refine ⟨pieces.map Text.dropReturn, Text.dropReturn first,
      init.map Text.dropReturn ++ if last = [] then [] else [last], fun word hword => ?_⟩
    have hsplit' : Text.splitOn '\n' (lead ++ line ++ (word ++ after)) =
        (pieces ++ (line ++ (word ++ first)) :: init) ++ [last] := by
      rw [hwhole word hword]
      simp
    obtain ⟨front, c, rfl⟩ : ∃ front c, word = front ++ [c] :=
      ⟨_, _, (List.dropLast_concat_getLast hword.1).symm⟩
    have hc : c ≠ '\r' := by
      rintro rfl
      exact absurd (hword.2 '\r' (by simp)) (by decide)
    have hline : Text.dropReturn (line ++ (front ++ [c]) ++ first) =
        line ++ (front ++ [c]) ++ Text.dropReturn first :=
      Text.dropReturn_append (by simp) hc first
    rw [List.append_assoc] at hline
    rw [Text.lines_eq hsplit', List.map_append, List.map_cons, hline]
    simp

theorem covered_shielded {before word word' : List Char} (shielded : Shielded before)
    (isWord : IsWord word) (isWord' : IsWord word') {ruleId : String}
    (isId : ∀ c ∈ ruleId.toList, Scan.isWordPart c = true) (after : List Char) :
    covered ruleId (before ++ (word ++ after)) = covered ruleId (before ++ (word' ++ after)) := by
  obtain ⟨lead, line, rfl, hlead, hline, hguards⟩ := exists_lastLine shielded
  obtain ⟨above, rest, below, hlines⟩ := exists_lines hlead hline after
  have hsame : lineCovers ruleId (line ++ (word ++ rest)) =
      lineCovers ruleId (line ++ (word' ++ rest)) := by
    rcases hguards with hblank | ⟨front, mark, blanks, rfl, hguard, hapart⟩
    · exact lineCovers_first isWord isWord' ruleId hblank rest
    · simpa using lineCovers_guarded hguard isWord isWord' isId hapart rest
  unfold covered
  rw [hlines word isWord, hlines word' isWord']
  simp only [List.map_append, List.map_cons, hsame]

end Directive

namespace Allowances

theorem directiveAt_scan (text : String) (line : Nat) : (scan text).directiveAt (line + 1) =
    (Text.lines text.toList)[line]?.bind Directive.ofLine? := by
  have hdirective : (scan text).directiveAt (line + 1) =
      ((Text.lines text.toList)[line]?.map Directive.ofLine?).join :=
    congrArg Option.join (List.getElem?_map ..)
  rw [hdirective]
  cases (Text.lines text.toList)[line]? <;> rfl

theorem any_directiveAt_scan (text ruleId : String) (line : Nat) :
    ((scan text).directiveAt (line + 1)).any (·.covers ruleId) =
      ((Directive.covered ruleId text.toList)[line]?).any id := by
  rw [directiveAt_scan, Directive.covered, List.getElem?_map]
  cases (Text.lines text.toList)[line]? with
  | none => rfl
  | some l => rfl

/-- Whether a rule is allowed at a line, said of the directives there and on the line before. -/
theorem check_ne_denied_iff {a : Allowances} {line : Nat} {ruleId : String} :
    a.check line ruleId ≠ .denied ↔ (a.directiveAt (line - 1)).any (·.covers ruleId) = true ∨
      (a.directiveAt line).any (·.covers ruleId) = true := by
  unfold check
  rw [← Option.isSome_filter, ← Option.isSome_filter]
  cases (a.directiveAt (line - 1)).filter (·.covers ruleId) with
  | some d => simp
  | none => cases (a.directiveAt line).filter (·.covers ruleId) <;> simp

theorem allows_eq (a : Allowances) (f : Failure) : a.allows f =
    ((a.directiveAt (f.position.line - 1)).any (·.covers f.ruleId) ||
      (a.directiveAt f.position.line).any (·.covers f.ruleId)) := by
  rw [Bool.eq_iff_iff, Bool.or_eq_true, ← check_ne_denied_iff]
  simp [allows]

theorem allows_scan_congr {text text' : String} {f f' : Failure}
    (line : f'.position.line = f.position.line) (ruleId : f'.ruleId = f.ruleId)
    (same : Directive.covered f.ruleId text'.toList = Directive.covered f.ruleId text.toList) :
    (scan text').allows f' = (scan text).allows f := by
  have hat : ∀ n, ((scan text').directiveAt n).any (·.covers f.ruleId) =
      ((scan text).directiveAt n).any (·.covers f.ruleId) := by
    intro n
    cases n with
    | zero => rfl
    | succ n => rw [any_directiveAt_scan, any_directiveAt_scan, same]
  rw [allows_eq, allows_eq, line, ruleId, hat, hat]

end Allowances

end SchemaLint
