import SchemaLint.Directive
import SchemaLint.Proofs.Directive.Line
import SchemaLint.Proofs.Text.Search

/-!
# What a directive says

A line allows a rule when the text behind its first two slashes is a directive that names the rule.
-/

set_option autoImplicit false
set_option relaxedAutoImplicit false

namespace SchemaLint.Directive

/-- Whether the text of a comment is a directive that names a rule, or all rules: apart from blanks
around it, the words `proto-lint:` and `allow` with a list in parentheses behind it, of which the rule
is an entry that is not blank. -/
def Directs (content : List Char) (ruleId : String) : Prop :=
  ∃ blanks list tail, Text.trim content =
      "proto-lint:".toList ++ (blanks ++ ("allow(".toList ++ (list ++ ')' :: tail))) ∧
    (∀ b ∈ blanks, Text.isBlank b = true) ∧ ')' ∉ list ∧
    ∃ entry ∈ (Text.splitOn ',' list).map Text.trim, entry ≠ [] ∧
      (entry = ruleId.toList ∨ entry = "all".toList)

private theorem map_trim_splitOn {blanks : List Char} (blank : ∀ b ∈ blanks, Text.isBlank b = true)
    (list : List Char) : (Text.splitOn ',' (blanks ++ list)).map Text.trim =
      (Text.splitOn ',' list).map Text.trim := by
  obtain ⟨first, others, hsplit⟩ := List.exists_cons_of_ne_nil (Text.splitOn_ne_nil ',' list)
  have hnone : ',' ∉ blanks := fun h => absurd (blank _ h) (by decide)
  rw [Text.splitOn_append_of_notMem hnone hsplit, hsplit, List.map_cons, List.map_cons,
    Text.trim_blank_append blank]

theorem mem_rulesOf {list : List Char} {ruleId : String} : ruleId ∈ rulesOf list ↔
    ∃ entry ∈ (Text.splitOn ',' list).map Text.trim, entry ≠ [] ∧ entry = ruleId.toList := by
  unfold rulesOf
  simp only [List.mem_map, List.mem_filter]
  constructor
  · rintro ⟨entry, ⟨hentry, hfull⟩, rfl⟩
    exact ⟨entry, hentry, by simpa using hfull, by simp⟩
  · rintro ⟨entry, hentry, hfull, rfl⟩
    exact ⟨ruleId.toList, ⟨hentry, by simpa using hfull⟩, by simp⟩

private theorem trim_rest {front rest : List Char}
    (solid : ∀ c ∈ (front ++ rest).getLast?, Text.isBlank c = false) :
    Text.trim rest = rest.dropWhile Text.isBlank ∧
      ∃ blanks, rest = blanks ++ Text.trim rest ∧ ∀ b ∈ blanks, Text.isBlank b = true := by
  have htrim : Text.trim rest = rest.dropWhile Text.isBlank := by
    refine Text.trim_of_solid fun c hc => solid c ?_
    rw [List.getLast?_append, hc]
    rfl
  refine ⟨htrim, rest.takeWhile Text.isBlank, ?_,
    fun b hb => List.all_eq_true.1 List.all_takeWhile b hb⟩
  rw [htrim, List.takeWhile_append_dropWhile]

private theorem any_ofComment?_iff_exists {content : List Char} {ruleId : String} :
    (ofComment? content).any (·.covers ruleId) = true ↔ ∃ x y list tail,
      Text.trim content = "proto-lint:".toList ++ x ∧ Text.trim x = "allow(".toList ++ y ∧
        Text.trim y = list ++ ')' :: tail ∧ ')' ∉ list ∧
          (ruleId ∈ rulesOf list ∨ "all" ∈ rulesOf list) := by
  rw [Option.any_eq_true]
  unfold ofComment?
  constructor
  · rintro ⟨d, hd, hcovers⟩
    obtain ⟨x, hx, hd⟩ := Option.bind_eq_some_iff.1 hd
    obtain ⟨y, hy, hd⟩ := Option.bind_eq_some_iff.1 hd
    obtain ⟨⟨list, tail⟩, hcut, hd⟩ := Option.bind_eq_some_iff.1 hd
    dsimp only at hd
    split at hd
    · cases hd
    · obtain rfl := Option.some.inj hd
      obtain ⟨hwhole, hlist⟩ := Text.cutAround?_singleton_eq_some_iff.1 hcut
      exact ⟨x, y, list, tail, Text.dropStart?_eq_some hx, Text.dropStart?_eq_some hy, hwhole, hlist,
        by simpa [covers] using hcovers⟩
  · rintro ⟨x, y, list, tail, hx, hy, hwhole, hlist, hcovers⟩
    have hfull : ¬(rulesOf list).isEmpty = true := by
      rintro hnil
      rw [List.isEmpty_iff.1 hnil] at hcovers
      simp at hcovers
    refine ⟨⟨rulesOf list, reason? tail⟩, ?_, by simpa [covers] using hcovers⟩
    refine Option.bind_eq_some_iff.2 ⟨x, Text.dropStart?_eq_some_iff.2 hx, ?_⟩
    refine Option.bind_eq_some_iff.2 ⟨y, Text.dropStart?_eq_some_iff.2 hy, ?_⟩
    refine Option.bind_eq_some_iff.2
      ⟨(list, tail), Text.cutAround?_singleton_eq_some_iff.2 ⟨hwhole, hlist⟩, ?_⟩
    exact if_neg hfull

theorem any_ofComment?_iff {content : List Char} {ruleId : String} :
    (ofComment? content).any (·.covers ruleId) = true ↔ Directs content ruleId := by
  have hentries : ∀ list, (∃ entry ∈ (Text.splitOn ',' list).map Text.trim, entry ≠ [] ∧
      (entry = ruleId.toList ∨ entry = "all".toList)) ↔
        ruleId ∈ rulesOf list ∨ "all" ∈ rulesOf list := by
    intro list
    simp only [mem_rulesOf]
    grind
  rw [any_ofComment?_iff_exists]
  unfold Directs
  simp only [hentries]
  constructor
  · rintro ⟨x, y, list, tail, hx, hy, hwhole, hlist, hcovers⟩
    obtain ⟨-, blanks, hblanks, hblank⟩ := trim_rest (hx ▸ Text.solid_trim content)
    obtain ⟨-, blanks', hblanks', hblank'⟩ := trim_rest (hy ▸ Text.solid_trim x)
    refine ⟨blanks, blanks' ++ list, tail, ?_, hblank, ?_, ?_⟩
    · rw [hx, List.append_assoc, ← hwhole, ← hblanks', ← hy, ← hblanks]
    · intro h
      rcases List.mem_append.1 h with h | h
      · exact absurd (hblank' _ h) (by decide)
      · exact hlist h
    · simpa only [← hentries, map_trim_splitOn hblank'] using hcovers
  · rintro ⟨blanks, list, tail, hcontent, hblank, hlist, hcovers⟩
    have hsolid := Text.solid_trim content
    rw [hcontent, ← List.append_assoc] at hsolid
    have hx : Text.trim (blanks ++ ("allow(".toList ++ (list ++ ')' :: tail))) =
        "allow(".toList ++ (list ++ ')' :: tail) := by
      rw [Text.trim_blank_append hblank, (trim_rest hsolid).1]
      rfl
    rw [← List.append_assoc] at hsolid
    have hy : Text.trim (list ++ ')' :: tail) = list.dropWhile Text.isBlank ++ ')' :: tail := by
      rw [(trim_rest hsolid).1, List.dropWhile_append]
      split
      · rename_i hnil
        rw [List.isEmpty_iff.1 hnil]
        rfl
      · rfl
    refine ⟨_, _, list.dropWhile Text.isBlank, tail, hcontent, hx, hy,
      fun h => hlist (List.dropWhile_subset _ h), ?_⟩
    have hblanks : ∀ b ∈ list.takeWhile Text.isBlank, Text.isBlank b = true :=
      List.all_eq_true.1 List.all_takeWhile
    have hlist := List.takeWhile_append_dropWhile (p := Text.isBlank) (l := list)
    rw [← hentries, ← hlist, map_trim_splitOn hblanks, hentries] at hcovers
    exact hcovers

private theorem slashes_infix_append {lead cs : List Char} (none : '/' ∉ lead) :
    ['/', '/'] <:+: lead ++ cs ↔ ['/', '/'] <:+: cs := by
  induction lead with
  | nil => rfl
  | cons c lead ih =>
    obtain ⟨hc, hlead⟩ : '/' ≠ c ∧ '/' ∉ lead := by simpa using none
    rw [List.cons_append, List.infix_cons_iff, ih hlead]
    simp [hc]

private theorem slashes_trim_iff {line : List Char} {directs : List Char → Prop}
    (congr : ∀ c c', Text.trim c = Text.trim c' → (directs c ↔ directs c')) :
    (∃ before content, Text.trim line = before ++ '/' :: '/' :: content ∧
        ¬['/', '/'] <:+: before ++ ['/'] ∧ directs content) ↔
      ∃ before content, line = before ++ '/' :: '/' :: content ∧
        ¬['/', '/'] <:+: before ++ ['/'] ∧ directs content := by
  obtain ⟨lead, trail, hline, hlead, htrail⟩ := Text.exists_trim line
  have hnone : ∀ {cs : List Char}, (∀ c ∈ cs, Text.isBlank c = true) → '/' ∉ cs :=
    fun hcs h => absurd (hcs _ h) (by decide)
  constructor
  · rintro ⟨before, content, htrim, hfirst, hdirects⟩
    refine ⟨lead ++ before, content ++ trail, by rw [hline, htrim]; simp, ?_, ?_⟩
    · rwa [List.append_assoc, slashes_infix_append (hnone hlead)]
    · exact (congr _ _ (Text.trim_append_blank htrail content)).2 hdirects
  · rintro ⟨before, content, hcut, hfirst, hdirects⟩
    rw [hline, List.append_assoc] at hcut
    obtain ⟨before, rfl, hrest⟩ : ∃ b, before = lead ++ b ∧
        Text.trim line ++ trail = b ++ ['/', '/'] ++ content := by
      rcases List.append_eq_append_iff.1 hcut with ⟨b, rfl, hb⟩ | ⟨b, rfl, hb⟩
      · exact ⟨b, rfl, by simp [hb]⟩
      · cases b with
        | nil => exact ⟨[], by simp, by simpa using hb.symm⟩
        | cons c b =>
          obtain ⟨rfl, -⟩ := List.cons.inj hb
          exact absurd (by simp) (hnone hlead)
    rw [List.append_assoc, slashes_infix_append (hnone hlead)] at hfirst
    rcases List.append_eq_append_iff.1 hrest with ⟨b, hb, rfl⟩ | ⟨c, hc, rfl⟩
    · rcases b.eq_nil_or_concat with rfl | ⟨init, c, rfl⟩
      · refine ⟨before, [], by simpa using hb.symm, hfirst, (congr _ _ ?_).1 hdirects⟩
        simpa using Text.trim_append_blank htrail []
      · have hlast := congrArg List.getLast? hb
        rw [List.concat_eq_append, ← List.append_assoc, List.getLast?_concat,
          List.getLast?_append] at hlast
        obtain rfl : '/' = c := by simpa using hlast
        exact absurd (by simp) (hnone htrail)
    · exact ⟨before, c, by simp [hc], hfirst,
        (congr _ _ (Text.trim_append_blank htrail c)).1 hdirects⟩

theorem ofLine?_eq_some_iff {line : List Char} {d : Directive} : ofLine? line = some d ↔
    ∃ before content, line = before ++ '/' :: '/' :: content ∧ ¬['/', '/'] <:+: before ++ ['/'] ∧
      ofComment? content = some d := by
  have hcut : ∀ {cs before after : List Char}, Text.cutAround? ['/', '/'] cs = some (before, after) ↔
      cs = before ++ '/' :: '/' :: after ∧ ¬['/', '/'] <:+: before ++ ['/'] :=
    Text.cutAround?_eq_some_iff (by simp)
  have hcongr : ∀ c c', Text.trim c = Text.trim c' →
      (ofComment? c = some d ↔ ofComment? c' = some d) := by
    intro c c' same
    unfold ofComment?
    rw [same]
  rw [← slashes_trim_iff hcongr]
  unfold ofLine?
  constructor
  · intro h
    obtain ⟨⟨before, content⟩, hslashes, hd⟩ := Option.bind_eq_some_iff.1 h
    obtain ⟨hwhole, hfirst⟩ := hcut.1 hslashes
    exact ⟨before, content, hwhole, hfirst, hd⟩
  · rintro ⟨before, content, hwhole, hfirst, hd⟩
    exact Option.bind_eq_some_iff.2 ⟨(before, content), hcut.2 ⟨hwhole, hfirst⟩, hd⟩

theorem lineCovers_iff {line : List Char} {ruleId : String} : lineCovers ruleId line = true ↔
    ∃ before content, line = before ++ '/' :: '/' :: content ∧ ¬['/', '/'] <:+: before ++ ['/'] ∧
      Directs content ruleId := by
  simp only [lineCovers, Option.any_eq_true, ofLine?_eq_some_iff, ← any_ofComment?_iff]
  constructor
  · rintro ⟨d, ⟨before, content, hline, hfirst, hd⟩, hcovers⟩
    exact ⟨before, content, hline, hfirst, d, hd, hcovers⟩
  · rintro ⟨before, content, hline, hfirst, d, hd, hcovers⟩
    exact ⟨d, ⟨before, content, hline, hfirst, hd⟩, hcovers⟩

end SchemaLint.Directive
