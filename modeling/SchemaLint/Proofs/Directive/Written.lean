import SchemaLint.Proofs.Directive.Comment

/-!
# Directives as they are written

A directive has a written form, which may stand at the end of a line behind anything that holds no
comment.  What is written so is read back, and allows its rules on its own line and on the next.
-/

set_option autoImplicit false
set_option relaxedAutoImplicit false

namespace SchemaLint

namespace Text

theorem trim_eq_self {cs : List Char} (begins : ∃ c rest, cs = c :: rest ∧ isBlank c = false)
    (ends : ∃ init c, cs = init ++ [c] ∧ isBlank c = false) : trim cs = cs := by
  obtain ⟨init, e, hinit, hend⟩ := ends
  rw [trim_of_solid (by simpa [hinit] using hend)]
  obtain ⟨b, rest, rfl, hbegin⟩ := begins
  exact List.dropWhile_cons_of_neg (by simp [hbegin])

theorem exists_solid_of_trim {cs : List Char} (nonempty : cs ≠ []) (trimmed : trim cs = cs) :
    ∃ c rest, cs = c :: rest ∧ isBlank c = false := by
  obtain ⟨c, rest, rfl⟩ := List.exists_cons_of_ne_nil nonempty
  refine ⟨c, rest, rfl, ?_⟩
  rw [trim_of_solid (trimmed ▸ solid_trim _)] at trimmed
  have hnot := List.head?_dropWhile_not isBlank (c :: rest)
  rw [trimmed] at hnot
  exact hnot

end Text

namespace Directive

/-- The end of a written directive: its reason in quotes, if it has one. -/
def renderReason (d : Directive) : List Char :=
  match d.reason with
  | none => []
  | some reason => " reason=\"".toList ++ (reason.toList ++ ['"'])

def render (d : Directive) : List Char :=
  "// proto-lint: allow(".toList ++
    (", ".toList.intercalate (d.rules.map String.toList) ++ ')' :: d.renderReason)

/-- Whether a directive can be written: it names rules, none of which has blanks around it, a comma or
a closing parenthesis, and its reason has no quotes. -/
structure IsWritable (d : Directive) : Prop where
  names : d.rules ≠ []
  full : ∀ id ∈ d.rules, id ≠ ""
  trimmed : ∀ id ∈ d.rules, Text.trim id.toList = id.toList
  clear : ∀ id ∈ d.rules, ',' ∉ id.toList ∧ ')' ∉ id.toList
  reason : ∀ reason ∈ d.reason, '"' ∉ reason.toList

/-- Whether a line of a text holds a directive that names a rule, or all rules: the text behind the
first two slashes on the line directs so. -/
def Holds (text : List Char) (line : Nat) (ruleId : String) : Prop :=
  ∃ front rest, FirstSlashes text line front rest ∧ Directs (rest.takeWhile (· ≠ '\n')) ruleId

private theorem intercalate_eq (first : List Char) (others : List (List Char)) :
    ", ".toList.intercalate (first :: others) = [','].intercalate (first :: others.map (' ' :: ·)) := by
  induction others generalizing first with
  | nil => rfl
  | cons second others ih =>
    rw [List.map_cons, List.intercalate_cons_cons, List.intercalate_cons_cons, ih]
    cases others with
    | nil => simp
    | cons third others => simp [List.intercalate_cons_cons]

private theorem trim_cons_blank (cs : List Char) : Text.trim (' ' :: cs) = Text.trim cs := by
  have hblank : ∀ c ∈ [' '], Text.isBlank c = true := by
    rw [List.forall_mem_singleton]
    rfl
  exact Text.trim_blank_append hblank cs

variable {d : Directive}

theorem rulesOf_written (writable : d.IsWritable) :
    rulesOf (", ".toList.intercalate (d.rules.map String.toList)) = d.rules := by
  obtain ⟨first, others, hrules⟩ := List.exists_cons_of_ne_nil writable.names
  have htrim : ∀ id ∈ d.rules, Text.trim id.toList = id.toList := writable.trimmed
  have hsplit : Text.splitOn ',' (", ".toList.intercalate (d.rules.map String.toList)) =
      first.toList :: (others.map String.toList).map (' ' :: ·) := by
    rw [hrules, List.map_cons, intercalate_eq]
    refine Text.splitOn_intercalate (List.cons_ne_nil _ _) ?_
    rw [List.forall_mem_cons]
    refine ⟨(writable.clear first (by simp [hrules])).1, ?_⟩
    simp only [List.mem_map, exists_exists_and_eq_and, forall_exists_index, and_imp]
    rintro _ id hid rfl
    have hclear := (writable.clear id (by simp [hrules, hid])).1
    simpa using hclear
  have hentries : (Text.splitOn ',' (", ".toList.intercalate (d.rules.map String.toList))).map
      Text.trim = d.rules.map String.toList := by
    rw [hsplit, hrules, List.map_cons, List.map_cons, List.map_map, List.map_map]
    refine congrArg₂ List.cons (htrim first (by simp [hrules])) (List.map_congr_left fun id hid => ?_)
    exact (trim_cons_blank id.toList).trans (htrim id (by simp [hrules, hid]))
  have hfull : (d.rules.map String.toList).filter (!·.isEmpty) = d.rules.map String.toList := by
    rw [List.filter_eq_self, List.forall_mem_map]
    intro id hid
    simpa using writable.full id hid
  unfold rulesOf
  rw [hentries, hfull, List.map_map]
  simp [Function.comp_def]

private theorem exists_front (writable : d.IsWritable) :
    ∃ c rest, ", ".toList.intercalate (d.rules.map String.toList) = c :: rest ∧
      Text.isBlank c = false := by
  obtain ⟨first, others, hrules⟩ := List.exists_cons_of_ne_nil writable.names
  have hfirst : first ∈ d.rules := by simp [hrules]
  obtain ⟨c, rest, hwhole, hsolid⟩ := Text.exists_solid_of_trim
    (by simpa using writable.full first hfirst) (writable.trimmed first hfirst)
  simp only [hrules, List.map_cons, hwhole]
  cases others.map String.toList with
  | nil => exact ⟨c, rest, by simp, hsolid⟩
  | cons second others => exact ⟨c, _, by rw [List.intercalate_cons_cons]; rfl, hsolid⟩

private theorem notMem_list (writable : d.IsWritable) :
    ')' ∉ ", ".toList.intercalate (d.rules.map String.toList) := by
  intro h
  rcases Text.mem_intercalate h with h | ⟨entry, hentry, h⟩
  · exact absurd h (by decide)
  · obtain ⟨id, hid, rfl⟩ := List.mem_map.1 hentry
    exact (writable.clear id hid).2 h

private theorem exists_end (d : Directive) :
    ∃ init c, ')' :: d.renderReason = init ++ [c] ∧ Text.isBlank c = false := by
  unfold renderReason
  cases d.reason with
  | none => exact ⟨[], ')', rfl, by decide⟩
  | some reason =>
    exact ⟨')' :: (" reason=\"".toList ++ reason.toList), '"', by simp, by decide⟩

theorem reason?_written (writable : d.IsWritable) : reason? d.renderReason = d.reason := by
  unfold renderReason
  cases hreason : d.reason with
  | none => rfl
  | some reason =>
    have hfree : '"' ∉ reason.toList := writable.reason reason hreason
    let quoted : List Char := '"' :: (reason.toList ++ ['"'])
    have hquoted : Text.trim quoted = quoted :=
      Text.trim_eq_self ⟨'"', _, rfl, by decide⟩ ⟨'"' :: reason.toList, '"', rfl, by decide⟩
    have hvalue : Text.trim (" reason=\"".toList ++ (reason.toList ++ ['"'])) =
        "reason=".toList ++ quoted :=
      (trim_cons_blank ("reason=".toList ++ quoted)).trans (Text.trim_eq_self
        ⟨'r', "eason=".toList ++ quoted, rfl, by decide⟩
        ⟨"reason=\"".toList ++ reason.toList, '"', by simp [quoted], by decide⟩)
    have hdrop : Text.dropStart? "reason=".toList ("reason=".toList ++ quoted) = some quoted :=
      Text.dropStart?_eq_some_iff.2 rfl
    have hopen : Text.dropStart? ['"'] quoted = some (reason.toList ++ ['"']) :=
      Text.dropStart?_eq_some_iff.2 rfl
    have hclose : Text.cutAround? ['"'] (reason.toList ++ ['"']) = some (reason.toList, []) :=
      Text.cutAround?_singleton_eq_some_iff.2 ⟨rfl, hfree⟩
    unfold reason?
    simp only [hvalue, hdrop, hquoted, hopen, hclose, bind, Option.bind_some, pure,
      String.ofList_toList]

theorem ofComment?_written (writable : d.IsWritable) {content : List Char}
    (written : d.render = '/' :: '/' :: content) : ofComment? content = some d := by
  let list : List Char := ", ".toList.intercalate (d.rules.map String.toList)
  let arguments : List Char := list ++ ')' :: d.renderReason
  obtain ⟨init, c, hinit, hc⟩ := exists_end d
  have ends : ∀ lead : List Char, ∃ init c, lead ++ arguments = init ++ [c] ∧
      Text.isBlank c = false := fun lead => ⟨lead ++ (list ++ init), c, by simp [arguments, hinit], hc⟩
  have harguments : Text.trim arguments = arguments := by
    obtain ⟨b, rest, hrest, hb⟩ := exists_front writable
    exact Text.trim_eq_self ⟨b, rest ++ ')' :: d.renderReason, by simp [arguments, list, hrest], hb⟩ (ends [])
  have hallow : Text.trim (' ' :: ("allow(".toList ++ arguments)) = "allow(".toList ++ arguments :=
    (trim_cons_blank _).trans (Text.trim_eq_self ⟨'a', "llow(".toList ++ arguments, rfl, by decide⟩
      (ends "allow(".toList))
  have hcontent : content = " proto-lint: allow(".toList ++ arguments :=
    (List.cons.inj (List.cons.inj written).2).2.symm
  have hwhole : Text.trim content = "proto-lint: allow(".toList ++ arguments := by
    rw [hcontent]
    exact (trim_cons_blank ("proto-lint: allow(".toList ++ arguments)).trans (Text.trim_eq_self
      ⟨'p', "roto-lint: allow(".toList ++ arguments, rfl, by decide⟩
      (ends "proto-lint: allow(".toList))
  have hlead : Text.dropStart? "proto-lint:".toList ("proto-lint: allow(".toList ++ arguments) =
      some (' ' :: ("allow(".toList ++ arguments)) := Text.dropStart?_eq_some_iff.2 rfl
  have hopen : Text.dropStart? "allow(".toList ("allow(".toList ++ arguments) = some arguments :=
    Text.dropStart?_eq_some_iff.2 rfl
  have hcut : Text.cutAround? [')'] arguments = some (list, d.renderReason) :=
    Text.cutAround?_singleton_eq_some_iff.2 ⟨rfl, notMem_list writable⟩
  have hrules : rulesOf list = d.rules := rulesOf_written writable
  have hfull : d.rules.isEmpty = false := by simpa using writable.names
  unfold ofComment?
  simp only [hwhole, hlead, hallow, hopen, harguments, hcut, hrules, hfull, reason?_written writable,
    bind, Option.bind_some, Bool.false_eq_true, if_false]

theorem ofLine?_written (writable : d.IsWritable) {front : List Char}
    (clear : ¬['/', '/'] <:+: front) (apart : front.getLast? ≠ some '/') :
    ofLine? (front ++ d.render) = some d := by
  obtain ⟨content, hcontent⟩ : ∃ content, d.render = '/' :: '/' :: content := ⟨_, rfl⟩
  refine ofLine?_eq_some_iff.2
    ⟨front, content, by rw [hcontent], ?_, ofComment?_written writable hcontent⟩
  rw [List.infix_concat_iff, not_or]
  refine ⟨?_, clear⟩
  rintro ⟨lead, hlead⟩
  have hfront : front = lead ++ ['/'] :=
    (List.append_inj_left' (by simpa using hlead) rfl).symm
  exact apart (by simp [hfront])

end Directive

namespace Allowances

open Directive (Holds)

variable {text ruleId : String} {line : Nat}

theorem check_eq_denied_iff : (scan text).check line ruleId = .denied ↔
    ¬Holds text.toList (line - 1) ruleId ∧ ¬Holds text.toList line ruleId := by
  rw [← not_iff_not, ← Ne, check_ne_denied_iff, Directive.any_directiveAt_iff,
    Directive.any_directiveAt_iff, not_and_or, not_not, not_not]
  rfl

theorem check_of_above {a : Allowances} {d : Directive} (above : a.directiveAt (line - 1) = some d)
    (covers : d.covers ruleId = true) : a.check line ruleId = .allowed d.reason := by
  have hfilter : (some d).filter (·.covers ruleId) = some d := by simp [covers]
  unfold check
  rw [above, hfilter]

theorem check_of_here {a : Allowances} {d : Directive}
    (above : (a.directiveAt (line - 1)).any (·.covers ruleId) = false)
    (here : a.directiveAt line = some d) (covers : d.covers ruleId = true) :
    a.check line ruleId = .allowed d.reason := by
  have hnone : (a.directiveAt (line - 1)).filter (·.covers ruleId) = Option.none := by
    rwa [← Option.isSome_filter, Option.isSome_eq_false_iff, Option.isNone_iff_eq_none] at above
  have hfilter : (some d).filter (·.covers ruleId) = some d := by simp [covers]
  unfold check
  rw [hnone, here, hfilter]

/-- A directive that is written at the end of a line is read back.  It allows the rules that it names,
or all rules, on its line and on the next, and gives its reason on the next line, and on its own unless
the line before holds a directive for the rule, too.  What no directive allows is denied. -/
theorem check_written {n : Nat} {front : List Char} {d : Directive}
    (line : (Text.lines text.toList)[n]? = some (front ++ d.render)) (writable : d.IsWritable)
    (clear : ¬['/', '/'] <:+: front) (apart : front.getLast? ≠ some '/') (ruleId : String) :
    (Holds text.toList (n + 1) ruleId ↔ ruleId ∈ d.rules ∨ "all" ∈ d.rules) ∧
    (ruleId ∈ d.rules ∨ "all" ∈ d.rules →
      (scan text).check (n + 2) ruleId = .allowed d.reason ∧
      (∃ reason, (scan text).check (n + 1) ruleId = .allowed reason) ∧
      (¬Holds text.toList n ruleId → (scan text).check (n + 1) ruleId = .allowed d.reason)) ∧
    ∀ l, (scan text).check l ruleId = .denied ↔
      ¬Holds text.toList (l - 1) ruleId ∧ ¬Holds text.toList l ruleId := by
  have hcovers : d.covers ruleId = true ↔ ruleId ∈ d.rules ∨ "all" ∈ d.rules := by
    simp [Directive.covers]
  have hhere : (scan text).directiveAt (n + 1) = some d := by
    rw [directiveAt_scan, line]
    exact Directive.ofLine?_written writable clear apart
  have hholds : ∀ l, ((scan text).directiveAt l).any (·.covers ruleId) = true ↔
      Holds text.toList l ruleId := fun l => Directive.any_directiveAt_iff
  have hwritten : Holds text.toList (n + 1) ruleId ↔ ruleId ∈ d.rules ∨ "all" ∈ d.rules := by
    rw [← hholds, hhere, ← hcovers]
    rfl
  refine ⟨hwritten, fun named => ⟨check_of_above hhere (hcovers.2 named), ?_, fun above => ?_⟩,
    fun l => check_eq_denied_iff⟩
  · cases hcheck : (scan text).check (n + 1) ruleId with
    | allowed reason => exact ⟨reason, rfl⟩
    | denied => exact absurd (hwritten.2 named) (check_eq_denied_iff.1 hcheck).2
  · refine check_of_here ?_ hhere (hcovers.2 named)
    rwa [← Bool.not_eq_true, Nat.add_sub_cancel, hholds]

/-- A directive behind code, with a parenthesis in its reason and a directive on the line before. -/
theorem check_written_second :
    let text := "// proto-lint: allow(A)\nmessage b; // proto-lint: allow(B, A) reason=\"x) y\"\r\n"
    let front := "message b; ".toList
    let d : Directive := ⟨["B", "A"], some "x) y"⟩
    (Text.lines text.toList)[1]? = some (front ++ d.render) ∧ d.IsWritable ∧
      ¬['/', '/'] <:+: front ∧ front.getLast? ≠ some '/' ∧
      (scan text).check 3 "B" = .allowed (some "x) y") ∧
      (∃ reason, (scan text).check 2 "A" = .allowed reason) ∧
      ((scan text).check 4 "B" = .denied ↔
        ¬Holds text.toList 3 "B" ∧ ¬Holds text.toList 4 "B") := by
  intro text front d
  have hline : (Text.lines text.toList)[1]? = some (front ++ d.render) := by decide +kernel
  have hwritable : d.IsWritable :=
    ⟨by decide, by decide, by decide +kernel, by decide +kernel, by decide +kernel⟩
  have hclear : ¬['/', '/'] <:+: front := by decide
  have hapart : front.getLast? ≠ some '/' := by decide
  obtain ⟨-, hb, hdenied⟩ := check_written hline hwritable hclear hapart "B"
  obtain ⟨-, ha, -⟩ := check_written hline hwritable hclear hapart "A"
  exact ⟨hline, hwritable, hclear, hapart, (hb (.inl (by decide))).1, (ha (.inl (by decide))).2.1,
    hdenied 4⟩

end Allowances

end SchemaLint
