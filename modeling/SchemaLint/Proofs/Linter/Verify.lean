import SchemaLint.Proofs.Linter.Findings
import SchemaLint.Proofs.Linter.Stages

/-!
# The count behind verification

A fix is refused where some rule that made an edit has more failures of some message in the new text
than it left alone in the old one.  Who is blamed, and for which failures, is said here in counts.
-/

set_option autoImplicit false
set_option relaxedAutoImplicit false

namespace SchemaLint

namespace Linter

/-- How many findings, of a failure with this rule id and message, no edit was made of. -/
def leftAlone (ps : List Proposal) (ruleId message : String) : Nat :=
  ps.countP fun p =>
    p.edit.isNone && p.finding.failure.ruleId = ruleId && p.finding.failure.message = message

/-- How many failures have this rule id and message. -/
def occurrences (fs : List Failure) (ruleId message : String) : Nat :=
  fs.countP fun f => f.ruleId = ruleId && f.message = message

/-- Whether failures of a rule id remain beyond those that were left alone. -/
def Exceeds (ps : List Proposal) (remaining : List Failure) (ruleId : String) : Prop :=
  ∃ message, leftAlone ps ruleId message < occurrences remaining ruleId message

/-- Whether a rule id is that of the first rule with an edit and with failures beyond those left
alone, where rules come in the order of their first edits. -/
def FirstExceeding (ps : List Proposal) (remaining : List Failure) (ruleId : String) : Prop :=
  ∃ before p after, ps = before ++ p :: after ∧
    p.edit.isSome = true ∧ p.finding.rule.id = ruleId ∧ Exceeds ps remaining ruleId ∧
      ∀ q ∈ before, q.edit.isSome = true → ¬Exceeds ps remaining q.finding.rule.id

/-- The failures of a rule id that come behind as many of the same message as were left alone. -/
def excess (ps : List Proposal) (remaining : List Failure) (ruleId : String) : List Failure :=
  (remaining.zipIdx.filter fun entry => entry.1.ruleId = ruleId &&
    leftAlone ps ruleId entry.1.message ≤
      occurrences (remaining.take entry.2) ruleId entry.1.message).map Prod.fst

variable {ps : List Proposal} {remaining : List Failure} {ruleId : String}

theorem count_tolerated (message : String) :
    (Proposal.tolerated ps ruleId).count message = leftAlone ps ruleId message := by
  unfold Proposal.tolerated leftAlone
  rw [List.count_eq_countP, List.countP_map, List.countP_filter]
  refine List.countP_congr fun p _ => ?_
  simp [and_comm]

private theorem beyond_filter (allowed : String → Nat) (messages : List String)
    (before fs : List Failure) (left : ∀ message,
      messages.count message = allowed message - occurrences before ruleId message) :
    beyond messages (fs.filter (·.ruleId = ruleId)) =
      ((fs.zipIdx before.length).filter fun entry => entry.1.ruleId = ruleId &&
        allowed entry.1.message ≤
          occurrences ((before ++ fs).take entry.2) ruleId entry.1.message).map Prod.fst := by
  induction fs generalizing messages before with
  | nil => rfl
  | cons f fs ih =>
    have hnext : before ++ f :: fs = before ++ [f] ++ fs := by simp
    have hlater := fun messages left => ih messages (before ++ [f]) left
    rw [← hnext, List.length_append, List.length_singleton] at hlater
    have hcount : ∀ message, occurrences (before ++ [f]) ruleId message =
        occurrences before ruleId message +
          if f.ruleId = ruleId ∧ f.message = message then 1 else 0 := by
      intro message
      simp [occurrences, List.countP_append, List.countP_singleton]
    rw [List.zipIdx_cons, List.filter_cons, List.filter_cons, List.take_left]
    by_cases hrule : f.ruleId = ruleId
    · rw [if_pos (by simpa using hrule), beyond]
      by_cases hmem : f.message ∈ messages
      · have hpos := List.count_pos_iff.2 hmem
        rw [if_pos (by simpa using hmem), if_neg ?_]
        · refine hlater _ fun message => ?_
          rw [List.count_erase, left, hcount]
          by_cases he : f.message = message
          · simp [he, hrule, Nat.sub_sub]
          · simp [he]
        · rw [left] at hpos
          simp only [hrule, decide_true, Bool.true_and, decide_eq_true_eq, Nat.not_le]
          omega
      · have hzero := List.count_eq_zero.2 hmem
        rw [if_neg (by simpa using hmem), if_pos ?_, List.map_cons]
        · refine congrArg (f :: ·) (hlater _ fun message => ?_)
          rw [left, hcount]
          by_cases he : f.message = message
          · subst he
            rw [left] at hzero
            omega
          · simp [he]
        · rw [left] at hzero
          simp only [hrule, decide_true, Bool.true_and, decide_eq_true_eq]
          omega
    · rw [if_neg (by simpa using hrule), if_neg (by simp [hrule])]
      refine hlater _ fun message => ?_
      rw [left, hcount]
      simp [hrule]

theorem persisting_eq : persisting ps remaining ruleId = excess ps remaining ruleId :=
  beyond_filter (leftAlone ps ruleId) (Proposal.tolerated ps ruleId) [] remaining
    fun message => by simp [count_tolerated, occurrences]

theorem persisting_ne_nil_iff : persisting ps remaining ruleId ≠ [] ↔
    Exceeds ps remaining ruleId := by
  have hcount : ∀ message, ((remaining.filter (·.ruleId = ruleId)).map Failure.message).count
      message = occurrences remaining ruleId message := by
    intro message
    unfold occurrences
    rw [List.count_eq_countP, List.countP_map, List.countP_filter]
    refine List.countP_congr fun f _ => ?_
    simp [and_comm]
  unfold persisting Exceeds
  rw [Ne, beyond_eq_nil_iff, List.subperm_ext_iff]
  simp only [hcount, count_tolerated, not_forall, Nat.not_le]
  constructor
  · rintro ⟨message, -, h⟩
    exact ⟨message, h⟩
  · rintro ⟨message, h⟩
    refine ⟨message, ?_, h⟩
    rw [← List.count_pos_iff, hcount]
    omega

private theorem find?_eraseDups (test : String → Bool) (ids : List String) :
    ids.eraseDups.find? test = ids.find? test := by
  cases ids with
  | nil => rfl
  | cons id ids =>
    rw [List.eraseDups_cons, List.find?_cons, List.find?_cons]
    split
    · rfl
    · rename_i hid
      have htest : (fun other => decide ((!other == id) = true ∧ test other = true)) = test := by
        funext other
        by_cases he : other = id
        · simp [he, hid]
        · simp [he]
      rw [find?_eraseDups, List.find?_filter, htest]
termination_by ids.length
decreasing_by
  have := List.length_filter_le (fun other => !other == id) ids
  simp only [List.length_cons]
  omega

theorem find?_fixingIds_eq_some_iff :
    ((Proposal.fixingIds ps).find? fun id => !(persisting ps remaining id).isEmpty) =
      some ruleId ↔ FirstExceeding ps remaining ruleId := by
  have htest : ∀ id, (!(persisting ps remaining id).isEmpty) = true ↔
      Exceeds ps remaining id := by
    intro id
    rw [← persisting_ne_nil_iff]
    simp
  unfold Proposal.fixingIds FirstExceeding
  rw [find?_eraseDups, List.find?_map, List.find?_filter, Option.map_eq_some_iff]
  simp only [List.find?_eq_some_iff_append, Function.comp_apply, htest, decide_eq_true_eq,
    Bool.not_eq_true', decide_eq_false_iff_not, not_and]
  constructor
  · rintro ⟨p, ⟨⟨hedit, hexceeds⟩, before, after, hps, hbefore⟩, rfl⟩
    exact ⟨before, p, after, hps, hedit, rfl, hexceeds, hbefore⟩
  · rintro ⟨before, p, after, hps, hedit, rfl, hexceeds, hbefore⟩
    exact ⟨p, ⟨⟨hedit, hexceeds⟩, before, after, hps, hbefore⟩, rfl⟩

theorem verify_eq_error_iff {e : LintError} : verify ps remaining = .error e ↔
    ∃ ruleId, FirstExceeding ps remaining ruleId ∧
      e = .fixVerification ruleId (excess ps remaining ruleId) := by
  simp only [← find?_fixingIds_eq_some_iff, ← persisting_eq]
  unfold verify
  cases h : (Proposal.fixingIds ps).find? fun id => !(persisting ps remaining id).isEmpty with
  | none => simp
  | some id => simp [eq_comm]

theorem exists_firstExceeding_iff : (∃ ruleId, FirstExceeding ps remaining ruleId) ↔
    ∃ p ∈ ps, p.edit.isSome = true ∧ Exceeds ps remaining p.finding.rule.id := by
  constructor
  · rintro ⟨_, before, p, after, rfl, hedit, rfl, hexceeds, -⟩
    exact ⟨p, by simp, hedit, hexceeds⟩
  · rintro ⟨p, hp, hedit, hexceeds⟩
    have hfound : ((Proposal.fixingIds ps).find? fun id =>
        !(persisting ps remaining id).isEmpty).isSome = true := by
      rw [List.find?_isSome]
      refine ⟨p.finding.rule.id, Proposal.mem_fixingIds.2 ⟨p, hp, hedit, rfl⟩, ?_⟩
      simpa using persisting_ne_nil_iff.2 hexceeds
    obtain ⟨ruleId, hfound⟩ := Option.isSome_iff_exists.1 hfound
    exact ⟨ruleId, find?_fixingIds_eq_some_iff.1 hfound⟩

theorem verify_eq_ok_iff_forall : verify ps remaining = .ok () ↔
    ∀ p ∈ ps, p.edit.isSome = true → ¬Exceeds ps remaining p.finding.rule.id := by
  have hnone : (¬∃ p ∈ ps, p.edit.isSome = true ∧ Exceeds ps remaining p.finding.rule.id) ↔
      ∀ p ∈ ps, p.edit.isSome = true → ¬Exceeds ps remaining p.finding.rule.id := by
    simp only [not_exists, not_and]
  rw [← hnone, ← exists_firstExceeding_iff]
  cases h : verify ps remaining with
  | ok _ =>
    refine iff_of_true rfl ?_
    rintro ⟨ruleId, hfirst⟩
    cases h.symm.trans (verify_eq_error_iff.2 ⟨ruleId, hfirst, rfl⟩)
  | error e =>
    obtain ⟨ruleId, hfirst, -⟩ := verify_eq_error_iff.1 h
    exact iff_of_false nofun (not_not_intro ⟨ruleId, hfirst⟩)

variable {x : Linter} {reader : SchemaReader} {file newFile : SchemaFile} {source : String}
  {found : List Finding} {text : List Char} {reported : List Failure}

theorem fix_eq_verify (proposes : x.Proposes file source found ps) (edited : Proposal.edits ps ≠ [])
    (applied : Edit.applyAll source.toList (Proposal.edits ps) = .ok text)
    (reread : reader file.filename (String.ofList text) = .ok newFile)
    (rechecked : failuresOf x.rules newFile = .ok reported) :
    x.fix reader file source = do
      verify ps (reported.filter (x.stands (String.ofList text)))
      return ⟨String.ofList text,
        x.overrideSeverities (reported.filter (x.stands (String.ofList text))),
        (Proposal.edits ps).eraseDups.length⟩ := by
  have hasked : (found.filter fun finding => !(x.allowances source).allows finding.failure).mapM
      (Proposal.ofFinding ⟨file.filename, source.toList⟩) = .ok ps := proposes.asked
  have hedited : ¬(Proposal.edits ps).isEmpty = true := by simpa using edited
  unfold fix
  rw [proposes.dispatched]
  dsimp only [bind, Except.bind]
  rw [hasked]
  dsimp only
  rw [if_neg hedited, applied]
  dsimp only [Except.mapError]
  rw [reread]
  dsimp only
  rw [rechecked]
  rfl

/-- A fix with edits that reads its new text again and checks it is refused exactly where a rule with
an edit has more failures of a message left than it left alone.  Blamed are the first such rule and
the failures that go beyond.  Otherwise the new text is the outcome. -/
theorem fix_refused_iff (proposes : x.Proposes file source found ps)
    (edited : Proposal.edits ps ≠ [])
    (applied : Edit.applyAll source.toList (Proposal.edits ps) = .ok text)
    (reread : reader file.filename (String.ofList text) = .ok newFile)
    (rechecked : failuresOf x.rules newFile = .ok reported) :
    let remaining := reported.filter (x.stands (String.ofList text))
    (∀ ruleId fs, x.fix reader file source = .error (.fixVerification ruleId fs) ↔
        FirstExceeding ps remaining ruleId ∧ fs = excess ps remaining ruleId) ∧
      ((∃ ruleId fs, x.fix reader file source = .error (.fixVerification ruleId fs)) ↔
        ∃ p ∈ ps, p.edit.isSome = true ∧ Exceeds ps remaining p.finding.rule.id) ∧
      (x.fix reader file source = .ok ⟨String.ofList text, x.overrideSeverities remaining,
          (Proposal.edits ps).eraseDups.length⟩ ↔
        ∀ p ∈ ps, p.edit.isSome = true → ¬Exceeds ps remaining p.finding.rule.id) := by
  intro remaining
  have hfix := fix_eq_verify proposes edited applied reread rechecked
  have hblame : ∀ ruleId fs, x.fix reader file source = .error (.fixVerification ruleId fs) ↔
      FirstExceeding ps remaining ruleId ∧ fs = excess ps remaining ruleId := by
    intro ruleId fs
    calc x.fix reader file source = .error (.fixVerification ruleId fs)
      _ ↔ verify ps remaining = .error (.fixVerification ruleId fs) := by
        rw [hfix]
        cases verify ps remaining <;> simp [bind, Except.bind, pure, Except.pure]
      _ ↔ FirstExceeding ps remaining ruleId ∧ fs = excess ps remaining ruleId := by
        rw [verify_eq_error_iff]
        constructor
        · rintro ⟨_, hfirst, he⟩
          obtain ⟨rfl, rfl⟩ := LintError.fixVerification.inj he
          exact ⟨hfirst, rfl⟩
        · rintro ⟨hfirst, rfl⟩
          exact ⟨ruleId, hfirst, rfl⟩
  refine ⟨hblame, ?_, ?_⟩
  · simp only [hblame, exists_and_left, exists_eq, and_true, exists_firstExceeding_iff]
  · calc x.fix reader file source = .ok ⟨String.ofList text, x.overrideSeverities remaining,
          (Proposal.edits ps).eraseDups.length⟩
      _ ↔ verify ps remaining = .ok () := by
        rw [hfix]
        cases verify ps remaining <;> simp [remaining, bind, Except.bind, pure, Except.pure]
      _ ↔ ∀ p ∈ ps, p.edit.isSome = true → ¬Exceeds ps remaining p.finding.rule.id :=
        verify_eq_ok_iff_forall

/-- A rule finds two banners missing, alike in words, and writes one of them where it does no good. -/
theorem fix_refused_iff_banner :
    let first : Failure := ⟨.start "a.proto", "BANNER", "no banner", .error⟩
    let second : Failure := { first with position := ⟨"a.proto", 1, 2, 1⟩ }
    let edit : Edit := ⟨"BANNER", 0, 0, "// hello"⟩
    let rule : Rule := ⟨"BANNER", "", .error, true, true, fun _ => true,
      fun _ => .ok [first, second], fun _ _ f => .ok (if f = first then some edit else none)⟩
    let x : Linter := ⟨[rule], true, .default⟩
    let file : SchemaFile := ⟨"a.proto", [], default⟩
    let reader : SchemaReader := fun _ _ => .ok file
    let found : List Finding := [⟨.file file, 0, rule, first⟩, ⟨.file file, 0, rule, second⟩]
    let ps : List Proposal :=
      [⟨⟨.file file, 0, rule, first⟩, some edit⟩, ⟨⟨.file file, 0, rule, second⟩, none⟩]
    let text := "// hello\n".toList
    x.Proposes file "\n" found ps ∧ Proposal.edits ps ≠ [] ∧
      Edit.applyAll "\n".toList (Proposal.edits ps) = .ok text ∧
      reader file.filename (String.ofList text) = .ok file ∧
      failuresOf x.rules file = .ok [first, second] ∧
      x.fix reader file "\n" = .error (.fixVerification "BANNER" [second]) := by
  intro first second edit rule x file reader found ps text
  have hstands : ∀ f ∈ found.map Finding.failure, x.stands "\n" f = true := by decide +kernel
  have hfound : found.filter (x.stands "\n" ·.failure) = found :=
    List.filter_eq_self.2 fun _ hf => hstands _ (List.mem_map_of_mem hf)
  have hproposes : x.Proposes file "\n" found ps := by
    refine ⟨rfl, ?_⟩
    rw [hfound]
    rfl
  have hedits : Proposal.edits ps = [edit] := rfl
  have hedited : Proposal.edits ps ≠ [] := by simp [hedits]
  have happlied : Edit.applyAll "\n".toList (Proposal.edits ps) = .ok text :=
    eq_ok_of_toOption (by decide +kernel)
  have hremaining : [first, second].filter (x.stands (String.ofList text)) = [first, second] := by
    decide +kernel
  have hreread : reader file.filename (String.ofList text) = .ok file := rfl
  have hrechecked : failuresOf x.rules file = .ok [first, second] := rfl
  obtain ⟨hblame, -⟩ := fix_refused_iff hproposes hedited happlied hreread hrechecked
  refine ⟨hproposes, hedited, happlied, hreread, hrechecked, (hblame _ _).2 ?_⟩
  rw [hremaining]
  refine ⟨⟨[], _, _, rfl, rfl, rfl, ⟨"no banner", ?_⟩, by simp⟩, ?_⟩
  · decide
  · decide

end Linter

end SchemaLint
