import SchemaLint.Proofs.Linter.Findings
import SchemaLint.Proofs.Linter.Stages
import SchemaLint.Proofs.Linter.Visits

/-!
# What a rule that edits leaves behind

Verification goes by the rule ids that failures bear.  So it holds a rule to what it left alone as
far as the rule's failures, and no others, bear the rule's id; what a rule reports under another id
escapes it.
-/

set_option autoImplicit false
set_option relaxedAutoImplicit false

namespace SchemaLint

theorem Proposal.finding_of_ofFinding {source : SourceText} {finding : Finding} {p : Proposal}
    (h : ofFinding source finding = .ok p) : p.finding = finding := by
  simp only [ofFinding] at h
  split at h
  · rw [← Except.ok.inj h]
  · split at h
    · cases h
    · cases h
    · rw [← Except.ok.inj h]
    · split at h
      · rw [← Except.ok.inj h]
      · cases h

theorem rule_mem_zipIdx {rules : List Rule} {file : SchemaFile} {found : List Finding}
    (dispatched : dispatch rules file = .ok found) {finding : Finding} (mem : finding ∈ found) :
    (finding.rule, finding.index) ∈ rules.zipIdx := by
  rw [(dispatch_eq_ok_iff_visits.1 dispatched).2] at mem
  obtain ⟨v, hv, hmem⟩ := List.mem_flatMap.1 mem
  obtain ⟨node, -, hnode⟩ := List.mem_flatMap.1 hv
  obtain ⟨entry, hentry, rfl⟩ := List.mem_map.1 hnode
  obtain ⟨f, -, rfl⟩ := List.mem_map.1 hmem
  exact hentry

namespace Linter

variable {x : Linter} {reader : SchemaReader} {file : SchemaFile} {source : String}
  {o : FixOutcome} {found : List Finding} {ps : List Proposal} {rule : Rule} {index : Nat}

theorem Proposes.map_finding (h : x.Proposes file source found ps) :
    ps.map Proposal.finding = found.filter (x.stands source ·.failure) := by
  have hall := (mapM_eq_ok_iff.1 h.asked).imp fun _ _ => Proposal.finding_of_ofFinding
  have heq : List.Forall₂ (· = ·) (found.filter (x.stands source ·.failure))
      (ps.map Proposal.finding) :=
    List.forall₂_map_right_iff.2 (hall.imp fun _ _ => Eq.symm)
  rw [List.forall₂_eq_eq_eq] at heq
  exact heq.symm

theorem Proposes.rule_eq (h : x.Proposes file source found ps)
    (listed : (rule, index) ∈ x.rules.zipIdx) {p : Proposal} (mem : p ∈ ps)
    (here : p.finding.index = index) : p.finding.rule = rule := by
  have hfinding : p.finding ∈ found.filter (x.stands source ·.failure) := by
    rw [← h.map_finding]
    exact List.mem_map_of_mem mem
  have hentry := rule_mem_zipIdx h.dispatched (List.mem_of_mem_filter hfinding)
  rw [List.mk_mem_zipIdx_iff_getElem?] at listed hentry
  rw [here, listed] at hentry
  exact (Option.some.inj hentry).symm

theorem length_labelled_le (proposes : x.Proposes file source found ps)
    (fixed : x.fix reader file source = .ok o) (listed : (rule, index) ∈ x.rules.zipIdx)
    (edited : ∃ p ∈ ps, p.finding.index = index ∧ p.edit.isSome = true) :
    ∃ newFile, reader file.filename o.text = .ok newFile ∧
      ((rule.reportsOn newFile).filter fun f => x.stands o.text f && f.ruleId = rule.id).length ≤
        (ps.filter fun p => p.edit.isNone && p.finding.failure.ruleId = rule.id).length := by
  obtain ⟨p, hp, hindex, hedit⟩ := edited
  obtain ⟨found', ps', hproposes, hends⟩ := fix_eq_ok_iff.1 fixed
  obtain rfl : found = found' := Except.ok.inj (proposes.dispatched.symm.trans hproposes.dispatched)
  obtain rfl : ps = ps' := Except.ok.inj (proposes.asked.symm.trans hproposes.asked)
  obtain ⟨edit, hedit'⟩ := Option.isSome_iff_exists.1 hedit
  have hmem : edit ∈ Proposal.edits ps := List.mem_filterMap.2 ⟨p, hp, hedit'⟩
  obtain ⟨hnone, -⟩ | ⟨-, text, newFile, reported, happlies, rfl⟩ := hends
  · rw [hnone] at hmem
    cases hmem
  have hfixing : rule.id ∈ Proposal.fixingIds ps :=
    Proposal.mem_fixingIds.2 ⟨p, hp, hedit, by rw [proposes.rule_eq listed hp hindex]⟩
  have hverified := (verify_eq_ok_iff.1 happlies.verified rule.id hfixing).length_le
  obtain ⟨newFound, hnew, rfl⟩ := failuresOf_eq_ok_iff.1 happlies.rechecked
  refine ⟨newFile, happlies.reread, ?_⟩
  calc ((rule.reportsOn newFile).filter fun f =>
          x.stands (String.ofList text) f && f.ruleId = rule.id).length
    _ ≤ ((newFound.map Finding.failure).filter fun f =>
          x.stands (String.ofList text) f && f.ruleId = rule.id).length := by
      rw [← map_failure_filter_index hnew listed]
      exact ((List.filter_sublist.map _).filter _).length_le
    _ = (((newFound.map Finding.failure).filter (x.stands (String.ofList text))).filter
          (·.ruleId = rule.id)).length := by
      rw [List.filter_filter]
      simp only [Bool.and_comm]
    _ ≤ (ps.filter fun p => p.edit.isNone && p.finding.failure.ruleId = rule.id).length := by
      simpa [Proposal.tolerated] using hverified

/-- A rule with an edit has no more failures left in the new text than it left alone in the old one,
provided that those that are left bear its id, and that no other rule left failures of that id
alone. -/
theorem length_left_le (proposes : x.Proposes file source found ps)
    (fixed : x.fix reader file source = .ok o) (listed : (rule, index) ∈ x.rules.zipIdx)
    (edited : ∃ p ∈ ps, p.finding.index = index ∧ p.edit.isSome = true)
    (sole : ∀ p ∈ ps, p.edit = none → p.finding.failure.ruleId = rule.id →
      p.finding.index = index) :
    ∃ newFile, reader file.filename o.text = .ok newFile ∧
      ((∀ f ∈ rule.reportsOn newFile, x.stands o.text f = true → f.ruleId = rule.id) →
        ((rule.reportsOn newFile).filter (x.stands o.text)).length ≤
          (ps.filter fun p => p.finding.index = index && p.edit.isNone).length) := by
  obtain ⟨newFile, hreread, hle⟩ := length_labelled_le proposes fixed listed edited
  refine ⟨newFile, hreread, fun own => ?_⟩
  calc ((rule.reportsOn newFile).filter (x.stands o.text)).length
    _ = ((rule.reportsOn newFile).filter fun f =>
          x.stands o.text f && f.ruleId = rule.id).length := by
      refine congrArg List.length (List.filter_congr fun f hf => ?_)
      cases hstands : x.stands o.text f with
      | false => rfl
      | true => simp [own f hf hstands]
    _ ≤ (ps.filter fun p => p.edit.isNone && p.finding.failure.ruleId = rule.id).length := hle
    _ ≤ (ps.filter fun p => p.finding.index = index && p.edit.isNone).length := by
      rw [← List.countP_eq_length_filter, ← List.countP_eq_length_filter]
      refine List.countP_mono_left fun p hp h => ?_
      simp only [Bool.and_eq_true, Option.isNone_iff_eq_none, decide_eq_true_eq] at h ⊢
      exact ⟨sole p hp h.1 h.2, h.1⟩

/-- Whatever can be said of a run over a text, its proposals, its outcome and the new file, is known
once the run is made. -/
private theorem exists_run {α : Type} (x : Linter) (filename source : String)
    (view : List Proposal → FixOutcome → SchemaFile → α) (a : α)
    (run : ((SchemaFile.parse filename source).toOption.bind fun file =>
      (dispatch x.rules file).toOption.bind fun found =>
        ((found.filter (x.stands source ·.failure)).mapM
            (Proposal.ofFinding ⟨file.filename, source.toList⟩)).toOption.bind fun ps =>
          (x.fix SchemaFile.parse file source).toOption.bind fun o =>
            (SchemaFile.parse file.filename o.text).toOption.map (view ps o)) = some a) :
    ∃ file found ps o newFile, SchemaFile.parse filename source = .ok file ∧
      x.Proposes file source found ps ∧ x.fix SchemaFile.parse file source = .ok o ∧
      SchemaFile.parse file.filename o.text = .ok newFile ∧ view ps o newFile = a := by
  obtain ⟨file, hfile, run⟩ := Option.bind_eq_some_iff.1 run
  obtain ⟨found, hfound, run⟩ := Option.bind_eq_some_iff.1 run
  obtain ⟨ps, hps, run⟩ := Option.bind_eq_some_iff.1 run
  obtain ⟨o, ho, run⟩ := Option.bind_eq_some_iff.1 run
  obtain ⟨newFile, hnew, run⟩ := Option.map_eq_some_iff.1 run
  exact ⟨file, found, ps, o, newFile, eq_ok_of_toOption hfile,
    ⟨eq_ok_of_toOption hfound, eq_ok_of_toOption hps⟩, eq_ok_of_toOption ho,
    eq_ok_of_toOption hnew, run⟩

/-- A rule on two messages that renames the first, leaves the second alone, and has one left. -/
theorem length_left_le_messages :
    let name (node : Node) : String := node.name?.getD ""
    let rule : Rule := ⟨"X", "", .error, true, true, (· = .message),
      fun node => .ok (if name node = "A" then [] else [⟨node.span.first, "X", "bad", .error⟩]),
      fun _ node _ => .ok (if name node = "a" then some ⟨"X", 8, 9, "A"⟩ else none)⟩
    let x : Linter := ⟨[rule], true, .default⟩
    let source := "message a \x7b\x7d\nmessage b \x7b\x7d\n"
    ∃ file found ps o newFile, SchemaFile.parse "s.proto" source = .ok file ∧
      x.Proposes file source found ps ∧ x.fix SchemaFile.parse file source = .ok o ∧
      (rule, 0) ∈ x.rules.zipIdx ∧ (∃ p ∈ ps, p.finding.index = 0 ∧ p.edit.isSome = true) ∧
      (∀ p ∈ ps, p.edit = none → p.finding.failure.ruleId = rule.id → p.finding.index = 0) ∧
      SchemaFile.parse file.filename o.text = .ok newFile ∧
      (∀ f ∈ rule.reportsOn newFile, x.stands o.text f = true → f.ruleId = rule.id) ∧
      ((rule.reportsOn newFile).filter (x.stands o.text)).length ≤
        (ps.filter fun p => p.finding.index = 0 && p.edit.isNone).length := by
  intro name rule x source
  obtain ⟨file, found, ps, o, newFile, hfile, hproposes, hfixed, hnew, hview⟩ :=
    exists_run x "s.proto" source
      (fun ps o newFile => (ps.map fun p => (p.finding.index, p.edit.isSome),
        ((rule.reportsOn newFile).filter (x.stands o.text)).map Failure.ruleId))
      ([(0, true), (0, false)], ["X"]) (by decide +kernel)
  obtain ⟨hps, hleft⟩ := Prod.mk.inj hview
  have hindex : ∀ p ∈ ps, p.finding.index = 0 := by
    intro p hp
    have hpair : (p.finding.index, p.edit.isSome) ∈ [(0, true), (0, false)] :=
      hps ▸ List.mem_map_of_mem hp
    simp only [List.mem_cons, List.not_mem_nil, or_false, Prod.mk.injEq] at hpair
    rcases hpair with h | h <;> exact h.1
  have hedited : ∃ p ∈ ps, p.finding.index = 0 ∧ p.edit.isSome = true := by
    have hpair : (0, true) ∈ ps.map fun p => (p.finding.index, p.edit.isSome) := by simp [hps]
    obtain ⟨p, hp, he⟩ := List.mem_map.1 hpair
    exact ⟨p, hp, Prod.mk.inj he⟩
  have hown : ∀ f ∈ rule.reportsOn newFile, x.stands o.text f = true → f.ruleId = rule.id := by
    intro f hf hstands
    have hid : f.ruleId ∈ ["X"] := hleft ▸ List.mem_map_of_mem (List.mem_filter.2 ⟨hf, hstands⟩)
    exact List.mem_singleton.1 hid
  have hlisted : (rule, 0) ∈ x.rules.zipIdx := List.mem_singleton.2 rfl
  have hsole : ∀ p ∈ ps, p.edit = none → p.finding.failure.ruleId = rule.id →
      p.finding.index = 0 := fun p hp _ _ => hindex p hp
  obtain ⟨again, hagain, hle⟩ := length_left_le hproposes hfixed hlisted hedited hsole
  obtain rfl : newFile = again := Except.ok.inj (hnew.symm.trans hagain)
  exact ⟨file, found, ps, o, newFile, hfile, hproposes, hfixed, hlisted, hedited, hsole, hnew, hown,
    hle hown⟩

/-- A rule that reports under another id than its own renames a message, declines nothing, and has the
same failure left in a text that passes for fixed. -/
theorem length_left_under_other_id :
    let rule : Rule := ⟨"X", "", .error, true, true, (· = .message),
      fun node => .ok [⟨node.span.first, "Z", "bad", .error⟩],
      fun _ _ _ => .ok (some ⟨"X", 8, 9, "A"⟩)⟩
    let x : Linter := ⟨[rule], true, .default⟩
    let source := "message a \x7b\x7d\n"
    ∃ file found ps o newFile, SchemaFile.parse "s.proto" source = .ok file ∧
      x.Proposes file source found ps ∧ x.fix SchemaFile.parse file source = .ok o ∧
      (rule, 0) ∈ x.rules.zipIdx ∧ (∃ p ∈ ps, p.finding.index = 0 ∧ p.edit.isSome = true) ∧
      SchemaFile.parse file.filename o.text = .ok newFile ∧
      (ps.filter fun p => p.finding.index = 0 && p.edit.isNone).length <
        ((rule.reportsOn newFile).filter (x.stands o.text)).length := by
  intro rule x source
  obtain ⟨file, found, ps, o, newFile, hfile, hproposes, hfixed, hnew, hview⟩ :=
    exists_run x "s.proto" source
      (fun ps o newFile => (ps.any fun p => p.finding.index = 0 && p.edit.isSome,
        (ps.filter fun p => p.finding.index = 0 && p.edit.isNone).length,
        ((rule.reportsOn newFile).filter (x.stands o.text)).length))
      (true, 0, 1) (by decide +kernel)
  obtain ⟨hany, hcounts⟩ := Prod.mk.inj hview
  obtain ⟨hdeclined, hleft⟩ := Prod.mk.inj hcounts
  have hedited : ∃ p ∈ ps, p.finding.index = 0 ∧ p.edit.isSome = true := by
    simpa using hany
  refine ⟨file, found, ps, o, newFile, hfile, hproposes, hfixed, List.mem_singleton.2 rfl, hedited,
    hnew, ?_⟩
  rw [hdeclined, hleft]
  decide

end Linter

end SchemaLint
