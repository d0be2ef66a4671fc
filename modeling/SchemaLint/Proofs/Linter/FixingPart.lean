import SchemaLint.Proofs.Linter.Order
import SchemaLint.Proofs.Linter.OwnFailures

/-!
# Rules that only check

A rule that makes no edits is heard by no one but the reader of the report.  Without such rules, and
with other severities, a fix makes the same edits and is refused or accepted as before.
-/

set_option autoImplicit false
set_option relaxedAutoImplicit false

namespace SchemaLint

variable {rules : List Rule} {file : SchemaFile}

def SchemaFile.reports (file : SchemaFile) (rules : List Rule) : List Finding :=
  file.nodes.flatMap fun node => rules.flatMap fun rule =>
    (rule.reportsAt node).map fun failure => ⟨node, 0, rule, failure⟩

theorem SchemaFile.filter_reports (file : SchemaFile) (rules : List Rule) (keep : Rule → Bool) :
    (file.reports rules).filter (keep ·.rule) = file.reports (rules.filter keep) := by
  have hnode : ∀ node : Node, (rules.flatMap fun rule => (rule.reportsAt node).map fun failure =>
        (⟨node, 0, rule, failure⟩ : Finding)).filter (keep ·.rule) =
      (rules.filter keep).flatMap fun rule => (rule.reportsAt node).map fun failure =>
        (⟨node, 0, rule, failure⟩ : Finding) := by
    intro node
    induction rules with
    | nil => rfl
    | cons rule rules ih =>
      rw [List.flatMap_cons, List.filter_append, ih, List.filter_map]
      cases hkeep : keep rule with
      | true => simp [hkeep, Function.comp_def]
      | false => simp [hkeep, Function.comp_def]
  unfold reports
  rw [List.filter_flatMap]
  simp only [hnode]

theorem SchemaFile.mem_reports {f : Finding} (h : f ∈ file.reports rules) :
    f.rule ∈ rules ∧ f.node ∈ file.nodes ∧ f.failure ∈ f.rule.reportsAt f.node := by
  obtain ⟨node, hnode, h⟩ := List.mem_flatMap.1 h
  obtain ⟨rule, hrule, h⟩ := List.mem_flatMap.1 h
  obtain ⟨failure, hfailure, rfl⟩ := List.mem_map.1 h
  exact ⟨hrule, hnode, hfailure⟩

private theorem forall_visits_iff :
    (∀ v ∈ file.visits rules, v.2.1.Answers v.1) ↔
      ∀ rule ∈ rules, ∀ node ∈ file.nodes, rule.Answers node := by
  constructor
  · intro h rule hrule node hnode
    obtain ⟨index, hindex⟩ := List.getElem?_of_mem hrule
    refine h (node, rule, index) (List.mem_flatMap.2 ⟨node, hnode, List.mem_map_of_mem ?_⟩)
    exact List.mk_mem_zipIdx_iff_getElem?.2 hindex
  · intro h v hv
    obtain ⟨node, hnode, hv⟩ := List.mem_flatMap.1 hv
    obtain ⟨entry, hentry, rfl⟩ := List.mem_map.1 hv
    exact h entry.1 (List.fst_mem_of_mem_zipIdx hentry) node hnode

theorem exists_dispatch_iff {fs : List Finding} :
    (∃ found, dispatch rules file = .ok found ∧ found.map Finding.unplaced = fs) ↔
      (∀ rule ∈ rules, ∀ node ∈ file.nodes, rule.Answers node) ∧ file.reports rules = fs := by
  have hvisits : ((file.visits rules).flatMap Dispatch.findingsOf).map Finding.unplaced =
      file.reports rules := by
    unfold SchemaFile.visits SchemaFile.reports
    rw [List.map_flatMap, List.flatMap_assoc]
    refine List.flatMap_congr fun node _ => ?_
    unfold Node.visits
    rw [List.flatMap_map]
    conv_rhs => rw [← List.zipIdx_map_fst 0 rules, List.flatMap_map]
    refine List.flatMap_congr fun entry _ => ?_
    simp [Dispatch.findingsOf, Finding.unplaced, Function.comp_def]
  rw [← forall_visits_iff]
  constructor
  · rintro ⟨found, hfound, rfl⟩
    obtain ⟨hall, rfl⟩ := dispatch_eq_ok_iff_visits.1 hfound
    exact ⟨hall, hvisits.symm⟩
  · rintro ⟨hall, rfl⟩
    exact ⟨_, dispatch_eq_ok_iff_visits.2 ⟨hall, rfl⟩, hvisits⟩

theorem failuresOf_eq_ok_iff_reports {fs : List Failure} : failuresOf rules file = .ok fs ↔
    (∀ rule ∈ rules, ∀ node ∈ file.nodes, rule.Answers node) ∧
      (file.reports rules).map Finding.failure = fs := by
  rw [Linter.failuresOf_eq_ok_iff]
  constructor
  · rintro ⟨found, hfound, rfl⟩
    obtain ⟨hall, hreports⟩ := exists_dispatch_iff.1 ⟨found, hfound, rfl⟩
    rw [hreports, Finding.map_failure_unplaced]
    exact ⟨hall, rfl⟩
  · rintro ⟨hall, rfl⟩
    obtain ⟨found, hfound, hreports⟩ := exists_dispatch_iff.2 ⟨hall, rfl⟩
    rw [← hreports, Finding.map_failure_unplaced]
    exact ⟨found, hfound, rfl⟩

private theorem filter_filter_of_imp {α : Type} {keep test : α → Bool} {as : List α}
    (h : ∀ a ∈ as, keep a = false → test a = false) :
    (as.filter keep).filter test = as.filter test := by
  rw [List.filter_filter]
  refine List.filter_congr fun a ha => ?_
  cases hkeep : keep a with
  | true => simp
  | false => simp [h a ha hkeep]

namespace Proposal

variable {source : SourceText} {finding : Finding} {ps : List Proposal}

theorem ofFinding_of_checks (source : SourceText) (checks : finding.rule.fixes = false) :
    ofFinding source finding = .ok ⟨finding, none⟩ := by
  simp [ofFinding, checks]

theorem mapM_ofFinding_filter (source : SourceText) (found : List Finding) :
    (found.filter fun finding => finding.rule.fixes).mapM (ofFinding source) =
      (found.mapM (ofFinding source)).map (List.filter fun p => p.finding.rule.fixes) := by
  induction found with
  | nil => rfl
  | cons finding found ih =>
    rw [List.filter_cons, List.mapM_cons]
    cases hfixes : finding.rule.fixes with
    | true =>
      rw [if_pos rfl, List.mapM_cons, ih]
      cases hp : ofFinding source finding with
      | error e => rfl
      | ok p =>
        have hkept : p.finding.rule.fixes = true := by rw [finding_of_ofFinding hp, hfixes]
        cases found.mapM (ofFinding source) with
        | error e => rfl
        | ok ps => simp [bind, Except.bind, Except.map, pure, Except.pure, hkept]
    | false =>
      rw [if_neg (by decide), ih, ofFinding_of_checks source hfixes]
      cases found.mapM (ofFinding source) with
      | error e => rfl
      | ok ps => simp [bind, Except.bind, Except.map, pure, Except.pure, hfixes]

theorem edits_filter (checks : ∀ p ∈ ps, p.finding.rule.fixes = false → p.edit = none) :
    edits (ps.filter fun p => p.finding.rule.fixes) = edits ps := by
  unfold edits
  rw [List.filterMap_filter]
  refine List.filterMap_congr fun p hp => ?_
  cases hfixes : p.finding.rule.fixes with
  | true => rfl
  | false => simp [checks p hp hfixes]

end Proposal

theorem NamingPolicy.ruleId_of_mem_reportsAt {policy : NamingPolicy} {fix : Bool} {node : Node}
    {f : Failure} (h : f ∈ (policy.rule fix).reportsAt node) : f.ruleId = policy.id := by
  have hcheck : f ∈ policy.check node := by
    unfold Rule.reportsAt at h
    split at h
    · exact h
    · cases h
  unfold check at hcheck
  split at hcheck
  · cases hcheck
  · split at hcheck
    · cases hcheck
    · rw [List.mem_singleton.1 hcheck]
      rfl

def Failure.said (f : Failure) : Position × String × String :=
  (f.position, f.ruleId, f.message)

namespace Linter

variable {x y : Linter} {reader : SchemaReader} {source : String} {o : FixOutcome}
  {found found' : List Finding} {ps ps' : List Proposal}

/-- Whether a rule id is that of a rule that makes an edit of the file. -/
def Contributes (x : Linter) (file : SchemaFile) (source ruleId : String) : Prop :=
  ∃ found ps, x.Proposes file source found ps ∧
    ∃ p ∈ ps, p.edit.isSome = true ∧ p.finding.rule.id = ruleId

/-- Whether a tree is what the text denotes once the edits are made. -/
def Rewrites (x : Linter) (reader : SchemaReader) (file : SchemaFile) (source : String)
    (tree : SchemaFile) : Prop :=
  ∃ found ps text, x.Proposes file source found ps ∧ Proposal.edits ps ≠ [] ∧
    Edit.applyAll source.toList (Proposal.edits ps) = .ok text ∧
    reader file.filename (String.ofList text) = .ok tree

/-- Whether the rules that make no edits break down nowhere in a tree, and report nothing there under
the id of a rule that makes one. -/
def Harmless (x : Linter) (file : SchemaFile) (source : String) (tree : SchemaFile) : Prop :=
  ∀ rule ∈ x.rules, rule.fixes = false → ∀ node ∈ tree.nodes,
    rule.Answers node ∧ ∀ f ∈ rule.reportsAt node, ¬x.Contributes file source f.ruleId

/-- Whether a linter has just those rules of another that may make edits, and respects directives
where it does. -/
structure FixingPart (x y : Linter) : Prop where
  rules : y.rules = x.rules.filter Rule.fixes
  directives : y.config.lint.respectDirectives = x.config.lint.respectDirectives

theorem map_said_overrideSeverities (x : Linter) (fs : List Failure) :
    (x.overrideSeverities fs).map Failure.said = fs.map Failure.said := by
  unfold overrideSeverities
  rw [List.map_map]
  rfl

theorem exists_proposes_iff {qs : List Proposal} :
    (∃ found ps, x.Proposes file source found ps ∧ ps.map Proposal.unplaced = qs) ↔
      (∀ rule ∈ x.rules, ∀ node ∈ file.nodes, rule.Answers node) ∧
        ((file.reports x.rules).filter (x.stands source ·.failure)).mapM
          (Proposal.ofFinding ⟨file.filename, source.toList⟩) = .ok qs := by
  have hunplaced : ∀ found : List Finding,
      ((found.map Finding.unplaced).filter (x.stands source ·.failure)).mapM
          (Proposal.ofFinding ⟨file.filename, source.toList⟩) =
        ((found.filter (x.stands source ·.failure)).mapM
          (Proposal.ofFinding ⟨file.filename, source.toList⟩)).map (List.map Proposal.unplaced) := by
    intro found
    rw [← Proposal.mapM_ofFinding_unplaced, List.filter_map]
    rfl
  constructor
  · rintro ⟨found, ps, ⟨hdispatched, hasked⟩, rfl⟩
    obtain ⟨hall, hreports⟩ := exists_dispatch_iff.1 ⟨found, hdispatched, rfl⟩
    refine ⟨hall, ?_⟩
    rw [hreports, hunplaced, hasked]
    rfl
  · rintro ⟨hall, hasked⟩
    obtain ⟨found, hdispatched, hreports⟩ := exists_dispatch_iff.2 ⟨hall, rfl⟩
    rw [← hreports, hunplaced] at hasked
    cases hps : (found.filter (x.stands source ·.failure)).mapM
        (Proposal.ofFinding ⟨file.filename, source.toList⟩) with
    | error e =>
      rw [hps] at hasked
      cases hasked
    | ok ps =>
      rw [hps] at hasked
      exact ⟨found, ps, ⟨hdispatched, hps⟩, Except.ok.inj hasked⟩

theorem Proposes.edit_eq_none (h : x.Proposes file source found ps) {p : Proposal} (hp : p ∈ ps)
    (checks : p.finding.rule.fixes = false) : p.edit = none := by
  have hasked := h.asked
  rw [← h.map_finding, mapM_eq_ok_iff, List.forall₂_map_left_iff, List.forall₂_same] at hasked
  have hanswer := (hasked p hp).symm.trans (Proposal.ofFinding_of_checks _ checks)
  exact congrArg Proposal.edit (Except.ok.inj hanswer)

theorem Proposes.mem_reports (h : x.Proposes file source found ps) {p : Proposal} (hp : p ∈ ps) :
    p.finding.unplaced ∈ file.reports x.rules := by
  have hfinding : p.finding ∈ found.filter (x.stands source ·.failure) := by
    rw [← h.map_finding]
    exact List.mem_map_of_mem hp
  obtain ⟨-, hreports⟩ := exists_dispatch_iff.1 ⟨found, h.dispatched, rfl⟩
  rw [hreports]
  exact List.mem_map_of_mem (List.mem_of_mem_filter hfinding)

theorem Proposes.map_failure (h : x.Proposes file source found ps) :
    (found.filter (x.stands source ·.failure)).map Finding.failure =
      ((file.reports x.rules).map Finding.failure).filter (x.stands source) := by
  obtain ⟨-, hreports⟩ := exists_dispatch_iff.1 ⟨found, h.dispatched, rfl⟩
  rw [hreports, Finding.map_failure_unplaced, List.filter_map]
  rfl

theorem Contributes.exists_rule {ruleId : String} (h : x.Contributes file source ruleId) :
    ∃ rule ∈ x.rules, rule.fixes = true ∧ rule.id = ruleId := by
  obtain ⟨found, ps, hproposes, p, hp, hedit, hid⟩ := h
  refine ⟨p.finding.rule, (SchemaFile.mem_reports (hproposes.mem_reports hp)).1, ?_, hid⟩
  by_contra hfixes
  rw [hproposes.edit_eq_none hp (Bool.eq_false_iff.2 hfixes)] at hedit
  cases hedit

namespace FixingPart

theorem stands_eq (part : x.FixingPart y) : y.stands = x.stands := by
  funext text f
  unfold stands allowances
  rw [part.directives]

theorem answers_iff (part : x.FixingPart y) {tree : SchemaFile}
    (harmless : x.Harmless file source tree) :
    (∀ rule ∈ y.rules, ∀ node ∈ tree.nodes, rule.Answers node) ↔
      ∀ rule ∈ x.rules, ∀ node ∈ tree.nodes, rule.Answers node := by
  rw [part.rules]
  constructor
  · intro h rule hrule node hnode
    cases hfixes : rule.fixes with
    | true => exact h rule (List.mem_filter.2 ⟨hrule, hfixes⟩) node hnode
    | false => exact (harmless rule hrule hfixes node hnode).1
  · exact fun h rule hrule => h rule (List.mem_of_mem_filter hrule)

theorem proposes_iff (part : x.FixingPart y) (harmless : x.Harmless file source file)
    {qs : List Proposal} :
    (∃ found ps, y.Proposes file source found ps ∧ ps.map Proposal.unplaced = qs) ↔
      ∃ found ps, x.Proposes file source found ps ∧
        (ps.map Proposal.unplaced).filter (fun p => p.finding.rule.fixes) = qs := by
  have hasked : ((file.reports y.rules).filter (y.stands source ·.failure)).mapM
        (Proposal.ofFinding ⟨file.filename, source.toList⟩) =
      (((file.reports x.rules).filter (x.stands source ·.failure)).mapM
        (Proposal.ofFinding ⟨file.filename, source.toList⟩)).map
          (List.filter fun p => p.finding.rule.fixes) := by
    rw [part.rules, part.stands_eq, ← file.filter_reports, ← Proposal.mapM_ofFinding_filter,
      List.filter_filter, List.filter_filter]
    simp only [Bool.and_comm]
  rw [exists_proposes_iff, part.answers_iff harmless, hasked]
  constructor
  · rintro ⟨hall, h⟩
    obtain ⟨ps, hps, hqs⟩ := map_eq_ok_iff.1 h
    obtain ⟨found, ps, hproposes, rfl⟩ := exists_proposes_iff.2 ⟨hall, hps⟩
    exact ⟨found, ps, hproposes, hqs⟩
  · rintro ⟨found, ps, hproposes, hqs⟩
    obtain ⟨hall, hps⟩ := exists_proposes_iff.1 ⟨found, ps, hproposes, rfl⟩
    exact ⟨hall, map_eq_ok_iff.2 ⟨_, hps, hqs⟩⟩

/-- The proposals of all rules, and those of the rules that may make edits. -/
structure Pair (x y : Linter) (file : SchemaFile) (source : String) (ps ps' : List Proposal) :
    Prop where
  all : ∃ found, x.Proposes file source found ps
  part : ∃ found, y.Proposes file source found ps'
  same : ps'.map Proposal.unplaced =
    (ps.map Proposal.unplaced).filter fun p => p.finding.rule.fixes

namespace Pair

theorem edit_eq_none (pair : Pair x y file source ps ps') :
    ∀ p ∈ ps.map Proposal.unplaced, p.finding.rule.fixes = false → p.edit = none := by
  obtain ⟨found, hproposes⟩ := pair.all
  intro p hp hchecks
  obtain ⟨q, hq, rfl⟩ := List.mem_map.1 hp
  have hedit : q.edit = none := hproposes.edit_eq_none hq hchecks
  exact hedit

theorem edits_eq (pair : Pair x y file source ps ps') :
    Proposal.edits ps' = Proposal.edits ps := by
  rw [← Proposal.edits_unplaced, pair.same, Proposal.edits_filter pair.edit_eq_none,
    Proposal.edits_unplaced]

theorem mem_fixingIds_iff (pair : Pair x y file source ps ps') {ruleId : String} :
    ruleId ∈ Proposal.fixingIds ps' ↔ ruleId ∈ Proposal.fixingIds ps := by
  rw [← Proposal.mem_fixingIds_unplaced, pair.same, ← @Proposal.mem_fixingIds_unplaced ps,
    Proposal.mem_fixingIds, Proposal.mem_fixingIds]
  constructor
  · rintro ⟨p, hp, h⟩
    exact ⟨p, List.mem_of_mem_filter hp, h⟩
  · rintro ⟨p, hp, hedit, hid⟩
    refine ⟨p, List.mem_filter.2 ⟨hp, ?_⟩, hedit, hid⟩
    cases hfixes : p.finding.rule.fixes with
    | true => rfl
    | false => simp [pair.edit_eq_none p hp hfixes] at hedit

theorem contributes (pair : Pair x y file source ps ps') {ruleId : String}
    (h : ruleId ∈ Proposal.fixingIds ps) : x.Contributes file source ruleId := by
  obtain ⟨found, hproposes⟩ := pair.all
  exact ⟨found, ps, hproposes, Proposal.mem_fixingIds.1 h⟩

theorem tolerated_eq (pair : Pair x y file source ps ps') (harmless : x.Harmless file source file)
    {ruleId : String} (contributes : x.Contributes file source ruleId) :
    Proposal.tolerated ps' ruleId = Proposal.tolerated ps ruleId := by
  obtain ⟨found, hproposes⟩ := pair.all
  rw [← Proposal.tolerated_unplaced, pair.same, ← Proposal.tolerated_unplaced ps]
  unfold Proposal.tolerated
  rw [filter_filter_of_imp]
  intro p hp hchecks
  obtain ⟨q, hq, rfl⟩ := List.mem_map.1 hp
  obtain ⟨hrule, hnode, hreported⟩ := SchemaFile.mem_reports (hproposes.mem_reports hq)
  have hquiet := (harmless _ hrule hchecks _ hnode).2 _ hreported
  have hid : (q.unplaced.finding.failure.ruleId = ruleId) = False :=
    eq_false fun he => hquiet (he ▸ contributes)
  simp [hid]

end Pair

variable {text : List Char} {newFile : SchemaFile}

theorem filter_failures (part : x.FixingPart y) {tree : SchemaFile}
    (harmless : x.Harmless file source tree) {ruleId : String}
    (contributes : x.Contributes file source ruleId) :
    ((tree.reports y.rules).map Finding.failure).filter (·.ruleId = ruleId) =
      ((tree.reports x.rules).map Finding.failure).filter (·.ruleId = ruleId) := by
  rw [part.rules, ← tree.filter_reports, List.filter_map, List.filter_map, filter_filter_of_imp]
  intro f hf hchecks
  obtain ⟨hrule, hnode, hreported⟩ := SchemaFile.mem_reports hf
  have hquiet := (harmless _ hrule hchecks _ hnode).2 _ hreported
  exact decide_eq_false fun he => hquiet (he ▸ contributes)

theorem verify_iff (part : x.FixingPart y) (pair : Pair x y file source ps ps')
    (original : x.Harmless file source file) (rewritten : x.Harmless file source newFile)
    (keep : Failure → Bool) :
    verify ps' (((newFile.reports y.rules).map Finding.failure).filter keep) = .ok () ↔
      verify ps (((newFile.reports x.rules).map Finding.failure).filter keep) = .ok () := by
  rw [verify_eq_ok_iff, verify_eq_ok_iff]
  refine forall_congr' fun ruleId => ?_
  rw [pair.mem_fixingIds_iff]
  refine forall_congr' fun hfixing => ?_
  have hcontributes := pair.contributes hfixing
  rw [pair.tolerated_eq original hcontributes, List.filter_comm, List.filter_comm _ keep,
    part.filter_failures rewritten hcontributes]

theorem failures_sublist (part : x.FixingPart y) (tree : SchemaFile) (text : String) :
    (((tree.reports y.rules).map Finding.failure).filter (y.stands text)).Sublist
      (((tree.reports x.rules).map Finding.failure).filter (x.stands text)) := by
  rw [part.rules, ← tree.filter_reports, part.stands_eq]
  exact (List.filter_sublist.map _).filter _

theorem exists_fix_of_all (part : x.FixingPart y) (original : x.Harmless file source file)
    (rewritten : ∀ tree, x.Rewrites reader file source tree → x.Harmless file source tree)
    (fixed : x.fix reader file source = .ok o) :
    ∃ o', y.fix reader file source = .ok o' ∧ o'.text = o.text ∧
      o'.editsApplied = o.editsApplied ∧
      (o'.failures.map Failure.said).Sublist (o.failures.map Failure.said) := by
  obtain ⟨found, ps, hproposes, hends⟩ := fix_eq_ok_iff.1 fixed
  obtain ⟨found', ps', hproposes', hsame⟩ :=
    (part.proposes_iff original).2 ⟨found, ps, hproposes, rfl⟩
  have pair : Pair x y file source ps ps' := ⟨⟨found, hproposes⟩, ⟨found', hproposes'⟩, hsame⟩
  rcases hends with ⟨hnone, rfl⟩ | ⟨hsome, text, newFile, reported, happlies, rfl⟩
  · have hnone' : Proposal.edits ps' = [] := by rw [pair.edits_eq, hnone]
    refine ⟨_, fix_eq_ok_iff.2 ⟨found', ps', hproposes', .inl ⟨hnone', rfl⟩⟩, rfl, rfl, ?_⟩
    rw [map_said_overrideSeverities, map_said_overrideSeverities, hproposes.map_failure,
      hproposes'.map_failure]
    exact (part.failures_sublist file source).map _
  · have hsome' : Proposal.edits ps' ≠ [] := by rwa [pair.edits_eq]
    obtain ⟨happlied, hreread, hrechecked, hverified⟩ := happlies
    have hharmless := rewritten newFile ⟨found, ps, text, hproposes, hsome, happlied, hreread⟩
    obtain ⟨hall, rfl⟩ := failuresOf_eq_ok_iff_reports.1 hrechecked
    have happlies' : y.Applies reader file source ps' text newFile
        ((newFile.reports y.rules).map Finding.failure) := by
      refine ⟨by rwa [pair.edits_eq], hreread, failuresOf_eq_ok_iff_reports.2
        ⟨(part.answers_iff hharmless).2 hall, rfl⟩, ?_⟩
      rw [part.stands_eq]
      exact (part.verify_iff pair original hharmless _).2 hverified
    refine ⟨_, fix_eq_ok_iff.2 ⟨found', ps', hproposes', .inr ⟨hsome', text, newFile, _,
      happlies', rfl⟩⟩, rfl, by rw [pair.edits_eq], ?_⟩
    rw [map_said_overrideSeverities, map_said_overrideSeverities]
    exact (part.failures_sublist newFile _).map _

theorem exists_fix_of_part (part : x.FixingPart y) (original : x.Harmless file source file)
    (rewritten : ∀ tree, x.Rewrites reader file source tree → x.Harmless file source tree)
    (fixed : y.fix reader file source = .ok o) : ∃ o', x.fix reader file source = .ok o' := by
  obtain ⟨found', ps', hproposes', hends⟩ := fix_eq_ok_iff.1 fixed
  obtain ⟨found, ps, hproposes, hsame⟩ :=
    (part.proposes_iff original).1 ⟨found', ps', hproposes', rfl⟩
  have pair : Pair x y file source ps ps' :=
    ⟨⟨found, hproposes⟩, ⟨found', hproposes'⟩, hsame.symm⟩
  rcases hends with ⟨hnone, -⟩ | ⟨hsome, text, newFile, reported, happlies, -⟩
  · rw [pair.edits_eq] at hnone
    exact ⟨_, fix_eq_ok_iff.2 ⟨found, ps, hproposes, .inl ⟨hnone, rfl⟩⟩⟩
  · obtain ⟨happlied, hreread, hrechecked, hverified⟩ := happlies
    rw [pair.edits_eq] at hsome happlied
    have hharmless := rewritten newFile ⟨found, ps, text, hproposes, hsome, happlied, hreread⟩
    obtain ⟨hall, rfl⟩ := failuresOf_eq_ok_iff_reports.1 hrechecked
    rw [part.stands_eq] at hverified
    have happlies' : x.Applies reader file source ps text newFile
        ((newFile.reports x.rules).map Finding.failure) :=
      ⟨happlied, hreread, failuresOf_eq_ok_iff_reports.2
        ⟨(part.answers_iff hharmless).1 hall, rfl⟩,
        (part.verify_iff pair original hharmless _).1 hverified⟩
    exact ⟨_, fix_eq_ok_iff.2 ⟨found, ps, hproposes, .inr ⟨hsome, text, newFile, _, happlies', rfl⟩⟩⟩

end FixingPart

/-- Rules that make no edits, severities and whatever else is set have no say in a fix, provided that
these rules break down nowhere and report nothing under the id of a rule that makes an edit.  With them
and without them a fix fails, or it gives the same text by as many edits; the failures that are left
without them are among those that are left with them, in the same order. -/
theorem fix_fixingPart (x y : Linter) (part : x.FixingPart y) (reader : SchemaReader)
    (file : SchemaFile) (source : String) (original : x.Harmless file source file)
    (rewritten : ∀ tree, x.Rewrites reader file source tree → x.Harmless file source tree) :
    (∃ e e', x.fix reader file source = .error e ∧ y.fix reader file source = .error e') ∨
      ∃ o o', x.fix reader file source = .ok o ∧ y.fix reader file source = .ok o' ∧
        o'.text = o.text ∧ o'.editsApplied = o.editsApplied ∧
        (o'.failures.map Failure.said).Sublist (o.failures.map Failure.said) := by
  cases h : x.fix reader file source with
  | ok o =>
    obtain ⟨o', hfixed, hoffers⟩ := part.exists_fix_of_all original rewritten h
    exact .inr ⟨o, o', rfl, hfixed, hoffers⟩
  | error e =>
    cases h' : y.fix reader file source with
    | error e' => exact .inl ⟨e, e', rfl, rfl⟩
    | ok o' =>
      obtain ⟨o, hfixed⟩ := part.exists_fix_of_part original rewritten h'
      rw [h] at hfixed
      cases hfixed

/-- One rule renames a call; another, which is left out, only reports the service around it. -/
theorem fix_fixingPart_service :
    let source := "service s \x7b\n  rpc get_a (A) returns (B);\n\x7d\n"
    let first := NamingPolicy.rpcs.rule true
    let second := NamingPolicy.services.rule false
    let x : Linter := ⟨[second, first], true, .default⟩
    let y : Linter := ⟨[first], true,
      ⟨some "minimal", .default, [(NamingPolicy.rpcs.id, ⟨some false, some .info⟩)]⟩⟩
    x.FixingPart y ∧ ∃ file, SchemaFile.parse "a.proto" source = .ok file ∧
      (∀ tree, x.Harmless file source tree) ∧
      ∃ o o', x.fix SchemaFile.parse file source = .ok o ∧ o.editsApplied = 1 ∧
        y.fix SchemaFile.parse file source = .ok o' ∧ o'.text = o.text ∧
        o'.editsApplied = o.editsApplied ∧
        (o'.failures.map Failure.said).Sublist (o.failures.map Failure.said) := by
  intro source first second x y
  have part : x.FixingPart y := ⟨rfl, rfl⟩
  have run : (((SchemaFile.parse "a.proto" source).toOption.bind fun file =>
      (x.fix SchemaFile.parse file source).toOption).map FixOutcome.editsApplied) = some 1 := by
    decide +kernel
  obtain ⟨o, ho, hone⟩ := Option.map_eq_some_iff.1 run
  obtain ⟨file, hfile, ho⟩ := Option.bind_eq_some_iff.1 ho
  have ho := eq_ok_of_toOption ho
  have harmless : ∀ tree, x.Harmless file source tree := by
    intro tree rule hrule hchecks node _
    obtain rfl : rule = second := by
      rcases (by simpa [x] using hrule : rule = second ∨ rule = first) with rfl | rfl
      · rfl
      · cases hchecks
    refine ⟨fun _ => ⟨_, rfl⟩, fun f hf hcontributes => ?_⟩
    obtain ⟨rule, hrule, hfixes, hid⟩ := hcontributes.exists_rule
    obtain rfl : rule = first := by
      rcases (by simpa [x] using hrule : rule = second ∨ rule = first) with rfl | rfl
      · cases hfixes
      · rfl
    rw [NamingPolicy.ruleId_of_mem_reportsAt hf] at hid
    exact absurd hid (by decide)
  refine ⟨part, file, eq_ok_of_toOption hfile, harmless, ?_⟩
  rcases fix_fixingPart x y part SchemaFile.parse file source (harmless file)
    (fun tree _ => harmless tree) with ⟨e, e', herror, -⟩ | ⟨o₁, o', ho₁, ho', hsame⟩
  · rw [ho] at herror
    cases herror
  · obtain rfl : o = o₁ := Except.ok.inj (ho.symm.trans ho₁)
    exact ⟨o, o', ho, hone, ho', hsame⟩

end Linter

end SchemaLint
