import Mathlib.Data.List.Flatten
import SchemaLint.Proofs.Linter.Fixed

/-!
# Fixing with built-in rules

With built-in rules no stage of a fix fails, and what is left behind is what no rule can fix.  A
second fix finds nothing to do.
-/

set_option autoImplicit false
set_option relaxedAutoImplicit false

namespace SchemaLint

open Piece (flat allRenamed)

theorem Node.complaints_of_demand? {d : Declaration} {m : Demand} {name : String}
    (demand : d.kind.demand? = some m) (named : d.name? = some name) (ruleId : String) :
    (Node.declaration d).complaints ruleId =
      if m.ruleId = ruleId && !m.accepts name then [m.failure d.span.first name] else [] := by
  have hkind : (Node.declaration d).kind.demand? = some m := demand
  have hname : (Node.declaration d).name? = some name := named
  unfold complaints
  rw [hkind, hname]
  rfl

theorem FirstValueZero.ruleId_of_mem_check {node : Node} {f : Failure} (h : f ∈ check node) :
    f.ruleId = id := by
  unfold check at h
  split at h
  · split at h
    · split at h
      · simp at h
      · obtain rfl : f = _ := by simpa using h
        rfl
    · simp at h
  · simp at h

theorem Rule.IsBuiltin.id_ne_of_fixable {rule : Rule} (h : rule.IsBuiltin)
    (fixable : rule.fixable = true) : rule.id ≠ FirstValueZero.id := by
  rcases h.cases with ⟨policy, fix, hpolicy, rfl⟩ | ⟨fix, rfl⟩ | ⟨fix, rfl⟩
  · show policy.id ≠ FirstValueZero.id
    cases hpolicy <;> decide
  · show PackageName.id ≠ FirstValueZero.id
    decide
  · exact absurd fixable Bool.false_ne_true

theorem SchemaFile.map_message_findings (file : SchemaFile) (rules : List Rule)
    (p : Finding → Bool) :
    ((file.findings rules).filter p).map (·.failure.message) =
      file.nodes.flatMap fun node => rules.zipIdx.flatMap fun entry =>
        ((node.reports entry.1).filter fun f => p ⟨node, entry.2, entry.1, f⟩).map
          Failure.message := by
  simp only [findings, Node.findingsFrom, List.filter_flatMap, List.map_flatMap, List.filter_map,
    List.map_map, Function.comp_def]

namespace Linter

variable {x : Linter} {filename source : String} {file : SchemaFile} {ps : List Piece}
  {trail : List Char}

private theorem messages_sublist
    (read : SchemaFile.ReadFrom filename source.toList file ps trail) (node : Node) {rule : Rule}
    {ruleId : String} (other : ruleId ≠ FirstValueZero.id) (index : Nat) :
    List.Sublist
      (((((x.fixing source ps).node node).reports rule).filter fun f =>
        x.stands (x.fixedText source ps trail) f && f.ruleId = ruleId).map Failure.message)
      (((node.reports rule).filter fun f => (!x.removes source ⟨node, index, rule, f⟩ &&
        f.ruleId = ruleId) && x.stands source f).map Failure.message) := by
  by_cases hfixable : rule.fixable = true
  · unfold Node.reports
    rw [if_pos hfixable, if_pos hfixable]
    cases hleft : ((x.fixing source ps).node node).complaints rule.id |>.filter fun f =>
        x.stands (x.fixedText source ps trail) f && f.ruleId = ruleId with
    | nil => exact List.nil_sublist _
    | cons f fs =>
      have hmem : f ∈ (((x.fixing source ps).node node).complaints rule.id).filter fun f =>
          x.stands (x.fixedText source ps trail) f && f.ruleId = ruleId := by
        rw [hleft]
        simp
      obtain ⟨hcomplaint, hcounts⟩ := List.mem_filter.1 hmem
      simp only [Bool.and_eq_true, decide_eq_true_eq] at hcounts
      obtain ⟨d, m, name, rfl, hm, hname, hid, hoffends, hrenames, hstands, rfl⟩ :=
        complaint_before read hcomplaint hcounts.1
      have hsame : ((x.fixing source ps).declaration d).name? = some name := by
        rw [name?_fixing hm hname, hrenames, if_neg (by simp)]
      have hkind : ((x.fixing source ps).declaration d).kind.demand? = some m := by
        rw [Renaming.kind_declaration]
        exact hm
      have hnew : ((x.fixing source ps).node (.declaration d)).complaints rule.id =
          [m.failure ((x.fixing source ps).declaration d).span.first name] := by
        show (Node.declaration ((x.fixing source ps).declaration d)).complaints rule.id = _
        rw [Node.complaints_of_demand? hkind hsame, hid, hoffends]
        simp
      have hold : (Node.declaration d).complaints rule.id = [m.failure d.span.first name] := by
        rw [Node.complaints_of_demand? hm hname, hid, hoffends]
        simp
      have hstays : x.removes source ⟨.declaration d, index, rule, m.failure d.span.first name⟩ =
          false := by
        simp [removes, hrenames]
      have hrule : (m.failure d.span.first name).ruleId = ruleId := by
        rw [← hcounts.2, (NodeKind.failure_of_demand? hm _ _).2.1,
          (NodeKind.failure_of_demand? hm _ _).2.1]
      rw [← hleft, hnew, hold]
      simp only [List.filter_singleton, hcounts.1, hcounts.2, hstays, hrule, hstands]
      simp [NodeKind.message_of_demand? hm d.span.first
        ((x.fixing source ps).declaration d).span.first name]
  · have hnone : (((x.fixing source ps).node node).reports rule).filter (fun f =>
        x.stands (x.fixedText source ps trail) f && f.ruleId = ruleId) = [] := by
      rw [List.filter_eq_nil_iff]
      intro f hf
      rw [Node.reports, if_neg hfixable] at hf
      simp [FirstValueZero.ruleId_of_mem_check hf, other.symm]
    rw [hnone]
    exact List.nil_sublist _

theorem verify_fixing (builtin : x.IsBuiltin)
    (read : SchemaFile.ReadFrom filename source.toList file ps trail)
    {answer : Finding → Option Edit}
    (answers : ∀ finding ∈ file.findings x.rules, x.stands source finding.failure = true →
      (answer finding).isNone = !x.removes source finding) :
    verify (((file.findings x.rules).filter (x.stands source ·.failure)).map
        fun f => ⟨f, answer f⟩)
      (((((x.fixing source ps).file file).findings x.rules).map Finding.failure).filter
        (x.stands (x.fixedText source ps trail))) = .ok () := by
  apply verify_eq_ok_iff.2
  intro ruleId hruleId
  have hother : ruleId ≠ FirstValueZero.id := by
    obtain ⟨p, hp, hsome, rfl⟩ := Proposal.mem_fixingIds.1 hruleId
    obtain ⟨finding, hfinding, rfl⟩ := List.mem_map.1 hp
    obtain ⟨hfound, hcounts⟩ := List.mem_filter.1 hfinding
    have hremoves : x.removes source finding = true := by
      have hnone := answers finding hfound hcounts
      cases hanswer : answer finding with
      | none => simp [hanswer] at hsome
      | some e => simpa [hanswer] using hnone
    have hfixes : finding.rule.fixable = true := by
      simp only [removes, Rule.fixes, Bool.and_eq_true] at hremoves
      exact hremoves.1.2
    exact (builtin _ (rule_mem_of_mem_findings hfound)).id_ne_of_fixable hfixes
  have hnew : ((((((x.fixing source ps).file file).findings x.rules).map Finding.failure).filter
      (x.stands (x.fixedText source ps trail))).filter (·.ruleId = ruleId)).map Failure.message =
      (((((x.fixing source ps).file file).findings x.rules).filter fun finding =>
        x.stands (x.fixedText source ps trail) finding.failure &&
          finding.failure.ruleId = ruleId).map (·.failure.message)) := by
    rw [List.filter_map, List.filter_map, List.map_map, List.filter_filter]
    congr 1
    apply List.filter_congr
    intro finding _
    exact Bool.and_comm _ _
  have hold : Proposal.tolerated (((file.findings x.rules).filter
      (x.stands source ·.failure)).map fun f => ⟨f, answer f⟩) ruleId =
      (((file.findings x.rules).filter fun finding => (!x.removes source finding &&
        finding.failure.ruleId = ruleId) && x.stands source finding.failure).map
          (·.failure.message)) := by
    unfold Proposal.tolerated
    rw [List.filter_map, List.map_map, List.filter_filter]
    congr 1
    apply List.filter_congr
    intro finding hfound
    cases hcounts : x.stands source finding.failure with
    | false => simp
    | true => simp [answers finding hfound hcounts]
  rw [hnew, hold, SchemaFile.map_message_findings, SchemaFile.map_message_findings,
    Renaming.nodes_file, List.flatMap_map]
  apply List.Sublist.subperm
  apply List.Sublist.flatMap_right
  intro node _
  apply List.Sublist.flatMap_right
  intro entry _
  exact messages_sublist read node hother entry.2

/-- What a fix gives for a file that some pieces spell. -/
structure Fixed (x : Linter) (filename source : String) (file : SchemaFile) (ps : List Piece)
    (trail : List Char) (o : FixOutcome) : Prop where
  text : o.text = x.fixedText source ps trail
  failures : o.failures = x.overrideSeverities
    (((((x.fixing source ps).file file).findings x.rules).map Finding.failure).filter
      (x.stands o.text))
  idle : (∀ d ∈ Declaration.preorderAll file.body, x.renames source d = false) →
    o.editsApplied = 0

/-- No stage of a fix with built-in rules fails. -/
theorem exists_fixed (builtin : x.IsBuiltin)
    (read : SchemaFile.ReadFrom filename source.toList file ps trail)
    (parsed : SchemaFile.parse filename source = .ok file) :
    ∃ o, x.fix SchemaFile.parse file source = .ok o ∧ x.Fixed filename source file ps trail o := by
  obtain ⟨answer, hproposes, hmembers, hanswers⟩ :=
    @exists_proposes x filename source file ps trail (x.fixing source ps).place builtin read
  have hreparsed := parse_fixedText (x := x) read
  generalize hps : (((file.findings x.rules).filter (x.stands source ·.failure)).map
    fun f => (⟨f, answer f⟩ : Proposal)) = proposals at hproposes
  have hedits : ∀ e, e ∈ Proposal.edits proposals ↔
      e ∈ Piece.edits (x.author source) (x.fixing source ps) ps := by
    intro e
    rw [show x.fixing source ps = x.asRenaming source (x.fixing source ps).place from rfl, hmembers,
      ← hps]
    simp [Proposal.edits, and_assoc]
  have hnone : Proposal.edits proposals = [] ↔
      Piece.edits (x.author source) (x.fixing source ps) ps = [] := by
    rw [List.eq_nil_iff_forall_not_mem, List.eq_nil_iff_forall_not_mem]
    exact forall_congr' fun e => not_congr (hedits e)
  by_cases hidle : Proposal.edits proposals = []
  · refine ⟨_, fix_eq_ok_iff.2 ⟨_, _, hproposes, .inl ⟨hidle, rfl⟩⟩, ?_⟩
    have htext := fixedText_of_idle read ((edits_eq_nil_iff read).1 (hnone.1 hidle))
    rw [htext, parsed] at hreparsed
    have hfile : file = (x.fixing source ps).file file := Except.ok.inj hreparsed
    refine ⟨htext.symm, ?_, fun _ => rfl⟩
    rw [← hfile, List.filter_map]
    rfl
  · have happlied := Piece.applyAll_eq_ok read.tiles (rewordable read) (fun _ => kept_of_author)
      hedits
    have hfilename : file.filename = filename := by rw [read.whole]
    have hverified := verify_fixing builtin read hanswers
    rw [hps] at hverified
    refine ⟨_, fix_eq_ok_iff.2 ⟨_, _, hproposes, .inr ⟨hidle, _, (x.fixing source ps).file file, _,
      ⟨happlied, ?_, ?_, hverified⟩, rfl⟩⟩, rfl, rfl, fun hkept => ?_⟩
    · rw [hfilename]
      exact hreparsed
    · exact failuresOf_eq_ok_iff.2 ⟨_, dispatch_eq_ok builtin _, rfl⟩
    · exact absurd (hnone.2 ((edits_eq_nil_iff read).2 hkept)) hidle

end Linter

/-- A failure that no fix removes: one about a first value, or about a name that no casing can be
given to. -/
def SchemaFile.Keeps (file : SchemaFile) (f : Failure) : Prop :=
  (∃ node ∈ file.nodes, f ∈ FirstValueZero.check node) ∨
    ∃ d ∈ Declaration.preorderAll file.body, ∃ policy name,
      NamingPolicy.ofKind? d.kind = some policy ∧ d.name? = some name ∧
        Casing.resists name = true ∧ f = policy.failure d.span.first name

namespace Linter

variable {x : Linter} {filename source : String} {file : SchemaFile} {ps : List Piece}
  {trail : List Char}

private theorem fixable_of_demand? {rule : Rule} (builtin : rule.IsBuiltin) {kind : NodeKind}
    {m : Demand} (demand : kind.demand? = some m) (same : rule.id = m.ruleId) :
    rule.fixable = true := by
  rcases builtin.of_demand? demand same with ⟨policy, fix, -, -, rfl⟩ | ⟨-, -, fix, rfl⟩ <;> rfl

private theorem keeps_of_counts (builtin : x.IsBuiltin)
    (read : SchemaFile.ReadFrom filename source.toList file ps trail) {finding : Finding}
    (found : finding ∈ ((x.fixing source ps).file file).findings x.rules)
    (counts : x.stands (x.fixedText source ps trail) finding.failure = true) {rule : Rule}
    (mem : rule ∈ x.rules) (mode : rule.fixMode = true) (same : rule.id = finding.failure.ruleId) :
    ((x.fixing source ps).file file).Keeps finding.failure := by
  obtain ⟨hnode, -, hreports⟩ := mem_findings.1 found
  by_cases hfixable : finding.rule.fixable = true
  · rw [Node.reports, if_pos hfixable] at hreports
    rw [Renaming.nodes_file] at hnode
    obtain ⟨node, hnode, hsame⟩ := List.mem_map.1 hnode
    rw [← hsame] at hreports
    obtain ⟨d, m, name, rfl, hm, hname, hid, hoffends, hrenames, hstands, hf⟩ :=
      complaint_before read hreports counts
    have hruleId : rule.id = m.ruleId := by
      rw [same, hf, (NodeKind.failure_of_demand? hm _ _).2.1]
    have hfixes : rule.fixes = true := by
      simp [Rule.fixes, mode, fixable_of_demand? (builtin rule mem) hm hruleId]
    -- The suggestion is no better, else the declaration would have been renamed.
    have hunfit : m.accepts (m.suggestion name) = false := by
      rw [← Bool.not_eq_true]
      intro hfit
      rw [(renames_iff builtin).2
        ⟨m, name, hm, hname, hoffends, hfit, hstands, rule, mem, hfixes, hruleId⟩] at hrenames
      exact absurd hrenames (by simp)
    have hbody : d ∈ Declaration.preorderAll file.body := by
      simpa [SchemaFile.nodes] using hnode
    rcases (builtin rule mem).of_demand? hm hruleId with ⟨policy, fix, hpolicy, rfl, -⟩ |
      ⟨-, rfl, -⟩
    · refine .inr ⟨(x.fixing source ps).declaration d, ?_, policy, name, ?_, ?_, ?_, hf⟩
      · show _ ∈ Declaration.preorderAll ((x.fixing source ps).declarations file.body)
        rw [Renaming.preorderAll_declarations]
        exact List.mem_map_of_mem hbody
      · rw [Renaming.kind_declaration]
        exact hpolicy
      · rw [name?_fixing hm hname, hrenames, if_neg (by simp)]
      · rw [← Bool.not_eq_false]
        intro hresists
        have hmatch := Casing.isMatch_convert policy.casing hresists
        exact absurd (hmatch.symm.trans hunfit) (by simp)
    · exact absurd ((PackageName.accepts_suggestion name).symm.trans hunfit) (by simp)
  · rw [Node.reports, if_neg hfixable] at hreports
    exact .inl ⟨finding.node, hnode, hreports⟩

/-- With built-in rules, each asked for edits or not, a fix never fails, whatever directives and
settings there are.  What remains of a rule that was asked for edits is about the first value of an
enum, or about a name without letters and digits or with a digit as the first of them. -/
theorem fix_succeeds (x : Linter) (builtin : x.IsBuiltin) (filename source : String)
    (file : SchemaFile) (read : SchemaFile.parse filename source = .ok file) :
    ∃ o newFile, x.fix SchemaFile.parse file source = .ok o ∧
      SchemaFile.parse filename o.text = .ok newFile ∧
      ∀ f ∈ o.failures, (∃ rule ∈ x.rules, rule.fixMode = true ∧ rule.id = f.ruleId) →
        ∃ g, newFile.Keeps g ∧ f = { g with severity := x.severityOf g } := by
  obtain ⟨ps, trail, hread⟩ := SchemaFile.readFrom_of_parse read
  obtain ⟨o, hfix, hfixed⟩ := exists_fixed builtin hread read
  have hreparsed := parse_fixedText (x := x) hread
  rw [← hfixed.text] at hreparsed
  refine ⟨o, _, hfix, hreparsed, ?_⟩
  rintro f hf ⟨rule, hrule, hmode, hid⟩
  rw [hfixed.failures] at hf
  obtain ⟨g, hg, rfl⟩ := List.mem_map.1 hf
  obtain ⟨hfound, hcounts⟩ := List.mem_filter.1 hg
  obtain ⟨finding, hfinding, rfl⟩ := List.mem_map.1 hfound
  rw [hfixed.text] at hcounts
  exact ⟨_, keeps_of_counts builtin hread hfinding hcounts hrule hmode hid, rfl⟩

/-- A message is renamed.  The failure of another one stays, whose name would begin with a digit, and
that of an enum that does not begin with zero. -/
theorem fix_succeeds_file :
    let source := "message _1_a \x7b\x7d\nenum E \x7b A = 1; \x7d\nmessage b_c \x7b\x7d"
    let x : Linter := ⟨[NamingPolicy.messages.rule true, FirstValueZero.rule true], true, .default⟩
    x.IsBuiltin ∧ ∃ file, SchemaFile.parse "a.proto" source = .ok file ∧
      ∃ o newFile, x.fix SchemaFile.parse file source = .ok o ∧
        o.text = "message _1_a \x7b\x7d\nenum E \x7b A = 1; \x7d\nmessage BC \x7b\x7d" ∧
        o.editsApplied = 1 ∧
        o.failures.map (fun f => (f.ruleId, f.position.offset)) =
          [("MESSAGE_NAMES_UPPER_CAMEL_CASE", 0), ("ENUM_FIRST_VALUE_ZERO", 25)] ∧
        SchemaFile.parse "a.proto" o.text = .ok newFile ∧
        ∀ f ∈ o.failures, (∃ rule ∈ x.rules, rule.fixMode = true ∧ rule.id = f.ruleId) →
          ∃ g, newFile.Keeps g ∧ f = { g with severity := x.severityOf g } := by
  intro source x
  have hbuiltin : x.IsBuiltin := by
    intro rule hrule
    rcases (by simpa [x] using hrule : rule = _ ∨ rule = _) with rfl | rfl
    · exact NamingPolicy.IsBuiltin.messages.isBuiltin_rule true
    · exact FirstValueZero.isBuiltin_rule true
  have hrun : ((SchemaFile.parse "a.proto" source).toOption.bind fun file =>
      (x.fix SchemaFile.parse file source).toOption).map (fun o =>
        (o.text, o.editsApplied, o.failures.map fun f => (f.ruleId, f.position.offset))) =
      some ("message _1_a \x7b\x7d\nenum E \x7b A = 1; \x7d\nmessage BC \x7b\x7d", 1,
        [("MESSAGE_NAMES_UPPER_CAMEL_CASE", 0), ("ENUM_FIRST_VALUE_ZERO", 25)]) := by
    decide +kernel
  obtain ⟨o, ho, hvalues⟩ := Option.map_eq_some_iff.1 hrun
  obtain ⟨file, hfile, ho⟩ := Option.bind_eq_some_iff.1 ho
  have hread : SchemaFile.parse "a.proto" source = .ok file := eq_ok_of_toOption hfile
  obtain ⟨htext, hedits, hfailures⟩ := by simpa only [Prod.mk.injEq] using hvalues
  obtain ⟨o', newFile, ho', hnew, hkeeps⟩ := fix_succeeds x hbuiltin "a.proto" source file hread
  obtain rfl : o = o' := Except.ok.inj ((eq_ok_of_toOption ho).symm.trans ho')
  exact ⟨hbuiltin, file, hread, o, newFile, ho', htext, hedits, hfailures, hnew, hkeeps⟩

/-- Fixing what a fix has written changes nothing and reports the same. -/
theorem fix_of_fix (x : Linter) (builtin : x.IsBuiltin) (filename source : String)
    (file : SchemaFile) (o : FixOutcome) (read : SchemaFile.parse filename source = .ok file)
    (fixed : x.fix SchemaFile.parse file source = .ok o) :
    ∃ newFile, SchemaFile.parse filename o.text = .ok newFile ∧
      x.fix SchemaFile.parse newFile o.text = .ok ⟨o.text, o.failures, 0⟩ := by
  obtain ⟨ps, trail, hread⟩ := SchemaFile.readFrom_of_parse read
  obtain ⟨first, hfirst, hfixed⟩ := exists_fixed builtin hread read
  obtain rfl : o = first := Except.ok.inj (fixed.symm.trans hfirst)
  have hreparsed := parse_fixedText (x := x) hread
  rw [← hfixed.text] at hreparsed
  obtain ⟨ps', trail', hread'⟩ := SchemaFile.readFrom_of_parse hreparsed
  obtain ⟨second, hsecond, hfixed'⟩ := exists_fixed builtin hread' hreparsed
  -- Nothing in the new file is renamed, so it is read and written as it is.
  have hidle : ∀ d ∈ Declaration.preorderAll ((x.fixing source ps).file file).body,
      x.renames o.text d = false := by
    intro d hd
    have hmap : d ∈ Declaration.preorderAll ((x.fixing source ps).declarations file.body) := hd
    rw [Renaming.preorderAll_declarations] at hmap
    obtain ⟨old, -, rfl⟩ := List.mem_map.1 hmap
    rw [hfixed.text]
    exact renames_fixing builtin hread old
  have htext : second.text = o.text := by
    rw [hfixed'.text]
    exact fixedText_of_idle hread' hidle
  have hfile := parse_fixedText (x := x) hread'
  rw [← hfixed'.text, htext, hreparsed] at hfile
  have hfailures : second.failures = o.failures := by
    rw [hfixed'.failures, hfixed.failures, htext, ← Except.ok.inj hfile]
  refine ⟨_, hreparsed, ?_⟩
  rw [hsecond, ← htext, ← hfailures, ← hfixed'.idle hidle]

/-- A value whose new name would be cut into other words than the old one: the second fix leaves it
alone. -/
theorem fix_of_fix_value :
    let source := "enum E \x7b a1b = 0; \x7d\n"
    let x : Linter := ⟨[NamingPolicy.enumValues.rule true], true, .default⟩
    x.IsBuiltin ∧ ∃ file o, SchemaFile.parse "a.proto" source = .ok file ∧
      x.fix SchemaFile.parse file source = .ok o ∧
      o.text = "enum E \x7b A1B = 0; \x7d\n" ∧ o.editsApplied = 1 ∧
      ∃ newFile, SchemaFile.parse "a.proto" o.text = .ok newFile ∧
        x.fix SchemaFile.parse newFile o.text = .ok ⟨o.text, o.failures, 0⟩ := by
  intro source x
  have hbuiltin : x.IsBuiltin := by
    intro rule hrule
    obtain rfl : rule = _ := by simpa [x] using hrule
    exact NamingPolicy.IsBuiltin.enumValues.isBuiltin_rule true
  have hrun : ((SchemaFile.parse "a.proto" source).toOption.bind fun file =>
      (x.fix SchemaFile.parse file source).toOption).map (fun o => (o.text, o.editsApplied)) =
      some ("enum E \x7b A1B = 0; \x7d\n", 1) := by
    decide +kernel
  obtain ⟨o, ho, hvalues⟩ := Option.map_eq_some_iff.1 hrun
  obtain ⟨htext, hedits⟩ := Prod.mk.inj hvalues
  obtain ⟨file, hfile, ho⟩ := Option.bind_eq_some_iff.1 ho
  have hread : SchemaFile.parse "a.proto" source = .ok file := eq_ok_of_toOption hfile
  have hfixed : x.fix SchemaFile.parse file source = .ok o := eq_ok_of_toOption ho
  have hagain := fix_of_fix x hbuiltin "a.proto" source file o hread hfixed
  exact ⟨hbuiltin, file, o, hread, hfixed, htext, hedits, hagain⟩

end Linter

end SchemaLint
