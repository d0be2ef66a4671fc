import Mathlib.Data.List.Perm.Subperm
import SchemaLint.Linter
import SchemaLint.Proofs.Linter.Visits
import SchemaLint.Proofs.Rule.Demand

/-!
# What built-in rules find

Built-in rules never break down.  So their findings are a plain list over the nodes of a file, and
every question about them is one about a single node.
-/

set_option autoImplicit false
set_option relaxedAutoImplicit false

namespace SchemaLint

def Node.findingsFrom (node : Node) (index : Nat) (rules : List Rule) : List Finding :=
  (rules.zipIdx index).flatMap fun entry =>
    (node.reports entry.1).map fun f => ⟨node, entry.2, entry.1, f⟩

def SchemaFile.findings (file : SchemaFile) (rules : List Rule) : List Finding :=
  file.nodes.flatMap fun node => node.findingsFrom 0 rules

variable {rules : List Rule}

theorem dispatch_eq_ok (builtin : ∀ rule ∈ rules, rule.IsBuiltin) (file : SchemaFile) :
    dispatch rules file = .ok (file.findings rules) := by
  have hvisit : ∀ node, ∀ e ∈ rules.zipIdx, e.1.Answers node ∧
      ((node.reports e.1).map fun f => ⟨node, e.2, e.1, f⟩) = Dispatch.findingsOf (node, e) := by
    intro node e he
    have hconsult := consult_eq_ok (builtin e.1 (List.fst_mem_of_mem_zipIdx he)) node e.2
    exact (Dispatch.consult_eq_ok_iff (v := (node, e))).1 hconsult
  refine dispatch_eq_ok_iff_visits.2 ⟨fun v hv => ?_, ?_⟩
  · obtain ⟨node, -, hnode⟩ := List.mem_flatMap.1 hv
    obtain ⟨e, he, rfl⟩ := List.mem_map.1 hnode
    exact (hvisit node e he).1
  · unfold SchemaFile.findings SchemaFile.visits Node.findingsFrom Node.visits
    rw [List.flatMap_assoc]
    simp only [List.flatMap_map]
    exact List.flatMap_congr fun node _ => List.flatMap_congr fun e he => (hvisit node e he).2

theorem mem_findings {file : SchemaFile} {finding : Finding} :
    finding ∈ file.findings rules ↔ finding.node ∈ file.nodes ∧
      (finding.rule, finding.index) ∈ rules.zipIdx ∧
        finding.failure ∈ finding.node.reports finding.rule := by
  simp only [SchemaFile.findings, Node.findingsFrom, List.mem_flatMap, List.mem_map]
  constructor
  · rintro ⟨node, hnode, ⟨rule, index⟩, hrule, f, hf, rfl⟩
    exact ⟨hnode, hrule, hf⟩
  · rintro ⟨hnode, hrule, hf⟩
    exact ⟨finding.node, hnode, (finding.rule, finding.index), hrule, finding.failure, hf, rfl⟩

theorem rule_mem_of_mem_findings {file : SchemaFile} {finding : Finding}
    (h : finding ∈ file.findings rules) : finding.rule ∈ rules :=
  List.fst_mem_of_mem_zipIdx (mem_findings.1 h).2.1

theorem Proposal.mem_fixingIds {ps : List Proposal} {ruleId : String} :
    ruleId ∈ fixingIds ps ↔ ∃ p ∈ ps, p.edit.isSome = true ∧ p.finding.rule.id = ruleId := by
  simp [fixingIds, and_assoc]

namespace Linter

theorem beyond_eq_nil_iff {messages : List String} {fs : List Failure} :
    beyond messages fs = [] ↔ (fs.map Failure.message).Subperm messages := by
  induction fs generalizing messages with
  | nil => simp [beyond, List.nil_subperm]
  | cons f fs ih =>
    unfold beyond
    rw [List.map_cons]
    split
    · rename_i hmem
      have hmem : f.message ∈ messages := by simpa using hmem
      have herase := List.perm_cons_erase hmem
      rw [ih, ← List.subperm_cons f.message, herase.symm.subperm_left]
    · rename_i hmem
      have hnot : ¬(f.message :: fs.map Failure.message).Subperm messages := by
        intro h
        exact hmem (by simpa using h.subset (List.mem_cons_self))
      simp [hnot]

theorem verify_eq_ok_iff {ps : List Proposal} {remaining : List Failure} :
    verify ps remaining = .ok () ↔ ∀ ruleId ∈ Proposal.fixingIds ps,
      ((remaining.filter (·.ruleId = ruleId)).map Failure.message).Subperm
        (Proposal.tolerated ps ruleId) := by
  have hnone : ((Proposal.fixingIds ps).find? fun id => !(persisting ps remaining id).isEmpty) =
      none ↔ ∀ ruleId ∈ Proposal.fixingIds ps,
        ((remaining.filter (·.ruleId = ruleId)).map Failure.message).Subperm
          (Proposal.tolerated ps ruleId) := by
    rw [List.find?_eq_none]
    refine forall₂_congr fun ruleId _ => ?_
    rw [← beyond_eq_nil_iff, ← List.isEmpty_iff]
    simp [persisting]
  rw [← hnone]
  unfold verify
  split
  · rename_i hsome
    simp [hsome]
  · rename_i hsome
    simp [hsome]

end Linter

end SchemaLint
