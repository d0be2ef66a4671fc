import SchemaLint.Dispatch
import SchemaLint.Proofs.Outcome

/-!
# Every rule at every node

Putting rules to nodes is a run over pairs of a node and a rule.  When it comes to its end, it has
found what each rule reports for each node by itself.
-/

set_option autoImplicit false
set_option relaxedAutoImplicit false

namespace SchemaLint

/-- A node and a rule with its place in the list of rules. -/
abbrev Visit := Node × Rule × Nat

/-- The rules put to a node, one after the other. -/
def Node.visits (rules : List Rule) (node : Node) : List Visit :=
  rules.zipIdx.map (node, ·)

def SchemaFile.visits (file : SchemaFile) (rules : List Rule) : List Visit :=
  file.nodes.flatMap (Node.visits rules)

/-- What a rule reports for a node when nothing else is asked; nothing where it breaks down. -/
def Rule.reportsAt (rule : Rule) (node : Node) : List Failure :=
  if rule.appliesTo node.kind then (rule.evaluate node).toOption.getD [] else []

def Rule.reportsOn (rule : Rule) (file : SchemaFile) : List Failure :=
  file.nodes.flatMap rule.reportsAt

/-- Whether a rule has an answer for a node, or is not to be asked. -/
def Rule.Answers (rule : Rule) (node : Node) : Prop :=
  rule.appliesTo node.kind = true → ∃ fs, rule.evaluate node = .ok fs

namespace Dispatch

/-- Make some visits, one after the other. -/
def gather (visits : List Visit) : Except LintError (List Finding) :=
  List.flatten <$> visits.mapM fun v => consult v.1 v.2.2 v.2.1

def findingsOf (v : Visit) : List Finding :=
  (v.2.1.reportsAt v.1).map fun f => ⟨v.1, v.2.2, v.2.1, f⟩

theorem gather_append (vs ws : List Visit) :
    gather (vs ++ ws) = do return (← gather vs) ++ (← gather ws) := by
  simp [gather]

theorem gather_cons (v : Visit) (vs : List Visit) :
    gather (v :: vs) = do return (← consult v.1 v.2.2 v.2.1) ++ (← gather vs) := by
  simp [gather]

private theorem consultFrom_eq_gather (node : Node) (index : Nat) (rules : List Rule) :
    consultFrom node index rules = gather ((rules.zipIdx index).map (node, ·)) := by
  induction rules generalizing index with
  | nil => rfl
  | cons rule rules ih =>
    rw [consultFrom, ih, List.zipIdx_cons, List.map_cons, gather_cons]

theorem inspect_eq_gather (rules : List Rule) (node : Node) :
    inspect rules node = gather (node.visits rules) :=
  consultFrom_eq_gather node 0 rules

private theorem visitOptions_eq_gather (rules : List Rule) (options : List OptionStatement) :
    visitOptions rules options = gather ((options.map Declaration.option).flatMap
      fun d => (Node.declaration d).visits rules) := by
  induction options with
  | nil => rfl
  | cons o os ih =>
    rw [visitOptions, ih, inspect_eq_gather, List.map_cons, List.flatMap_cons, gather_append]

mutual

private theorem visit_eq_gather (rules : List Rule) (d : Declaration) :
    visit rules d = gather (d.preorder.flatMap fun d => (Node.declaration d).visits rules) := by
  have leaf : ∀ d : Declaration, inspect rules (.declaration d) =
      gather ([d].flatMap fun d => (Node.declaration d).visits rules) := by
    intro d
    rw [inspect_eq_gather, List.flatMap_singleton]
  cases d with
  | block kind name body span =>
    rw [visit, visitAll_eq_gather rules body, inspect_eq_gather, Declaration.preorder,
      List.flatMap_cons, gather_append]
  | rpc c =>
    rw [visit, visitOptions_eq_gather, inspect_eq_gather, Declaration.preorder,
      List.flatMap_cons, gather_append]
  | _ => exact leaf _

private theorem visitAll_eq_gather (rules : List Rule) (ds : List Declaration) :
    visitAll rules ds = gather ((Declaration.preorderAll ds).flatMap
      fun d => (Node.declaration d).visits rules) := by
  cases ds with
  | nil => rfl
  | cons d ds =>
    rw [visitAll, visit_eq_gather rules d, visitAll_eq_gather rules ds, Declaration.preorderAll,
      List.flatMap_append, gather_append]

end

end Dispatch

open Dispatch (gather findingsOf consult)

variable {rules : List Rule} {file : SchemaFile} {found : List Finding}

/-- Putting rules to the nodes of a file is making all visits. -/
theorem dispatch_eq_gather (rules : List Rule) (file : SchemaFile) :
    dispatch rules file = gather (file.visits rules) := by
  unfold dispatch SchemaFile.visits SchemaFile.nodes
  rw [Dispatch.inspect_eq_gather, Dispatch.visitAll_eq_gather, List.flatMap_cons,
    List.flatMap_map, Dispatch.gather_append]

theorem Dispatch.consult_eq_ok_iff {v : Visit} :
    consult v.1 v.2.2 v.2.1 = .ok found ↔ v.2.1.Answers v.1 ∧ found = findingsOf v := by
  unfold consult findingsOf Rule.Answers Rule.reportsAt
  by_cases happlies : v.2.1.appliesTo v.1.kind = true
  · rw [if_pos happlies, if_pos happlies]
    cases v.2.1.evaluate v.1 with
    | ok fs => simp [happlies, Except.toOption, eq_comm]
    | error crash => simp [happlies]
  · simp [happlies, eq_comm]

theorem Dispatch.gather_eq_ok_iff {vs : List Visit} :
    gather vs = .ok found ↔ (∀ v ∈ vs, v.2.1.Answers v.1) ∧ found = vs.flatMap findingsOf := by
  induction vs generalizing found with
  | nil =>
    have hnil : gather [] = .ok [] := rfl
    simp [hnil, eq_comm]
  | cons v vs ih =>
    rw [gather_cons, bind_eq_ok_iff, List.forall_mem_cons, List.flatMap_cons]
    constructor
    · rintro ⟨own, hown, h⟩
      obtain ⟨others, hothers, h⟩ := bind_eq_ok_iff.1 h
      obtain ⟨hanswers, rfl⟩ := consult_eq_ok_iff.1 hown
      obtain ⟨hall, rfl⟩ := ih.1 hothers
      exact ⟨⟨hanswers, hall⟩, (Except.ok.inj h).symm⟩
    · rintro ⟨⟨hanswers, hall⟩, rfl⟩
      exact ⟨_, consult_eq_ok_iff.2 ⟨hanswers, rfl⟩,
        bind_eq_ok_iff.2 ⟨_, ih.2 ⟨hall, rfl⟩, rfl⟩⟩

theorem dispatch_eq_ok_iff_visits : dispatch rules file = .ok found ↔
    (∀ v ∈ file.visits rules, v.2.1.Answers v.1) ∧
      found = (file.visits rules).flatMap findingsOf := by
  rw [dispatch_eq_gather, Dispatch.gather_eq_ok_iff]

private theorem flatMap_zipIdx {β : Type} {rule : Rule} {index start : Nat}
    (listed : (rule, index) ∈ rules.zipIdx start) (f : Rule × Nat → List β) :
    ((rules.zipIdx start).flatMap fun e => if e.2 = index then f e else []) = f (rule, index) := by
  induction rules generalizing start with
  | nil => simp at listed
  | cons first rules ih =>
    rw [List.zipIdx_cons, List.flatMap_cons]
    rw [List.zipIdx_cons, List.mem_cons] at listed
    rcases listed with he | listed
    · obtain ⟨rfl, rfl⟩ := Prod.mk.inj he
      have hnone : ∀ e ∈ rules.zipIdx (index + 1), (if e.2 = index then f e else []) = [] := by
        intro e he
        have hle := List.le_snd_of_mem_zipIdx he
        exact if_neg (by omega)
      rw [if_pos rfl, List.flatMap_eq_nil_iff.2 hnone, List.append_nil]
    · have hle := List.le_snd_of_mem_zipIdx listed
      rw [if_neg (by simp only at hle; omega), List.nil_append, ih listed]

theorem filter_index (dispatched : dispatch rules file = .ok found) {rule : Rule} {index : Nat}
    (listed : (rule, index) ∈ rules.zipIdx) :
    found.filter (·.index = index) = file.nodes.flatMap fun node => findingsOf (node, rule, index) := by
  have hvisit : ∀ v : Visit, (findingsOf v).filter (·.index = index) =
      if v.2.2 = index then findingsOf v else [] := by
    intro v
    unfold findingsOf
    rw [List.filter_map]
    split
    · rename_i he
      simp [Function.comp_def, he]
    · rename_i hne
      simp [Function.comp_def, hne]
  have hnode : ∀ node : Node, (node.visits rules).flatMap (fun v =>
      if v.2.2 = index then findingsOf v else []) = findingsOf (node, rule, index) := by
    intro node
    unfold Node.visits
    rw [List.flatMap_map]
    exact flatMap_zipIdx listed fun e => findingsOf (node, e)
  rw [(dispatch_eq_ok_iff_visits.1 dispatched).2, List.filter_flatMap]
  unfold SchemaFile.visits
  rw [List.flatMap_assoc]
  simp only [hvisit, hnode]

theorem map_failure_filter_index (dispatched : dispatch rules file = .ok found) {rule : Rule}
    {index : Nat} (listed : (rule, index) ∈ rules.zipIdx) :
    (found.filter (·.index = index)).map Finding.failure = rule.reportsOn file := by
  have hnode : ∀ node : Node,
      (findingsOf (node, rule, index)).map Finding.failure = rule.reportsAt node := by
    intro node
    unfold findingsOf
    rw [List.map_map]
    exact List.map_id _
  rw [filter_index dispatched listed, List.map_flatMap]
  simp only [hnode]
  rfl

end SchemaLint
