import SchemaLint.Proofs.Linter.Visits
import SchemaLint.Proofs.Span.Nested

/-!
# Rules are put to nodes in document order

The order of the nodes is described by the tree alone, and that of the rules by their list.  Putting
rules to a file makes these visits and no others, and it ends with the first breakdown among them, if
there is one.  So what one rule reports does not depend on the others.
-/

set_option autoImplicit false
set_option relaxedAutoImplicit false

namespace SchemaLint

/-- Nodes with all that stands below them: each before its parts, and its parts before the next. -/
inductive Node.Preorder : List Node → List Node → Prop
  | nil : Preorder [] []
  | cons {node : Node} {others below behind : List Node}
      (inside : Preorder (node.parts.map .declaration) below) (next : Preorder others behind) :
      Preorder (node :: others) (node :: (below ++ behind))

/-- The rules asked about a node, one after the other: those that ask for nodes of its kind. -/
def Node.asked (rules : List Rule) (node : Node) : List Visit :=
  (node.visits rules).filter fun v => v.2.1.appliesTo v.1.kind

namespace Node

variable {file : SchemaFile} {ds : List Declaration} {nodes : List Node}

theorem preorder_declarations_iff :
    Preorder (ds.map .declaration) nodes ↔
      nodes = (Declaration.preorderAll ds).map .declaration := by
  induction ds using Declaration.forest_induction generalizing nodes with
  | nil =>
    refine ⟨fun h => ?_, fun h => ?_⟩
    · cases h
      rfl
    · rw [h]
      exact .nil
  | cons d ds inside others =>
    rw [Declaration.preorderAll_cons, List.map_cons, List.map_cons, List.map_append]
    constructor
    · intro h
      cases h with
      | cons hbelow hbehind => rw [inside.1 hbelow, others.1 hbehind]
    · rintro rfl
      exact .cons (inside.2 rfl) (others.2 rfl)

theorem preorder_file_iff : Preorder [.file file] nodes ↔ nodes = file.nodes := by
  constructor
  · intro h
    cases h with
    | cons hbelow hbehind =>
      cases hbehind
      rw [preorder_declarations_iff.1 hbelow, List.append_nil]
      rfl
  · rintro rfl
    have h : Preorder [.file file]
        (.file file :: ((Declaration.preorderAll file.body).map .declaration ++ [])) :=
      .cons (preorder_declarations_iff.2 rfl) .nil
    rwa [List.append_nil] at h

end Node

namespace Dispatch

variable {v : Visit} {vs before after : List Visit}

theorem consult_of_not_applies (h : v.2.1.appliesTo v.1.kind = false) :
    consult v.1 v.2.2 v.2.1 = .ok [] := by
  rw [consult, if_neg (by simp [h])]

theorem consult_of_crash {crash : Crash} (applies : v.2.1.appliesTo v.1.kind = true)
    (crashes : v.2.1.evaluate v.1 = .error crash) :
    consult v.1 v.2.2 v.2.1 = .error (.ruleFault v.2.1.id (.crashed crash)) := by
  rw [consult, if_pos applies, crashes]

theorem gather_filter (vs : List Visit) :
    gather (vs.filter fun v => v.2.1.appliesTo v.1.kind) = gather vs := by
  induction vs with
  | nil => rfl
  | cons v vs ih =>
    rw [List.filter_cons, gather_cons]
    by_cases happlies : v.2.1.appliesTo v.1.kind = true
    · rw [if_pos happlies, gather_cons, ih]
    · rw [if_neg happlies, ih, consult_of_not_applies (by simpa using happlies)]
      cases gather vs <;> rfl

theorem gather_of_error {e : LintError} (earlier : ∀ u ∈ before, u.2.1.Answers u.1)
    (fails : consult v.1 v.2.2 v.2.1 = .error e) : gather (before ++ v :: after) = .error e := by
  have hbefore := gather_eq_ok_iff.2 ⟨earlier, rfl⟩
  rw [gather_append, gather_cons, hbefore, fails]
  rfl

end Dispatch

open Dispatch (gather findingsOf)

theorem dispatch_eq_gather_asked (rules : List Rule) (file : SchemaFile) :
    dispatch rules file = gather (file.nodes.flatMap (Node.asked rules)) := by
  have hasked : file.nodes.flatMap (Node.asked rules) =
      (file.visits rules).filter fun v => v.2.1.appliesTo v.1.kind := by
    unfold SchemaFile.visits
    rw [List.filter_flatMap]
    rfl
  rw [hasked, Dispatch.gather_filter, dispatch_eq_gather]

theorem Node.applies_of_mem_asked {rules : List Rule} {nodes : List Node} {v : Visit}
    (mem : v ∈ nodes.flatMap (Node.asked rules)) : v.2.1.appliesTo v.1.kind = true := by
  obtain ⟨node, -, hv⟩ := List.mem_flatMap.1 mem
  exact (List.mem_filter.1 hv).2

theorem dispatch_singleton {rule : Rule} {file : SchemaFile}
    (answers : ∀ node ∈ file.nodes, rule.Answers node) :
    dispatch [rule] file = .ok (file.nodes.flatMap fun node => findingsOf (node, rule, 0)) := by
  have hvisits : file.visits [rule] = file.nodes.map fun node => (node, rule, 0) :=
    List.flatMap_pure_eq_map _ _
  rw [dispatch_eq_ok_iff_visits, hvisits, List.flatMap_map]
  refine ⟨fun v hv => ?_, rfl⟩
  obtain ⟨node, hnode, rfl⟩ := List.mem_map.1 hv
  exact answers node hnode

theorem filter_index_eq_alone {rules : List Rule} {file : SchemaFile} {found : List Finding}
    (dispatched : dispatch rules file = .ok found) {rule : Rule} {index : Nat}
    (listed : (rule, index) ∈ rules.zipIdx) :
    ∃ alone, dispatch [rule] file = .ok alone ∧
      found.filter (·.index = index) = alone.map fun finding => { finding with index := index } := by
  have hanswers := (dispatch_eq_ok_iff_visits.1 dispatched).1
  refine ⟨_, dispatch_singleton fun node hnode => ?_, ?_⟩
  · exact hanswers (node, rule, index)
      (List.mem_flatMap.2 ⟨node, hnode, List.mem_map_of_mem listed⟩)
  · rw [filter_index dispatched listed, List.map_flatMap]
    unfold findingsOf
    simp only [List.map_map]
    rfl

/-- A breakdown among some visits has a first one before it. -/
theorem exists_first_crash {vs : List Visit}
    (crashes : ∃ v ∈ vs, ∃ crash, v.2.1.evaluate v.1 = .error crash) :
    ∃ before v after crash, vs = before ++ v :: after ∧
      (∀ u ∈ before, ∃ fs, u.2.1.evaluate u.1 = .ok fs) ∧ v.2.1.evaluate v.1 = .error crash := by
  induction vs with
  | nil => simp at crashes
  | cons v vs ih =>
    cases hv : v.2.1.evaluate v.1 with
    | error crash => exact ⟨[], v, vs, crash, rfl, by simp, hv⟩
    | ok fs =>
      have hlater : ∃ v ∈ vs, ∃ crash, v.2.1.evaluate v.1 = .error crash := by
        simpa [hv] using crashes
      obtain ⟨before, u, after, crash, rfl, hbefore, hu⟩ := ih hlater
      exact ⟨v :: before, u, after, crash, rfl, List.forall_mem_cons.2 ⟨⟨fs, hv⟩, hbefore⟩, hu⟩

/-- The tree alone settles the order of the nodes, and the list that of the rules at each node.  If
every rule asked has an answer, these answers are found, and under the place of a rule in the list
just what that rule finds by itself.  Otherwise the first rule to break down is reported. -/
theorem dispatch_of_preorder (file : SchemaFile) (rules : List Rule) :
    ∃ nodes, (∀ ns, Node.Preorder [.file file] ns ↔ ns = nodes) ∧
      let asked := nodes.flatMap (Node.asked rules)
      ((∀ v ∈ asked, ∃ fs, v.2.1.evaluate v.1 = .ok fs) →
        ∃ found, dispatch rules file = .ok found ∧ found = asked.flatMap findingsOf ∧
          ∀ rule index, (rule, index) ∈ rules.zipIdx → ∃ alone, dispatch [rule] file = .ok alone ∧
            found.filter (·.index = index) =
              alone.map fun finding => { finding with index := index }) ∧
      ((∃ v ∈ asked, ∃ crash, v.2.1.evaluate v.1 = .error crash) →
        ∃ before v after crash, asked = before ++ v :: after ∧
          (∀ u ∈ before, ∃ fs, u.2.1.evaluate u.1 = .ok fs) ∧
          v.2.1.evaluate v.1 = .error crash ∧
          dispatch rules file = .error (.ruleFault v.2.1.id (.crashed crash))) := by
  refine ⟨file.nodes, fun _ => Node.preorder_file_iff, fun answered => ?_, fun crashes => ?_⟩
  · have hfound : dispatch rules file =
        .ok ((file.nodes.flatMap (Node.asked rules)).flatMap findingsOf) := by
      rw [dispatch_eq_gather_asked, Dispatch.gather_eq_ok_iff]
      exact ⟨fun v hv _ => answered v hv, rfl⟩
    exact ⟨_, hfound, rfl, fun rule index listed => filter_index_eq_alone hfound listed⟩
  · obtain ⟨before, v, after, crash, hasked, hbefore, hv⟩ := exists_first_crash crashes
    have hmem : v ∈ file.nodes.flatMap (Node.asked rules) := by
      rw [hasked]
      simp
    refine ⟨before, v, after, crash, hasked, hbefore, hv, ?_⟩
    rw [dispatch_eq_gather_asked, hasked]
    exact Dispatch.gather_of_error (fun u hu _ => hbefore u hu)
      (Dispatch.consult_of_crash (Node.applies_of_mem_asked hmem) hv)

/-- A call with an option, put to a rule that has something to say of calls and options, and then to
one that breaks down over the option as well. -/
theorem dispatch_of_preorder_option :
    let file : SchemaFile := ⟨"a.proto", [.block .service "S"
      [.rpc ⟨"A", default, default, [⟨"o", "1", default⟩], default⟩] default], default⟩
    let rule (id : String) (evaluate : Node → Except Crash (List Failure)) : Rule :=
      ⟨id, "", .error, false, false, (· ∈ [.rpc, .option]), evaluate, fun _ _ _ => .ok none⟩
    let loud := rule "LOUD" fun node => .ok [⟨node.span.first, "LOUD", "heard", .error⟩]
    let frail := rule "FRAIL" fun node =>
      if node.kind = .option then .error ⟨"no constant"⟩ else .ok []
    (∃ found, dispatch [loud] file = .ok found ∧ found.length = 2) ∧
      ∃ (v : Visit) (crash : Crash), v.2.1.evaluate v.1 = .error crash ∧
        dispatch [loud, frail] file = .error (.ruleFault v.2.1.id (.crashed crash)) := by
  intro file rule loud frail
  have answered : ∀ v ∈ file.nodes.flatMap (Node.asked [loud]),
      (v.2.1.evaluate v.1).toOption.isSome = true := by decide
  have crashed : ∃ v ∈ file.nodes.flatMap (Node.asked [loud, frail]),
      (v.2.1.evaluate v.1).toOption.isNone = true := by decide
  constructor
  · obtain ⟨nodes, hlisted, hanswers, -⟩ := dispatch_of_preorder file [loud]
    obtain rfl := (hlisted _).1 (Node.preorder_file_iff.2 rfl)
    obtain ⟨found, hfound, rfl, -⟩ := hanswers fun v hv => by
      obtain ⟨fs, hfs⟩ := Option.isSome_iff_exists.1 (answered v hv)
      exact ⟨fs, eq_ok_of_toOption hfs⟩
    exact ⟨_, hfound, by decide⟩
  · obtain ⟨nodes, hlisted, -, hcrashes⟩ := dispatch_of_preorder file [loud, frail]
    obtain rfl := (hlisted _).1 (Node.preorder_file_iff.2 rfl)
    obtain ⟨v, hv, hnone⟩ := crashed
    obtain ⟨-, u, -, crash, -, -, hu, hdispatch⟩ := hcrashes ⟨v, hv, by
      cases h : v.2.1.evaluate v.1 with
      | error crash => exact ⟨crash, rfl⟩
      | ok fs => simp [h, Except.toOption] at hnone⟩
    exact ⟨u, crash, hu, hdispatch⟩

end SchemaLint
