import SchemaLint.Dispatch
import SchemaLint.Proofs.Casing.Convert
import SchemaLint.Rule.Builtin

/-!
# What the built-in rules demand

Every built-in rule that can fix makes one demand on the names of some declarations, and no two of
them share a declaration.  What the rules report follows from the demands.
-/

set_option autoImplicit false
set_option relaxedAutoImplicit false

namespace SchemaLint

/-- Whether a rule is one of those that are always there, built in either way. -/
def Rule.IsBuiltin (rule : Rule) : Prop :=
  ∃ entry ∈ builtinEntries, ∃ fix, rule = entry.build fix

/-- A demand on names: whose it is, which names meet it, and what it suggests and says where a name
does not. -/
structure Demand where
  ruleId : String
  accepts : String → Bool
  suggestion : String → String
  failure : Position → String → Failure

def NamingPolicy.demand (policy : NamingPolicy) : Demand :=
  ⟨policy.id, policy.casing.isMatch, policy.suggestion, policy.failure⟩

def PackageName.demand : Demand where
  ruleId := id
  accepts name := !name.toList.any Char.isUpper
  suggestion := suggestion
  failure position name := failure ⟨name, ⟨position, position⟩⟩

/-- The policy on the names of a kind of declarations. -/
def NamingPolicy.ofKind? : NodeKind → Option NamingPolicy
  | .service => some services
  | .rpc => some rpcs
  | .message => some messages
  | .field | .mapField => some fields
  | .enumeration => some enums
  | .enumValue => some enumValues
  | _ => none

/-- The demand on the names of a kind of declarations. -/
def NodeKind.demand? (kind : NodeKind) : Option Demand :=
  if kind = .package then some PackageName.demand
  else (NamingPolicy.ofKind? kind).map NamingPolicy.demand

inductive NamingPolicy.IsBuiltin : NamingPolicy → Prop
  | services : IsBuiltin .services
  | rpcs : IsBuiltin .rpcs
  | messages : IsBuiltin .messages
  | fields : IsBuiltin .fields
  | enums : IsBuiltin .enums
  | enumValues : IsBuiltin .enumValues

theorem NamingPolicy.isBuiltin_of_ofKind? {kind : NodeKind} {policy : NamingPolicy}
    (h : ofKind? kind = some policy) : policy.IsBuiltin := by
  cases kind <;> simp only [ofKind?, Option.some.injEq, reduceCtorEq] at h <;> subst h <;>
    constructor

theorem NamingPolicy.IsBuiltin.contains_kinds {policy : NamingPolicy} (h : policy.IsBuiltin)
    (kind : NodeKind) : policy.kinds.contains kind = true ↔ ofKind? kind = some policy := by
  have ids : ∀ {a b : NamingPolicy}, a.id ≠ b.id → some a ≠ some b := by
    intro a b hne he
    exact hne (congrArg NamingPolicy.id (Option.some.inj he))
  cases h <;> cases kind <;>
    first
      | exact ⟨fun _ => rfl, fun _ => rfl⟩
      | exact ⟨fun h => absurd h (by decide), fun h => absurd h (ids (by decide))⟩
      | exact ⟨fun h => absurd h (by decide), fun h => absurd h (by simp [ofKind?])⟩

theorem Rule.IsBuiltin.cases {rule : Rule} (h : rule.IsBuiltin) :
    (∃ policy fix, policy.IsBuiltin ∧ rule = NamingPolicy.rule policy fix) ∨
      (∃ fix, rule = PackageName.rule fix) ∨ ∃ fix, rule = FirstValueZero.rule fix := by
  obtain ⟨entry, hentry, fix, rfl⟩ := h
  simp only [builtinEntries, List.mem_cons, List.not_mem_nil, or_false] at hentry
  rcases hentry with rfl | rfl | rfl | rfl | rfl | rfl | rfl | rfl
  · exact .inl ⟨_, fix, .services, rfl⟩
  · exact .inl ⟨_, fix, .rpcs, rfl⟩
  · exact .inl ⟨_, fix, .messages, rfl⟩
  · exact .inl ⟨_, fix, .fields, rfl⟩
  · exact .inl ⟨_, fix, .enums, rfl⟩
  · exact .inl ⟨_, fix, .enumValues, rfl⟩
  · exact .inr (.inl ⟨fix, rfl⟩)
  · exact .inr (.inr ⟨fix, rfl⟩)

theorem NamingPolicy.IsBuiltin.isBuiltin_rule {policy : NamingPolicy} (h : policy.IsBuiltin)
    (fix : Bool) : (policy.rule fix).IsBuiltin := by
  have hentry : (⟨policy.id, policy.rule⟩ : RuleEntry) ∈ builtinEntries := by
    cases h <;> simp [builtinEntries]
  exact ⟨_, hentry, fix, rfl⟩

theorem FirstValueZero.isBuiltin_rule (fix : Bool) : (rule fix).IsBuiltin :=
  ⟨⟨id, rule⟩, by simp [builtinEntries], fix, rfl⟩

theorem NodeKind.failure_of_demand? {kind : NodeKind} {m : Demand} (h : kind.demand? = some m)
    (p : Position) (name : String) :
    (m.failure p name).position = p ∧ (m.failure p name).ruleId = m.ruleId ∧
      (m.failure p name).severity = .error := by
  unfold demand? at h
  split at h
  · obtain rfl := Option.some.inj h
    exact ⟨rfl, rfl, rfl⟩
  · obtain ⟨policy, -, rfl⟩ := Option.map_eq_some_iff.1 h
    exact ⟨rfl, rfl, rfl⟩

/-- What the rule of an id has against the name of a node. -/
def Node.complaints (ruleId : String) (node : Node) : List Failure :=
  match node.kind.demand?, node.name? with
  | some m, some name =>
    if m.ruleId = ruleId && !m.accepts name then [m.failure node.span.first name] else []
  | _, _ => []

/-- What a built-in rule reports for a node. -/
def Node.reports (rule : Rule) (node : Node) : List Failure :=
  if rule.fixable then node.complaints rule.id else FirstValueZero.check node

private theorem id_ne_of_isBuiltin {policy : NamingPolicy} (h : policy.IsBuiltin) :
    PackageName.id ≠ policy.id := by
  cases h <;> decide

private theorem eq_of_id_eq {policy policy' : NamingPolicy} (h : policy.IsBuiltin)
    (h' : policy'.IsBuiltin) (same : policy.id = policy'.id) : policy = policy' := by
  cases h <;> cases h' <;> first | rfl | exact absurd same (by decide)

private theorem ofKind?_package : NamingPolicy.ofKind? .package = none := rfl

private theorem check_eq_nil {policy : NamingPolicy} {node : Node}
    (other : policy.kinds.contains node.kind = false) : policy.check node = [] := by
  unfold NamingPolicy.check
  rw [other]
  cases node.name? <;> rfl

private theorem complaints_policy {policy : NamingPolicy} (h : policy.IsBuiltin) (node : Node) :
    node.complaints policy.id = policy.check node := by
  by_cases hkind : policy.kinds.contains node.kind = true
  · have hof := (h.contains_kinds node.kind).1 hkind
    have hpackage : node.kind ≠ .package := by
      intro he
      rw [he, ofKind?_package] at hof
      simp at hof
    have hdemand : node.kind.demand? = some policy.demand := by
      simp [NodeKind.demand?, hpackage, hof]
    unfold Node.complaints NamingPolicy.check
    cases hname : node.name? with
    | none => simp [hdemand]
    | some name =>
      simp only [hdemand, hkind, NamingPolicy.demand, decide_true, Bool.true_and, Bool.not_true,
        Bool.false_or]
      cases policy.casing.isMatch name <;> rfl
  · have hnone : ∀ m, node.kind.demand? = some m → m.ruleId ≠ policy.id := by
      intro m hm
      unfold NodeKind.demand? at hm
      split at hm
      · obtain rfl := Option.some.inj hm
        exact id_ne_of_isBuiltin h
      · obtain ⟨other, hother, rfl⟩ := Option.map_eq_some_iff.1 hm
        intro same
        have he := eq_of_id_eq (NamingPolicy.isBuiltin_of_ofKind? hother) h same
        rw [he] at hother
        exact hkind ((h.contains_kinds node.kind).2 hother)
    rw [check_eq_nil (Bool.eq_false_iff.2 hkind)]
    unfold Node.complaints
    cases hdemand : node.kind.demand? with
    | none => cases node.name? <;> rfl
    | some m =>
      have hne := hnone m hdemand
      cases node.name? <;> simp [hne]

private theorem complaints_package (node : Node) :
    node.complaints PackageName.id = PackageName.check node := by
  have other : node.kind ≠ .package → node.complaints PackageName.id = [] := by
    intro hkind
    unfold Node.complaints
    cases hdemand : node.kind.demand? with
    | none => cases node.name? <;> rfl
    | some m =>
      rw [NodeKind.demand?, if_neg hkind] at hdemand
      obtain ⟨policy, hpolicy, rfl⟩ := Option.map_eq_some_iff.1 hdemand
      have hne := (id_ne_of_isBuiltin (NamingPolicy.isBuiltin_of_ofKind? hpolicy)).symm
      cases node.name? <;> simp [NamingPolicy.demand, hne]
  cases node with
  | file f => exact other (by simp [Node.kind])
  | declaration d =>
    cases d with
    | package p =>
      have hdemand : (Node.declaration (.package p)).kind.demand? = some PackageName.demand := rfl
      have hname : (Node.declaration (.package p)).name? = some p.name := rfl
      unfold Node.complaints PackageName.check
      simp only [hdemand, hname, PackageName.demand, decide_true, Bool.true_and, Bool.not_not]
      rfl
    | block kind => exact other (by cases kind <;> simp [Node.kind, Declaration.kind,
        BlockKind.nodeKind])
    | _ => exact other (by simp [Node.kind, Declaration.kind])

/-- No built-in rule breaks down, and each reports what its demand says. -/
theorem consult_eq_ok {rule : Rule} (h : rule.IsBuiltin) (node : Node) (index : Nat) :
    Dispatch.consult node index rule =
      .ok ((node.reports rule).map fun f => ⟨node, index, rule, f⟩) := by
  have consulted : ∀ failures : List Failure, rule.evaluate node = .ok failures →
      (rule.appliesTo node.kind = false → failures = []) → node.reports rule = failures →
      Dispatch.consult node index rule =
        .ok ((node.reports rule).map fun f => ⟨node, index, rule, f⟩) := by
    intro failures hevaluate hnone hreports
    unfold Dispatch.consult
    rw [hevaluate, hreports]
    split
    · rfl
    · rename_i happlies
      rw [hnone (Bool.eq_false_iff.2 happlies)]
      rfl
  rcases h.cases with ⟨policy, fix, hpolicy, rfl⟩ | ⟨fix, rfl⟩ | ⟨fix, rfl⟩
  · refine consulted (policy.check node) rfl (fun happlies => ?_) (complaints_policy hpolicy node)
    exact check_eq_nil happlies
  · refine consulted (PackageName.check node) rfl (fun happlies => ?_) (complaints_package node)
    cases node with
    | file f => rfl
    | declaration d =>
      cases d with
      | package p => simp [PackageName.rule, Node.kind, Declaration.kind] at happlies
      | _ => rfl
  · refine consulted (FirstValueZero.check node) rfl (fun happlies => ?_) rfl
    cases node with
    | file f => rfl
    | declaration d =>
      cases d with
      | block kind =>
        cases kind with
        | enumeration =>
          simp [FirstValueZero.rule, Node.kind, Declaration.kind, BlockKind.nodeKind] at happlies
        | _ => rfl
      | _ => rfl

theorem Rule.IsBuiltin.of_demand? {rule : Rule} (h : rule.IsBuiltin) {kind : NodeKind} {m : Demand}
    (demand : kind.demand? = some m) (same : rule.id = m.ruleId) :
    (∃ policy fix, NamingPolicy.ofKind? kind = some policy ∧ m = policy.demand ∧
        rule = policy.rule fix) ∨
      (kind = .package ∧ m = PackageName.demand ∧ ∃ fix, rule = PackageName.rule fix) := by
  unfold NodeKind.demand? at demand
  split at demand
  · rename_i hkind
    obtain rfl := Option.some.inj demand
    refine .inr ⟨hkind, rfl, ?_⟩
    rcases h.cases with ⟨policy, fix, hpolicy, rfl⟩ | hpackage | ⟨fix, rfl⟩
    · exact absurd same (id_ne_of_isBuiltin hpolicy).symm
    · exact hpackage
    · have hne : FirstValueZero.id ≠ PackageName.id := by decide
      exact absurd same hne
  · obtain ⟨policy, hpolicy, rfl⟩ := Option.map_eq_some_iff.1 demand
    have hbuiltin := NamingPolicy.isBuiltin_of_ofKind? hpolicy
    rcases h.cases with ⟨other, fix, hother, rfl⟩ | ⟨fix, rfl⟩ | ⟨fix, rfl⟩
    · have he := eq_of_id_eq hother hbuiltin same
      exact .inl ⟨policy, fix, hpolicy, rfl, by rw [he]⟩
    · exact absurd same (id_ne_of_isBuiltin hbuiltin)
    · have hne : FirstValueZero.id ≠ policy.id := by
        cases hbuiltin <;> decide
      exact absurd same hne

end SchemaLint
