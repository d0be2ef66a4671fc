import SchemaLint.Proofs.Linter.Findings
import SchemaLint.Proofs.Linter.Stages
import SchemaLint.Proofs.Parse.File
import SchemaLint.Proofs.Rule.Edits

/-!
# The renaming that a fix is

Which declarations a fix renames, and how, depends on the rules and on the directives of the old
text.  With built-in rules it is a renaming of the file.
-/

set_option autoImplicit false
set_option relaxedAutoImplicit false

namespace SchemaLint

namespace Declaration

/-- What the rule on a declaration's name suggests in place of a name. -/
def suggestion (d : Declaration) (name : String) : String :=
  d.kind.demand?.elim name (·.suggestion name)

theorem suggestion_of_demand? {d : Declaration} {m : Demand} (h : d.kind.demand? = some m)
    (name : String) : d.suggestion name = m.suggestion name := by
  rw [suggestion, h, Option.elim_some]

/-- Whether the name that is suggested for a declaration meets the rule's own demand. -/
def isFit (d : Declaration) : Bool :=
  d.kind.demand?.any fun m => d.name?.any fun name => m.accepts (m.suggestion name)

end Declaration

namespace Linter

/-- Whether all rules are among those that are always there. -/
def IsBuiltin (x : Linter) : Prop :=
  ∀ rule ∈ x.rules, rule.IsBuiltin

/-- Whether a rule reports a failure of a declaration that counts. -/
def objects (x : Linter) (source : String) (d : Declaration) (rule : Rule) : Bool :=
  match Dispatch.consult (.declaration d) 0 rule with
  | .ok found => found.any (x.stands source ·.failure)
  | .error _ => false

/-- Whether fixing renames a declaration: a rule that is asked for edits objects to it, and the name
that is suggested is fit. -/
def renames (x : Linter) (source : String) (d : Declaration) : Bool :=
  d.isFit && x.rules.any fun rule => rule.fixes && x.objects source d rule

variable {x : Linter} {source : String} {d : Declaration}

/-- A declaration is renamed when its name does not meet the demand of a rule that is asked for
edits, the failure counts, and the name that is suggested meets it. -/
theorem renames_iff (builtin : x.IsBuiltin) : x.renames source d = true ↔
    ∃ m name, d.kind.demand? = some m ∧ d.name? = some name ∧ m.accepts name = false ∧
      m.accepts (m.suggestion name) = true ∧
        x.stands source (m.failure d.span.first name) = true ∧
          ∃ rule ∈ x.rules, rule.fixes = true ∧ rule.id = m.ruleId := by
  have hobjects : ∀ rule ∈ x.rules, rule.fixes = true → x.objects source d rule =
      ((Node.declaration d).complaints rule.id).any (x.stands source) := by
    intro rule hrule hfixes
    have hfixable : rule.fixable = true := by
      simp only [Rule.fixes, Bool.and_eq_true] at hfixes
      exact hfixes.2
    unfold objects
    rw [consult_eq_ok (builtin rule hrule)]
    simp only [Node.reports, hfixable, if_true, List.any_map]
    rfl
  have hcomplaints : ∀ m name ruleId, d.kind.demand? = some m → d.name? = some name →
      (Node.declaration d).complaints ruleId =
        if m.ruleId = ruleId && !m.accepts name then [m.failure d.span.first name] else [] := by
    intro m name ruleId hm hname
    have hkind : (Node.declaration d).kind.demand? = some m := hm
    have hnode : (Node.declaration d).name? = some name := hname
    unfold Node.complaints
    rw [hkind, hnode]
    rfl
  unfold renames Declaration.isFit
  simp only [Bool.and_eq_true, List.any_eq_true, Option.any_eq_true]
  constructor
  · rintro ⟨⟨m, hm, name, hname, hfit⟩, rule, hrule, hfixes, hobject⟩
    rw [hobjects rule hrule hfixes, hcomplaints m name _ hm hname] at hobject
    split at hobject
    · rename_i h
      simp only [Bool.and_eq_true, decide_eq_true_eq, Bool.not_eq_true'] at h
      refine ⟨m, name, hm, hname, h.2, hfit, by simpa using hobject, rule, hrule, hfixes, h.1.symm⟩
    · simp at hobject
  · rintro ⟨m, name, hm, hname, hoffends, hfit, hstands, rule, hrule, hfixes, hid⟩
    refine ⟨⟨m, hm, name, hname, hfit⟩, rule, hrule, hfixes, ?_⟩
    rw [hobjects rule hrule hfixes, hcomplaints m name _ hm hname, hid, hoffends]
    simpa using hstands

theorem demand?_of_renames (h : x.renames source d = true) :
    ∃ m name, d.kind.demand? = some m ∧ d.name? = some name ∧
      m.accepts (m.suggestion name) = true := by
  unfold renames Declaration.isFit at h
  simp only [Bool.and_eq_true, Option.any_eq_true] at h
  obtain ⟨⟨m, hm, name, hname, hfit⟩, -⟩ := h
  exact ⟨m, name, hm, hname, hfit⟩

end Linter

namespace PackageName

theorem suggestion_append (a b : String) : suggestion (a ++ b) = suggestion a ++ suggestion b := by
  apply String.toList_injective
  simp [suggestion, String.toList_map]

theorem suggestion_intercalate (parts : List String) :
    suggestion (".".intercalate parts) = ".".intercalate (parts.map suggestion) := by
  induction parts with
  | nil =>
    apply String.toList_injective
    simp [suggestion, String.toList_map]
  | cons part parts ih =>
    by_cases hnil : parts = []
    · subst hnil
      simp
    · have hpoint : suggestion "." = "." := by
        apply String.toList_injective
        simp [suggestion, String.toList_map]
      have hmap : parts.map suggestion ≠ [] := by simpa using hnil
      rw [List.map_cons, String.intercalate_cons_of_ne_nil hnil,
        String.intercalate_cons_of_ne_nil hmap, suggestion_append, suggestion_append, ih, hpoint]

end PackageName

namespace Linter

variable {x : Linter} {source : String} {d : Declaration}

/-- What a fix writes in place of a name, or of a part of it. -/
def rewrite (x : Linter) (source : String) (d : Declaration) (name : String) : String :=
  if x.renames source d then d.suggestion name else name

/-- A fix, given where it takes the places of the file. -/
def asRenaming (x : Linter) (source : String) (place : Position → Position) : Renaming where
  place := place
  rewrite := x.rewrite source
  extended name body span := by
    refine if_neg fun h => ?_
    obtain ⟨m, -, hm, -⟩ := demand?_of_renames h
    simp [Declaration.kind, BlockKind.nodeKind, NodeKind.demand?, NamingPolicy.ofKind?] at hm
  dotted p parts := by
    unfold rewrite
    split
    · have hdemand : (Declaration.package p).kind.demand? = some PackageName.demand := rfl
      have hsuggestion : (Declaration.package p).suggestion = PackageName.suggestion :=
        funext fun name => Declaration.suggestion_of_demand? hdemand name
      rw [hsuggestion, PackageName.suggestion_intercalate]
    · rw [List.map_id']
  valued value word hword hne := by
    unfold rewrite
    split
    · rename_i h
      obtain ⟨m, name, hm, hname, hfit⟩ := demand?_of_renames h
      have hdemand : m = NamingPolicy.enumValues.demand := by
        simpa [NodeKind.demand?, Declaration.kind, NamingPolicy.ofKind?] using hm.symm
      have hvalue : value.name = name := by simpa [Declaration.name?] using hname
      have hupper : Casing.upperSnake.isMatch (m.suggestion name) = true := by
        rw [hdemand] at hfit ⊢
        exact hfit
      rw [Declaration.suggestion_of_demand? hm, hvalue]
      refine Casing.ne_of_isUpperSnake hupper ?_
      rcases hword with rfl | rfl
      · decide
      · decide
    · exact hne

end Linter

end SchemaLint
