import SchemaLint.Proofs.Edit.Splice
import SchemaLint.Proofs.Locate.Introduced
import SchemaLint.Proofs.Rule.Demand

/-!
# The edits that the built-in rules make

A rule that is asked for an edit finds the name that was read and writes its suggestion there, if
the suggestion meets the rule's own demand.
-/

set_option autoImplicit false
set_option relaxedAutoImplicit false

namespace SchemaLint

theorem NamingPolicy.namePlace?_of_ofKind? {d : Declaration} {policy : NamingPolicy}
    (governs : ofKind? d.kind = some policy) : d.namePlace? = some policy.place := by
  cases d with
  | block kind =>
    cases kind with
    | oneof | extend => cases governs
    | _ => rw [← Option.some.inj governs]; rfl
  | field | mapField | enumValue | rpc => rw [← Option.some.inj governs]; rfl
  | _ => cases governs

theorem Edit.ofRun_singleton (ruleId : String) (f : String → String) {l : Lexeme}
    (word : l.token.kind = .identifier) :
    Edit.ofRun ruleId f [l] =
      ⟨ruleId, l.token.range.start, l.token.range.stop, f l.token.text⟩ := by
  have hnew : String.ofList (Lexeme.spelled (Lexeme.bare [l.reword f])) = f l.token.text := by
    simp [Lexeme.bare, Lexeme.chars, Lexeme.reword_text word]
  unfold Edit.ofRun
  rw [List.map_singleton, hnew]
  rfl

theorem PackageName.accepts_suggestion (name : String) :
    demand.accepts (suggestion name) = true := by
  have hnone : ∀ c : Char, c.toLower.isUpper = false := by
    intro c
    delta Char.isUpper Char.toLower
    split <;> grind [UInt32.toNat_add, Char.toNat_val]
  simp [demand, suggestion, hnone]

section

variable {d : Declaration} {lead before run after : List Lexeme} {s : SourceText}
  {trail : List Char} {name : String}

theorem NamingPolicy.rename_eq_ok {policy : NamingPolicy} (h : Introduced d before run after)
    (tiles : Lexer.Tiles (Lexer.start s.filename s.text) (lead ++ (before ++ run ++ after)) trail)
    (governs : ofKind? d.kind = some policy) (named : d.name? = some name)
    (offends : policy.casing.isMatch name = false) :
    policy.rename s (.declaration d) =
      .ok (if policy.casing.isMatch (policy.suggestion name)
        then some (.ofRun policy.id policy.suggestion run) else none) := by
  obtain ⟨l, rfl, hword, hnamed, hlocated⟩ :=
    h.locateName_eq_ok tiles (namePlace?_of_ofKind? governs)
  obtain rfl : name = l.token.text := Option.some.inj (named.symm.trans hnamed)
  have hnode : (Node.declaration d).name? = some l.token.text := named
  unfold rename
  simp only [hnode]
  by_cases hfit : policy.casing.isMatch (policy.suggestion l.token.text) = true
  · have hnew : policy.suggestion l.token.text ≠ l.token.text := by
      intro he
      rw [he, offends] at hfit
      exact absurd hfit (by simp)
    have hnode : (Node.declaration d).span.first = d.span.first := rfl
    rw [if_neg (by simp [hnew, hfit]), if_pos hfit, hnode, hlocated, Edit.ofRun_singleton _ _ hword]
    rfl
  · rw [if_pos (by simp [hfit]), if_neg hfit]

theorem PackageName.rename_eq_ok {p : Package} (h : Introduced (.package p) before run after)
    (tiles : Lexer.Tiles (Lexer.start s.filename s.text) (lead ++ (before ++ run ++ after)) trail) :
    rename s (.declaration (.package p)) = .ok (some (.ofRun id suggestion run)) := by
  obtain ⟨names, hspells, -⟩ := h.spells
  have htiles : Lexer.Tiles (Lexer.start s.filename s.text) ((lead ++ before) ++ (run ++ after))
      trail := by simpa using tiles
  have hmapped := SourceText.mapDotted_eq_ok htiles hspells.ne_nil suggestion
  exact bind_eq_ok_iff.2 ⟨_, h.locateDotted_eq_ok tiles, bind_eq_ok_iff.2 ⟨_, hmapped, rfl⟩⟩

theorem Rule.IsBuiltin.fix_eq_ok {rule : Rule} {m : Demand} (builtin : rule.IsBuiltin)
    (h : Introduced d before run after)
    (tiles : Lexer.Tiles (Lexer.start s.filename s.text) (lead ++ (before ++ run ++ after)) trail)
    (demand : d.kind.demand? = some m) (same : rule.id = m.ruleId) (named : d.name? = some name)
    (offends : m.accepts name = false) (failure : Failure) :
    rule.fix s (.declaration d) failure =
      .ok (if m.accepts (m.suggestion name) then some (.ofRun m.ruleId m.suggestion run)
        else none) := by
  rcases builtin.of_demand? demand same with ⟨policy, fix, governs, rfl, rfl⟩ |
    ⟨hkind, rfl, fix, rfl⟩
  · exact mapError_eq_ok_iff.2 (NamingPolicy.rename_eq_ok h tiles governs named offends)
  · obtain ⟨p, rfl⟩ : ∃ p, d = .package p := by
      cases d with
      | package p => exact ⟨p, rfl⟩
      | block kind => cases kind <;> simp [Declaration.kind, BlockKind.nodeKind] at hkind
      | _ => simp [Declaration.kind] at hkind
    have hfit : PackageName.demand.accepts (PackageName.demand.suggestion name) = true :=
      PackageName.accepts_suggestion name
    rw [if_pos hfit]
    exact mapError_eq_ok_iff.2 (PackageName.rename_eq_ok h tiles)

end

end SchemaLint
