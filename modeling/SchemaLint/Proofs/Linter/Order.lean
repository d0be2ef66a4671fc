import SchemaLint.Proofs.Edit.Exact
import SchemaLint.Proofs.Linter.Proposals
import SchemaLint.Proofs.Linter.Stages

/-!
# Rules in another order

In another order the rules find the same at every node, and are asked for the same edits.  What is
done with findings and edits does not depend on their order either, so a fix succeeds or fails, and
changes a text, whatever order the rules are in.
-/

set_option autoImplicit false
set_option relaxedAutoImplicit false

namespace SchemaLint

def Finding.unplaced (f : Finding) : Finding :=
  { f with index := 0 }

def Proposal.unplaced (p : Proposal) : Proposal :=
  { p with finding := p.finding.unplaced }

/-- Two searches agree: both fail, or both find the same in some order. -/
inductive Agree : Except LintError (List Finding) → Except LintError (List Finding) → Prop
  | ok {found found' : List Finding}
      (same : (found.map Finding.unplaced).Perm (found'.map Finding.unplaced)) :
      Agree (.ok found) (.ok found')
  | error (e e' : LintError) : Agree (.error e) (.error e')

namespace Agree

variable {x x' y y' z z' : Except LintError (List Finding)}

theorem trans (h : Agree x y) (h' : Agree y z) : Agree x z := by
  cases h with
  | ok same =>
    cases h' with
    | ok same' => exact .ok (same.trans same')
  | error e e' =>
    cases h' with
    | error _ e'' => exact .error e e''

theorem append (h : Agree x x') (h' : Agree y y') :
    Agree (do return (← x) ++ (← y)) (do return (← x') ++ (← y')) := by
  cases h with
  | error e e' => exact .error e e'
  | ok same =>
    cases h' with
    | error e e' => exact .error e e'
    | ok same' =>
      refine .ok ?_
      rw [List.map_append, List.map_append]
      exact same.append same'

theorem append_swap (h : Agree x x') (h' : Agree y y') (h'' : Agree z z') :
    Agree (do return (← x) ++ (← (do return (← y) ++ (← z))))
      (do return (← y') ++ (← (do return (← x') ++ (← z')))) := by
  cases h with
  | error e e' =>
    cases h' with
    | error f f' => exact .error e f'
    | ok same => exact .error e e'
  | ok same =>
    cases h' with
    | error f f' => exact .error f f'
    | ok same' =>
      cases h'' with
      | error e e' => exact .error e e'
      | ok same'' =>
        refine .ok ?_
        simp only [List.map_append]
        rw [← List.append_assoc, ← List.append_assoc]
        exact ((same.append same').trans List.perm_append_comm).append same''

theorem exists_ok (h : Agree x x') {found : List Finding} (ok : x = .ok found) :
    ∃ found', x' = .ok found' ∧
      (found.map Finding.unplaced).Perm (found'.map Finding.unplaced) := by
  subst ok
  cases h with
  | ok same => exact ⟨_, rfl, same⟩

end Agree

variable {rules rules' : List Rule}

theorem agree_consult (node : Node) (rule : Rule) (index index' : Nat) :
    Agree (Dispatch.consult node index rule) (Dispatch.consult node index' rule) := by
  unfold Dispatch.consult
  split
  · split
    · refine .ok ?_
      rw [List.map_map, List.map_map]
      exact .refl _
    · exact .error _ _
  · exact .ok (.refl _)

theorem agree_consultFrom (node : Node) (perm : rules.Perm rules') (index index' : Nat) :
    Agree (Dispatch.consultFrom node index rules) (Dispatch.consultFrom node index' rules') := by
  have hrefl : ∀ (rules : List Rule) (index index' : Nat), Agree
      (Dispatch.consultFrom node index rules) (Dispatch.consultFrom node index' rules) := by
    intro rules
    induction rules with
    | nil => exact fun _ _ => .ok (.refl _)
    | cons rule rules ih =>
      intro index index'
      exact (agree_consult node rule index index').append (ih (index + 1) (index' + 1))
  induction perm generalizing index index' with
  | nil => exact .ok (.refl _)
  | cons rule _ ih =>
    exact (agree_consult node rule index index').append (ih (index + 1) (index' + 1))
  | swap rule rule' rules =>
    exact (agree_consult node rule' index (index' + 1)).append_swap
      (agree_consult node rule (index + 1) index') (hrefl rules (index + 1 + 1) (index' + 1 + 1))
  | trans _ _ ih ih' => exact (ih index index).trans (ih' index index')

theorem agree_dispatch (perm : rules.Perm rules') (file : SchemaFile) :
    Agree (dispatch rules file) (dispatch rules' file) := by
  have hnode : ∀ node : Node, Agree (Dispatch.gather (node.visits rules))
      (Dispatch.gather (node.visits rules')) := by
    intro node
    rw [← Dispatch.inspect_eq_gather, ← Dispatch.inspect_eq_gather]
    exact agree_consultFrom node perm 0 0
  rw [dispatch_eq_gather, dispatch_eq_gather]
  unfold SchemaFile.visits
  induction file.nodes with
  | nil => exact .ok (.refl _)
  | cons node nodes ih =>
    rw [List.flatMap_cons, List.flatMap_cons, Dispatch.gather_append, Dispatch.gather_append]
    exact (hnode node).append ih

theorem Finding.map_failure_unplaced (found : List Finding) :
    (found.map Finding.unplaced).map Finding.failure = found.map Finding.failure := by
  rw [List.map_map]
  rfl

theorem failuresOf_perm (perm : rules.Perm rules') {file : SchemaFile} {fs : List Failure}
    (reported : failuresOf rules file = .ok fs) :
    ∃ fs', failuresOf rules' file = .ok fs' ∧ fs.Perm fs' := by
  obtain ⟨found, hfound, rfl⟩ := Linter.failuresOf_eq_ok_iff.1 reported
  obtain ⟨found', hfound', hsame⟩ := (agree_dispatch perm file).exists_ok hfound
  refine ⟨_, Linter.failuresOf_eq_ok_iff.2 ⟨found', hfound', rfl⟩, ?_⟩
  have h := hsame.map Finding.failure
  rwa [Finding.map_failure_unplaced, Finding.map_failure_unplaced] at h

theorem mapM_perm {ε α β : Type} {f : α → Except ε β} {as as' : List α} {bs : List β}
    (perm : as.Perm as') (ok : as.mapM f = .ok bs) :
    ∃ bs', as'.mapM f = .ok bs' ∧ bs.Perm bs' := by
  obtain ⟨bs', hforall, hperm⟩ := List.perm_comp_forall₂ perm.symm (mapM_eq_ok_iff.1 ok)
  exact ⟨bs', mapM_eq_ok_iff.2 hforall, hperm.symm⟩

namespace Proposal

theorem ofFinding_unplaced (source : SourceText) (finding : Finding) :
    ofFinding source finding.unplaced = (ofFinding source finding).map unplaced := by
  obtain ⟨node, index, rule, failure⟩ := finding
  unfold ofFinding Finding.unplaced
  dsimp only
  split
  · rfl
  · split
    · rfl
    · rfl
    · rfl
    · split
      · rfl
      · rfl

theorem mapM_ofFinding_unplaced (source : SourceText) (found : List Finding) :
    (found.map Finding.unplaced).mapM (ofFinding source) =
      (found.mapM (ofFinding source)).map (List.map unplaced) := by
  induction found with
  | nil => rfl
  | cons finding found ih =>
    rw [List.map_cons, List.mapM_cons, List.mapM_cons, ih, ofFinding_unplaced]
    cases ofFinding source finding with
    | error e => rfl
    | ok p => cases found.mapM (ofFinding source) <;> rfl

theorem mapM_ofFinding_perm {source : SourceText} {found found' : List Finding}
    {ps : List Proposal} (same : (found.map Finding.unplaced).Perm (found'.map Finding.unplaced))
    (asked : found.mapM (ofFinding source) = .ok ps) :
    ∃ ps', found'.mapM (ofFinding source) = .ok ps' ∧
      (ps.map unplaced).Perm (ps'.map unplaced) := by
  have hasked : (found.map Finding.unplaced).mapM (ofFinding source) = .ok (ps.map unplaced) := by
    rw [mapM_ofFinding_unplaced, asked]
    rfl
  obtain ⟨qs, hqs, hperm⟩ := mapM_perm same hasked
  rw [mapM_ofFinding_unplaced] at hqs
  cases h : found'.mapM (ofFinding source) with
  | error e =>
    rw [h] at hqs
    cases hqs
  | ok ps' =>
    rw [h] at hqs
    rw [← Except.ok.inj hqs] at hperm
    exact ⟨ps', rfl, hperm⟩

variable {ps ps' : List Proposal}

theorem edits_unplaced (ps : List Proposal) : edits (ps.map unplaced) = edits ps := by
  unfold edits
  rw [List.filterMap_map]
  rfl

theorem tolerated_unplaced (ps : List Proposal) (ruleId : String) :
    tolerated (ps.map unplaced) ruleId = tolerated ps ruleId := by
  unfold tolerated
  rw [List.filter_map, List.map_map]
  rfl

theorem mem_fixingIds_unplaced {ruleId : String} :
    ruleId ∈ fixingIds (ps.map unplaced) ↔ ruleId ∈ fixingIds ps := by
  simp [mem_fixingIds, unplaced, Finding.unplaced]

theorem edits_perm (same : (ps.map unplaced).Perm (ps'.map unplaced)) :
    (edits ps).Perm (edits ps') := by
  rw [← edits_unplaced ps, ← edits_unplaced ps']
  exact same.filterMap Proposal.edit

theorem tolerated_perm (same : (ps.map unplaced).Perm (ps'.map unplaced)) (ruleId : String) :
    (tolerated ps ruleId).Perm (tolerated ps' ruleId) := by
  rw [← tolerated_unplaced ps, ← tolerated_unplaced ps']
  exact (same.filter _).map _

theorem mem_fixingIds_perm (same : (ps.map unplaced).Perm (ps'.map unplaced)) {ruleId : String} :
    ruleId ∈ fixingIds ps ↔ ruleId ∈ fixingIds ps' := by
  rw [← mem_fixingIds_unplaced, ← @mem_fixingIds_unplaced ps', mem_fixingIds, mem_fixingIds]
  constructor
  · rintro ⟨p, hp, h⟩
    exact ⟨p, same.mem_iff.1 hp, h⟩
  · rintro ⟨p, hp, h⟩
    exact ⟨p, same.mem_iff.2 hp, h⟩

end Proposal

theorem nodup_eraseDups {α : Type} [DecidableEq α] (as : List α) : as.eraseDups.Nodup := by
  -- What is left of a list without its first member is shorter, so the induction is on the length.
  induction hlength : as.length using Nat.strong_induction_on generalizing as with
  | _ n ih =>
    cases as with
    | nil => exact List.nodup_nil
    | cons a as =>
      rw [List.eraseDups_cons]
      refine List.nodup_cons.2 ⟨by simp, ih _ ?_ _ rfl⟩
      have := List.length_filter_le (fun b => !b == a) as
      rw [← hlength, List.length_cons]
      omega

theorem length_eraseDups_perm {α : Type} [DecidableEq α] {as as' : List α} (perm : as.Perm as') :
    as.eraseDups.length = as'.eraseDups.length := by
  apply List.Perm.length_eq
  apply (List.perm_ext_iff_of_nodup (nodup_eraseDups as) (nodup_eraseDups as')).2
  intro a
  rw [List.mem_eraseDups, List.mem_eraseDups, perm.mem_iff]

theorem find?_perm {α : Type} {p : α → Bool} {as as' : List α} (perm : as.Perm as')
    (unique : as.Pairwise fun a b => ¬(p a = true ∧ p b = true)) : as.find? p = as'.find? p := by
  induction perm with
  | nil => rfl
  | cons a _ ih =>
    rw [List.find?_cons, List.find?_cons, ih unique.of_cons]
  | swap a b as =>
    have hnot := (List.pairwise_cons.1 unique).1 a (by simp)
    cases ha : p a <;> cases hb : p b <;> simp_all
  | trans hperm _ ih ih' =>
    have hsymm : ∀ {a b : α}, ¬(p a = true ∧ p b = true) → ¬(p b = true ∧ p a = true) :=
      fun h h' => h h'.symm
    rw [ih unique, ih' ((hperm.pairwise_iff hsymm).1 unique)]

namespace Linter

variable {x : Linter}

theorem overrideSeverities_perm (perm : x.rules.Perm rules)
    (distinct : (x.rules.map Rule.id).Nodup) :
    { x with rules := rules }.overrideSeverities = x.overrideSeverities := by
  have hfind : ∀ ruleId : String,
      x.rules.find? (·.id = ruleId) = rules.find? (·.id = ruleId) := by
    intro ruleId
    apply find?_perm perm
    refine (List.pairwise_map.1 distinct).imp fun {a b} hne h => hne ?_
    simp only [decide_eq_true_eq] at h
    rw [h.1, h.2]
  have hseverity : { x with rules := rules }.severityOf = x.severityOf := by
    funext f
    unfold severityOf
    rw [hfind]
  unfold overrideSeverities
  rw [hseverity]

theorem verify_perm {ps ps' : List Proposal} {fs fs' : List Failure}
    (same : (ps.map Proposal.unplaced).Perm (ps'.map Proposal.unplaced)) (perm : fs.Perm fs')
    (verified : verify ps fs = .ok ()) : verify ps' fs' = .ok () := by
  refine verify_eq_ok_iff.2 fun ruleId hruleId => ?_
  have h := verify_eq_ok_iff.1 verified ruleId ((Proposal.mem_fixingIds_perm same).2 hruleId)
  have hmessages := (perm.filter (·.ruleId = ruleId)).map Failure.message
  rwa [hmessages.subperm_right, (Proposal.tolerated_perm same ruleId).subperm_left] at h

variable {reader : SchemaReader} {file : SchemaFile} {source : String} {o : FixOutcome}

theorem exists_fix_perm (perm : x.rules.Perm rules) (distinct : (x.rules.map Rule.id).Nodup)
    (fixed : x.fix reader file source = .ok o) :
    ∃ o', { x with rules := rules }.fix reader file source = .ok o' ∧ o'.text = o.text ∧
      o'.editsApplied = o.editsApplied ∧ o'.failures.Perm o.failures := by
  obtain ⟨found, ps, ⟨hdispatched, hasked⟩, hends⟩ := fix_eq_ok_iff.1 fixed
  have hoverride := overrideSeverities_perm perm distinct
  obtain ⟨found', hdispatched', hsame⟩ := (agree_dispatch perm file).exists_ok hdispatched
  have hcounts : ((found.filter (x.stands source ·.failure)).map Finding.unplaced).Perm
      ((found'.filter (x.stands source ·.failure)).map Finding.unplaced) := by
    have h := hsame.filter (x.stands source ·.failure)
    rwa [List.filter_map, List.filter_map] at h
  obtain ⟨ps', hasked', hproposals⟩ := Proposal.mapM_ofFinding_perm hcounts hasked
  have hproposes : { x with rules := rules }.Proposes file source found' ps' :=
    ⟨hdispatched', hasked'⟩
  have hedits := Proposal.edits_perm hproposals
  rcases hends with ⟨hnone, rfl⟩ | ⟨hsome, text, newFile, reported, happlies, rfl⟩
  · have hnone' : Proposal.edits ps' = [] := by
      rw [hnone] at hedits
      exact hedits.nil_eq.symm
    refine ⟨_, fix_eq_ok_iff.2 ⟨found', ps', hproposes, .inl ⟨hnone', rfl⟩⟩, rfl, rfl, ?_⟩
    have h := hcounts.symm.map Finding.failure
    rw [Finding.map_failure_unplaced, Finding.map_failure_unplaced] at h
    rw [hoverride]
    exact h.map _
  · have hsome' : Proposal.edits ps' ≠ [] := by
      intro h
      rw [h] at hedits
      exact hsome hedits.eq_nil
    obtain ⟨happlied, hreread, hrechecked, hverified⟩ := happlies
    obtain ⟨reported', hrechecked', hreported⟩ := failuresOf_perm perm hrechecked
    have hremaining := hreported.filter (x.stands (String.ofList text))
    refine ⟨_, fix_eq_ok_iff.2 ⟨found', ps', hproposes, .inr ⟨hsome', text, newFile, reported',
      ⟨?_, hreread, hrechecked', ?_⟩, rfl⟩⟩, rfl, ?_, ?_⟩
    · exact Edit.applyAll_congr (fun e => hedits.symm.mem_iff) happlied
    · exact verify_perm hproposals hremaining hverified
    · exact length_eraseDups_perm hedits.symm
    · rw [hoverride]
      exact hremaining.symm.map _

/-- The order of rules of different ids does not change what fixing does: with either order it
fails, or with either it gives the same text by as many edits, and leaves the same failures. -/
theorem fix_perm (x : Linter) (rules : List Rule) (perm : x.rules.Perm rules)
    (distinct : (x.rules.map Rule.id).Nodup) (reader : SchemaReader) (file : SchemaFile)
    (source : String) :
    (∃ e e', x.fix reader file source = .error e ∧
        { x with rules := rules }.fix reader file source = .error e') ∨
      ∃ o o', x.fix reader file source = .ok o ∧
        { x with rules := rules }.fix reader file source = .ok o' ∧ o'.text = o.text ∧
          o'.editsApplied = o.editsApplied ∧ o'.failures.Perm o.failures := by
  cases h : x.fix reader file source with
  | ok o =>
    obtain ⟨o', hfixed, hoffers⟩ := exists_fix_perm perm distinct h
    exact .inr ⟨o, o', rfl, hfixed, hoffers⟩
  | error e =>
    cases h' : { x with rules := rules }.fix reader file source with
    | error e' => exact .inl ⟨e, e', rfl, rfl⟩
    | ok o' =>
      have hdistinct : (rules.map Rule.id).Nodup := (perm.map Rule.id).nodup_iff.1 distinct
      obtain ⟨o, hfixed, -⟩ := @exists_fix_perm x.rules { x with rules := rules } reader file
        source o' perm.symm hdistinct h'
      rw [h] at hfixed
      cases hfixed

/-- One rule renames a call, another only reports the service around it. -/
theorem fix_perm_service :
    let source := "service s \x7b\n  rpc get_a (A) returns (B);\n\x7d\n"
    let first := NamingPolicy.rpcs.rule true
    let second := NamingPolicy.services.rule false
    let x : Linter := ⟨[first, second], true, .default⟩
    x.rules.Perm [second, first] ∧ (x.rules.map Rule.id).Nodup ∧
      ∃ file o o', SchemaFile.parse "a.proto" source = .ok file ∧
        x.fix SchemaFile.parse file source = .ok o ∧ o.editsApplied = 1 ∧
        { x with rules := [second, first] }.fix SchemaFile.parse file source = .ok o' ∧
        o'.text = o.text ∧ o'.editsApplied = o.editsApplied ∧ o'.failures.Perm o.failures := by
  intro source first second x
  have hperm : x.rules.Perm [second, first] := .swap second first []
  have hdistinct : (x.rules.map Rule.id).Nodup := by decide
  have run : (((SchemaFile.parse "a.proto" source).toOption.bind fun file =>
      (x.fix SchemaFile.parse file source).toOption).map FixOutcome.editsApplied) = some 1 := by
    decide +kernel
  obtain ⟨o, ho, hone⟩ := Option.map_eq_some_iff.1 run
  obtain ⟨file, hfile, ho⟩ := Option.bind_eq_some_iff.1 ho
  have hfile := eq_ok_of_toOption hfile
  have ho := eq_ok_of_toOption ho
  refine ⟨hperm, hdistinct, ?_⟩
  rcases fix_perm x [second, first] hperm hdistinct SchemaFile.parse file source with
    ⟨e, e', herror, -⟩ | ⟨o₁, o', ho₁, ho', hsame⟩
  · rw [ho] at herror
    cases herror
  · obtain rfl : o = o₁ := Except.ok.inj (ho.symm.trans ho₁)
    exact ⟨file, o, o', hfile, ho, hone, ho', hsame⟩

end Linter

end SchemaLint
