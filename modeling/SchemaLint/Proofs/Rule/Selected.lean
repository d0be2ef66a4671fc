import SchemaLint.Command.Settings
import SchemaLint.Proofs.Outcome
import SchemaLint.Proofs.Rule.Registered
import SchemaLint.Proofs.Text.Split

/-!
# Which rules run

A list on the command line names the rules that run; without one, the settings and the preset do.
Either way they come in the order of registration and once each.
-/

set_option autoImplicit false
set_option relaxedAutoImplicit false

namespace SchemaLint

open RuleEntry (Builds)

/-- Whether a preset is the one that is set; where none is set, the default one is. -/
def Config.HasPreset (c : Config) (p : Preset) : Prop :=
  c.preset = none ∧ p = .default ∨ ∃ name, c.preset = some name ∧ Preset.ofName? name = some p

/-- Whether a rule is chosen: it is enabled, or neither enabled nor disabled and in the preset. -/
def Config.Chooses (c : Config) (p : Preset) (id : String) : Prop :=
  let enabled := (c.rules.lookup id).bind RuleSettings.enabled
  enabled = some true ∨ enabled = none ∧ id ∈ p.ids

instance (c : Config) (p : Preset) : DecidablePred (c.Chooses p) :=
  fun id => inferInstanceAs (Decidable (_ = some true ∨ _ = none ∧ id ∈ p.ids))

theorem Config.isRuleEnabled_iff {c : Config} {p : Preset} {id : String} :
    c.isRuleEnabled id (p.ids.contains id) = true ↔ c.Chooses p id := by
  unfold isRuleEnabled Chooses
  cases (c.rules.lookup id).bind RuleSettings.enabled <;> simp

theorem presetOf_eq_ok_iff {c : Config} {p : Preset} : presetOf c = .ok p ↔ c.HasPreset p := by
  unfold presetOf Config.HasPreset
  cases c.preset with
  | none => simp [eq_comm]
  | some name => cases hname : Preset.ofName? name <;> simp [hname]

theorem idsOf_eq {list : String} {pieces : List (List Char)} (nonempty : pieces ≠ [])
    (free : ∀ piece ∈ pieces, ',' ∉ piece) (written : list.toList = [','].intercalate pieces) :
    idsOf list = ((pieces.map Text.trim).filter (· ≠ [])).map String.ofList := by
  have hfull : ∀ cs : List Char, (!cs.isEmpty) = decide (cs ≠ []) := by
    intro cs
    cases cs <;> rfl
  unfold idsOf
  rw [written, Text.splitOn_intercalate nonempty free]
  simp only [hfull]

section

variable {registry : Registry} {config : Config} {fix : Bool}
  {y : Except CommandError (List Rule)}

theorem selectRules_some_iff {list : String} : selectRules registry config (some list) fix = y ↔
    ∃ x, registry.Resolves (idsOf list) fix x ∧ y = x.mapError .badSelection := by
  simp only [← Registry.resolve_eq_iff, exists_eq_left', eq_comm (a := y)]
  rfl

theorem selectRules_none_iff {preset : Preset} (set : config.HasPreset preset) :
    selectRules registry config none fix = y ↔
      ∃ x, Builds fix (registry.entries.filter fun e => config.Chooses preset e.id) x ∧
        y = x.mapError .rulesNotBuilt := by
  have hchosen : registry.entries.filter (fun e => config.Chooses preset e.id) =
      registry.entries.filter (fun e => config.isRuleEnabled e.id (preset.ids.contains e.id)) := by
    refine List.filter_congr fun e _ => ?_
    rw [Bool.eq_iff_iff, Config.isRuleEnabled_iff, decide_eq_true_iff]
  have hbuilds : ∀ x,
      registry.resolveWith (fun id => config.isRuleEnabled id (preset.ids.contains id)) fix = x ↔
        Builds fix (registry.entries.filter fun e => config.Chooses preset e.id) x := by
    intro x
    rw [hchosen]
    exact Registry.resolveWith_eq_iff
  have hselect : selectRules registry config none fix =
      (registry.resolveWith (fun id => config.isRuleEnabled id (preset.ids.contains id)) fix).mapError
        .rulesNotBuilt := by
    simp [selectRules, presetOf_eq_ok_iff.2 set, bind, Except.bind]
  simp only [hselect, ← hbuilds, exists_eq_left', eq_comm (a := y)]

end

/-- What is left of calls to register rules: the ids of the calls, each once and where it comes first.
A call is refused exactly when its id came before, and then everything is as if it had not been made. -/
structure Registry.Registers (calls : List RuleEntry) (r : Registry) : Prop where
  nodup : r.ids.Nodup
  ids : r.ids = (calls.map RuleEntry.id).eraseDups
  refused : ∀ before call after, calls = before ++ call :: after →
    call.id ∈ before.map RuleEntry.id →
      (empty.afterAll before).register call =
          @Registration.error (empty.afterAll before) (.duplicateRule call.id) ∧
        r = empty.afterAll (before ++ after)
  accepted : ∀ before call after, calls = before ++ call :: after →
    call.id ∉ before.map RuleEntry.id →
      (empty.afterAll before).register call = .ok ⟨(empty.afterAll before).entries ++ [call]⟩

/-- How a registry answers lists of ids, and command lines and settings: with one rule for each id that
is asked for, in its own order. -/
structure Registry.Selects (r : Registry) : Prop where
  resolves : ∀ enabled fix x, r.resolve enabled fix = x ↔ r.Resolves enabled fix x
  once : ∀ enabled fix rules, r.resolve enabled fix = .ok rules →
    rules.map Rule.id = r.ids.filter (· ∈ enabled)
  congr : ∀ enabled enabled' fix, (∀ id, id ∈ enabled ↔ id ∈ enabled') →
    (∀ id ∈ enabled, id ∈ r.ids) → r.resolve enabled fix = r.resolve enabled' fix
  listed : ∀ config list fix pieces, pieces ≠ [] → (∀ piece ∈ pieces, ',' ∉ piece) →
    list.toList = [','].intercalate pieces → ∀ y, selectRules r config (some list) fix = y ↔
      ∃ x, r.Resolves (((pieces.map Text.trim).filter (· ≠ [])).map String.ofList) fix x ∧
        y = x.mapError .badSelection
  chosen : ∀ config preset fix, config.HasPreset preset → ∀ y,
    selectRules r config none fix = y ↔
      ∃ x, Builds fix (r.entries.filter fun e => config.Chooses preset e.id) x ∧
        y = x.mapError .rulesNotBuilt
  chosen_once : ∀ config preset fix rules, config.HasPreset preset →
    selectRules r config none fix = .ok rules →
      rules.map Rule.id = r.ids.filter (config.Chooses preset ·)

/-- Whatever calls have been made to register rules, those with a new id count and no others, and every
request is answered in the order of the calls that count, however it is ordered itself. -/
theorem registers_selects (calls : List RuleEntry) :
    Registry.Registers calls (Registry.empty.afterAll calls) ∧
      Registry.Selects (Registry.empty.afterAll calls) := by
  have hempty : Registry.empty.ids.Nodup := List.nodup_nil
  constructor
  · refine ⟨Registry.nodup_ids_afterAll hempty calls, Registry.ids_afterAll calls, ?_, ?_⟩
    · rintro before call after rfl taken
      have taken := Registry.mem_ids_afterAll.2 taken
      refine ⟨Registry.register_of_mem taken, ?_⟩
      rw [Registry.afterAll_append, Registry.afterAll_append, Registry.afterAll_cons,
        Registry.after_of_mem taken]
    · rintro before call after rfl free
      exact Registry.register_of_notMem fun h => free (Registry.mem_ids_afterAll.1 h)
  · refine ⟨fun enabled fix x => Registry.resolve_eq_iff,
      fun enabled fix rules => Registry.map_id_of_resolve,
      fun enabled enabled' fix => Registry.resolve_congr, ?_,
      fun config preset fix set y => selectRules_none_iff set, ?_⟩
    · intro config list fix pieces nonempty free written y
      rw [selectRules_some_iff, idsOf_eq nonempty free written]
    · intro config preset fix rules set selected
      obtain ⟨x, hbuilds, hx⟩ := (selectRules_none_iff set).1 selected
      obtain rfl : x = .ok rules := mapError_eq_ok_iff.1 hx.symm
      rw [hbuilds.map_id, Registry.ids, List.filter_map]
      rfl

/-- The built-in rules, one of them called for twice: each is registered once, and where nothing is set
those on names run. -/
theorem registers_selects_builtin :
    let r := Registry.empty.afterAll (builtinEntries ++ builtinEntries.take 1)
    r.ids = allRuleIds ∧ ∃ rules, selectRules r .default none true = .ok rules ∧
      rules.map Rule.id = defaultRuleIds := by
  intro r
  obtain ⟨hregisters, hselects⟩ := registers_selects (builtinEntries ++ builtinEntries.take 1)
  have hids : r.ids = allRuleIds := hregisters.ids.trans (by decide +kernel)
  have hset : Config.default.HasPreset .default := .inl ⟨rfl, rfl⟩
  have hagree : ∀ e ∈ r.entries.filter fun e => Config.default.Chooses .default e.id,
      (e.build true).id = e.id := by decide +kernel
  have hrules := (hselects.chosen .default .default true hset _).2 ⟨_, .rules hagree, rfl⟩
  refine ⟨hids, _, hrules, (hselects.chosen_once _ _ _ _ hset hrules).trans ?_⟩
  rw [hids]
  decide +kernel

end SchemaLint
