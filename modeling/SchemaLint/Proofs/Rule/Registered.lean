import Mathlib.Data.List.Induction
import SchemaLint.Rule.Registry

/-!
# What a registry grows to and answers

A registry grows by calls, of which those whose id is taken are refused.  It answers a request for rules
with the first id that it does not know, or with the first rule that bears another id than it is
registered under, or with the rules that were asked for in the order of registration.
-/

set_option autoImplicit false
set_option relaxedAutoImplicit false

namespace SchemaLint

namespace RuleEntry

/-- What comes of building some entries' rules: all of them in order, or the first one that bears
another id than its entry. -/
inductive Builds (fix : Bool) (entries : List RuleEntry) : Except RegistryError (List Rule) → Prop
  | rules (agree : ∀ e ∈ entries, (e.build fix).id = e.id) :
      Builds fix entries (.ok (entries.map (·.build fix)))
  | mismatch {before after : List RuleEntry} {e : RuleEntry} (split : entries = before ++ e :: after)
      (agree : ∀ d ∈ before, (d.build fix).id = d.id) (differs : (e.build fix).id ≠ e.id) :
      Builds fix entries (.error (.idMismatch e.id (e.build fix).id))

variable {fix : Bool} {entries : List RuleEntry} {x : Except RegistryError (List Rule)}

theorem builds_mapM (fix : Bool) (entries : List RuleEntry) :
    Builds fix entries (entries.mapM (Registry.buildEntry fix)) := by
  induction entries with
  | nil => exact .rules (by simp)
  | cons e entries ih =>
    rw [List.mapM_cons]
    by_cases he : (e.build fix).id = e.id
    · have hbuild : Registry.buildEntry fix e = .ok (e.build fix) := if_pos he
      rw [hbuild]
      generalize entries.mapM (Registry.buildEntry fix) = x at ih
      cases ih with
      | rules agree => exact .rules (List.forall_mem_cons.2 ⟨he, agree⟩)
      | @mismatch before after d split agree differs =>
        exact .mismatch (by rw [split, List.cons_append]) (List.forall_mem_cons.2 ⟨he, agree⟩)
          differs
    · have hbuild : Registry.buildEntry fix e = .error (.idMismatch e.id (e.build fix).id) :=
        if_neg he
      rw [hbuild]
      exact .mismatch (List.nil_append (e :: entries)).symm (by simp) he

theorem Builds.mapM_eq (h : Builds fix entries x) :
    entries.mapM (Registry.buildEntry fix) = x := by
  cases h with
  | rules agree =>
    induction entries with
    | nil => rfl
    | cons e entries ih =>
      obtain ⟨he, hothers⟩ := List.forall_mem_cons.1 agree
      have hbuild : Registry.buildEntry fix e = .ok (e.build fix) := if_pos he
      rw [List.mapM_cons, hbuild, ih hothers]
      rfl
  | @mismatch before after e split agree differs =>
    subst split
    induction before with
    | nil =>
      have hbuild : Registry.buildEntry fix e = .error (.idMismatch e.id (e.build fix).id) :=
        if_neg differs
      rw [List.nil_append, List.mapM_cons, hbuild]
      rfl
    | cons d before ih =>
      obtain ⟨hd, hothers⟩ := List.forall_mem_cons.1 agree
      have hbuild : Registry.buildEntry fix d = .ok (d.build fix) := if_pos hd
      rw [List.cons_append, List.mapM_cons, hbuild, ih hothers]
      rfl

theorem mapM_eq_iff : entries.mapM (Registry.buildEntry fix) = x ↔ Builds fix entries x :=
  ⟨fun h => h ▸ builds_mapM fix entries, Builds.mapM_eq⟩

theorem Builds.map_id {rules : List Rule} (h : Builds fix entries (.ok rules)) :
    rules.map Rule.id = entries.map RuleEntry.id := by
  cases h with
  | rules agree => simpa using agree

end RuleEntry

namespace Registry

open RuleEntry (Builds)

def after (r : Registry) (call : RuleEntry) : Registry :=
  (r.register call).registry

/-- A registry after some calls to register rules. -/
def afterAll (r : Registry) (calls : List RuleEntry) : Registry :=
  calls.foldl after r

/-- What comes of asking for rules by their ids: the first id that is not registered, or what comes of
building the rules with these ids. -/
inductive Resolves (r : Registry) (enabled : List String) (fix : Bool) :
    Except RegistryError (List Rule) → Prop
  | unknown {before after : List String} {id : String} (split : enabled = before ++ id :: after)
      (known : ∀ b ∈ before, b ∈ r.ids) (unknown : id ∉ r.ids) :
      Resolves r enabled fix (.error (.unknownRule id))
  | known {x : Except RegistryError (List Rule)} (known : ∀ id ∈ enabled, id ∈ r.ids)
      (builds : Builds fix (r.entries.filter (·.id ∈ enabled)) x) : Resolves r enabled fix x

variable {r : Registry} {call : RuleEntry} {fix : Bool} {enabled : List String}
  {x : Except RegistryError (List Rule)}

theorem contains_iff {id : String} : r.contains id = true ↔ id ∈ r.ids := by
  simp [contains]

/-- A call is refused where its id is taken, and the registry is kept as it is. -/
theorem register_of_mem (taken : call.id ∈ r.ids) :
    r.register call = @Registration.error r (.duplicateRule call.id) :=
  if_pos (contains_iff.2 taken)

theorem register_of_notMem (free : call.id ∉ r.ids) :
    r.register call = .ok ⟨r.entries ++ [call]⟩ :=
  if_neg fun h => free (contains_iff.1 h)

theorem after_of_mem (taken : call.id ∈ r.ids) : r.after call = r := by
  unfold after
  rw [register_of_mem taken]
  rfl

theorem ids_after (r : Registry) (call : RuleEntry) :
    (r.after call).ids = if call.id ∈ r.ids then r.ids else r.ids ++ [call.id] := by
  split
  · rename_i taken
    rw [after_of_mem taken]
  · rename_i free
    unfold after
    rw [register_of_notMem free]
    exact List.map_append

@[simp] theorem afterAll_nil (r : Registry) : r.afterAll [] = r := rfl

@[simp] theorem afterAll_cons (r : Registry) (call : RuleEntry) (calls : List RuleEntry) :
    r.afterAll (call :: calls) = (r.after call).afterAll calls := rfl

@[simp] theorem afterAll_append (r : Registry) (calls more : List RuleEntry) :
    r.afterAll (calls ++ more) = (r.afterAll calls).afterAll more := List.foldl_append

theorem nodup_ids_after (h : r.ids.Nodup) (call : RuleEntry) : (r.after call).ids.Nodup := by
  rw [ids_after]
  split
  · exact h
  · rename_i free
    refine List.nodup_append.2 ⟨h, by simp, ?_⟩
    rintro a ha b hb rfl
    exact free (List.mem_singleton.1 hb ▸ ha)

theorem nodup_ids_afterAll (h : r.ids.Nodup) (calls : List RuleEntry) :
    (r.afterAll calls).ids.Nodup := by
  induction calls generalizing r with
  | nil => exact h
  | cons call calls ih => exact ih (nodup_ids_after h call)

theorem ids_afterAll (calls : List RuleEntry) :
    (empty.afterAll calls).ids = (calls.map RuleEntry.id).eraseDups := by
  induction calls using List.reverseRecOn with
  | nil => rfl
  | append_singleton calls call ih =>
    rw [afterAll_append, afterAll_cons, afterAll_nil, ids_after, ih, List.map_append,
      List.eraseDups_append, List.map_singleton]
    generalize calls.map RuleEntry.id = ids
    by_cases h : call.id ∈ ids <;> simp [List.removeAll, List.eraseDups_cons, h]

theorem mem_ids_afterAll {calls : List RuleEntry} {id : String} :
    id ∈ (empty.afterAll calls).ids ↔ id ∈ calls.map RuleEntry.id := by
  rw [ids_afterAll, List.mem_eraseDups]

/-! ## Answers -/

theorem resolveWith_eq_iff {test : String → Bool} :
    r.resolveWith test fix = x ↔ Builds fix (r.entries.filter fun e => test e.id) x :=
  RuleEntry.mapM_eq_iff

theorem resolve_of_known (known : ∀ id ∈ enabled, id ∈ r.ids) :
    r.resolve enabled fix = (r.entries.filter (·.id ∈ enabled)).mapM (buildEntry fix) := by
  have hfind : (enabled.find? fun id => !r.contains id) = none := by
    simpa [contains] using known
  have hselected : r.entries.filter (fun e => enabled.contains e.id) =
      r.entries.filter (·.id ∈ enabled) :=
    List.filter_congr fun e _ => List.contains_eq_mem e.id enabled
  unfold resolve resolveWith
  rw [hfind, ← hselected]

theorem resolve_of_unknown {before after : List String} {id : String}
    (known : ∀ b ∈ before, b ∈ r.ids) (unknown : id ∉ r.ids) :
    r.resolve (before ++ id :: after) fix = .error (.unknownRule id) := by
  have hfind : ((before ++ id :: after).find? fun id => !r.contains id) = some id :=
    List.find?_eq_some_iff_append.2 ⟨by simpa [contains] using unknown, before, after, rfl,
      by simpa [contains] using known⟩
  unfold resolve
  rw [hfind]

/-- What a registry answers to a list of ids. -/
theorem resolve_eq_iff : r.resolve enabled fix = x ↔ r.Resolves enabled fix x := by
  constructor
  · rintro rfl
    by_cases hall : ∀ id ∈ enabled, id ∈ r.ids
    · exact .known hall (RuleEntry.mapM_eq_iff.1 (resolve_of_known hall).symm)
    · have hsome : (enabled.find? fun id => !r.contains id).isSome = true := by
        simpa [contains] using hall
      obtain ⟨id, hid⟩ := Option.isSome_iff_exists.1 hsome
      obtain ⟨hunknown, before, after, rfl, hknown⟩ := List.find?_eq_some_iff_append.1 hid
      have hunknown : id ∉ r.ids := by simpa [contains] using hunknown
      have hknown : ∀ b ∈ before, b ∈ r.ids := by simpa [contains] using hknown
      rw [resolve_of_unknown hknown hunknown]
      exact .unknown rfl hknown hunknown
  · intro h
    cases h with
    | unknown split known unknown =>
      subst split
      exact resolve_of_unknown known unknown
    | known known builds =>
      rw [resolve_of_known known]
      exact RuleEntry.mapM_eq_iff.2 builds

theorem resolve_congr {enabled' : List String} (same : ∀ id, id ∈ enabled ↔ id ∈ enabled')
    (known : ∀ id ∈ enabled, id ∈ r.ids) : r.resolve enabled fix = r.resolve enabled' fix := by
  have hselected : r.entries.filter (·.id ∈ enabled) = r.entries.filter (·.id ∈ enabled') :=
    List.filter_congr fun e _ => decide_eq_decide.2 (same e.id)
  rw [resolve_of_known known, resolve_of_known fun id hid => known id ((same id).2 hid), hselected]

theorem map_id_of_resolve {rules : List Rule} (h : r.resolve enabled fix = .ok rules) :
    rules.map Rule.id = r.ids.filter (· ∈ enabled) := by
  cases resolve_eq_iff.1 h with
  | known known builds =>
    rw [builds.map_id, ids, List.filter_map]
    rfl

end Registry

end SchemaLint
