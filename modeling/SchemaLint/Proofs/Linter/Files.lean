import Mathlib.Algebra.BigOperators.Group.List.Basic
import Mathlib.Data.Set.Card
import Mathlib.Data.Set.List
import SchemaLint.Proofs.Linter.Account
import SchemaLint.Proofs.Linter.Schedule
import SchemaLint.Rule.Naming

/-!
# Many files linted

A run over many files ends, in whatever order the work on them is done.  It leaves every file as it
was or as fixing it alone would, and its report says of each file what a run over it alone says.
-/

set_option autoImplicit false
set_option relaxedAutoImplicit false

namespace SchemaLint

namespace Task

def remaining : Task → Nat
  | .waiting _ => 3
  | .loaded _ _ => 2
  | .replacing _ _ _ => 1
  | .finished _ => 0

theorem exists_finished {task : Task} (h : task.remaining = 0) : ∃ o, task = .finished o := by
  cases task with
  | finished o => exact ⟨o, rfl⟩
  | _ => cases h

theorem remaining_advance (x : Linter) (reader : SchemaReader) (outage : Outage) (store : Store)
    {task : Task} (h : task.remaining ≠ 0) :
    (task.advance x reader outage store).1.remaining < task.remaining := by
  cases task with
  | finished o => exact absurd rfl h
  | waiting path =>
    unfold advance
    dsimp only
    split
    · exact Nat.zero_lt_succ 2
    · split
      · exact Nat.zero_lt_succ 2
      · exact Nat.lt_succ_self 2
  | loaded path source =>
    unfold advance
    dsimp only
    split
    · exact Nat.zero_lt_succ 1
    · exact Nat.zero_lt_succ 1
    · exact Nat.lt_succ_self 1
  | replacing path report text =>
    unfold advance
    dsimp only
    split
    · exact Nat.zero_lt_succ 0
    · split
      · exact Nat.zero_lt_succ 0
      · exact Nat.zero_lt_succ 0

end Task

namespace Linter

variable {x : Linter} {reader : SchemaReader} {outage : Outage} {store : Store}
  {paths : List String}

/-- Every run comes to its end: as long as a task is not done it can go on, and no task goes on for
ever. -/
theorem exists_run_done (m : Moment) :
    ∃ final outcomes, x.Run reader outage m (.done final outcomes) := by
  induction hsum : (m.tasks.map Task.remaining).sum using Nat.strong_induction_on generalizing m with
  | _ n ih =>
    by_cases hdone : ∀ task ∈ m.tasks, task.remaining = 0
    · have hfinished : m.tasks ∈ Set.range (List.map Task.finished) := by
        rw [Set.range_list_map]
        intro task htask
        obtain ⟨o, rfl⟩ := Task.exists_finished (hdone task htask)
        exact ⟨o, rfl⟩
      obtain ⟨outcomes, houtcomes⟩ := hfinished
      refine ⟨m.store, outcomes, ?_⟩
      unfold Moment.done
      rw [houtcomes]
    · push Not at hdone
      obtain ⟨task, htask, hremaining⟩ := hdone
      obtain ⟨current, tasks⟩ := m
      obtain ⟨before, after, rfl⟩ := List.append_of_mem htask
      have hless := Task.remaining_advance x reader outage current hremaining
      have hsum' : ((before ++ (task.advance x reader outage current).1 :: after).map
          Task.remaining).sum < n := by
        rw [← hsum]
        simp only [List.map_append, List.map_cons, List.sum_append, List.sum_cons]
        omega
      obtain ⟨final, outcomes, hrun⟩ := ih _ hsum' ⟨(task.advance x reader outage current).2, _⟩ rfl
      exact ⟨final, outcomes, .head (.advance current before after task) hrun⟩

theorem run_attempt (current : Store) (before after : List Task) (path : String) :
    x.Run reader outage ⟨current, before ++ .waiting path :: after⟩
      ⟨(x.attempt reader outage current path).2,
        before ++ .finished ⟨path, (x.attempt reader outage current path).1⟩ :: after⟩ := by
  have hstep : ∀ (s : Store) (task : Task), x.Run reader outage ⟨s, before ++ task :: after⟩
      ⟨(task.advance x reader outage s).2,
        before ++ (task.advance x reader outage s).1 :: after⟩ :=
    fun s task => .single (.advance s before after task)
  have hfirst := hstep current (.waiting path)
  unfold attempt
  unfold Task.advance at hfirst
  dsimp only at hfirst
  cases houtage : outage.read path with
  | some fault =>
    rw [houtage] at hfirst
    exact hfirst
  | none =>
    rw [houtage] at hfirst
    cases hsource : current.read path with
    | error fault =>
      rw [hsource] at hfirst
      exact hfirst
    | ok source =>
      rw [hsource] at hfirst
      refine hfirst.trans ?_
      have hsecond := hstep current (.loaded path source)
      unfold Task.advance at hsecond
      dsimp only at hsecond ⊢
      cases hlinted : x.lintText reader path source with
      | error e =>
        rw [hlinted] at hsecond
        exact hsecond
      | ok linted =>
        obtain ⟨report, new⟩ := linted
        rw [hlinted] at hsecond
        cases new with
        | none => exact hsecond
        | some text =>
          refine hsecond.trans ?_
          have hthird := hstep current (.replacing path report text)
          unfold Task.advance at hthird
          dsimp only at hthird ⊢
          cases hrefused : outage.replace path with
          | some fault =>
            rw [hrefused] at hthird
            exact hthird
          | none =>
            rw [hrefused] at hthird
            cases hreplace : current.replace path text with
            | error fault =>
              rw [hreplace] at hthird
              exact hthird
            | ok next =>
              rw [hreplace] at hthird
              exact hthird

/-- Linting one file after the other is one of the runs. -/
theorem run_lintEach (current : Store) (before : List Task) (paths : List String) :
    x.Run reader .none ⟨current, before ++ paths.map .waiting⟩
      ⟨(x.lintEach reader current paths).2,
        before ++ (x.lintEach reader current paths).1.map .finished⟩ := by
  induction paths generalizing current before with
  | nil => exact .refl
  | cons path paths ih =>
    have hfirst := @run_attempt x reader .none current before (paths.map .waiting) path
    rw [attempt_none] at hfirst
    refine hfirst.trans ?_
    have hothers := ih (x.lintFile reader current path).2
      (before ++ [.finished ⟨path, (x.lintFile reader current path).1⟩])
    rw [List.append_assoc, List.append_assoc] at hothers
    exact hothers

end Linter

/-- What a run over the files at some paths has to leave, with its outcomes and its report.

Every path has an outcome, and the report gives the failures and errors in the order of paths. A
file has no report exactly if it cannot be linted, and is as it was then. A file with one is as fixing leaves it, and has the failures
that linting its text reports. Other files are as they were, as all are in a run that only checks,
and as many files have changed as the report counts. -/
structure Accounts (x : Linter) (reader : SchemaReader) (outage : Outage) (store : Store)
    (paths : List String) (final : Store) (outcomes : List FileOutcome) (report : RunReport) :
    Prop where
  paths_eq : outcomes.map FileOutcome.path = paths
  sorted : ∃ sorted : List FileOutcome, sorted.Perm outcomes ∧
    (sorted.Pairwise fun a b => Path.le a.path b.path = true) ∧
    report.failures = sorted.flatMap FileOutcome.failures ∧
    report.errors = sorted.filterMap FileOutcome.error?
  checked : report.filesChecked = outcomes.countP (·.result.isOk)
  counted : report.filesChecked + report.errors.length = paths.length
  fails : ∀ o ∈ outcomes, ∀ e, o.result = .error e ↔ x.Fails reader outage store o.path e
  refused : ∀ o ∈ outcomes, ∀ e, o.result = .error e → final.find o.path = store.find o.path
  linted : ∀ o ∈ outcomes, ∀ fileReport, o.result = .ok fileReport → ∃ source,
    store.read o.path = .ok source ∧ x.lintSource reader o.path source = .ok fileReport ∧
      (x.fixMode = true → ∃ file outcome, reader o.path source = .ok file ∧
        x.fix reader file source = .ok outcome ∧ final.read o.path = .ok outcome.text)
  unlisted : ∀ place, (∀ path ∈ paths, store.locate path ≠ .ok place) →
    final.entryAt? place = store.entryAt? place
  unfixed : x.fixMode = false → ∀ place, final.entryAt? place = store.entryAt? place
  fixed : report.filesFixed = {place | final.entryAt? place ≠ store.entryAt? place}.ncard

namespace Linter

variable {x : Linter} {reader : SchemaReader} {outage : Outage} {store final : Store}
  {paths : List String} {outcomes : List FileOutcome}

theorem Run.entryAt?_eq (separate : paths.Pairwise store.Separates)
    (run : Run x reader outage (.start store paths) (.done final outcomes)) {path : String}
    (mem : path ∈ paths) {place : Place} (located : store.locate path = .ok place) :
    final.entryAt? place = (x.attempt reader outage store path).2.entryAt? place := by
  have houtcomes := Run.outcomes_eq separate run
  have hmem : Task.finished ⟨path, (x.attempt reader outage store path).1⟩ ∈
      (Moment.done final outcomes).tasks := by
    apply List.mem_map_of_mem
    rw [houtcomes]
    exact List.mem_map_of_mem mem
  exact (Run.faithful separate run).left _ hmem place located

theorem Run.entryAt?_eq_of_unlisted (separate : paths.Pairwise store.Separates)
    (run : Run x reader outage (.start store paths) (.done final outcomes)) {place : Place}
    (unlisted : ∀ path ∈ paths, store.locate path ≠ .ok place) :
    final.entryAt? place = store.entryAt? place := by
  refine (Run.faithful separate run).kept place fun o ho => unlisted o.path ?_
  obtain ⟨o', ho', h⟩ := List.mem_map.1 ho
  cases h
  rw [Run.outcomes_eq separate run] at ho'
  obtain ⟨path, hpath, rfl⟩ := List.mem_map.1 ho'
  exact hpath

theorem Run.attempt_of_mem (separate : paths.Pairwise store.Separates)
    (run : Run x reader outage (.start store paths) (.done final outcomes)) {o : FileOutcome}
    (mem : o ∈ outcomes) :
    o.path ∈ paths ∧ o.result = (x.attempt reader outage store o.path).1 := by
  rw [Run.outcomes_eq separate run] at mem
  obtain ⟨path, hpath, rfl⟩ := List.mem_map.1 mem
  exact ⟨hpath, rfl⟩

theorem Run.find_eq_of_error (separate : paths.Pairwise store.Separates)
    (run : Run x reader outage (.start store paths) (.done final outcomes)) {o : FileOutcome}
    (mem : o ∈ outcomes) {e : LintError} (refused : o.result = .error e) :
    final.find o.path = store.find o.path := by
  obtain ⟨hpath, hresult⟩ := Run.attempt_of_mem separate run mem
  have hattempt : x.attempt reader outage store o.path =
      (.error e, (x.attempt reader outage store o.path).2) := by
    rw [← refused, hresult]
  refine Store.find_eq_of_entryAt? ((Run.faithful separate run).located o.path) fun place hplace => ?_
  rw [Run.entryAt?_eq separate run hpath hplace, attempt_eq_error hattempt]

theorem Run.linted_of_ok (separate : paths.Pairwise store.Separates)
    (run : Run x reader outage (.start store paths) (.done final outcomes)) {o : FileOutcome}
    (mem : o ∈ outcomes) {report : FileReport} (done : o.result = .ok report) :
    ∃ source, store.read o.path = .ok source ∧ x.lintSource reader o.path source = .ok report ∧
      (x.fixMode = true → ∃ file outcome, reader o.path source = .ok file ∧
        x.fix reader file source = .ok outcome ∧ final.read o.path = .ok outcome.text) := by
  obtain ⟨hpath, hresult⟩ := Run.attempt_of_mem separate run mem
  have hattempt : x.attempt reader outage store o.path =
      (.ok report, (x.attempt reader outage store o.path).2) := by
    rw [← done, hresult]
  obtain ⟨source, place, hread, hplace, hlinted, hfix, -, -⟩ := attempt_eq_ok hattempt
  refine ⟨source, hread, hlinted, fun hmode => ?_⟩
  obtain ⟨file, outcome, hfile, hfixed, hentry⟩ := hfix hmode
  refine ⟨file, outcome, hfile, hfixed, ?_⟩
  rw [← Run.entryAt?_eq separate run hpath hplace] at hentry
  exact Store.read_eq_of_entryAt? (((Run.faithful separate run).located o.path).trans hplace) hentry

theorem Run.entryAt?_eq_of_checking (separate : paths.Pairwise store.Separates)
    (run : Run x reader outage (.start store paths) (.done final outcomes))
    (checking : x.fixMode = false) (place : Place) :
    final.entryAt? place = store.entryAt? place := by
  by_cases hlisted : ∃ path ∈ paths, store.locate path = .ok place
  · obtain ⟨path, hpath, hplace⟩ := hlisted
    rw [Run.entryAt?_eq separate run hpath hplace]
    cases h : x.attempt reader outage store path with
    | mk result next =>
      cases result with
      | error e => rw [attempt_eq_error h]
      | ok report =>
        obtain ⟨-, -, -, -, -, -, hsame, -⟩ := attempt_eq_ok h
        rw [hsame checking]
  · push Not at hlisted
    exact Run.entryAt?_eq_of_unlisted separate run hlisted

private theorem fixed_iff_changed (separate : paths.Pairwise store.Separates)
    (run : Run x reader outage (.start store paths) (.done final outcomes)) {path : String}
    (mem : path ∈ paths) {place : Place} (located : store.locate path = .ok place) :
    FileOutcome.fixed ⟨path, (x.attempt reader outage store path).1⟩ = true ↔
      final.entryAt? place ≠ store.entryAt? place := by
  rw [Run.entryAt?_eq separate run mem located]
  cases h : x.attempt reader outage store path with
  | mk result next =>
    cases result with
    | error e => simp [FileOutcome.fixed, attempt_eq_error h]
    | ok report =>
      obtain ⟨source, place', -, hplace', -, -, -, hchanged⟩ := attempt_eq_ok h
      obtain rfl : place = place' := Except.ok.inj (located.symm.trans hplace')
      exact hchanged

private def placeOf (store : Store) (path : String) : Place :=
  (store.locate path).toOption.getD []

private theorem placeOf_eq {path : String} {place : Place} (located : store.locate path = .ok place) :
    placeOf store path = place := by
  rw [placeOf, located]
  rfl

private theorem locate_of_fixed {path : String}
    (fixed : FileOutcome.fixed ⟨path, (x.attempt reader outage store path).1⟩ = true) :
    store.locate path = .ok (placeOf store path) := by
  cases hattempt : x.attempt reader outage store path with
  | mk result next =>
    cases result with
    | error e => simp [FileOutcome.fixed, hattempt] at fixed
    | ok report =>
      obtain ⟨source, place, -, hplace, -⟩ := attempt_eq_ok hattempt
      rw [placeOf_eq hplace]
      exact hplace

private theorem ncard_changed (separate : paths.Pairwise store.Separates)
    (run : Run x reader outage (.start store paths) (.done final outcomes)) :
    {place | final.entryAt? place ≠ store.entryAt? place}.ncard =
      outcomes.countP FileOutcome.fixed := by
  -- The places of the fixed files are all places that have changed, each of them once.
  let changed := (paths.filter fun path =>
    FileOutcome.fixed ⟨path, (x.attempt reader outage store path).1⟩).map (placeOf store)
  have hcount : outcomes.countP FileOutcome.fixed = changed.length := by
    rw [Run.outcomes_eq separate run, List.countP_map, List.countP_eq_length_filter,
      List.length_map]
    rfl
  have hset : {place | final.entryAt? place ≠ store.entryAt? place} =
      {place | place ∈ changed} := by
    ext place
    simp only [changed, Set.mem_ofPred_eq, List.mem_map, List.mem_filter]
    constructor
    · intro hchanged
      have hlisted : ∃ path ∈ paths, store.locate path = .ok place := by
        by_contra hnone
        push Not at hnone
        exact hchanged (Run.entryAt?_eq_of_unlisted separate run hnone)
      obtain ⟨path, hpath, hplace⟩ := hlisted
      have hfixed := (fixed_iff_changed separate run hpath hplace).2 hchanged
      exact ⟨path, ⟨hpath, hfixed⟩, placeOf_eq hplace⟩
    · rintro ⟨path, ⟨hpath, hfixed⟩, rfl⟩
      exact (fixed_iff_changed separate run hpath (locate_of_fixed hfixed)).1 hfixed
  have hnodup : changed.Nodup := by
    refine List.pairwise_map.2 ((separate.filter _).imp_of_mem fun {a b} ha hb hab heq => ?_)
    have ha := locate_of_fixed (List.mem_filter.1 ha).2
    have hb := locate_of_fixed (List.mem_filter.1 hb).2
    exact hab _ ha (by rw [heq]; exact hb)
  rw [hcount, hset, ← List.toFinset_card_of_nodup hnodup, ← List.coe_toFinset, Set.ncard_coe_finset]

theorem Run.accounts (separate : paths.Pairwise store.Separates)
    (run : Run x reader outage (.start store paths) (.done final outcomes)) :
    Accounts x reader outage store paths final outcomes (.ofOutcomes outcomes) := by
  have hpaths : outcomes.map FileOutcome.path = paths := by
    rw [Run.outcomes_eq separate run, List.map_map]
    exact List.map_id paths
  have hreport := RunReport.ofOutcomes_eq outcomes
  exact {
    paths_eq := hpaths
    sorted := by
      refine ⟨RunReport.sorted outcomes, RunReport.sorted_perm outcomes,
        RunReport.pairwise_sorted outcomes, ?_, ?_⟩
      · rw [hreport]
      · rw [hreport]
    checked := by rw [hreport]
    counted := by rw [RunReport.filesChecked_add_errors, ← hpaths, List.length_map]
    fails := by
      intro o ho e
      rw [(Run.attempt_of_mem separate run ho).2]
      exact attempt_eq_error_iff
    refused := fun _ ho _ he => Run.find_eq_of_error separate run ho he
    linted := fun _ ho _ hok => Run.linted_of_ok separate run ho hok
    unlisted := fun _ => Run.entryAt?_eq_of_unlisted separate run
    unfixed := Run.entryAt?_eq_of_checking separate run
    fixed := by rw [ncard_changed separate run, hreport] }

theorem Run.entryAt?_perm {paths' : List String} {final' : Store} {outcomes' : List FileOutcome}
    (separate : paths.Pairwise store.Separates) (perm : paths.Perm paths')
    (run : Run x reader outage (.start store paths) (.done final outcomes))
    (run' : Run x reader outage (.start store paths') (.done final' outcomes')) (place : Place) :
    final'.entryAt? place = final.entryAt? place := by
  have separate' : paths'.Pairwise store.Separates :=
    (perm.pairwise_iff Store.Separates.symm).1 separate
  by_cases hlisted : ∃ path ∈ paths, store.locate path = .ok place
  · obtain ⟨path, hpath, hplace⟩ := hlisted
    rw [Run.entryAt?_eq separate run hpath hplace,
      Run.entryAt?_eq separate' run' (perm.mem_iff.1 hpath) hplace]
  · push Not at hlisted
    rw [Run.entryAt?_eq_of_unlisted separate run hlisted,
      Run.entryAt?_eq_of_unlisted separate' run' fun path hpath =>
        hlisted path (perm.mem_iff.2 hpath)]

theorem Run.ofOutcomes_perm {paths' : List String} {final' : Store} {outcomes' : List FileOutcome}
    (separate : paths.Pairwise store.Separates) (perm : paths.Perm paths')
    (apart : paths.Pairwise fun a b => Path.isSame a b = false)
    (run : Run x reader outage (.start store paths) (.done final outcomes))
    (run' : Run x reader outage (.start store paths') (.done final' outcomes')) :
    RunReport.ofOutcomes outcomes' = RunReport.ofOutcomes outcomes := by
  have separate' : paths'.Pairwise store.Separates :=
    (perm.pairwise_iff Store.Separates.symm).1 separate
  rw [Run.outcomes_eq separate run, Run.outcomes_eq separate' run']
  exact (RunReport.ofOutcomes_perm (perm.map _) (List.pairwise_map.2 apart)).symm

/-- A run over different files comes to its end in whatever order the work on them is done, and
then every file is accounted for.  Report and files are the same for every such order, and also for
every order in which the paths are listed.  Linting one file after the other is one of these
runs. -/
theorem run_accounts (x : Linter) (reader : SchemaReader) (outage : Outage) (store : Store)
    (paths : List String) (separate : paths.Pairwise store.Separates) :
    (∀ m, x.Run reader outage (.start store paths) m →
      ∃ final outcomes, x.Run reader outage m (.done final outcomes)) ∧
    (∀ final outcomes, x.Run reader outage (.start store paths) (.done final outcomes) →
      Accounts x reader outage store paths final outcomes (.ofOutcomes outcomes) ∧
      (∀ final' outcomes', x.Run reader outage (.start store paths) (.done final' outcomes') →
        RunReport.ofOutcomes outcomes' = RunReport.ofOutcomes outcomes ∧
          ∀ place, final'.entryAt? place = final.entryAt? place) ∧
      ∀ paths', paths.Perm paths' → (paths.Pairwise fun a b => Path.isSame a b = false) →
        ∀ final' outcomes', x.Run reader outage (.start store paths') (.done final' outcomes') →
          RunReport.ofOutcomes outcomes' = RunReport.ofOutcomes outcomes ∧
            ∀ place, final'.entryAt? place = final.entryAt? place) ∧
    ∃ outcomes, (x.lintPaths reader store paths).1 = .ofOutcomes outcomes ∧
      x.Run reader .none (.start store paths) (.done (x.lintPaths reader store paths).2 outcomes) := by
  refine ⟨fun m _ => exists_run_done m, fun final outcomes run => ?_,
    ⟨(x.lintEach reader store paths).1, rfl, run_lintEach store [] paths⟩⟩
  refine ⟨Run.accounts separate run, fun final' outcomes' run' => ?_,
    fun paths' perm apart final' outcomes' run' => ?_⟩
  · have hsame := Run.outcomes_eq separate run'
    rw [← Run.outcomes_eq separate run] at hsame
    rw [hsame]
    exact ⟨rfl, Run.entryAt?_perm separate (.refl paths) run run'⟩
  · exact ⟨Run.ofOutcomes_perm separate perm apart run run', Run.entryAt?_perm separate perm run run'⟩

/-- In one file a call is renamed, one cannot be parsed, and one is not there. -/
theorem run_accounts_fix :
    let store : Store := .ofEntries []
      [(["a.proto"], .text "service S \x7b rpc get_a (A) returns (B); \x7d"),
        (["b.proto"], .text "service")]
    let paths := ["b.proto", "c.proto", "a.proto"]
    let x : Linter := ⟨[NamingPolicy.rpcs.rule true], true, .default⟩
    let run := x.lintPaths SchemaFile.parse store paths
    paths.Pairwise store.Separates ∧ run.1.filesChecked = 1 ∧ run.1.errors.length = 2 ∧
      run.1.filesFixed = 1 ∧ {place | run.2.entryAt? place ≠ store.entryAt? place}.ncard = 1 ∧
      run.2.read "a.proto" = .ok "service S \x7b rpc GetA (A) returns (B); \x7d" := by
  intro store paths x run
  have hlocated : paths.map (fun path => (store.locate path).toOption) =
      [some ["b.proto"], some ["c.proto"], some ["a.proto"]] := by decide +kernel
  have hnodup : (paths.map fun path => (store.locate path).toOption).Nodup := by
    rw [hlocated]
    decide
  have hseparate : paths.Pairwise store.Separates := by
    refine (List.pairwise_map.1 hnodup).imp fun {a b} hne place ha hb => hne ?_
    rw [ha, hb]
  obtain ⟨-, hends, outcomes, hreport, hrun⟩ :=
    run_accounts x SchemaFile.parse .none store paths hseparate
  have haccounts := (hends _ _ hrun).1
  have houtcomes := Run.outcomes_eq hseparate hrun
  have hchecked : run.1.filesChecked = 1 := by
    rw [hreport, haccounts.checked, houtcomes]
    decide +kernel
  have hfixed : run.1.filesFixed = 1 := by
    rw [hreport, RunReport.ofOutcomes_eq, houtcomes]
    decide +kernel
  rw [← hreport] at haccounts
  have herrors : 1 + run.1.errors.length = 3 := hchecked ▸ haccounts.counted
  exact ⟨hseparate, hchecked, Nat.add_left_cancel herrors, hfixed, haccounts.fixed ▸ hfixed,
    eq_ok_of_toOption (by decide +kernel)⟩

end Linter

end SchemaLint
