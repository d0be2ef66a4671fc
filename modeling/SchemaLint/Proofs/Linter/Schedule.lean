import Mathlib.Logic.Relation
import Mathlib.Tactic.Tauto
import SchemaLint.Proofs.Linter.Attempt

/-!
# Files linted at the same time

Many files are worked on at the same time, each by a task of its own, and the tasks take their steps
in any order.  Each task does to its file what it would do alone, because no other task touches that
file.
-/

set_option autoImplicit false
set_option relaxedAutoImplicit false

namespace SchemaLint

/-- The work on the file at a path: not yet read, read, to be given a new text, or done. -/
inductive Task
  | waiting (path : String)
  | loaded (path source : String)
  | replacing (path : String) (report : FileReport) (text : String)
  | finished (outcome : FileOutcome)

namespace Task

def path : Task → String
  | .waiting path => path
  | .loaded path _ => path
  | .replacing path _ _ => path
  | .finished outcome => outcome.path

/-- The next step of the work on a file, with what it leaves in the store. -/
def advance (x : Linter) (reader : SchemaReader) (outage : Outage) (store : Store) :
    Task → Task × Store
  | .waiting path =>
    match outage.read path with
    | some fault => (.finished ⟨path, .error (.store path fault)⟩, store)
    | none =>
      match store.read path with
      | .error fault => (.finished ⟨path, .error (.store path fault)⟩, store)
      | .ok source => (.loaded path source, store)
  | .loaded path source =>
    match x.lintText reader path source with
    | .error e => (.finished ⟨path, .error e⟩, store)
    | .ok (report, none) => (.finished ⟨path, .ok report⟩, store)
    | .ok (report, some text) => (.replacing path report text, store)
  | .replacing path report text =>
    match outage.replace path with
    | some fault => (.finished ⟨path, .error (.store path fault)⟩, store)
    | none =>
      match store.replace path text with
      | .error fault => (.finished ⟨path, .error (.store path fault)⟩, store)
      | .ok next => (.finished ⟨path, .ok report⟩, next)
  | .finished outcome => (.finished outcome, store)

end Task

/-- The store and the tasks at some moment of a run. -/
structure Moment where
  store : Store
  tasks : List Task

def Moment.start (store : Store) (paths : List String) : Moment :=
  ⟨store, paths.map .waiting⟩

def Moment.done (store : Store) (outcomes : List FileOutcome) : Moment :=
  ⟨store, outcomes.map .finished⟩

namespace Linter

variable (x : Linter) (reader : SchemaReader) (outage : Outage)

inductive Step : Moment → Moment → Prop
  | advance (store : Store) (before after : List Task) (task : Task) :
      Step ⟨store, before ++ task :: after⟩
        ⟨(task.advance x reader outage store).2,
          before ++ (task.advance x reader outage store).1 :: after⟩

abbrev Run : Moment → Moment → Prop :=
  Relation.ReflTransGen (Step x reader outage)

end Linter

/-- Two paths lead to different files, if they lead anywhere. -/
def Store.Separates (s : Store) (a b : String) : Prop :=
  ∀ place, s.locate a = .ok place → s.locate b ≠ .ok place

theorem Store.Separates.symm {s : Store} {a b : String} (h : s.Separates a b) :
    s.Separates b a :=
  fun place hb ha => h place ha hb

/-- How far a task has come is what its file, as it was at first, made it come to. -/
def Task.OnCourse (x : Linter) (reader : SchemaReader) (outage : Outage) (store : Store) :
    Task → Prop
  | .waiting _ => True
  | .loaded path source => outage.read path = none ∧ store.read path = .ok source
  | .replacing path report text => outage.read path = none ∧ ∃ source,
      store.read path = .ok source ∧ x.lintText reader path source = .ok (report, some text)
  | .finished outcome => outcome.result = (x.attempt reader outage store outcome.path).1

/-- At every moment the tasks are on course, and the store differs from what it was at first only
in the files whose tasks are done, which are as their task alone would have left them. -/
structure Moment.Faithful (x : Linter) (reader : SchemaReader) (outage : Outage) (store : Store)
    (paths : List String) (m : Moment) : Prop where
  paths_eq : m.tasks.map Task.path = paths
  course : ∀ task ∈ m.tasks, task.OnCourse x reader outage store
  located : ∀ path, m.store.locate path = store.locate path
  frozen : m.store.frozen = store.frozen
  kept : ∀ place, (∀ o, .finished o ∈ m.tasks → store.locate o.path ≠ .ok place) →
    m.store.entryAt? place = store.entryAt? place
  left : ∀ o, .finished o ∈ m.tasks → ∀ place, store.locate o.path = .ok place →
    m.store.entryAt? place = (x.attempt reader outage store o.path).2.entryAt? place

namespace Linter

variable {x : Linter} {reader : SchemaReader} {outage : Outage} {store : Store}
  {paths : List String}

theorem faithful_start : (Moment.start store paths).Faithful x reader outage store paths where
  paths_eq := by
    unfold Moment.start
    rw [List.map_map]
    exact List.map_id paths
  course := by
    intro task htask
    obtain ⟨path, -, rfl⟩ := List.mem_map.1 htask
    trivial
  located _ := rfl
  frozen := rfl
  kept _ _ := rfl
  left := by
    intro o ho
    obtain ⟨path, -, h⟩ := List.mem_map.1 ho
    cases h

private theorem separates_of_mem {before after : List Task} {task other : Task}
    (separate : paths.Pairwise store.Separates)
    (paths_eq : (before ++ task :: after).map Task.path = paths) (mem : other ∈ before ++ after) :
    store.Separates other.path task.path := by
  rw [← paths_eq, List.pairwise_map] at separate
  obtain ⟨-, hafter, hbefore⟩ := List.pairwise_append.1 separate
  rcases List.mem_append.1 mem with h | h
  · exact hbefore other h task (by simp)
  · exact ((List.pairwise_cons.1 hafter).1 other h).symm

variable {current next : Store} {before after : List Task} {task : Task}

private theorem entryAt?_of_waiting (separate : paths.Pairwise store.Separates)
    (faithful : Moment.Faithful x reader outage store paths ⟨current, before ++ task :: after⟩)
    (undone : ∀ o, task ≠ .finished o) {place : Place} (located : store.locate task.path = .ok place) :
    current.entryAt? place = store.entryAt? place := by
  refine faithful.kept place fun o ho hplace => ?_
  have hmem : Task.finished o ∈ before ++ after := by
    have := undone o
    simp only [List.mem_append, List.mem_cons] at ho ⊢
    rcases ho with h | h | h
    · exact .inl h
    · exact absurd h.symm this
    · exact .inr h
  exact separates_of_mem separate faithful.paths_eq hmem place hplace located

private theorem faithful_of_undone {task' : Task}
    (faithful : Moment.Faithful x reader outage store paths ⟨current, before ++ task :: after⟩)
    (undone : ∀ o, task ≠ .finished o) (undone' : ∀ o, task' ≠ .finished o)
    (path_eq : task'.path = task.path) (course : task'.OnCourse x reader outage store) :
    Moment.Faithful x reader outage store paths ⟨current, before ++ task' :: after⟩ := by
  have hmem : ∀ o, .finished o ∈ before ++ task' :: after ↔ .finished o ∈ before ++ task :: after := by
    intro o
    have h := undone o
    have h' := undone' o
    simp [h.symm, h'.symm]
  refine ⟨?_, fun t ht => ?_, faithful.located, faithful.frozen, fun place hplace => ?_,
    fun o ho => ?_⟩
  · rw [← faithful.paths_eq]
    simp [path_eq]
  · simp only [List.mem_append, List.mem_cons] at ht
    rcases ht with h | rfl | h
    · exact faithful.course t (by simp [h])
    · exact course
    · exact faithful.course t (by simp [h])
  · exact faithful.kept place fun o ho => hplace o ((hmem o).2 ho)
  · exact faithful.left o ((hmem o).1 ho)

private theorem faithful_of_done (separate : paths.Pairwise store.Separates)
    (faithful : Moment.Faithful x reader outage store paths ⟨current, before ++ task :: after⟩)
    (undone : ∀ o, task ≠ .finished o) {result : Except LintError FileReport}
    (course : result = (x.attempt reader outage store task.path).1)
    (located : ∀ path, next.locate path = current.locate path)
    (frozen : next.frozen = current.frozen)
    (own : ∀ place, store.locate task.path = .ok place →
      next.entryAt? place = (x.attempt reader outage store task.path).2.entryAt? place)
    (others : ∀ place, store.locate task.path ≠ .ok place →
      next.entryAt? place = current.entryAt? place) :
    Moment.Faithful x reader outage store paths
      ⟨next, before ++ .finished ⟨task.path, result⟩ :: after⟩ := by
  have hmem : ∀ o, .finished o ∈ before ++ Task.finished ⟨task.path, result⟩ :: after ↔
      o = ⟨task.path, result⟩ ∨ .finished o ∈ before ++ after := by
    intro o
    simp only [List.mem_append, List.mem_cons, Task.finished.injEq]
    tauto
  have hold : ∀ o, .finished o ∈ before ++ task :: after ↔ .finished o ∈ before ++ after := by
    intro o
    simp [(undone o).symm]
  refine ⟨?_, fun t ht => ?_, fun path => (located path).trans (faithful.located path),
    frozen.trans faithful.frozen, fun place hplace => ?_, fun o ho place hplace => ?_⟩
  · rw [← faithful.paths_eq]
    simp [Task.path]
  · simp only [List.mem_append, List.mem_cons] at ht
    rcases ht with h | rfl | h
    · exact faithful.course t (by simp [h])
    · exact course
    · exact faithful.course t (by simp [h])
  · have hown := hplace ⟨task.path, result⟩ ((hmem _).2 (.inl rfl))
    rw [others place hown]
    exact faithful.kept place fun o ho => hplace o ((hmem o).2 (.inr ((hold o).1 ho)))
  · rcases (hmem o).1 ho with rfl | ho
    · exact own place hplace
    · have hown := separates_of_mem separate faithful.paths_eq ho place hplace
      rw [others place hown]
      exact faithful.left o ((hold o).2 ho) place hplace

/-- What the next step of a task is, in a store that agrees with the first one on its file: it only
comes further, or is done and leaves the store alone, or is done and gives the file a new text. -/
private theorem advance_cases (undone : ∀ o, task ≠ .finished o)
    (course : task.OnCourse x reader outage store)
    (located : ∀ path, current.locate path = store.locate path)
    (frozen : current.frozen = store.frozen)
    (entry : ∀ place, store.locate task.path = .ok place →
      current.entryAt? place = store.entryAt? place) :
    (∃ task', task.advance x reader outage current = (task', current) ∧
      (∀ o, task' ≠ .finished o) ∧ task'.path = task.path ∧
        task'.OnCourse x reader outage store) ∨
    (∃ result, task.advance x reader outage current = (.finished ⟨task.path, result⟩, current) ∧
      x.attempt reader outage store task.path = (result, store)) ∨
    ∃ place report text, store.locate task.path = .ok place ∧
      store.entryAt? place ≠ some .directory ∧
      task.advance x reader outage current =
        (.finished ⟨task.path, .ok report⟩, current.withText place text) ∧
      x.attempt reader outage store task.path = (.ok report, store.withText place text) := by
  cases task with
  | finished o => exact absurd rfl (undone o)
  | waiting path =>
    have hread : current.read path = store.read path := by
      unfold Store.read
      rw [Store.find_eq_of_entryAt? (located path) entry]
    unfold Task.advance Task.path attempt
    dsimp only
    cases houtage : outage.read path with
    | some fault => exact .inr (.inl ⟨_, rfl, rfl⟩)
    | none =>
      simp only [hread]
      cases hsource : store.read path with
      | error fault => exact .inr (.inl ⟨_, rfl, rfl⟩)
      | ok source => exact .inl ⟨_, rfl, by simp, rfl, houtage, hsource⟩
  | loaded path source =>
    obtain ⟨houtage, hsource⟩ := course
    unfold Task.advance Task.path attempt
    simp only [houtage, hsource]
    cases hlinted : x.lintText reader path source with
    | error e => exact .inr (.inl ⟨_, rfl, rfl⟩)
    | ok linted =>
      obtain ⟨report, new⟩ := linted
      cases new with
      | none => exact .inr (.inl ⟨_, rfl, rfl⟩)
      | some text => exact .inl ⟨_, rfl, by simp, rfl, houtage, source, hsource, hlinted⟩
  | replacing path report text =>
    obtain ⟨houtage, source, hsource, hlinted⟩ := course
    unfold Task.advance Task.path attempt
    simp only [houtage, hsource, hlinted]
    cases hrefused : outage.replace path with
    | some fault => exact .inr (.inl ⟨_, rfl, rfl⟩)
    | none =>
      rcases @Store.replace_eq_of_entryAt? store current path text (located path) frozen entry with
        ⟨fault, hreplace, hreplace'⟩ | ⟨place, hplace, -, hfile, hreplace, hreplace'⟩
      · simp only [hreplace, hreplace']
        exact .inr (.inl ⟨_, rfl, rfl⟩)
      · simp only [hreplace, hreplace']
        exact .inr (.inr ⟨place, report, text, hplace, hfile, rfl, rfl⟩)

theorem Step.faithful {m m' : Moment} (separate : paths.Pairwise store.Separates)
    (step : Step x reader outage m m') (faithful : m.Faithful x reader outage store paths) :
    m'.Faithful x reader outage store paths := by
  cases step with
  | advance current before after task =>
    by_cases hdone : ∃ o, task = .finished o
    · obtain ⟨o, rfl⟩ := hdone
      exact faithful
    · have hundone : ∀ o, task ≠ .finished o := fun o h => hdone ⟨o, h⟩
      have hown : ∀ place, store.locate task.path = .ok place →
          current.entryAt? place = store.entryAt? place :=
        fun _ => entryAt?_of_waiting separate faithful hundone
      rcases advance_cases hundone (faithful.course task (by simp)) faithful.located
        faithful.frozen hown with ⟨task', hstep, hundone', hpath, hcourse⟩ |
        ⟨result, hstep, halone⟩ | ⟨place, report, text, hplace, hfile, hstep, halone⟩
      · rw [hstep]
        exact faithful_of_undone faithful hundone hundone' hpath hcourse
      · rw [hstep]
        refine faithful_of_done separate faithful hundone (by rw [halone]) (fun _ => rfl) rfl ?_
          fun _ _ => rfl
        rw [halone]
        exact hown
      · rw [hstep]
        have hfile' : current.entryAt? place ≠ some .directory := by
          rwa [hown place hplace]
        refine faithful_of_done separate faithful hundone (by rw [halone])
          (Store.locate_withText hfile' text) rfl ?_ ?_
        · intro q hq
          obtain rfl : place = q := Except.ok.inj (hplace.symm.trans hq)
          rw [halone, Store.entryAt?_withText, Store.entryAt?_withText, hown place hplace]
        · intro q hq
          have hne : q ≠ place := by
            rintro rfl
            exact hq hplace
          rw [Store.entryAt?_withText, if_neg hne]

theorem Run.faithful {m : Moment} (separate : paths.Pairwise store.Separates)
    (run : Run x reader outage (.start store paths) m) :
    m.Faithful x reader outage store paths := by
  induction run with
  | refl => exact faithful_start
  | tail _ step ih => exact Step.faithful separate step ih

theorem Run.outcomes_eq {final : Store} {outcomes : List FileOutcome}
    (separate : paths.Pairwise store.Separates)
    (run : Run x reader outage (.start store paths) (.done final outcomes)) :
    outcomes = paths.map fun path => ⟨path, (x.attempt reader outage store path).1⟩ := by
  have h := Run.faithful separate run
  have hpaths : outcomes.map FileOutcome.path = paths := by
    have hpaths := h.paths_eq
    unfold Moment.done at hpaths
    rw [List.map_map] at hpaths
    exact hpaths
  rw [← hpaths, List.map_map]
  have hself : ∀ o ∈ outcomes, o = ⟨o.path, (x.attempt reader outage store o.path).1⟩ := by
    intro o ho
    have hcourse : o.result = _ := h.course (.finished o) (List.mem_map_of_mem ho)
    rw [← hcourse]
  exact (List.map_congr_left hself).symm ▸ (List.map_id outcomes).symm

end Linter

end SchemaLint
