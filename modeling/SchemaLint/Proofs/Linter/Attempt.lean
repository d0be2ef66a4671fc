import SchemaLint.Linter.Files
import SchemaLint.Proofs.Linter.Stages

/-!
# Linting one file of a store

Reading a file or replacing it may also fail for a reason that the store does not know.  Either way
a file that cannot be linted is left as it was, and one that can be has the text that fixing gives.
-/

set_option autoImplicit false
set_option relaxedAutoImplicit false

namespace SchemaLint

namespace Store

variable {s t : Store} {path content : String}

theorem find_eq_of_entryAt? (located : t.locate path = s.locate path)
    (entry : ∀ place, s.locate path = .ok place → t.entryAt? place = s.entryAt? place) :
    t.find path = s.find path := by
  unfold find
  rw [located]
  cases h : s.locate path with
  | error e => rfl
  | ok place =>
    simp only [bind, Except.bind]
    rw [entry place h]

theorem replace_eq_of_entryAt? (located : t.locate path = s.locate path)
    (frozen : t.frozen = s.frozen)
    (entry : ∀ place, s.locate path = .ok place → t.entryAt? place = s.entryAt? place) :
    (∃ fault, s.replace path content = .error fault ∧ t.replace path content = .error fault) ∨
      ∃ place, s.locate path = .ok place ∧ s.entryAt? place ≠ none ∧
        s.entryAt? place ≠ some .directory ∧
        s.replace path content = .ok (s.withText place content) ∧
        t.replace path content = .ok (t.withText place content) := by
  cases h : s.locate path with
  | error fault =>
    refine .inl ⟨fault, ?_, ?_⟩
    · unfold replace
      rw [h]
      rfl
    · unfold replace
      rw [located, h]
      rfl
  | ok place =>
    have hentry := entry place h
    unfold replace
    rw [located, h, frozen]
    simp only [bind, Except.bind]
    rw [hentry]
    cases s.frozen.lookup place.dropLast with
    | some fault => exact .inl ⟨fault, rfl, rfl⟩
    | none =>
      cases he : s.entryAt? place with
      | none => exact .inl ⟨.missing, rfl, rfl⟩
      | some e =>
        cases e with
        | directory => exact .inl ⟨.isDirectory, rfl, rfl⟩
        | text _ | binary _ | closed _ => exact .inr ⟨place, rfl, by simp [he], by simp [he], rfl, rfl⟩

theorem read_eq_of_entryAt? {place : Place} {text : String} (located : s.locate path = .ok place)
    (entry : s.entryAt? place = some (.text text)) : s.read path = .ok text := by
  unfold read find
  rw [located]
  simp [bind, Except.bind, entry, Entry.read, pure, Except.pure]

theorem exists_place_of_read {text : String} (read : s.read path = .ok text) :
    ∃ place, s.locate path = .ok place ∧ s.entryAt? place = some (.text text) := by
  unfold Store.read find at read
  cases h : s.locate path with
  | error e => simp [h, bind, Except.bind] at read
  | ok place =>
    cases he : s.entryAt? place with
    | none => simp [h, he, bind, Except.bind] at read
    | some entry =>
      refine ⟨place, rfl, ?_⟩
      cases entry <;> simp_all [bind, Except.bind, pure, Except.pure, Entry.read]

end Store

/-- Reads and replacements that fail, whatever the store holds, with the reason for each path. -/
structure Outage where
  read : String → Option StoreFault
  replace : String → Option StoreFault

def Outage.none : Outage :=
  ⟨fun _ => .none, fun _ => .none⟩

namespace Linter

variable (x : Linter) (reader : SchemaReader) (outage : Outage)

/-- Lint the file at a path and replace its text where fixing changed it, if nothing is in the
way. -/
def attempt (store : Store) (path : String) : Except LintError FileReport × Store :=
  match outage.read path with
  | some fault => (.error (.store path fault), store)
  | none =>
    match store.read path with
    | .error fault => (.error (.store path fault), store)
    | .ok source =>
      match x.lintText reader path source with
      | .error e => (.error e, store)
      | .ok (report, none) => (.ok report, store)
      | .ok (report, some text) =>
        match outage.replace path with
        | some fault => (.error (.store path fault), store)
        | none =>
          match store.replace path text with
          | .error fault => (.error (.store path fault), store)
          | .ok next => (.ok report, next)

theorem attempt_none (store : Store) (path : String) :
    x.attempt reader .none store path = x.lintFile reader store path := rfl

variable {x reader outage} {store : Store} {path : String} {report : FileReport}

theorem lintText_eq_ok {source : String} {new : Option String}
    (linted : x.lintText reader path source = .ok (report, new)) :
    report.fixed = new.isSome ∧ (x.fixMode = false → new = none) ∧
      (∀ text, new = some text → text ≠ source) ∧
      (x.fixMode = true → ∃ file o, reader path source = .ok file ∧
        x.fix reader file source = .ok o ∧ o.text = new.getD source) := by
  unfold lintText at linted
  obtain ⟨file, hfile, linted⟩ := bind_eq_ok_iff.1 linted
  have hfile := mapError_eq_ok_iff.1 hfile
  cases hmode : x.fixMode with
  | false =>
    rw [hmode] at linted
    obtain ⟨failures, -, linted⟩ := bind_eq_ok_iff.1 linted
    obtain ⟨rfl, rfl⟩ := Prod.mk.inj (Except.ok.inj linted)
    exact ⟨rfl, fun _ => rfl, nofun, nofun⟩
  | true =>
    rw [hmode] at linted
    obtain ⟨o, ho, linted⟩ := bind_eq_ok_iff.1 linted
    obtain ⟨rfl, rfl⟩ := Prod.mk.inj (Except.ok.inj linted)
    cases hchanged : o.changed && o.text ≠ source with
    | true =>
      have hne : o.text ≠ source := by simp_all
      exact ⟨rfl, nofun, fun text h => by simp_all, fun _ => ⟨file, o, hfile, ho, rfl⟩⟩
    | false =>
      refine ⟨rfl, nofun, nofun, fun _ => ⟨file, o, hfile, ho, ?_⟩⟩
      show o.text = source
      refine Decidable.byContradiction fun hne => hne ?_
      exact text_of_unchanged ho (by simpa [hne] using hchanged)

theorem exists_fix_of_lintText {source text : String}
    (linted : x.lintText reader path source = .ok (report, some text)) :
    x.fixMode = true ∧ ∃ file o, reader path source = .ok file ∧
      x.fix reader file source = .ok o ∧ o.text = text ∧ o.text ≠ source := by
  obtain ⟨-, hcheck, hnew, houtcome⟩ := lintText_eq_ok linted
  have hmode : x.fixMode = true := by
    cases hmode : x.fixMode with
    | true => rfl
    | false => cases hcheck hmode
  obtain ⟨file, o, hfile, hfix, rfl⟩ := houtcome hmode
  exact ⟨hmode, file, o, hfile, hfix, rfl, hnew _ rfl⟩

theorem lintText_of_changed {source : String} {file : SchemaFile} {o : FixOutcome}
    (mode : x.fixMode = true) (parsed : reader path source = .ok file)
    (fixed : x.fix reader file source = .ok o) (changed : o.text ≠ source) :
    x.lintText reader path source = .ok (⟨path, o.failures, true⟩, some o.text) := by
  have hchanged : o.changed = true := by
    cases h : o.changed with
    | true => rfl
    | false => exact absurd (text_of_unchanged fixed h) changed
  unfold lintText
  simp [parsed, mode, fixed, hchanged, changed, bind, Except.bind, Except.mapError, pure, Except.pure]

theorem lintSource_eq_error_iff {source : String} {e : LintError} :
    x.lintSource reader path source = .error e ↔ x.lintText reader path source = .error e := by
  unfold lintSource
  cases x.lintText reader path source <;> simp [Functor.map, Except.map]

/-- Why the file at a path cannot be linted: it cannot be read, its text cannot be linted, or it cannot
be given the text that fixing leaves. -/
inductive Fails (x : Linter) (reader : SchemaReader) (outage : Outage) (store : Store)
    (path : String) : LintError → Prop
  | unread {fault : StoreFault}
      (refused : outage.read path = some fault ∨
        outage.read path = none ∧ store.read path = .error fault) :
      Fails x reader outage store path (.store path fault)
  | unlinted {source : String} {e : LintError} (undisturbed : outage.read path = none)
      (read : store.read path = .ok source)
      (refused : x.lintSource reader path source = .error e) : Fails x reader outage store path e
  | unreplaced {source : String} {file : SchemaFile} {o : FixOutcome} {fault : StoreFault}
      (undisturbed : outage.read path = none) (read : store.read path = .ok source)
      (mode : x.fixMode = true) (parsed : reader path source = .ok file)
      (fixed : x.fix reader file source = .ok o) (changed : o.text ≠ source)
      (refused : outage.replace path = some fault ∨
        outage.replace path = none ∧ store.replace path o.text = .error fault) :
      Fails x reader outage store path (.store path fault)

/-- A file is linted in one of three ways: it cannot be, it needs no new text, or it is given one.
Only the last changes the store. -/
theorem attempt_cases (x : Linter) (reader : SchemaReader) (outage : Outage) (store : Store)
    (path : String) :
    (∃ e, x.Fails reader outage store path e ∧
        x.attempt reader outage store path = (.error e, store)) ∨
      (∃ source report, store.read path = .ok source ∧
        x.lintText reader path source = .ok (report, none) ∧
        x.attempt reader outage store path = (.ok report, store)) ∨
      ∃ source report text place, store.read path = .ok source ∧
        x.lintText reader path source = .ok (report, some text) ∧
        store.locate path = .ok place ∧ store.entryAt? place = some (.text source) ∧
        x.attempt reader outage store path = (.ok report, store.withText place text) := by
  unfold attempt
  cases houtage : outage.read path with
  | some fault => exact .inl ⟨_, .unread (.inl houtage), rfl⟩
  | none =>
    cases hread : store.read path with
    | error fault => exact .inl ⟨_, .unread (.inr ⟨houtage, hread⟩), rfl⟩
    | ok source =>
      simp only
      cases hlinted : x.lintText reader path source with
      | error e =>
        exact .inl ⟨e, .unlinted houtage hread (lintSource_eq_error_iff.2 hlinted), rfl⟩
      | ok linted =>
        obtain ⟨report, new⟩ := linted
        cases new with
        | none => exact .inr (.inl ⟨source, report, rfl, hlinted, rfl⟩)
        | some text =>
          obtain ⟨hmode, file, o, hfile, hfix, rfl, hchanged⟩ := exists_fix_of_lintText hlinted
          have hfails := @Fails.unreplaced x reader outage store path source file o
          simp only
          cases hrefused : outage.replace path with
          | some fault =>
            exact .inl ⟨_, hfails houtage hread hmode hfile hfix hchanged (.inl hrefused), rfl⟩
          | none =>
            simp only
            obtain ⟨place, hplace, hentry⟩ := Store.exists_place_of_read hread
            rcases @Store.replace_eq_of_entryAt? store store path o.text rfl rfl fun _ _ => rfl with
              ⟨fault, hreplace, -⟩ | ⟨place', hplace', -, -, hreplace, -⟩
            · rw [hreplace]
              exact .inl ⟨_, hfails houtage hread hmode hfile hfix hchanged
                (.inr ⟨hrefused, hreplace⟩), rfl⟩
            · obtain rfl : place = place' := Except.ok.inj (hplace.symm.trans hplace')
              rw [hreplace]
              exact .inr (.inr ⟨source, report, o.text, place, rfl, hlinted, hplace, hentry, rfl⟩)

/-- The reasons are all there are, and each of them keeps the file from being linted. -/
theorem attempt_eq_error_iff {e : LintError} :
    (x.attempt reader outage store path).1 = .error e ↔ x.Fails reader outage store path e := by
  constructor
  · intro h
    rcases x.attempt_cases reader outage store path with ⟨e', hfails, heq⟩ | ⟨_, _, -, -, heq⟩ |
      ⟨_, _, _, _, -, -, -, -, heq⟩
    · rw [heq] at h
      exact Except.error.inj h ▸ hfails
    · rw [heq] at h
      cases h
    · rw [heq] at h
      cases h
  · intro h
    unfold attempt
    cases h with
    | unread refused =>
      rcases refused with houtage | ⟨houtage, hread⟩
      · simp [houtage]
      · simp [houtage, hread]
    | unlinted undisturbed read refused =>
      simp [undisturbed, read, lintSource_eq_error_iff.1 refused]
    | unreplaced undisturbed read mode parsed fixed changed refused =>
      have hlinted := lintText_of_changed mode parsed fixed changed
      rcases refused with hrefused | ⟨hrefused, hreplace⟩
      · simp [undisturbed, read, hlinted, hrefused]
      · simp [undisturbed, read, hlinted, hrefused, hreplace]

theorem attempt_eq_error {e : LintError} {next : Store}
    (attempted : x.attempt reader outage store path = (.error e, next)) : next = store := by
  rcases x.attempt_cases reader outage store path with ⟨e', -, h⟩ | ⟨_, _, -, -, h⟩ |
    ⟨_, _, _, _, -, -, -, -, h⟩
  · rw [h] at attempted
    exact (Prod.mk.inj attempted).2.symm
  · rw [h] at attempted
    cases attempted
  · rw [h] at attempted
    cases attempted

theorem attempt_eq_ok {next : Store}
    (attempted : x.attempt reader outage store path = (.ok report, next)) :
    ∃ source place, store.read path = .ok source ∧ store.locate path = .ok place ∧
      x.lintSource reader path source = .ok report ∧
      (x.fixMode = true → ∃ file outcome, reader path source = .ok file ∧
        x.fix reader file source = .ok outcome ∧
        next.entryAt? place = some (.text outcome.text)) ∧
      (x.fixMode = false → next = store) ∧
      (report.fixed = true ↔ next.entryAt? place ≠ store.entryAt? place) := by
  rcases x.attempt_cases reader outage store path with ⟨e, -, h⟩ | ⟨source, report', hread, hlinted, h⟩ |
    ⟨source, report', text, place, hread, hlinted, hplace, hentry, h⟩
  · rw [h] at attempted
    cases attempted
  · rw [h] at attempted
    cases attempted
    obtain ⟨place, hplace, hentry⟩ := Store.exists_place_of_read hread
    obtain ⟨hfixed, -, -, houtcome⟩ := lintText_eq_ok hlinted
    refine ⟨source, place, hread, hplace, ?_, fun hmode => ?_, fun _ => rfl, ?_⟩
    · unfold lintSource
      rw [hlinted]
      rfl
    · obtain ⟨file, outcome, hfile, hfix, htext⟩ := houtcome hmode
      exact ⟨file, outcome, hfile, hfix, by rw [hentry, htext]; rfl⟩
    · simp [hfixed]
  · rw [h] at attempted
    cases attempted
    obtain ⟨hfixed, hcheck, hnew, houtcome⟩ := lintText_eq_ok hlinted
    have hchanged : (store.withText place text).entryAt? place = some (.text text) := by
      rw [Store.entryAt?_withText, if_pos rfl, hentry]
      rfl
    refine ⟨source, place, hread, hplace, ?_, fun hmode => ?_, fun hmode => ?_, ?_⟩
    · unfold lintSource
      rw [hlinted]
      rfl
    · obtain ⟨file, outcome, hfile, hfix, htext⟩ := houtcome hmode
      exact ⟨file, outcome, hfile, hfix, by rw [hchanged, htext]; rfl⟩
    · cases hcheck hmode
    · rw [hchanged, hentry, hfixed]
      simp [hnew text rfl]

end Linter

end SchemaLint
