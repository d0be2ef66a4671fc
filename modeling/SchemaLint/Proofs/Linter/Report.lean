import SchemaLint.Proofs.Linter.Stages
import SchemaLint.Rule.Builtin

/-!
# The report of a fixed file

Fixing and checking come to their reports on different ways.  They agree all the same: what a fix
reports is what a check of the new text reports.
-/

set_option autoImplicit false
set_option relaxedAutoImplicit false

namespace SchemaLint

theorem SchemaFile.filename_of_parse {filename source : String} {file : SchemaFile}
    (h : SchemaFile.parse filename source = .ok file) : file.filename = filename := by
  unfold SchemaFile.parse at h
  dsimp only at h
  split at h
  · simp at h
  · have h := mapError_eq_ok_iff.1 h
    obtain ⟨⟨body, rest⟩, -, h⟩ := bind_eq_ok_iff.1 h
    have he : _ = file := Except.ok.inj h
    exact congrArg SchemaFile.filename he.symm

namespace Linter

/-- The same rules and settings, to check and not to fix. -/
def checking (x : Linter) : Linter :=
  { x with fixMode := false }

/-- Whatever the rules and the reader are, the failures that a fix reports are those that a check
of the new text reports, in the same order and with the same severities.  A fix without edits leaves
the text as it was, and so reports what a check of it does. -/
theorem lintSource_of_fix (x : Linter) (reader : SchemaReader) (filename source : String)
    (file : SchemaFile) (o : FixOutcome)
    (named : ∀ name text tree, reader name text = .ok tree → tree.filename = name)
    (read : reader filename source = .ok file) (fixed : x.fix reader file source = .ok o) :
    x.checking.lintSource reader filename o.text = .ok ⟨filename, o.failures, false⟩ ∧
      (o.editsApplied = 0 → o.text = source ∧
        x.checking.lintSource reader filename source = .ok ⟨filename, o.failures, false⟩) := by
  obtain ⟨found, proposals, ⟨dispatched, -⟩, ⟨-, rfl⟩ | ⟨hsome, text, newFile, reported,
    ⟨-, reread, rechecked, -⟩, rfl⟩⟩ := fix_eq_ok_iff.1 fixed
  · have same : x.checking.lintSource reader filename source = _ :=
      lintSource_of_check read rfl dispatched
    rw [List.filter_map] at same
    exact ⟨same, fun _ => ⟨rfl, same⟩⟩
  · obtain ⟨newFound, newDispatched, rfl⟩ := failuresOf_eq_ok_iff.1 rechecked
    rw [named filename source file read] at reread
    refine ⟨lintSource_of_check reread rfl newDispatched, fun none => absurd none ?_⟩
    obtain ⟨e, es, he⟩ := List.exists_cons_of_ne_nil hsome
    simp [he, List.eraseDups_cons]

/-- A call is renamed, an allowed one is left alone, and the service keeps its failure, which weighs
little here. -/
theorem lintSource_of_fix_service :
    let source := "service s \x7b\n  rpc get_a (A) returns (B);\n" ++
      "  rpc b (A) returns (B); // proto-lint: allow(all)\n\x7d\n"
    let x : Linter := ⟨[NamingPolicy.rpcs.rule true, NamingPolicy.services.rule false], true,
      { Config.default with rules := [(NamingPolicy.services.id, ⟨none, some .info⟩)] }⟩
    ∃ file o, SchemaFile.parse "a.proto" source = .ok file ∧
      x.fix SchemaFile.parse file source = .ok o ∧
      (o.editsApplied, o.failures.map Failure.severity) = (1, [Severity.info]) ∧
      x.checking.lintSource SchemaFile.parse "a.proto" o.text =
        .ok ⟨"a.proto", o.failures, false⟩ := by
  intro source x
  have run : (((SchemaFile.parse "a.proto" source).toOption.bind fun file =>
      (x.fix SchemaFile.parse file source).toOption).map fun o =>
        (o.editsApplied, o.failures.map Failure.severity)) = some (1, [Severity.info]) := by
    decide +kernel
  obtain ⟨o, ho, hshape⟩ := Option.map_eq_some_iff.1 run
  obtain ⟨file, hfile, ho⟩ := Option.bind_eq_some_iff.1 ho
  have hfile : SchemaFile.parse "a.proto" source = .ok file := by
    cases hp : SchemaFile.parse "a.proto" source <;> simp_all [Except.toOption]
  have ho : x.fix SchemaFile.parse file source = .ok o := by
    cases hp : x.fix SchemaFile.parse file source <;> simp_all [Except.toOption]
  have agree := lintSource_of_fix x SchemaFile.parse "a.proto" source file o
    (fun _ _ _ h => SchemaFile.filename_of_parse h) hfile ho
  exact ⟨file, o, hfile, ho, hshape, agree.1⟩

end Linter

end SchemaLint
