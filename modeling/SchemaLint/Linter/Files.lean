import SchemaLint.Linter

/-!
# Linting many files

Files are linted one by one.  A file that cannot be linted keeps its text and does not stop the
others, and a file's text is replaced only after the last check on it.  The report names files in
the order of their paths, whatever the order of the run.
-/

set_option autoImplicit false
set_option relaxedAutoImplicit false

namespace SchemaLint

/-- What became of the file at a path. -/
structure FileOutcome where
  path : String
  result : Except LintError FileReport

namespace FileOutcome

def le (a b : FileOutcome) : Bool :=
  Path.le a.path b.path

end FileOutcome

namespace RunReport

def addOutcome (r : RunReport) (outcome : FileOutcome) : RunReport :=
  match outcome.result with
  | .ok report => r.addReport report
  | .error e => r.addError ⟨outcome.path, e.message⟩

/-- The report on what became of some files, in the order of their paths. -/
def ofOutcomes (outcomes : List FileOutcome) : RunReport :=
  (outcomes.mergeSort FileOutcome.le).foldl addOutcome .empty

end RunReport

namespace Linter

def lintFile (x : Linter) (reader : SchemaReader) (store : Store) (path : String) :
    Except LintError FileReport × Store :=
  match store.read path with
  | .error fault => (.error (.store path fault), store)
  | .ok source =>
    match x.lintText reader path source with
    | .error e => (.error e, store)
    | .ok (report, none) => (.ok report, store)
    | .ok (report, some text) =>
      match store.replace path text with
      | .error fault => (.error (.store path fault), store)
      | .ok newStore => (.ok report, newStore)

def lintEach (x : Linter) (reader : SchemaReader) :
    Store → List String → List FileOutcome × Store
  | store, [] => ([], store)
  | store, path :: paths =>
    let (result, next) := x.lintFile reader store path
    let (outcomes, last) := x.lintEach reader next paths
    (⟨path, result⟩ :: outcomes, last)

/-- Lint the files at some paths and report on all of them. -/
def lintPaths (x : Linter) (reader : SchemaReader) (store : Store) (paths : List String) :
    RunReport × Store :=
  let (outcomes, last) := x.lintEach reader store paths
  (.ofOutcomes outcomes, last)

end Linter

end SchemaLint
