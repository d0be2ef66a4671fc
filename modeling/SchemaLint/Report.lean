import SchemaLint.Failure

/-!
# Reports

What is known about a file, and about many files, after a run.
-/

set_option autoImplicit false
set_option relaxedAutoImplicit false

namespace SchemaLint

structure FileReport where
  path : String
  failures : List Failure
  fixed : Bool
  deriving DecidableEq, Repr

structure FileError where
  path : String
  message : String
  deriving DecidableEq, Repr

structure RunReport where
  failures : List Failure
  errors : List FileError
  filesChecked : Nat
  filesFixed : Nat
  deriving DecidableEq, Repr

namespace RunReport

def empty : RunReport :=
  ⟨[], [], 0, 0⟩

def addReport (r : RunReport) (file : FileReport) : RunReport :=
  { r with
    failures := r.failures ++ file.failures
    filesChecked := r.filesChecked + 1
    filesFixed := if file.fixed then r.filesFixed + 1 else r.filesFixed }

def addError (r : RunReport) (e : FileError) : RunReport :=
  { r with errors := r.errors ++ [e] }

def hasErrors (r : RunReport) : Bool :=
  !r.errors.isEmpty || r.failures.any (·.severity = .error)

def count (r : RunReport) (s : Severity) : Nat :=
  (r.failures.filter (·.severity = s)).length

end RunReport

end SchemaLint
