import SchemaLint.Report.Json

/-!
# Printed reports

A report for a reader, for a line-based tool, or as JSON.  A report is printed as lines.
-/

set_option autoImplicit false
set_option relaxedAutoImplicit false

namespace SchemaLint

inductive OutputFormat
  | text | json | compact
  deriving DecidableEq, Repr

def OutputFormat.ofName? : String → Option OutputFormat
  | "text" => some .text
  | "json" => some .json
  | "compact" => some .compact
  | _ => none

inductive Colour
  | red | green | yellow
  deriving DecidableEq, Repr

def Colour.paint (colour : Colour) (s : String) : String :=
  let code :=
    match colour with
    | .red => "31"
    | .green => "32"
    | .yellow => "33"
  s!"\x1b[{code}m{s}\x1b[0m"

/-- A failure on one line: place, severity, rule, message. -/
def Failure.compact (f : Failure) : String :=
  let p := f.position
  s!"{p.filename}:{p.line}:{p.column}: {f.severity.render} [{f.ruleId}] {f.message}"

def FileError.compact (e : FileError) : String :=
  s!"{e.path}: {Severity.error.render} {e.message}"

def Failure.note (f : Failure) (isFixable : Bool) : List String :=
  let hint := "run `proto-lint lint --fix` to apply the suggested name"
  let note := f.diagnostic (if isFixable then some hint else none)
  [s!"{f.severity.render}: {note.message}", s!"  at {f.position.render}"] ++
    (note.help.map fun help => s!"  help: {help}").toList

def FileError.note (e : FileError) : String :=
  Colour.red.paint "error" ++ s!": could not lint {e.path}: {e.message}"

namespace RunReport

/-- The colour of a report: that of its gravest part. -/
def colour (r : RunReport) : Colour :=
  if r.hasErrors then .red else if 0 < r.count .warning then .yellow else .green

/-- The counts of a report; how many files were fixed where they were to be, and how many have no
report where there are such. -/
def summary (r : RunReport) (fixMode : Bool) : List String :=
  let (errors, warnings, infos) := (r.count .error, r.count .warning, r.count .info)
  let counts := s!"{errors} error(s), {warnings} warning(s), {infos} info(s)"
  [r.colour.paint s!"Found {counts} in {r.filesChecked} file(s)"] ++
    (if fixMode then [s!"Fixed {r.filesFixed} file(s)"] else []) ++
    (if r.errors.isEmpty then [] else [s!"{r.errors.length} file(s) could not be linted"])

def print (r : RunReport) (format : OutputFormat) (fixable : List String) (fixMode : Bool) :
    List String :=
  match format with
  | .json => r.json
  | .compact => r.failures.map Failure.compact ++ r.errors.map FileError.compact
  | .text =>
    (r.failures.flatMap fun f => f.note (!fixMode && fixable.contains f.ruleId)) ++
      r.errors.map FileError.note ++ r.summary fixMode

end RunReport

end SchemaLint
