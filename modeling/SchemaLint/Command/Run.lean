import SchemaLint.Command.Arguments
import SchemaLint.Command.Search
import SchemaLint.Command.Settings
import SchemaLint.Config.Starter
import SchemaLint.Linter.Files
import SchemaLint.Rule.Catalogue

/-!
# Running commands

A command works on a store and ends with lines to print, the store as it is then, and whether all
was well.
-/

set_option autoImplicit false
set_option relaxedAutoImplicit false

namespace SchemaLint

inductive Ending
  | fine
  | failures
  | givenUp (e : CommandError)
  | misuse
  deriving DecidableEq, Repr

def Ending.code : Ending → Nat
  | .fine => 0
  | .failures => 1
  | .givenUp _ => 1
  | .misuse => 2

structure Outcome where
  ending : Ending
  lines : List String
  store : Store

namespace Outcome

def ofWork (store : Store) (work : Except CommandError Outcome) : Outcome :=
  match work with
  | .ok outcome => outcome
  | .error e => ⟨.givenUp e, [], store⟩

/-- What is printed: every line with its end. -/
def output (x : Outcome) : String :=
  String.join (x.lines.map (· ++ "\n"))

end Outcome

namespace LintRequest

def run (request : LintRequest) (surroundings : Surroundings) (settings : Option String)
    (store : Store) : Except CommandError Outcome := do
  let directory := projectDirectory store request.paths
  let config ← loadSettings store surroundings directory settings
  let rules ← selectRules .builtin config request.rules request.fix
  let exclude := config.lint.exclude ++ request.exclude
  let walk := walker (store.userIgnoreFile surroundings.user)
  let files ← (store.discover Exclude.reader walk request.paths exclude
    config.lint.respectGitignore).mapError .noFiles
  let linter : Linter := ⟨rules, request.fix, config⟩
  let (report, newStore) := linter.lintPaths SchemaFile.parse store files
  let fixable := (rules.filter Rule.fixable).map Rule.id
  let ending := if report.hasErrors then .failures else .fine
  return ⟨ending, report.print request.format fixable request.fix, newStore⟩

end LintRequest

def writeStarter (overwrite : Bool) (store : Store) : Except CommandError Outcome :=
  if store.isThere settingsName && !overwrite then .error (.settingsPresent settingsName)
  else
    match store.write settingsName starterConfig with
    | .error _ => .error (.settingsNotWritten settingsName)
    | .ok newStore =>
      .ok ⟨.fine,
        [s!"Created {settingsName}", "", "Next steps:",
          s!"  1. Edit {settingsName} to configure rules", "  2. Run: proto-lint lint"],
        newStore⟩

def usage : List String :=
  ["Style linter and fixer for protobuf schema files", "",
    "Usage: proto-lint [-v] [-c FILE] lint [--fix] [-f text|json|compact] [--rules IDS]",
    "                  [-e PATTERN]... [PATH]...",
    "       proto-lint list-rules",
    "       proto-lint init [--force]"]

def Invocation.run (x : Invocation) (surroundings : Surroundings) (store : Store) : Outcome :=
  match x.command with
  | .lint request => .ofWork store (request.run surroundings x.settings store)
  | .listRules => ⟨.fine, catalogue, store⟩
  | .writeSettings overwrite => .ofWork store (writeStarter overwrite store)
  | .help => ⟨.fine, usage, store⟩
  | .version => ⟨.fine, ["proto-lint 0.1.0"], store⟩

def runArguments (surroundings : Surroundings) (store : Store) (args : List String) : Outcome :=
  match Invocation.ofArguments? surroundings.settings args with
  | some x => x.run surroundings store
  | none => ⟨.misuse, [], store⟩

end SchemaLint
