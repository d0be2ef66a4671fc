import SchemaLint.Discover
import SchemaLint.Report.Print
import SchemaLint.Rule.Registry

/-!
# Commands

What can be asked of the program, and why it may refuse.
-/

set_option autoImplicit false
set_option relaxedAutoImplicit false

namespace SchemaLint

/-- What to lint and how.  `rules` is a list of ids with commas that takes the place of the rules
that are set. -/
structure LintRequest where
  paths : List String
  fix : Bool
  format : OutputFormat
  rules : Option String
  exclude : List String
  deriving DecidableEq, Repr

inductive Command
  | lint (request : LintRequest)
  | listRules
  | writeSettings (overwrite : Bool)
  | help
  | version
  deriving DecidableEq, Repr

structure Invocation where
  settings : Option String
  command : Command
  deriving DecidableEq, Repr

inductive SettingsOrigin
  | named | project | user
  deriving DecidableEq, Repr

def SettingsOrigin.render : SettingsOrigin → String
  | .named => "--config"
  | .project => "project"
  | .user => "global"

inductive CommandError
  | settingsMissing (path : String)
  | settingsUnreadable (origin : SettingsOrigin) (path : String)
  | settingsPresent (path : String)
  | settingsNotWritten (path : String)
  | unknownPreset (name : String)
  | badSelection (e : RegistryError)
  | rulesNotBuilt (e : RegistryError)
  | noFiles (e : DiscoverError)
  deriving DecidableEq, Repr

def CommandError.message : CommandError → String
  | .settingsMissing path => s!"Config file given with --config not found: {path}"
  | .settingsUnreadable origin path => s!"Failed to load {origin.render} config {path}"
  | .settingsPresent path =>
    s!"Configuration file already exists at {path}. Use --force to overwrite."
  | .settingsNotWritten path => s!"Failed to write {path}"
  | .unknownPreset name =>
    s!"Unknown preset {Text.quoteText name} (expected default, all, or minimal)"
  | .badSelection _ => "Invalid --rules selection"
  | .rulesNotBuilt _ => "Failed to build rules"
  | .noFiles e => e.message

end SchemaLint
