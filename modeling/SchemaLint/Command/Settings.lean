import SchemaLint.Command
import SchemaLint.Command.Ignore.User
import SchemaLint.Config.Read
import SchemaLint.Rule.Builtin

/-!
# Settings and rules of a command

A settings file that is named has to be there; otherwise the first of some files that is there
counts, and without any of them nothing is set.  Which rules run is said on the command line, or
else follows from the preset and from what is set for single rules.
-/

set_option autoImplicit false
set_option relaxedAutoImplicit false

namespace SchemaLint

/-- What surrounds the program: a settings file, the directory of the user's settings for it, and
the directories in which the user keeps other things. -/
structure Surroundings where
  settings : Option String
  settingsDirectory : Option String
  user : Ignore.UserDirectories
  deriving DecidableEq, Repr

namespace Surroundings

def userDirectory (x : Surroundings) : Option String :=
  x.settingsDirectory.or (x.user.home.map fun home => Path.join home ".proto-lint")

end Surroundings

def settingsName : String :=
  "proto-lint.toml"

/-- The directory whose settings count for some paths: the first path, or the directory of the file
that it leads to. -/
def projectDirectory (store : Store) (paths : List String) : String :=
  match paths with
  | [] => "."
  | path :: _ => if store.isFile path then Path.parent path else path

def settingsCandidates (directory : String) (user : Option String) :
    List (SettingsOrigin × String) :=
  [(.project, Path.join directory settingsName),
      (.project, Path.join directory ("." ++ settingsName))] ++
    (user.map fun user => (SettingsOrigin.user, Path.join user "config.toml")).toList

def readSettings (store : Store) (origin : SettingsOrigin) (path : String) :
    Except CommandError Config :=
  match (store.read path).toOption.bind Config.read? with
  | some config => .ok config
  | none => .error (.settingsUnreadable origin path)

def loadSettings (store : Store) (surroundings : Surroundings) (directory : String)
    (named : Option String) : Except CommandError Config :=
  match named with
  | some path =>
    if store.isFile path then readSettings store .named path else .error (.settingsMissing path)
  | none =>
    let candidates := settingsCandidates directory surroundings.userDirectory
    match candidates.find? fun (_, path) => store.isFile path with
    | some (origin, path) => readSettings store origin path
    | none => .ok .default

def idsOf (list : String) : List String :=
  (((Text.splitOn ',' list.toList).map Text.trim).filter (!·.isEmpty)).map String.ofList

def presetOf (config : Config) : Except CommandError Preset :=
  match config.preset with
  | none => .ok .default
  | some name =>
    match Preset.ofName? name with
    | some preset => .ok preset
    | none => .error (.unknownPreset name)

/-- The rules that run. -/
def selectRules (registry : Registry) (config : Config) (selection : Option String) (fix : Bool) :
    Except CommandError (List Rule) :=
  match selection with
  | some list => (registry.resolve (idsOf list) fix).mapError .badSelection
  | none => do
    let preset ← presetOf config
    let isEnabled := fun id => config.isRuleEnabled id (preset.ids.contains id)
    (registry.resolveWith isEnabled fix).mapError .rulesNotBuilt

end SchemaLint
