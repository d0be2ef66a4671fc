import SchemaLint.Command.Run

/-!
# The program

Reads what a command may ask for into a store, runs the command on it, writes the files that the
command changed, and prints its lines.
-/

set_option autoImplicit false
set_option relaxedAutoImplicit false

namespace SchemaLint.Main

open System

def pathOf (place : Place) : FilePath :=
  ⟨place.render⟩

def readFileEntry (path : FilePath) : IO Entry := do
  try
    return .ofBytes (← IO.FS.readBinFile path).toList
  catch _ => return .closed .denied

def readEntry (place : Place) : IO (List (Place × Entry)) := do
  let path := pathOf place
  if ← path.isDir then return [(place, .directory)]
  else if ← path.pathExists then return [(place, ← readFileEntry path)]
  else return []

def repositoryNames : List String :=
  [".git", ".jj"]

def isWanted (name : String) : Bool :=
  let files := [".ignore", ".gitignore", "exclude", settingsName, "." ++ settingsName]
  Path.isSchemaName name || (repositoryNames ++ files).contains name

/-- The files below a directory that a command may read, and the repositories there.  Links to
directories are not followed. -/
partial def readBelow (place : Place) : IO (List (Place × Entry)) := do
  let mut found := []
  for item in ← (pathOf place).readDir do
    let inner := place ++ [item.fileName]
    match (← item.path.symlinkMetadata).type with
    | .dir =>
      if repositoryNames.contains item.fileName then found := (inner, Entry.directory) :: found
      found := (← readBelow inner) ++ found
    | .file => if isWanted item.fileName then found := (← readEntry inner) ++ found
    | _ =>
      if isWanted item.fileName && !(← item.path.isDir) then found := (← readEntry inner) ++ found
  return found

def placesPassed (current : Place) (path : String) : List Place :=
  let start := if path.toList.head? = some '/' then [] else current
  let pieces := (Path.pieces path).map String.ofList
  (List.range (pieces.length + 1)).map fun n => Place.follow start ("/".intercalate (pieces.take n))

/-- The places that count for a path besides those below it: all that it passes, settings beside it
or in it, and ignore files around it. -/
def placesAround (current : Place) (path : String) : List Place :=
  let place := current.follow path
  let settings := [place, place.dropLast].flatMap fun p =>
    [p ++ [settingsName], p ++ ["." ++ settingsName]]
  let ignores := place.way.flatMap fun p =>
    [p ++ [".ignore"], p ++ [".gitignore"], p ++ [".git", "info", "exclude"]] ++
      repositoryNames.map fun name => p ++ [name]
  placesPassed current path ++ settings ++ ignores

def readMore (store : Store) (paths : List String) : IO Store := do
  let places := (paths.flatMap (placesPassed store.current)).eraseDups
  let more ← (places.filter fun place => (store.entryAt? place).isNone).flatMapM readEntry
  return .ofEntries store.current (store.entries ++ more)

def linksOf (store : Store) : List String :=
  store.entries.filterMap fun (place, entry) =>
    if place.getLast? = some ".git" then entry.lines.head?.join.bind Store.repositoryLink else none

def linkedIgnorePaths (store : Store) : List String :=
  (linksOf store).filterMap fun link =>
    match store.sharedBelongings link with
    | .directory path => some (Path.join path "info/exclude")
    | .lost | .unreadable => none

def pathsOf (x : Invocation) (surroundings : Surroundings) : List String × List String :=
  let asked :=
    match x.command with
    | .lint request => request.paths
    | _ => []
  let user := surroundings.userDirectory.map fun directory => Path.join directory "config.toml"
  (asked, x.settings.toList ++ user.toList ++ [settingsName])

def readStore (current : Place) (x : Invocation) (surroundings : Surroundings) : IO Store := do
  let (asked, settings) := pathsOf x surroundings
  let places := ((asked ++ settings).flatMap (placesAround current)).eraseDups
  let around ← places.flatMapM readEntry
  let roots := (asked.map current.follow).eraseDups
  let below ← roots.flatMapM fun place => do
    if ← (pathOf place).isDir then readBelow place else return []
  let store := Store.ofEntries current (around ++ below)
  let user := surroundings.user
  let store ← readMore store
    (user.settingsFiles ++ (linksOf store).map fun link => Path.join link "commondir")
  readMore store ((store.userIgnorePath? user).toList ++ linkedIgnorePaths store)

/-- Put a new text in the place of a file, by way of a new file beside it.  If that fails, nothing
is changed and the directory is given back with the reason. -/
def writeText (place : Place) (content : String) : IO (List (Place × StoreFault)) := do
  let path := pathOf place
  let draft : FilePath := ⟨path.toString ++ ".draft"⟩
  try
    IO.FS.writeFile draft content
    IO.FS.rename draft path
    return []
  catch _ => return [(place.dropLast, .denied)]

def runOn (x : Invocation) (surroundings : Surroundings) (store : Store) : IO Outcome := do
  let outcome := x.run surroundings store
  let refused ← (outcome.store.changesSince store).flatMapM fun (place, content) =>
    writeText place content
  if refused.isEmpty then return outcome
  else return x.run surroundings { store with frozen := refused }

def run (args : List String) : IO UInt32 := do
  let surroundings : Surroundings :=
    ⟨← IO.getEnv "PROTO_LINT_CONFIG", ← IO.getEnv "PROTO_LINT_CONFIG_DIR",
      .ofNames (← IO.getEnv "HOME") (← IO.getEnv "XDG_CONFIG_HOME")⟩
  match Invocation.ofArguments? surroundings.settings args with
  | none =>
    IO.eprintln ("\n".intercalate usage)
    return Ending.misuse.code.toUInt32
  | some x =>
    let current := Place.follow [] (← IO.currentDir).toString
    let outcome ← runOn x surroundings (← readStore current x surroundings)
    IO.print outcome.output
    match outcome.ending with
    | .givenUp e => IO.eprintln s!"Error: {e.message}"
    | _ => pure ()
    return outcome.ending.code.toUInt32

end SchemaLint.Main

def main (args : List String) : IO UInt32 :=
  SchemaLint.Main.run args
