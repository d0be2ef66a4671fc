import SchemaLint.Command.Ignore.Layer

/-!
# Ignore files of users

A user's settings for repositories may name an ignore file; otherwise it has a place of its own in
the directory of settings.  Of the settings only the one entry is looked for, wherever it stands.
-/

set_option autoImplicit false
set_option relaxedAutoImplicit false

namespace SchemaLint

namespace Ignore

/-- Where users keep their things: their home directory, and the directory of settings. -/
structure UserDirectories where
  home : Option String
  settings : Option String
  deriving DecidableEq, Repr

namespace UserDirectories

def ofNames (home settings : Option String) : UserDirectories :=
  ⟨home.filter (!·.isEmpty), settings.filter (!·.isEmpty)⟩

def ofRepositories (x : UserDirectories) : Option String :=
  (x.settings.or (x.home.map fun home => Path.join home ".config")).map fun directory =>
    Path.join directory "git"

def settingsFiles (x : UserDirectories) : List String :=
  (x.home.map fun home => Path.join home ".gitconfig").toList ++
    (x.ofRepositories.map fun directory => Path.join directory "config").toList

end UserDirectories

def isSpace (c : Char) : Bool :=
  [' ', '\t', '\n', '\r', '\x0b', '\x0c'].contains c

def dropIndent (cs : List Char) : List Char :=
  cs.dropWhile fun c => isSpace c && c ≠ '\n'

def endsLine (cs : List Char) : Bool :=
  let isDone := fun (cs : List Char) => cs.isEmpty || cs.head? = some '\n'
  match dropIndent cs with
  | '"' :: rest => isDone (dropIndent rest)
  | rest => isDone rest

def valueAt? : List Char → Option (List Char)
  | [] => none
  | c :: cs =>
    if isSpace c then none
    else if endsLine cs then some [c]
    else (valueAt? cs).map (c :: ·)

def dropWord? (word cs : List Char) : Option (List Char) :=
  if (cs.take word.length).map Char.toLower = word then some (cs.drop word.length) else none

def entryAt? (cs : List Char) : Option (List Char) :=
  match (dropWord? "excludesfile".toList (cs.dropWhile isSpace)).map (·.dropWhile isSpace) with
  | some ('=' :: rest) =>
    match rest.dropWhile isSpace with
    | '"' :: quoted => (valueAt? (quoted.dropWhile isSpace)).or (valueAt? ('"' :: quoted))
    | plain => valueAt? plain
  | _ => none

def restsAfterLines : List Char → List (List Char)
  | [] => []
  | c :: cs => if c = '\n' then cs :: restsAfterLines cs else restsAfterLines cs

/-- The ignore file that settings name, with the home directory in the place of each tilde.  Bytes
are read as characters of the same number, so that settings need not be text. -/
def fileNamedIn? (home : Option String) (settings : List UInt8) : Option String := do
  let cs := settings.map fun b => Char.ofNat b.toNat
  let value ← (cs :: restsAfterLines cs).findSome? entryAt?
  let name ← String.fromUTF8? ⟨(value.map fun c => c.toNat.toUInt8).toArray⟩
  let expand := fun (home : String) =>
    String.ofList (name.toList.flatMap fun c => if c = '~' then home.toList else [c])
  return home.elim name expand

end Ignore

namespace Store

open Ignore

def userIgnorePath? (s : Store) (x : UserDirectories) : Option String :=
  let named := x.settingsFiles.findSome? fun path =>
    ((s.find path).toOption.bind Entry.bytes?).bind (fileNamedIn? x.home)
  named.or (x.ofRepositories.map fun directory => Path.join directory "ignore")

def userIgnoreFile (s : Store) (x : UserDirectories) : UserFile :=
  ⟨s.current.render,
    match s.userIgnorePath? x with
    | some path => if s.isFile path then s.ignoreFile path else .empty
    | none => .empty⟩

end Store

end SchemaLint
