import SchemaLint.Command.Ignore.Line
import SchemaLint.Store

/-!
# Ignore files of directories

Every directory may have a general ignore file, one of a repository, and, if it is the top of a
repository, one that the repository keeps to itself.  Paths are compared with patterns as they are
written, so that a directory with an unusual spelling does not recognise what lies in it.
-/

set_option autoImplicit false
set_option relaxedAutoImplicit false

namespace SchemaLint

namespace Ignore

/-- What the ignore files of a directory say, given how the directory is written, whether it lies
above the one that is searched, and whether it is the top of a repository.  A layer is faulty if its
files cannot be understood. -/
structure Layer where
  directory : String
  isAbove : Bool
  isTop : Bool
  general : File
  repository : File
  excluded : File
  isFaulty : Bool
  deriving Repr

/-- How a directory writes the path of a thing.  One dot step in front is left out of both, and then
the directory's beginning of the path, unless the directory is the current one. -/
def seenFrom (directory path : String) : String :=
  let here := ['.', '/']
  let directory := Path.dropStart here directory.toList
  let path := Path.dropStart here path.toList
  if Path.isHere (String.ofList directory) || !path.contains '/' then String.ofList path
  else
    match Text.dropStart? directory path with
    | some rest => String.ofList (Path.dropStart ['/'] rest)
    | none => String.ofList path

/-- A thing that is found in a search: its path, the path from the root, and whether it is a
directory. -/
structure Found where
  path : String
  fromRoot : String
  isDirectory : Bool

def Found.of (root : String) (place : Place) (path : String) (isDirectory : Bool) : Found :=
  let here := ['.', '/']
  let path := Path.dropStart here path.toList
  let below :=
    if Path.isHere root then path
    else Path.dropStart ['/'] (Path.dropStart (Path.dropStart here root.toList) path)
  ⟨String.ofList path, Path.resolve place.render (String.ofList below), isDirectory⟩

def Layer.pathOf (layer : Layer) (found : Found) : String :=
  seenFrom layer.directory (if layer.isAbove then found.fromRoot else found.path)

def Layer.verdict (layer : Layer) (file : Layer → File) (found : Found) : Verdict :=
  (file layer).verdict (layer.pathOf found) found.isDirectory

/-- The elements up to and including the first that passes a test; all if none does. -/
def takeThrough {α : Type} (test : α → Bool) : List α → List α
  | [] => []
  | a :: as => if test a then [a] else a :: takeThrough test as

structure UserFile where
  current : String
  file : File

/-- Whether a thing is ignored, given the layers from the nearest directory outwards.  The first
that says anything decides.  General files go before those of a repository, which count only inside
one and only up to its top, and the user's file comes last. -/
def isIgnored (user : UserFile) (layers : List Layer) (found : Found) : Bool :=
  let inside := layers.any Layer.isTop
  let ofRepository := if inside then takeThrough Layer.isTop layers else []
  let ofUser :=
    if inside then
      user.file.verdict (seenFrom user.current found.path) found.isDirectory
    else .silent
  Verdict.first
    (layers.map (·.verdict Layer.general found) ++
      ofRepository.map (·.verdict Layer.repository found) ++
      ofRepository.map (·.verdict Layer.excluded found) ++ [ofUser]) = .ignored

/-- Where a repository keeps what belongs to it: in a directory, nowhere that could be found, or
somewhere that a file names which cannot be read. -/
inductive Belongings
  | directory (path : String)
  | lost
  | unreadable
  deriving DecidableEq, Repr

end Ignore

namespace Store

open Ignore

/-- The ignore file at a path; one that cannot be read names nothing. -/
def ignoreFile (s : Store) (path : String) : File :=
  match s.find path with
  | .ok entry => .ofLines entry.lines
  | .error _ => .empty

def repositoryLink (line : List Char) : Option String :=
  (Text.dropStart? "gitdir: ".toList line).map String.ofList

def sharedBelongings (s : Store) (link : String) : Belongings :=
  match s.find (Path.join link "commondir") with
  | .error _ => .lost
  | .ok entry =>
    match entry.lines with
    | [] => .lost
    | none :: _ => .unreadable
    | some line :: _ =>
      let path := String.ofList line
      .directory (if line.head? = some '.' then Path.join link path else path)

def belongings (s : Store) (directory : String) : Belongings :=
  let path := Path.join directory ".git"
  match s.find path with
  | .error _ => .directory path
  | .ok .directory => .directory path
  | .ok entry =>
    match entry.lines with
    | [] => .lost
    | none :: _ => .unreadable
    | some line :: _ =>
      match repositoryLink line with
      | some link => s.sharedBelongings link
      | none => .lost

def isTop (s : Store) (directory : String) : Bool :=
  s.isThere (Path.join directory ".git") || s.isThere (Path.join directory ".jj")

/-- The layer of a directory.  Where repositories are not respected it has only the general file. -/
def layer (s : Store) (respectRepository isAbove : Bool) (directory : String) : Layer :=
  let file := fun (name : String) => s.ignoreFile (Path.join directory name)
  let general := file ".ignore"
  if respectRepository then
    let repository := file ".gitignore"
    let belongings := s.belongings directory
    let excluded :=
      match belongings with
      | .directory path => s.ignoreFile (Path.join path "info/exclude")
      | .lost | .unreadable => .empty
    { directory, isAbove, isTop := s.isTop directory, general, repository, excluded
      isFaulty := general.isFaulty || repository.isFaulty || excluded.isFaulty ||
        belongings = .unreadable }
  else
    ⟨directory, isAbove, false, general, .empty, .empty, general.isFaulty⟩

end Store

end SchemaLint
