import SchemaLint.Command.Glob.Exclude
import SchemaLint.Command.Ignore.User
import SchemaLint.Discover

/-!
# Searching directories

The walker and the reader of patterns with which commands look for files.  Ignore files leave things
out of a search, and what stands in an ignored directory is not looked at.
-/

set_option autoImplicit false
set_option relaxedAutoImplicit false

namespace SchemaLint

open Ignore

def Exclude.reader : PatternReader :=
  fun text => (Exclude.read? text).map Exclude.leavesOut

/-- A search through a directory: how the directory is written and where it is, whether ignore files
of repositories count, and the ignore file of the user. -/
structure Search where
  root : String
  place : Place
  respectRepository : Bool
  user : UserFile

namespace Search

def layersAbove (x : Search) (s : Store) : List Layer :=
  x.place.around.map fun place => s.layer x.respectRepository true place.render

/-- The layers that count where the search begins.  Those above count only together with the
repository. -/
def layers (x : Search) (s : Store) : List Layer :=
  s.layer x.respectRepository false x.root ::
    if x.respectRepository then x.layersAbove s else []

def reaches (x : Search) (s : Store) (isDirectory : Bool) (directory : String) :
    List Layer → List String → Bool
  | _, [] => true
  | layers, name :: names =>
    let path := Path.join directory name
    let found := Found.of x.root x.place path (isDirectory || !names.isEmpty)
    !isIgnored x.user layers found &&
      (names.isEmpty ||
        x.reaches s isDirectory path (s.layer x.respectRepository false path :: layers) names)

def reached (x : Search) (s : Store) (isDirectory : Bool) (below : List Place) : List String :=
  let layers := x.layers s
  (below.filter (x.reaches s isDirectory x.root layers)).map fun names =>
    Path.join x.root ("/".intercalate names)

def isStuck (x : Search) (s : Store) : Bool :=
  (x.reached s true (s.directoriesBelow x.place)).any (!s.isThere ·)

/-- What is met: the directory itself, and the directories and files that are reached in it.  The
search stops where ignore files above the directory cannot be understood; those below only name
nothing then.  A lone hyphen stands for the standard input, where nothing is. -/
def run (x : Search) (s : Store) : List (Option String) :=
  if Path.steps x.root = [.name "-"] then []
  else if (x.layersAbove s).any Layer.isFaulty || x.isStuck s then [none]
  else
    (x.root :: x.reached s true (s.directoriesBelow x.place) ++
      x.reached s false (s.filesBelow x.place)).map some

end Search

/-- The walker of commands, given the user's ignore file. -/
def walker (user : UserFile) : Walker :=
  fun s respectRepository root =>
    match s.locate root with
    | .ok place => (Search.mk root place respectRepository user).run s
    | .error _ => [none]

end SchemaLint
