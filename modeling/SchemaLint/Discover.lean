import SchemaLint.Store

/-!
# Finding files

Arguments name files, which are taken whatever they are called, and directories, in which the schema
files are found at every depth.  How a directory is searched and what the patterns mean that leave
files out is not said here: a walker tells what there is in a directory, and a reader of patterns
which paths they cover.
-/

set_option autoImplicit false
set_option relaxedAutoImplicit false

namespace SchemaLint

inductive DiscoverError
  | badPattern (pattern : String)
  | missing (path : String)
  | notSearched (path : String)
  deriving DecidableEq, Repr

def DiscoverError.message : DiscoverError → String
  | .badPattern pattern => s!"Invalid exclude pattern: {pattern}"
  | .missing path => s!"Path does not exist: {path}"
  | .notSearched path => s!"Failed to walk {path}"

/-- A reader of patterns: the paths that a text covers, if it is a pattern. -/
abbrev PatternReader := String → Option (String → Bool)

/-- A walker: the paths that it meets in a store, given whether ignore files of repositories count
and the directory where it begins.  Where it cannot go on, there is no path. -/
abbrev Walker := Store → Bool → String → List (Option String)

def isExcluded (patterns : List (String → Bool)) (directory path : String) : Bool :=
  let relative := (Path.within? directory path).getD path
  patterns.any fun covers => covers relative || covers path

@[simp] theorem isExcluded_nil (directory path : String) : isExcluded [] directory path = false := rfl

namespace Store

/-- The files that one argument names: itself, or the schema files that a walker meets in it. -/
def filesOf (s : Store) (walk : String → List (Option String)) (patterns : List (String → Bool))
    (argument : String) : Except DiscoverError (List String) :=
  if s.isFile argument then
    .ok (if isExcluded patterns "" argument then [] else [argument])
  else if !s.isThere argument then .error (.missing argument)
  else
    let met := walk argument
    if none ∈ met then .error (.notSearched argument)
    else
      .ok ((met.filterMap id).filter fun path =>
        s.isFile path && Path.isSchema path && !isExcluded patterns argument path)

/-- The files that some arguments name, in the order of their paths and each path once. -/
def discover (s : Store) (readPattern? : PatternReader) (walk : Walker)
    (arguments exclude : List String) (respectRepository : Bool) :
    Except DiscoverError (List String) := do
  let patterns ← exclude.mapM fun text => (readPattern? text).elim (.error (.badPattern text)) .ok
  let found ← arguments.mapM (s.filesOf (walk s respectRepository) patterns)
  return Path.dropRepeats (Path.sort found.flatten)

end Store

end SchemaLint
