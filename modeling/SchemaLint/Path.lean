import SchemaLint.Text.Search

/-!
# Paths

A path is a text of steps between slashes.  Paths are compared step by step, so that a directory's
files stand together whatever characters follow in other names, and two spellings of the same steps
count as equal.
-/

set_option autoImplicit false
set_option relaxedAutoImplicit false

namespace SchemaLint

inductive PathStep
  | root | here | up
  | name (s : String)
  deriving DecidableEq, Repr

namespace PathStep

def rank : PathStep → Nat
  | .root => 0
  | .here => 1
  | .up => 2
  | .name _ => 3

/-- Whether a step comes before another: by kind, and two names by their characters. -/
def isBefore : PathStep → PathStep → Bool
  | .name a, .name b => a < b
  | a, b => a.rank < b.rank

def ofPiece (piece : List Char) : PathStep :=
  match piece with
  | ['.'] => .here
  | ['.', '.'] => .up
  | _ => .name (String.ofList piece)

end PathStep

namespace Path

def pieces (path : String) : List (List Char) :=
  Text.splitOn '/' path.toList

def isIdle (piece : List Char) : Bool :=
  piece = [] || piece = ['.']

/-- The steps of a path.  Pieces that leave it where it is are no steps, except that an empty first
piece of several is the root, and a single dot in front is a step of its own. -/
def steps (path : String) : List PathStep :=
  let moves := fun (ps : List (List Char)) => (ps.filter (!isIdle ·)).map PathStep.ofPiece
  match pieces path with
  | [] :: p :: rest => .root :: moves (p :: rest)
  | ['.'] :: rest => .here :: moves rest
  | ps => moves ps

def stepsLe : List PathStep → List PathStep → Bool
  | [], _ => true
  | _ :: _, [] => false
  | a :: as, b :: bs => if a = b then stepsLe as bs else a.isBefore b

def le (a b : String) : Bool :=
  stepsLe (steps a) (steps b)

def isSame (a b : String) : Bool :=
  steps a = steps b

/-- A path below a directory.  The empty directory adds nothing. -/
def join (directory rest : String) : String :=
  if directory.isEmpty then rest
  else if directory.toList.getLast? = some '/' then directory ++ rest
  else directory ++ "/" ++ rest

/-- Where a path leads when it is followed from a directory: below it, or elsewhere if the path
begins at the root. -/
def resolve (directory path : String) : String :=
  if path.toList.head? = some '/' then path else join directory path

def isHere (path : String) : Bool :=
  steps path = [.here]

def dropStart (start path : List Char) : List Char :=
  (Text.dropStart? start path).getD path

def dropIdleEnd (ps : List (List Char)) : List (List Char) :=
  match ps with
  | [] => []
  | p :: rest => p :: (rest.reverse.dropWhile isIdle).reverse

/-- What is left of some pieces behind given steps, if they begin with these.  Pieces that leave a
path where it is are passed over. -/
def behind? : List PathStep → List (List Char) → Option (List (List Char))
  | [], ps => some (ps.dropWhile isIdle)
  | _ :: _, [] => none
  | step :: rest, p :: ps =>
    if isIdle p then behind? (step :: rest) ps
    else if PathStep.ofPiece p = step then behind? rest ps
    else none

/-- A path as it is taken from a directory, if it begins with the directory's steps. -/
def within? (directory path : String) : Option String :=
  let left :=
    match steps directory, pieces path with
    | [], ps => some ps
    | .root :: rest, [] :: p :: ps => behind? rest (p :: ps)
    | .here :: rest, ['.'] :: ps => behind? rest ps
    | _, [] :: _ :: _ => none
    | _, ['.'] :: _ => none
    | wanted, ps => behind? wanted ps
  left.map fun ps => String.ofList (['/'].intercalate (dropIdleEnd ps))

/-- The directory of a file's path; empty if the path has only a name. -/
def parent (path : String) : String :=
  match dropIdleEnd (pieces path).dropLast with
  | [[]] => "/"
  | ps => String.ofList (['/'].intercalate ps)

def isSchemaName (name : String) : Bool :=
  let cs := name.toList.reverse
  match Text.dropStart? ".proto".toList.reverse cs with
  | some before => !before.isEmpty
  | none => false

def isSchema (path : String) : Bool :=
  match (steps path).getLast? with
  | some (.name name) => isSchemaName name
  | _ => false

/-- Put paths into their order.  Paths of the same steps keep the order that they have. -/
def sort (paths : List String) : List String :=
  paths.mergeSort le

def dropRepeats : List String → List String
  | [] => []
  | p :: rest =>
    match dropRepeats rest with
    | [] => [p]
    | q :: others => if isSame p q then p :: others else p :: q :: others

theorem isSame_iff {a b : String} : isSame a b = true ↔ steps a = steps b := by
  simp [isSame]

end Path

end SchemaLint
