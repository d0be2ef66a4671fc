import SchemaLint.Command.Ignore.Pattern
import SchemaLint.Text.Search

/-!
# Ignore files

Each line of an ignore file names things below the file's directory, and the last line that names a
thing decides whether it is ignored or kept.  Lines that are no pattern name nothing, but the file
counts as faulty.  A pattern that is too high leaves the whole file without a say.
-/

set_option autoImplicit false
set_option relaxedAutoImplicit false

namespace SchemaLint.Ignore

inductive Verdict
  | silent | ignored | kept
  deriving DecidableEq, Repr

def Verdict.first : List Verdict → Verdict
  | [] => .silent
  | .silent :: rest => first rest
  | v :: _ => v

/-- A line that names things: its pattern, whether it names directories only, and whether what it
names is kept after all. -/
structure Line where
  glob : Glob
  directoriesOnly : Bool
  keeps : Bool
  deriving Repr

def pathBytes (path : String) : List Nat :=
  path.toList.flatMap bytesOf

def Line.names (line : Line) (path : List Nat) (isDirectory : Bool) : Bool :=
  (isDirectory || !line.directoriesOnly) && line.glob.accepts path

def atAnyDepth (cs : List Char) : List Char :=
  if cs = "**".toList || (Text.dropStart? "**/".toList cs).isSome then cs else "**/".toList ++ cs

def insideOnly (cs : List Char) : List Char :=
  if "/**".toList.isSuffixOf cs then cs ++ "/*".toList else cs

def trimLine (line : List Char) : List Char :=
  if "\\ ".toList.isSuffixOf line then line else Text.trimEnd line

/-- What stands in an ignore file: nothing of interest, a pattern that cannot be read, one that is
too high to be used, or a line that names things. -/
inductive Statement
  | remark
  | nonsense
  | tooHigh
  | line (line : Line)
  deriving Repr

/-- Read a line.  A pattern with a slash in front or inside begins at the file's directory; any
other matches at any depth. -/
def Statement.read (line : List Char) : Statement :=
  match trimLine line with
  | [] => .remark
  | '#' :: _ => .remark
  | cs =>
    let (keeps, anchored, cs) :=
      match cs with
      | '\\' :: '!' :: rest => (false, false, '!' :: rest)
      | '\\' :: '#' :: rest => (false, false, '#' :: rest)
      | '!' :: '/' :: rest => (true, true, rest)
      | '!' :: rest => (true, false, rest)
      | '/' :: rest => (false, true, rest)
      | cs => (false, false, cs)
    let directoriesOnly := cs.getLast? = some '/'
    let cs := if directoriesOnly then cs.dropLast else cs
    let cs := if directoriesOnly && cs.getLast? = some '\\' then cs.dropLast else cs
    let cs := if anchored || cs.contains '/' then cs else atAnyDepth cs
    match Pattern.read? (insideOnly cs) with
    | none => .nonsense
    | some pattern =>
      if pattern.isTooHigh then .tooHigh else .line ⟨pattern.glob, directoriesOnly, keeps⟩

/-- An ignore file: the lines that name things, and whether there is a pattern in it that cannot be
read or used. -/
structure File where
  lines : List Line
  isFaulty : Bool
  deriving Repr

namespace File

def empty : File :=
  ⟨[], false⟩

def lineOf? : Statement → Option Line
  | .line line => some line
  | .remark | .nonsense | .tooHigh => none

def isFault : Statement → Bool
  | .nonsense | .tooHigh => true
  | .remark | .line _ => false

def isTooHigh : Statement → Bool
  | .tooHigh => true
  | .remark | .nonsense | .line _ => false

/-- The file of some statements.  A pattern that cannot be read takes nothing from the others, one
that cannot be used takes all. -/
def ofStatements (statements : List Statement) : File :=
  ⟨if statements.any isTooHigh then [] else statements.filterMap lineOf?, statements.any isFault⟩

def dropMarks : List (List Char) → List (List Char)
  | [] => []
  | line :: rest => line.dropWhile (· = '\ufeff') :: rest

def ofLines (lines : List (Option (List Char))) : File :=
  let texts := (lines.takeWhile Option.isSome).filterMap id
  ofStatements ((dropMarks texts).map Statement.read)

/-- What a file says of a thing: the last line that names it decides. -/
def verdict (file : File) (path : String) (isDirectory : Bool) : Verdict :=
  match file.lines.reverse.find? (·.names (pathBytes path) isDirectory) with
  | some line => if line.keeps then .kept else .ignored
  | none => .silent

end File

end SchemaLint.Ignore
