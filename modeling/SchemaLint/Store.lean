import SchemaLint.Path

/-!
# Stores

A store keeps files and directories at places below one root.  Paths are followed from the store's
current place as an operating system follows them, and whatever is read or replaced is found or
refused for a reason.
-/

set_option autoImplicit false
set_option relaxedAutoImplicit false

namespace SchemaLint

inductive StoreFault
  | missing | denied | notDirectory | isDirectory | nameTooLong | zeroInName | notText
  deriving DecidableEq, Repr

def StoreFault.message : StoreFault → String
  | .missing => "No such file or directory (os error 2)"
  | .denied => "Permission denied (os error 13)"
  | .notDirectory => "Not a directory (os error 20)"
  | .isDirectory => "Is a directory (os error 21)"
  | .nameTooLong => "File name too long (os error 36)"
  | .zeroInName => "file name contained an unexpected NUL byte"
  | .notText => "stream did not contain valid UTF-8"

/-- A place in a store: the names on the way to it from the root. -/
abbrev Place := List String

def Place.way (place : Place) : List Place :=
  (List.range (place.length + 1)).map fun n => place.take n

/-- The directories around a place, from the nearest to the root. -/
def Place.around (place : Place) : List Place :=
  place.way.dropLast.reverse

def Place.below (directory place : Place) : String :=
  "/".intercalate (place.drop directory.length)

def Place.render (place : Place) : String :=
  "/" ++ "/".intercalate place

/-- What a store keeps at a place.  A file's bytes are kept as a text where they are one, and a
closed file is there but can be neither read nor replaced. -/
inductive Entry
  | directory
  | text (content : String)
  | binary (bytes : List UInt8)
  | closed (fault : StoreFault)
  deriving DecidableEq, Repr

namespace Entry

def ofBytes (bytes : List UInt8) : Entry :=
  match String.fromUTF8? ⟨bytes.toArray⟩ with
  | some content => .text content
  | none => .binary bytes

def isFile : Entry → Bool
  | .directory => false
  | _ => true

def read : Entry → Except StoreFault String
  | .directory => .error .isDirectory
  | .text content => .ok content
  | .binary _ => .error .notText
  | .closed fault => .error fault

/-- The bytes of a file; none for what cannot be read. -/
def bytes? : Entry → Option (List UInt8)
  | .text content => some content.toUTF8.toList
  | .binary bytes => some bytes
  | .directory | .closed _ => none

/-- The lines of a file, as they are when it is read line by line; none in the place of a line that
is no text or cannot be read. -/
def lines : Entry → List (Option (List Char))
  | .text content => (Text.lines content.toList).map some
  | .binary bytes => Text.linesOfBytes bytes
  | .directory | .closed _ => [none]

end Entry

/-- Files and directories by place, and the current place.  The directories among `frozen` take no
new content, for the reason given there. -/
structure Store where
  current : Place
  entries : List (Place × Entry)
  frozen : List (Place × StoreFault)
  deriving Repr

def setAt {α β : Type} [DecidableEq α] (key : α) (value : β) : List (α × β) → List (α × β)
  | [] => []
  | (k, v) :: rest => if k = key then (k, value) :: rest else (k, v) :: setAt key value rest

theorem lookup_setAt {α β : Type} [BEq α] [LawfulBEq α] [DecidableEq α] (key k : α) (value : β)
    (xs : List (α × β)) :
    (setAt key value xs).lookup k =
      if k = key then (xs.lookup k).map fun _ => value else xs.lookup k := by
  induction xs with
  | nil => simp [setAt]
  | cons x xs ih =>
    obtain ⟨k', v⟩ := x
    by_cases h : k' = key
    · subst h
      by_cases hk : k = k'
      · subst hk
        simp [setAt]
      · have hk' : (k == k') = false := by simp [hk]
        simp [setAt, hk, List.lookup_cons, hk']
    · by_cases hk : k = k'
      · subst hk
        simp [setAt, h]
      · have hk' : (k == k') = false := by simp [hk]
        simp [setAt, h, List.lookup_cons, hk', ih]

def Place.follow (place : Place) (path : String) : Place :=
  let start := if path.toList.head? = some '/' then [] else place
  (Path.pieces path).foldl
    (fun p piece =>
      if Path.isIdle piece then p
      else if piece = ['.', '.'] then p.dropLast
      else p ++ [String.ofList piece])
    start

namespace Store

def ofEntries (current : Place) (entries : List (Place × Entry)) : Store :=
  let ways := (current :: entries.map Prod.fst).flatMap Place.way
  let directories := (ways.filter fun place => (entries.lookup place).isNone).eraseDups
  ⟨current, entries ++ directories.map fun place => (place, .directory), []⟩

def entryAt? (s : Store) (place : Place) : Option Entry :=
  s.entries.lookup place

def step (s : Store) (place : Place) (piece : List Char) : Except StoreFault Place :=
  match s.entryAt? place with
  | none => .error .missing
  | some .directory =>
    if Path.isIdle piece then .ok place
    else if piece = ['.', '.'] then .ok place.dropLast
    else
      let name := String.ofList piece
      if 255 < name.utf8ByteSize then .error .nameTooLong else .ok (place ++ [name])
  | some _ => .error .notDirectory

/-- The place that a path leads to, whether or not something is kept there.  A path may take no more
than 4095 bytes. -/
def locate (s : Store) (path : String) : Except StoreFault Place :=
  if path.isEmpty then .error .missing
  else if path.toList.contains '\x00' then .error .zeroInName
  else if 4095 < path.utf8ByteSize then .error .nameTooLong
  else
    let start := if path.toList.head? = some '/' then [] else s.current
    (Path.pieces path).foldlM s.step start

/-- What a path leads to. -/
def find (s : Store) (path : String) : Except StoreFault Entry := do
  match s.entryAt? (← s.locate path) with
  | some entry => return entry
  | none => .error .missing

def isThere (s : Store) (path : String) : Bool :=
  (s.find path).isOk

def isFile (s : Store) (path : String) : Bool :=
  match s.find path with
  | .ok entry => entry.isFile
  | .error _ => false

def read (s : Store) (path : String) : Except StoreFault String := do
  (← s.find path).read

def withText (s : Store) (place : Place) (content : String) : Store :=
  { s with entries := setAt place (.text content) s.entries }

/-- Give the file that a path leads to a new text.  A refusal leaves the store as it is. -/
def replace (s : Store) (path content : String) : Except StoreFault Store := do
  let place ← s.locate path
  match s.frozen.lookup place.dropLast with
  | some fault => .error fault
  | none =>
    match s.entryAt? place with
    | none => .error .missing
    | some .directory => .error .isDirectory
    | some _ => return s.withText place content

def write (s : Store) (path content : String) : Except StoreFault Store := do
  let place ← s.locate path
  match s.entryAt? place with
  | some .directory => .error .isDirectory
  | some _ => s.replace path content
  | none =>
    match s.frozen.lookup place.dropLast with
    | some fault => .error fault
    | none => return { s with entries := s.entries ++ [(place, .text content)] }

def changesSince (s earlier : Store) : List (Place × String) :=
  s.entries.filterMap fun (place, entry) =>
    match entry with
    | .text content => if earlier.entryAt? place = some entry then none else some (place, content)
    | _ => none

/-- The files below a place, each as the names on the way from there. -/
def filesBelow (s : Store) (place : Place) : List Place :=
  s.entries.filterMap fun (p, entry) =>
    if entry.isFile && place.isPrefixOf p && place.length < p.length then some (p.drop place.length)
    else none

def directoriesBelow (s : Store) (place : Place) : List Place :=
  s.entries.filterMap fun (p, entry) =>
    if entry = .directory && place.isPrefixOf p && place.length < p.length then
      some (p.drop place.length)
    else none

theorem entryAt?_withText (s : Store) (place q : Place) (content : String) :
    (s.withText place content).entryAt? q =
      if q = place then (s.entryAt? q).map fun _ => .text content else s.entryAt? q :=
  lookup_setAt place q (Entry.text content) s.entries

theorem locate_withText {s : Store} {place : Place} (h : s.entryAt? place ≠ some .directory)
    (content path : String) : (s.withText place content).locate path = s.locate path := by
  have hstep : (s.withText place content).step = s.step := by
    funext q piece
    unfold step
    rw [entryAt?_withText]
    by_cases hq : q = place
    · subst hq
      cases he : s.entryAt? q with
      | none => simp
      | some e =>
        cases e with
        | directory => exact absurd he h
        | text _ | binary _ | closed _ => simp
    · simp [hq]
  unfold locate
  rw [hstep]
  rfl

end Store

end SchemaLint
