import SchemaLint.Toml.Scalar
import SchemaLint.Toml.Strings

/-!
# TOML documents

A document is read line by line into one table.
-/

set_option autoImplicit false
set_option relaxedAutoImplicit false

namespace SchemaLint.Toml

def skipBlanks (cs : List Char) : List Char :=
  cs.dropWhile fun c => c = ' ' || c = '\t'

def skipComment? : List Char → Option (List Char)
  | '#' :: cs =>
    match cs.dropWhile isPlain with
    | [] => some []
    | c :: rest => if c = '\n' || c = '\r' then some (c :: rest) else none
  | cs => some cs

/-- The end of a line: blanks, a comment, and a line end or the end of the text. -/
def endLine? (cs : List Char) : Option (List Char) := do
  match ← skipComment? (skipBlanks cs) with
  | [] => some []
  | rest => dropNewline? rest

def skipLines? (cs : List Char) : Option (List Char) :=
  go cs.length cs
where
  /-- At most a given number of lines. -/
  go : Nat → List Char → Option (List Char)
    | 0, cs => some cs
    | n + 1, cs => do
      let rest ← skipComment? (skipBlanks cs)
      match dropNewline? rest with
      | some next => go n next
      | none => some rest

def isBare (c : Char) : Bool :=
  c.isAlphanum || c = '_' || c = '-'

def keyPart : Reader String
  | '"' :: cs => shortString '"' ('"' :: cs)
  | '\'' :: cs => shortString '\'' ('\'' :: cs)
  | cs =>
    let bare := cs.takeWhile isBare
    if bare.isEmpty then none else some (String.ofList bare, cs.dropWhile isBare)

def depthLimit : Nat := 80

/-- A key with its parts, the blanks around it included: the parts before the last, and the last. -/
def key : Reader (List String × String) := fun cs => do
  let (parts, rest) ← go cs.length cs
  match parts.getLast? with
  | some last => if parts.length < depthLimit then some ((parts.dropLast, last), rest) else none
  | none => none
where
  /-- At most as many points as a given number. -/
  go : Nat → Reader (List String)
    | n, cs => do
      let (part, rest) ← keyPart (skipBlanks cs)
      match n, skipBlanks rest with
      | m + 1, '.' :: rest => do
        let (parts, rest) ← go m rest
        return (part :: parts, rest)
      | _, rest => some ([part], rest)

def endsWord (c : Char) : Bool :=
  c = ' ' || c = '\t' || c = '\n' || c = '\r' || c = '#' || c = ',' || c = ']' || c = '\x7d'

/-- A word up to a blank, a comment or a closing mark.  A blank between a date and a time of day
belongs to the word. -/
def word (cs : List Char) : List Char × List Char :=
  let first := cs.takeWhile (!endsWord ·)
  match cs.dropWhile (!endsWord ·) with
  | ' ' :: c :: rest =>
    if isDate first && c.isDigit then
      (first ++ ' ' :: (c :: rest).takeWhile (!endsWord ·), (c :: rest).dropWhile (!endsWord ·))
    else (first, ' ' :: c :: rest)
  | rest => (first, rest)

/-- Values with commas between them up to a closing bracket; a comma may stand behind the last. -/
def elements (item : Reader Value) : Nat → Reader (List Value)
  | 0, _ => none
  | n + 1, cs => do
    match ← skipLines? cs with
    | ']' :: rest => some ([], rest)
    | start => do
      let (v, rest) ← item start
      match ← skipLines? rest with
      | ']' :: rest => some ([v], rest)
      | ',' :: rest => do
        let (vs, rest) ← elements item n rest
        return (v :: vs, rest)
      | _ => none

def members (item : Reader Value) : Nat → Entries → Reader Entries
  | 0, _, _ => none
  | n + 1, entries, cs => do
    let ((path, last), rest) ← key cs
    match rest with
    | '=' :: rest => do
      let (v, rest) ← item (skipBlanks rest)
      let entries ← entries.assign path last v
      match skipBlanks rest with
      | '\x7d' :: rest => some (entries, rest)
      | ',' :: rest => members item n entries rest
      | _ => none
    | _ => none

def value : Nat → Reader Value
  | depth, cs =>
    match cs with
    | '"' :: _ => do
      let (s, rest) ← anyString '"' cs
      return (.text s, rest)
    | '\'' :: _ => do
      let (s, rest) ← anyString '\'' cs
      return (.text s, rest)
    | '[' :: rest =>
      match depth with
      | 0 => none
      | inner + 1 => do
        let (vs, rest) ← elements (value inner) (rest.length + 1) rest
        return (.array vs, rest)
    | '\x7b' :: rest =>
      match depth with
      | 0 => none
      | inner + 1 =>
        match skipBlanks rest with
        | '\x7d' :: rest => some (.table .inline [], rest)
        | rest => do
          let (entries, rest) ← members (value inner) (rest.length + 1) [] rest
          return (.table .inline entries, rest)
    | _ => do
      let (letters, rest) := word cs
      let v ← scalar? letters
      return (v, rest)

/-- A document so far: its table, and the path of the last header. -/
structure Draft where
  entries : Entries
  header : List String

namespace Draft

def tableHeader (d : Draft) (cs : List Char) : Option (Draft × List Char) := do
  let ((path, last), rest) ← key cs
  match rest with
  | ']' :: rest => do
    let entries ← d.entries.openTable path last
    return (⟨entries, path ++ [last]⟩, ← endLine? rest)
  | _ => none

def elementHeader (d : Draft) (cs : List Char) : Option (Draft × List Char) := do
  let ((path, last), rest) ← key cs
  match rest with
  | ']' :: ']' :: rest => do
    let entries ← d.entries.openElement path last
    return (⟨entries, path ++ [last]⟩, ← endLine? rest)
  | _ => none

def assignment (d : Draft) (cs : List Char) : Option (Draft × List Char) := do
  let ((path, last), rest) ← key cs
  match rest with
  | '=' :: rest => do
    let (v, rest) ← value (depthLimit - 1) (skipBlanks rest)
    let entries ← d.entries.assignBelow d.header path last v
    return (⟨entries, d.header⟩, ← endLine? rest)
  | _ => none

def addLines : Nat → Draft → List Char → Option Draft
  | 0, d, _ => some d
  | n + 1, d, cs => do
    match ← skipLines? cs with
    | [] => some d
    | '[' :: '[' :: rest => do
      let (d, rest) ← d.elementHeader rest
      addLines n d rest
    | '[' :: rest => do
      let (d, rest) ← d.tableHeader rest
      addLines n d rest
    | start => do
      let (d, rest) ← d.assignment start
      addLines n d rest

end Draft

def dropMark : List Char → List Char
  | '\ufeff' :: cs => cs
  | cs => cs

def document? (text : List Char) : Option Entries :=
  (Draft.addLines (text.length + 1) ⟨[], []⟩ (dropMark text)).map Draft.entries

end SchemaLint.Toml
