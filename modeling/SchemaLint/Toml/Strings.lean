/-!
# TOML strings

The four sorts of quoted strings: with or without escapes, on one line or on several.
-/

set_option autoImplicit false
set_option relaxedAutoImplicit false

namespace SchemaLint.Toml

abbrev Reader (α : Type) := StateT (List Char) Option α

/-- The characters that may stand for themselves in a string or a comment: all but the control
characters, of which the tab may. -/
def isPlain (c : Char) : Bool :=
  c = '\t' || (' ' ≤ c && c ≠ '\x7f')

def codePoint? (cs : List Char) : Option Char := do
  let n ← cs.foldlM (fun n c =>
    if '0' ≤ c && c ≤ '9' then some (16 * n + (c.toNat - '0'.toNat))
    else if 'a' ≤ c && c ≤ 'f' then some (16 * n + (c.toNat - 'a'.toNat + 10))
    else if 'A' ≤ c && c ≤ 'F' then some (16 * n + (c.toNat - 'A'.toNat + 10))
    else none) 0
  if n.isValidChar then some (Char.ofNat n) else none

def escape : Reader Char
  | 'b' :: cs => some ('\x08', cs)
  | 't' :: cs => some ('\t', cs)
  | 'n' :: cs => some ('\n', cs)
  | 'f' :: cs => some ('\x0c', cs)
  | 'r' :: cs => some ('\r', cs)
  | '"' :: cs => some ('"', cs)
  | '\\' :: cs => some ('\\', cs)
  | 'u' :: cs =>
    if cs.length < 4 then none else (codePoint? (cs.take 4)).map fun c => (c, cs.drop 4)
  | 'U' :: cs =>
    if cs.length < 8 then none else (codePoint? (cs.take 8)).map fun c => (c, cs.drop 8)
  | _ => none

def dropNewline? : List Char → Option (List Char)
  | '\n' :: cs => some cs
  | '\r' :: '\n' :: cs => some cs
  | _ => none

def skipLayout : List Char → List Char
  | '\r' :: '\n' :: cs => skipLayout cs
  | c :: cs => if c = ' ' || c = '\t' || c = '\n' then skipLayout cs else c :: cs
  | [] => []

/-- What a backslash at the end of a line leaves of the text: nothing up to the next character that
is neither blank nor a line end. -/
def joinLines? (cs : List Char) : Option (List Char) :=
  (dropNewline? (cs.dropWhile fun c => c = ' ' || c = '\t')).map skipLayout

def countQuotes (quote : Char) (cs : List Char) : Nat :=
  (cs.takeWhile (· = quote)).length

def singleLine (quote : Char) : Reader (List Char) :=
  fun cs => go cs.length cs
where
  /-- At most a given number of characters. -/
  go : Nat → Reader (List Char)
    | 0, _ => none
    | _ + 1, [] => none
    | n + 1, c :: cs =>
      if c = quote then some ([], cs)
      else if c = '\\' && quote = '"' then do
        let (d, rest) ← escape cs
        let (ds, rest) ← go n rest
        return (d :: ds, rest)
      else if isPlain c then do
        let (ds, rest) ← go n cs
        return (c :: ds, rest)
      else none

/-- The rest of a string on several lines, its three opening quotes already taken.  Up to two quotes
may stand right before the three that close it. -/
def multiLine (quote : Char) : Reader (List Char) :=
  fun cs => go cs.length ((dropNewline? cs).getD cs)
where
  /-- At most a given number of characters. -/
  go : Nat → Reader (List Char)
    | 0, _ => none
    | _ + 1, [] => none
    | n + 1, c :: cs =>
      let quotes := countQuotes quote (c :: cs)
      if 3 ≤ quotes then
        let kept := min (quotes - 3) 2
        some (List.replicate kept quote, (c :: cs).drop (kept + 3))
      else if c = '\\' && quote = '"' then
        match joinLines? cs with
        | some rest => go n rest
        | none => do
          let (d, rest) ← escape cs
          let (ds, rest) ← go n rest
          return (d :: ds, rest)
      else
        match dropNewline? (c :: cs) with
        | some rest => do
          let (ds, rest) ← go n rest
          return ('\n' :: ds, rest)
        | none =>
          if isPlain c then do
            let (ds, rest) ← go n cs
            return (c :: ds, rest)
          else none

def shortString (quote : Char) : Reader String
  | c :: cs => if c = quote then do
      let (s, rest) ← singleLine quote cs
      return (String.ofList s, rest)
    else none
  | [] => none

/-- A string of either extent: three quotes open one on several lines. -/
def anyString (quote : Char) : Reader String := fun cs =>
  if 3 ≤ countQuotes quote cs then do
    let (s, rest) ← multiLine quote (cs.drop 3)
    return (String.ofList s, rest)
  else shortString quote cs

end SchemaLint.Toml
