import SchemaLint.Token.Lexer

/-!
# Finding a declared name in its text

A declaration is known by the place where it begins.  From there on its tokens are read again to
find the one that carries its name.
-/

set_option autoImplicit false
set_option relaxedAutoImplicit false

namespace SchemaLint

structure SourceText where
  filename : String
  text : List Char
  deriving DecidableEq, Repr, Inhabited

/-- Where the name stands in a declaration: behind a keyword, at the very start, or as the last
identifier before the equals sign. -/
inductive NamePlace
  | afterKeyword (word : String)
  | leading
  | beforeAssign
  deriving DecidableEq, Repr

inductive LocateError
  | unexpectedToken (expected found : String) (offset : Nat)
  | nameNotFound (name : String) (offset : Nat)
  | outOfRange (offset : Nat)
  | endOfInput
  | lexical (e : LexError)
  deriving DecidableEq, Repr

def LocateError.message : LocateError → String
  | .unexpectedToken expected found offset =>
    s!"expected `{expected}` at offset {offset}, found `{found}`"
  | .nameNotFound name offset =>
    s!"identifier `{name}` not found in declaration at offset {offset}"
  | .outOfRange offset => s!"offset {offset} is not a valid position in the source text"
  | .endOfInput => "unexpected end of input"
  | .lexical e => e.message

/-- The bytes from `start` to before `stop`. -/
structure ByteRange where
  start : Nat
  stop : Nat
  deriving DecidableEq, Repr, Inhabited

def Token.range (t : Token) : ByteRange :=
  ⟨t.position.offset, t.stop⟩

namespace Reading

def lack (r : Reading) : LocateError :=
  match r.fault with
  | some e => .lexical e
  | none => .endOfInput

def uncons (r : Reading) : Except LocateError (Token × Reading) :=
  match r.lexemes with
  | [] => .error r.lack
  | l :: ls => .ok (l.token, { r with lexemes := ls })

def afterKeyword (word : String) (r : Reading) : Except LocateError Reading := do
  let (token, others) ← r.uncons
  if token.isWord word then return others
  else throw (.unexpectedToken word token.text token.position.offset)

end Reading

namespace SourceText

def readFrom (s : SourceText) (p : Position) (ends : Token → Bool) :
    Except LocateError Reading :=
  match Text.afterByte? s.text p.offset with
  | some rest => .ok ((⟨rest, p⟩ : Lexer).readUpTo ends)
  | none => .error (.outOfRange p.offset)

def endsStatement (t : Token) : Bool :=
  t.isSymbol ';' || t.isSymbol '\x7b' || t.isSymbol '\x7d'

def followsName (t : Token) : Bool :=
  t.isSymbol '=' || endsStatement t

def lastBeforeAssign (lack notFound : LocateError) :
    Option Token → List Token → Except LocateError Token
  | _, [] => .error lack
  | last, t :: ts =>
    if t.isSymbol '=' then last.elim (.error notFound) .ok
    else if endsStatement t then .error notFound
    else lastBeforeAssign lack notFound (if t.kind = .identifier then some t else last) ts

/-- The bytes of a declaration's name, given where the declaration begins and where in it the name
has to stand. -/
def locateName (s : SourceText) (p : Position) (name : String) (place : NamePlace) :
    Except LocateError ByteRange := do
  let notFound := LocateError.nameNotFound name p.offset
  let reading ← s.readFrom p followsName
  let found ← match place with
    | .afterKeyword word => do
      let others ← reading.afterKeyword word
      pure (← others.uncons).1
    | .leading => pure (← reading.uncons).1
    | .beforeAssign => lastBeforeAssign reading.lack notFound none reading.tokens
  if found.isWord name then return found.range else throw notFound

end SourceText

end SchemaLint
