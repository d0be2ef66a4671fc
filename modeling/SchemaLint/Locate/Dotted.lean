import SchemaLint.Locate

/-!
# Finding and changing a dotted name

A dotted name is spelled by several tokens, between which there may be blanks and comments.  It is
changed identifier by identifier, so that all else stays as it was.
-/

set_option autoImplicit false
set_option relaxedAutoImplicit false

namespace SchemaLint

/-- The bytes of a dotted name and of its identifiers. -/
structure DottedName where
  range : ByteRange
  parts : List ByteRange
  deriving DecidableEq, Repr

namespace SourceText

def statementTokens (r : Reading) : Except LocateError (List Token) :=
  let before := r.tokens.takeWhile fun t => !t.isSymbol ';'
  if before.length < r.tokens.length then .ok before else .error r.lack

/-- The bytes of the dotted name behind a keyword, up to a semicolon.  The tokens have to spell the
name that is looked for. -/
def locateDotted (s : SourceText) (p : Position) (word name : String) :
    Except LocateError DottedName := do
  let reading ← s.readFrom p fun t => t.isSymbol ';'
  let tokens ← statementTokens (← reading.afterKeyword word)
  match tokens.head?, tokens.getLast? with
  | some first, some last =>
    if String.join (tokens.map Token.text) = name then
      let parts := (tokens.filter (·.kind = .identifier)).map Token.range
      return ⟨⟨first.position.offset, last.stop⟩, parts⟩
    else throw (.nameNotFound name p.offset)
  | _, _ => throw (.nameNotFound name p.offset)

def slice (text : List Char) (start stop : Nat) : Except LocateError (List Char) :=
  match Text.slice? text start stop with
  | some cs => .ok cs
  | none => .error (.outOfRange start)

def mapParts (text : List Char) (f : String → String) (stop cursor : Nat) :
    List ByteRange → Except LocateError (List Char)
  | [] => slice text cursor stop
  | part :: parts => do
    let before ← slice text cursor part.start
    let old ← slice text part.start part.stop
    let others ← mapParts text f stop part.stop parts
    return before ++ (f (String.ofList old)).toList ++ others

def mapDotted (s : SourceText) (name : DottedName) (f : String → String) :
    Except LocateError String :=
  String.ofList <$> mapParts s.text f name.range.stop name.range.start name.parts

end SourceText

end SchemaLint
