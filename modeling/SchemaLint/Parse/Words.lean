import SchemaLint.Parse.Basic
import SchemaLint.Tree

/-!
# Names, constants, options and ranges

The parts of which the statements of a schema file are made.
-/

set_option autoImplicit false
set_option relaxedAutoImplicit false

namespace SchemaLint.Parser

def dottedName : Parser String :=
  ".".intercalate <$> separated '.' identifier

def typeName : Parser String := do
  if ← accept (·.isSymbol '.') then return "." ++ (← dottedName) else dottedName

/-- One part of an option's name: an identifier, or the name of an extension in parentheses. -/
def optionPart : Parser String := do
  if ← accept (·.isSymbol '(') then
    let name ← typeName
    discard <| symbol ')'
    return "(" ++ name ++ ")"
  else identifier

def optionName : Parser String :=
  ".".intercalate <$> separated '.' optionPart

def closeBraces : Nat → List Lexeme → Except SyntaxFault (Unit × List Lexeme)
  | _, [] => .error .endOfInput
  | depth, l :: ls =>
    if l.token.isSymbol '\x7b' then closeBraces (depth + 1) ls
    else if l.token.isSymbol '\x7d' then
      match depth with
      | 0 => .ok ((), ls)
      | outer + 1 => closeBraces outer ls
    else closeBraces depth ls

def moreStrings : List Lexeme → Except SyntaxFault (Unit × List Lexeme)
  | [] => .ok ((), [])
  | l :: ls => if l.token.kind = .string then moreStrings ls else .ok ((), l :: ls)

/-- Further parts of a dotted identifier.  A point that no identifier follows is left alone. -/
def moreParts : List Lexeme → Except SyntaxFault (Unit × List Lexeme)
  | point :: part :: ls =>
    if point.token.isSymbol '.' && part.token.kind = .identifier then moreParts ls
    else .ok ((), point :: part :: ls)
  | ls => .ok ((), ls)

/-- A value without braces and without a sign: a number, strings, or a dotted identifier. -/
def plainValue : Parser Unit := do
  let value ← satisfy "constant" (·.kind ≠ .symbol)
  match value.kind with
  | .string => moreStrings
  | .identifier => moreParts
  | .number | .symbol => return

def constant : Parser String :=
  written do
    if ← accept (·.isSymbol '\x7b') then closeBraces 0
    else
      discard <| accept fun t => t.isSymbol '-' || t.isSymbol '+'
      plainValue

def fieldOption : Parser FieldOption := do
  let name ← optionName
  discard <| symbol '='
  return ⟨name, ← constant⟩

/-- The options in brackets behind a field or a value, where there are any.  What may follow an
option is a comma or the closing bracket, and a fault there asks for the comma. -/
def fieldOptions : Parser (List FieldOption) := do
  if ← accept (·.isSymbol '[') then
    let options ← separated ',' fieldOption
    discard <| satisfy "`,`" (·.isSymbol ']')
    return options
  else return []

def signedNumber : Parser String :=
  written do
    discard <| accept (·.isSymbol '-')
    discard <| satisfy "number" (·.kind = .number)

def range : Parser String := do
  let low ← signedNumber
  if ← accept (·.isWord "to") then
    let high ← if ← accept (·.isWord "max") then pure "max" else signedNumber
    return low ++ " to " ++ high
  else return low

def ranges : Parser (List String) :=
  separated ',' range

end SchemaLint.Parser
