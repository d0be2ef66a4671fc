import SchemaLint.Parse.Words

/-!
# Statements

The declarations that hold no others.  Each begins at its first token and ends at the semicolon or
brace that closes it.
-/

set_option autoImplicit false
set_option relaxedAutoImplicit false

namespace SchemaLint.Parser

def keywordAt (word : String) : Parser Position :=
  Token.position <$> keyword word

def symbolAt (c : Char) : Parser Position :=
  Token.position <$> symbol c

def languageVersion : Parser LanguageVersion := do
  let word ← any
  discard <| symbol '='
  let version ← satisfy "string literal" (·.kind = .string)
  let last ← symbolAt ';'
  return ⟨version.unquoted, word.isWord "edition", ⟨word.position, last⟩⟩

def package : Parser Package := do
  let first ← keywordAt "package"
  let name ← dottedName
  let last ← symbolAt ';'
  return ⟨name, ⟨first, last⟩⟩

def importModifier : Parser (Option ImportModifier) := do
  if ← accept (·.isWord "weak") then return some .weakly
  else if ← accept (·.isWord "public") then return some .publicly
  else return none

def imported : Parser Import := do
  let first ← keywordAt "import"
  let modifier ← importModifier
  let location ← satisfy "import path" (·.kind = .string)
  let last ← symbolAt ';'
  return ⟨location.unquoted, modifier, ⟨first, last⟩⟩

def option : Parser OptionStatement := do
  let first ← keywordAt "option"
  let name ← optionName
  discard <| symbol '='
  let value ← constant
  let last ← symbolAt ';'
  return ⟨name, value, ⟨first, last⟩⟩

/-- The label before a field's type.  A word of that spelling is the type itself when an equals
sign stands two tokens behind it. -/
def cardinality : Parser (Option Cardinality) := do
  if (← look 2).any (·.isSymbol '=') then return none
  else if ← accept (·.isWord "optional") then return some .optional
  else if ← accept (·.isWord "required") then return some .required
  else if ← accept (·.isWord "repeated") then return some .repeated
  else return none

def fieldNumber : Parser String :=
  Token.text <$> satisfy "field number" (·.kind = .number)

def here : Parser Position
  | [] => .error .endOfInput
  | l :: ls => .ok (l.token.position, l :: ls)

def field : Parser Field := do
  let first ← here
  let label ← cardinality
  let type ← typeName
  let name ← identifier
  discard <| symbol '='
  let number ← fieldNumber
  let options ← fieldOptions
  let last ← symbolAt ';'
  return ⟨label, type, name, number, options, ⟨first, last⟩⟩

def mapField : Parser MapField := do
  let first ← keywordAt "map"
  discard <| symbol '<'
  let key ← identifier
  discard <| symbol ','
  let type ← typeName
  discard <| symbol '>'
  let name ← identifier
  discard <| symbol '='
  let number ← fieldNumber
  let options ← fieldOptions
  let last ← symbolAt ';'
  return ⟨key, type, name, number, options, ⟨first, last⟩⟩

def enumValue : Parser EnumValue := do
  let name ← satisfy "identifier" (·.kind = .identifier)
  discard <| symbol '='
  let number ← signedNumber
  let options ← fieldOptions
  let last ← symbolAt ';'
  return ⟨name.text, number, options, ⟨name.position, last⟩⟩

/-- Whether `stream` stands ahead as a modifier: it is a type's name when the parenthesis closes
behind it, or a point touches it. -/
def streams : Parser Bool
  | word :: following :: ls =>
    let modifies := word.token.isWord "stream" && !following.token.isSymbol ')' &&
      !(following.token.isSymbol '.' && following.gap.isEmpty)
    if modifies then .ok (true, following :: ls) else .ok (false, word :: following :: ls)
  | ls => .ok (false, ls)

def callMessage : Parser CallMessage := do
  discard <| symbol '('
  let isStream ← streams
  let type ← typeName
  discard <| symbol ')'
  return ⟨type, isStream⟩

def callOptions : Parser (List OptionStatement × Position) := do
  if ← accept (·.isSymbol '\x7b') then
    let (options, last) ← enclosed option
    return (options, last.position)
  else return ([], ← symbolAt ';')

def rpc : Parser Rpc := do
  let first ← keywordAt "rpc"
  let name ← identifier
  let request ← callMessage
  discard <| keyword "returns"
  let response ← callMessage
  let (options, last) ← callOptions
  return ⟨name, request, response, options, ⟨first, last⟩⟩

/-- What is reserved: names where the first word is one, ranges otherwise. -/
def reservedItems : Parser (List String × List String) := do
  let isName := fun t : Token => t.kind = .string || t.kind = .identifier
  if ← sees isName then
    return ([], ← separated ',' (Token.unquoted <$> satisfy "reserved name" isName))
  else return (← ranges, [])

def reserved : Parser Reserved := do
  let first ← keywordAt "reserved"
  let (numbers, names) ← reservedItems
  let last ← symbolAt ';'
  return ⟨numbers, names, ⟨first, last⟩⟩

/-- Numbers for extensions; options behind them are read over. -/
def extensions : Parser Extensions := do
  let first ← keywordAt "extensions"
  let numbers ← ranges
  discard fieldOptions
  let last ← symbolAt ';'
  return ⟨numbers, ⟨first, last⟩⟩

end SchemaLint.Parser
