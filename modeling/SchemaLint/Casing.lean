import SchemaLint.Casing.Words

/-!
# Casings of identifiers

Four ways to write an identifier of several words.  Each has a test for identifiers that already
are written so, and a conversion that writes the words of any identifier so.
-/

set_option autoImplicit false
set_option relaxedAutoImplicit false

namespace SchemaLint

inductive Casing
  | upperCamel | lowerCamel | lowerSnake | upperSnake
  deriving DecidableEq, Repr

namespace Casing

def startsWith (test : Char → Bool) (cs : List Char) : Bool :=
  cs.head?.any test

def isUpperSnake (cs : List Char) : Bool :=
  startsWith Char.isUpper cs && cs.all fun c => c.isUpper || c.isDigit || c = '_'

def isLowerSnake (cs : List Char) : Bool :=
  startsWith Char.isLower cs && cs.all fun c => c.isLower || c.isDigit || c = '_'

def isUpperCamel (cs : List Char) : Bool :=
  startsWith Char.isUpper cs && cs.all Char.isAlphanum

def isLowerCamel (cs : List Char) : Bool :=
  startsWith Char.isLower cs && cs.all Char.isAlphanum

def matchesChars : Casing → List Char → Bool
  | .upperCamel => isUpperCamel
  | .lowerCamel => isLowerCamel
  | .lowerSnake => isLowerSnake
  | .upperSnake => isUpperSnake

def lower (word : List Char) : List Char :=
  word.map Char.toLower

def upper (word : List Char) : List Char :=
  word.map Char.toUpper

def capitalize : List Char → List Char
  | [] => []
  | c :: cs => c.toUpper :: cs

/-- The words for a camel casing: those of an identifier in capitals and underscores are read as
small letters, so that its capitals are not taken for acronyms. -/
def camelWords (cs : List Char) : List (List Char) :=
  if cs.contains '_' && isUpperSnake cs then (splitWords cs).map lower else splitWords cs

/-- The first word of a lower camel identifier: small throughout when it has no small letter, and
otherwise with its first character small. -/
def decapitalize : List Char → List Char
  | [] => []
  | c :: cs => if (c :: cs).any Char.isLower then c.toLower :: cs else lower (c :: cs)

def joinSnake (words : List (List Char)) : List Char :=
  ['_'].intercalate words

def convertChars : Casing → List Char → List Char
  | .upperCamel, cs => ((camelWords cs).map capitalize).flatten
  | .lowerCamel, cs =>
    match camelWords cs with
    | [] => []
    | first :: others => decapitalize first ++ (others.map capitalize).flatten
  | .lowerSnake, cs => joinSnake ((splitWords cs).map lower)
  | .upperSnake, cs => joinSnake ((splitWords cs).map upper)

/-- Whether an identifier is written in a casing. -/
def isMatch (casing : Casing) (name : String) : Bool :=
  casing.matchesChars name.toList

/-- An identifier's words written in a casing. -/
def convert (casing : Casing) (name : String) : String :=
  String.ofList (casing.convertChars name.toList)

def describe : Casing → String
  | .upperCamel => "UpperCamelCase"
  | .lowerCamel => "LowerCamelCase"
  | .lowerSnake => "underscore_separated_names"
  | .upperSnake => "CAPITALS_WITH_UNDERSCORES"

end Casing

end SchemaLint
