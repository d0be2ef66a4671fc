import SchemaLint.Position

/-!
# Tokens

The words of a schema file: identifiers, numbers, quoted strings and single punctuation
characters.
-/

set_option autoImplicit false
set_option relaxedAutoImplicit false

namespace SchemaLint

inductive TokenKind
  | identifier | number | string | symbol
  deriving DecidableEq, Repr, Inhabited

structure Token where
  kind : TokenKind
  text : String
  position : Position
  deriving DecidableEq, Repr, Inhabited

namespace Token

def stop (t : Token) : Nat :=
  t.position.offset + t.text.utf8ByteSize

def isWord (t : Token) (word : String) : Bool :=
  t.kind = .identifier && t.text = word

def isSymbol (t : Token) (symbol : Char) : Bool :=
  t.kind = .symbol && t.text.toList = [symbol]

/-- The contents of a quoted string, its escapes left as written; the text of any other token. -/
def unquoted (t : Token) : String :=
  match t.kind, t.text.toList with
  | .string, _ :: c :: rest => String.ofList (c :: rest).dropLast
  | _, _ => t.text

end Token

/-- A token together with the blanks and comments between it and the token before. -/
structure Lexeme where
  gap : List Char
  token : Token
  deriving DecidableEq, Repr, Inhabited

end SchemaLint
