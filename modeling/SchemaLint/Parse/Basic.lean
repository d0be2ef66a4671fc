import SchemaLint.Token.Lexer

/-!
# Parsers over tokens

A parser takes tokens from the front of a list.  It fails at a token that it did not expect, or at
the end of the list; it never looks at how much room lies between two tokens except to ask whether
they touch.
-/

set_option autoImplicit false
set_option relaxedAutoImplicit false

namespace SchemaLint

inductive SyntaxFault
  | expected (what : String) (found : Token)
  | endOfInput
  deriving DecidableEq, Repr

def SyntaxFault.message : SyntaxFault → String
  | .expected what found => s!"expected {what}, found `{found.text}`"
  | .endOfInput => "unexpected end of input"

abbrev Parser (α : Type) := StateT (List Lexeme) (Except SyntaxFault) α

namespace Parser

def look (ahead : Nat) : Parser (Option Token) :=
  fun ls => .ok ((ls[ahead]?).map Lexeme.token, ls)

def satisfy (what : String) (test : Token → Bool) : Parser Token
  | [] => .error .endOfInput
  | l :: ls => if test l.token then .ok (l.token, ls) else .error (.expected what l.token)

def any : Parser Token :=
  satisfy "" fun _ => true

def refuse {α : Type} (what : String) : Parser α
  | [] => .error .endOfInput
  | l :: _ => .error (.expected what l.token)

def symbol (c : Char) : Parser Token :=
  satisfy s!"`{c}`" (·.isSymbol c)

def keyword (word : String) : Parser Token :=
  satisfy s!"`{word}`" (·.isWord word)

def identifier : Parser String :=
  Token.text <$> satisfy "identifier" (·.kind = .identifier)

def sees (test : Token → Bool) : Parser Bool :=
  (·.any test) <$> look 0

def accept (test : Token → Bool) : Parser Bool
  | [] => .ok (false, [])
  | l :: ls => if test l.token then .ok (true, ls) else .ok (false, l :: ls)

def separated {α : Type} (mark : Char) (item : Parser α) : Parser (List α) :=
  fun ls => go ls.length ls
where
  /-- At most as many separators as a given number. -/
  go : Nat → Parser (List α)
    | 0 => do return [← item]
    | n + 1 => do
      let first ← item
      if ← accept (·.isSymbol mark) then return first :: (← go n) else return [first]

/-- Items up to a closing brace, with lone semicolons between them skipped; the items and the
closing token. -/
def enclosed {α : Type} (item : Parser α) : Parser (List α × Token) :=
  fun ls => go ls.length ls
where
  /-- At most as many items and semicolons as a given number. -/
  go : Nat → Parser (List α × Token)
    | 0 => fun _ => .error .endOfInput
    | n + 1 => do
      if ← sees (·.isSymbol '\x7d') then return ([], ← symbol '\x7d')
      else if ← accept (·.isSymbol ';') then go n
      else
        let first ← item
        let (others, last) ← go n
        return (first :: others, last)

def spell : List Lexeme → String
  | [] => ""
  | l :: ls => l.token.text ++ String.join (ls.map fun m => String.ofList m.gap ++ m.token.text)

def written {α : Type} (p : Parser α) : Parser String := fun ls => do
  let (_, rest) ← p ls
  return (spell (ls.take (ls.length - rest.length)), rest)

end Parser

end SchemaLint
