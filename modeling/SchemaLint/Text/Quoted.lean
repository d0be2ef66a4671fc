import SchemaLint.Text.Combining
import SchemaLint.Text.Unprintable

/-!
# Quoted text in messages

A character or a text between quotes, with every character that a reader could not see or tell
apart written as an escape.
-/

set_option autoImplicit false
set_option relaxedAutoImplicit false

namespace SchemaLint.Text

def hexadecimal (n : Nat) : List Char :=
  Nat.toDigits 16 n

/-- One character inside the given quote: the usual short escapes, the quote and the backslash
escaped, and a code point number for a character that is invisible or combines. -/
def escapeChar (quote c : Char) : List Char :=
  if c = '\x00' then ['\\', '0']
  else if c = '\t' then ['\\', 't']
  else if c = '\r' then ['\\', 'r']
  else if c = '\n' then ['\\', 'n']
  else if c = '\\' || c = quote then ['\\', c]
  else if isUnprintable c || isCombining c then
    ['\\', 'u', '\x7b'] ++ hexadecimal c.toNat ++ ['\x7d']
  else [c]

def quoteChar (c : Char) : String :=
  String.ofList ('\'' :: escapeChar '\'' c ++ ['\''])

def quoteText (s : String) : String :=
  String.ofList ('"' :: s.toList.flatMap (escapeChar '"') ++ ['"'])

end SchemaLint.Text
