import SchemaLint.Parse.Declaration
import SchemaLint.Tree.Node

/-!
# Reading a schema file

The text of a file becomes tokens, and the tokens become declarations.  Either stage may find a
fault; both name the place where it lies.
-/

set_option autoImplicit false
set_option relaxedAutoImplicit false

namespace SchemaLint

structure ParseError where
  position : Position
  message : String
  deriving DecidableEq, Repr

def ParseError.render (e : ParseError) : String :=
  s!"{e.position.render}: {e.message}"

def ParseError.ofLexError (e : LexError) : ParseError :=
  ⟨e.position, e.fault.message⟩

def ParseError.ofSyntaxFault (ending : Position) : SyntaxFault → ParseError
  | .endOfInput => ⟨ending, SyntaxFault.endOfInput.message⟩
  | .expected what found => ⟨found.position, (SyntaxFault.expected what found).message⟩

namespace SchemaFile

def ofLexemes (filename : String) (ending : Position) (ls : List Lexeme) :
    Except SyntaxFault SchemaFile := do
  let (body, _) ← Parser.declarations ls
  return ⟨filename, body, ⟨.start filename, ending⟩⟩

/-- The file that a text denotes. -/
def parse (filename source : String) : Except ParseError SchemaFile :=
  let text := source.toList
  let ending := Position.behind filename text
  let reading := (Lexer.start filename text).read
  match reading.fault with
  | some e => .error (.ofLexError e)
  | none => (ofLexemes filename ending reading.lexemes).mapError (.ofSyntaxFault ending)

end SchemaFile

end SchemaLint
