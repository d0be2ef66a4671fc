import SchemaLint.Text.Bytes
import SchemaLint.Text.Quoted
import SchemaLint.Token.Scan

/-!
# The tokens of a text

A lexer is a place in a text together with what remains there.  `Lexer.next` takes one token,
`Lexer.read` all of them.
-/

set_option autoImplicit false
set_option relaxedAutoImplicit false

namespace SchemaLint

structure LexError where
  fault : LexFault
  position : Position
  deriving DecidableEq, Repr

def LexFault.message : LexFault → String
  | .openComment => "unterminated block comment"
  | .openString => "unterminated string literal"
  | .unexpected c => s!"unexpected character {Text.quoteChar c}"

def LexError.message (e : LexError) : String :=
  s!"{e.fault.message} at {e.position.line}:{e.position.column}"

/-- The tokens of a text with their gaps, up to its first fault if it has one. -/
structure Reading where
  lexemes : List Lexeme
  fault : Option LexError
  deriving DecidableEq, Repr

def Reading.tokens (r : Reading) : List Token :=
  r.lexemes.map Lexeme.token

/-- A reading up to the first token of some sort, that one included; all of it if there is none. -/
def Reading.upTo (ends : Token → Bool) : Reading → Reading
  | ⟨[], fault⟩ => ⟨[], fault⟩
  | ⟨l :: ls, fault⟩ =>
    if ends l.token then ⟨[l], none⟩
    else
      let others := Reading.upTo ends ⟨ls, fault⟩
      ⟨l :: others.lexemes, others.fault⟩

structure Lexer where
  rest : List Char
  position : Position
  deriving DecidableEq, Repr

namespace Lexer

def start (filename : String) (text : List Char) : Lexer :=
  ⟨text, .start filename⟩

/-- The lexer at a place of a text that is already known.  Past the end, and inside a character,
nothing remains. -/
def resume (text : List Char) (p : Position) : Lexer :=
  let offset := min p.offset (Text.byteLength text)
  match Text.afterByte? text offset with
  | some rest => ⟨rest, { p with offset }⟩
  | none => ⟨[], { p with offset }⟩

/-- What one step of a lexer gives: a token with its gap, the gap at the end of the text, or a
fault, each with the lexer behind it. -/
inductive Step
  | lexeme (l : Lexeme) (after : Lexer)
  | finished (gap : List Char) (after : Lexer)
  | failed (e : LexError) (after : Lexer)
  deriving DecidableEq, Repr

def Step.after : Step → Lexer
  | .lexeme _ after | .finished _ after | .failed _ after => after

def next (x : Lexer) : Step :=
  let gap := Scan.gap x.rest
  let here := x.position.advance gap.taken
  if gap.isOpen then .failed ⟨.openComment, here⟩ ⟨[], here.advance gap.rest⟩
  else
    match Scan.head gap.rest with
    | .nothing => .finished gap.taken ⟨[], here⟩
    | .token kind text rest =>
      .lexeme ⟨gap.taken, ⟨kind, String.ofList text, here⟩⟩ ⟨rest, here.advance text⟩
    | .faulty fault read rest => .failed ⟨fault, here⟩ ⟨rest, here.advance read⟩

theorem next_rest_length {x after : Lexer} {l : Lexeme} (h : x.next = .lexeme l after) :
    after.rest.length < x.rest.length := by
  simp only [next] at h
  have hgap := congrArg List.length (Scan.gap_append x.rest)
  simp only [List.length_append] at hgap
  split at h
  · simp at h
  · split at h
    · simp at h
    · rename_i kind text rest hhead
      obtain ⟨happ, hne⟩ := Scan.head_token hhead
      have hlen := congrArg List.length happ
      have hpos := List.length_pos_iff.2 hne
      simp only [List.length_append] at hlen
      simp only [Step.lexeme.injEq] at h
      obtain ⟨-, rfl⟩ := h
      simp only
      omega
    · simp at h

/-- Take all tokens, up to the end of the text or its first fault. -/
def read (x : Lexer) : Reading :=
  match _h : x.next with
  | .failed e _ => ⟨[], some e⟩
  | .finished _ _ => ⟨[], none⟩
  | .lexeme l after =>
    let others := after.read
    ⟨l :: others.lexemes, others.fault⟩
termination_by x.rest.length
decreasing_by exact next_rest_length _h

def readUpTo (ends : Token → Bool) (x : Lexer) : Reading :=
  match _h : x.next with
  | .failed e _ => ⟨[], some e⟩
  | .finished _ _ => ⟨[], none⟩
  | .lexeme l after =>
    if ends l.token then ⟨[l], none⟩
    else
      let others := after.readUpTo ends
      ⟨l :: others.lexemes, others.fault⟩
termination_by x.rest.length
decreasing_by exact next_rest_length _h

theorem readUpTo_eq (ends : Token → Bool) (x : Lexer) : x.readUpTo ends = x.read.upTo ends := by
  fun_induction readUpTo ends x with
  | case1 x e after h => unfold read; split <;> simp_all [Reading.upTo]
  | case2 x gap after h => unfold read; split <;> simp_all [Reading.upTo]
  | case3 x l after h hends => unfold read; split <;> simp_all [Reading.upTo]
  | case4 x l after h hends others ih => unfold read; split <;> simp_all [Reading.upTo, others]

end Lexer

/-- The tokens of a file's text, or its first fault. -/
def tokenize (filename : String) (text : List Char) : Except LexError (List Token) :=
  let reading := (Lexer.start filename text).read
  match reading.fault with
  | some e => .error e
  | none => .ok reading.tokens

end SchemaLint
