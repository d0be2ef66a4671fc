import SchemaLint.Parse.Basic
import SchemaLint.Proofs.Edit.Splice
import SchemaLint.Proofs.Token.Settle

/-!
# The tokens of a piece of text

Lexemes that were read from a text make up a piece of it, and the piece has the same tokens when it is
read by itself.  So what a file's tree keeps as written may be compared by its tokens.
-/

set_option autoImplicit false
set_option relaxedAutoImplicit false

namespace SchemaLint

/-- Kind and text of a token, wherever it stands. -/
abbrev Content := TokenKind × String

def Token.content (t : Token) : Content :=
  (t.kind, t.text)

theorem tokenize_eq_ok_iff {filename : String} {text : List Char} {ts : List Token} :
    tokenize filename text = .ok ts ↔
      ∃ ls, (Lexer.start filename text).read = ⟨ls, none⟩ ∧ ls.map Lexeme.token = ts := by
  rcases hread : (Lexer.start filename text).read with ⟨ls, fault⟩
  cases fault <;> simp [tokenize, hread, Reading.tokens]

/-- The tokens of a text without their places, where it has no fault. -/
def Text.contents? (s : String) : Option (List Content) :=
  (tokenize "" s.toList).toOption.map (List.map Token.content)

theorem Lexeme.map_content_settle (p : Position) (ls : List Lexeme) :
    (settle p ls).map (·.token.content) = ls.map (·.token.content) := by
  induction ls generalizing p with
  | nil => rfl
  | cons l ls ih => exact congrArg (l.token.content :: ·) (ih _)

namespace Text

open Lexeme (spelled Fits)

/-- Whether a text is made up of lexemes with some contents, with nothing behind the last. -/
def Says (s : String) (cs : List Content) : Prop :=
  ∃ ls after, s.toList = spelled ls ∧ Fits ls after ∧ ls.map (·.token.content) = cs

variable {s s' : String} {cs cs' : List Content}

theorem Says.contents?_eq (h : Says s cs) : contents? s = some cs := by
  obtain ⟨ls, after, hs, hfits, rfl⟩ := h
  have hend : Fits (Lexeme.settle (.start "") ls) [] :=
    (Lexeme.fits_settle _ _).2 (hfits.milder (by simp [Scan.Milder]))
  have hread : (Lexer.start "" s.toList).read = ⟨Lexeme.settle (.start "") ls, none⟩ :=
    Lexer.read_eq_iff_fits.2 ⟨[], by simp [Lexer.start, hs, Lexeme.spelled_settle], hend,
      Lexeme.placed_settle _ _, .nil⟩
  have htokens : tokenize "" s.toList = .ok ((Lexeme.settle (.start "") ls).map Lexeme.token) :=
    tokenize_eq_ok_iff.2 ⟨_, hread, rfl⟩
  have hcontents := Lexeme.map_content_settle (.start "") ls
  rw [contents?, htokens, ← hcontents]
  simp [Except.toOption]

private theorem toList_spell (ls : List Lexeme) :
    (Parser.spell ls).toList = spelled (Lexeme.bare ls) := by
  cases ls with
  | nil => rfl
  | cons l ls =>
    have hothers : (String.join (ls.map fun m => String.ofList m.gap ++ m.token.text)).toList =
        spelled ls := by
      induction ls with
      | nil => rfl
      | cons m ls ih => simp [String.join_cons, Lexeme.chars, ih]
    simp [Parser.spell, Lexeme.bare, Lexeme.chars, hothers]

theorem says_spell {ls : List Lexeme} {after : List Char} (h : Fits ls after) :
    Says (Parser.spell ls) (ls.map (·.token.content)) := by
  refine ⟨Lexeme.bare ls, after, toList_spell ls, ?_, ?_⟩
  · cases ls with
    | nil => trivial
    | cons l ls => exact ⟨.nil, h.2⟩
  · cases ls <;> rfl

theorem Says.append (h : Says s cs) (h' : Says s' cs') (more : cs' ≠ []) :
    Says (s ++ " " ++ s') (cs ++ cs') := by
  obtain ⟨ls, after, hs, hfits, rfl⟩ := h
  obtain ⟨ms, after', hs', hfits', rfl⟩ := h'
  cases ms with
  | nil => exact absurd rfl more
  | cons m ms =>
    obtain ⟨hspacing, htoken, hothers⟩ := hfits'
    refine ⟨ls ++ ⟨' ' :: m.gap, m.token⟩ :: ms, after', ?_, Lexeme.fits_append.2
      ⟨hfits.milder ?_, .cons (.blank (by decide)) hspacing, htoken, hothers⟩, by simp⟩
    · simp [hs, hs', Lexeme.chars]
    · intro d hd
      obtain rfl : ' ' = d := by simpa [Lexeme.chars] using hd
      exact .inl (by decide)

end Text

end SchemaLint
