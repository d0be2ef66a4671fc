import SchemaLint.Proofs.Grammar.Rules
import SchemaLint.Proofs.Parse.Statement

/-!
# The first lexemes of phrases

What a phrase begins with tells which rule derived it.  Some phrases are read only as far as the
third lexeme, so it matters too where an equals sign cannot stand.
-/

set_option autoImplicit false
set_option relaxedAutoImplicit false

namespace SchemaLint.Grammar

open SchemaLint.Parser (Dotted)

variable {α : Type} {ls ms : List Lexeme} {P : Lexeme → Prop}

namespace Separated

variable {mark : Char} {phrase : List Lexeme → α → Prop} {as : List α}

theorem begins (h : Separated mark phrase ls as)
    (items : ∀ ms a, phrase ms a → ∃ l tail, ms = l :: tail ∧ P l) :
    ∃ l tail, ls = l :: tail ∧ P l := by
  cases h with
  | last only => exact items _ _ only
  | more first joins others =>
    obtain ⟨l, tail, rfl, hl⟩ := items _ _ first
    exact ⟨l, _, rfl, hl⟩

theorem forall_mem (h : Separated mark phrase ls as)
    (items : ∀ ms a, phrase ms a → ∀ l ∈ ms, P l)
    (marks : ∀ l : Lexeme, l.token.isSymbol mark = true → P l) : ∀ l ∈ ls, P l := by
  induction h with
  | last only => exact items _ _ only
  | more first joins others ih =>
    intro l hl
    simp only [List.mem_append, List.mem_cons] at hl
    rcases hl with hl | rfl | hl
    · exact items _ _ first l hl
    · exact marks l joins
    · exact ih l hl

end Separated

def Assignless (ls : List Lexeme) : Prop :=
  ∀ l ∈ ls, l.token.isSymbol '=' = false

theorem assignsThird_cons (first : Lexeme) (h : Assignless ls) (long : 2 ≤ ls.length)
    (ms : List Lexeme) : assignsThird (first :: (ls ++ ms)) = false := by
  match ls with
  | [] => simp at long
  | [_] => simp at long
  | _ :: second :: tail => exact h second (by simp)

theorem Assignless.append (h : Assignless ls) (h' : Assignless ms) : Assignless (ls ++ ms) := by
  intro l hl
  rcases List.mem_append.1 hl with hl | hl
  · exact h l hl
  · exact h' l hl

theorem TypeName.forall_mem {name : String} (h : TypeName ls name) :
    ∀ l ∈ ls, l.token.kind = .identifier ∨ l.token.isSymbol '.' = true := by
  cases h with
  | relative spells => exact spells.kind_or_isSymbol
  | absolute leads spells =>
    intro l hl
    rcases List.mem_cons.1 hl with rfl | hl
    · exact .inr leads
    · exact spells.kind_or_isSymbol l hl

theorem TypeName.begins {name : String} (h : TypeName ls name) :
    ∃ l tail, ls = l :: tail ∧ (l.token.kind = .identifier ∨ l.token.isSymbol '.' = true) := by
  cases h with
  | relative spells =>
    obtain ⟨l, tail, rfl, hl⟩ := spells.begins
    exact ⟨l, tail, rfl, .inl hl⟩
  | absolute leads spells => exact ⟨_, _, rfl, .inr leads⟩

theorem TypeName.assignless {name : String} (h : TypeName ls name) : Assignless ls := by
  intro l hl
  rcases h.forall_mem l hl with hl | hl
  · simp [Token.isSymbol, hl]
  · exact Parser.isSymbol_of_ne hl (by decide)

theorem TypeName.no_parenthesis {name : String} (h : TypeName ls name) :
    ∀ l ∈ ls, l.token.isSymbol ')' = false := by
  intro l hl
  rcases h.forall_mem l hl with hl | hl
  · simp [Token.isSymbol, hl]
  · exact Parser.isSymbol_of_ne hl (by decide)

theorem Value.begins (h : Value ls) : ∃ l tail, ls = l :: tail ∧ l.token.kind ≠ .symbol := by
  cases h with
  | number number => exact ⟨_, _, rfl, by simp [number]⟩
  | strings first _ => exact ⟨_, _, rfl, by simp [first]⟩
  | words spells =>
    obtain ⟨l, tail, rfl, hl⟩ := spells.begins
    exact ⟨l, tail, rfl, by simp [hl]⟩

theorem SignedNumber.forall_mem (h : SignedNumber ls) :
    ∀ l ∈ ls, l.token.kind = .number ∨ l.token.isSymbol '-' = true := by
  cases h with
  | plain number => simpa using Or.inl number
  | negative signs number => simpa using ⟨Or.inr signs, Or.inl number⟩

theorem SignedNumber.begins (h : SignedNumber ls) :
    ∃ l tail, ls = l :: tail ∧ (l.token.kind = .number ∨ l.token.isSymbol '-' = true) := by
  cases h with
  | plain number => exact ⟨_, _, rfl, .inl number⟩
  | negative signs number => exact ⟨_, _, rfl, .inr signs⟩

theorem SignedNumber.assignless (h : SignedNumber ls) : Assignless ls := by
  intro l hl
  rcases h.forall_mem l hl with hl | hl
  · simp [Token.isSymbol, hl]
  · exact Parser.isSymbol_of_ne hl (by decide)

theorem Range.begins {range : String} (h : Range ls range) :
    ∃ l tail, ls = l :: tail ∧ (l.token.kind = .number ∨ l.token.isSymbol '-' = true) := by
  cases h with
  | single low => exact low.begins
  | bounded low _ _ | unbounded low _ _ =>
    obtain ⟨l, tail, rfl, hl⟩ := low.begins
    exact ⟨l, _, rfl, hl⟩

theorem ReservedName.begins {name : String} (h : ReservedName ls name) :
    ∃ l tail, ls = l :: tail ∧ (l.token.kind = .string ∨ l.token.kind = .identifier) := by
  cases h with
  | mk sort => exact ⟨_, _, rfl, sort⟩

theorem Range.assignless {range : String} (h : Range ls range) : Assignless ls := by
  cases h with
  | single low => exact low.assignless
  | bounded low word high =>
    refine low.assignless.append fun l hl => ?_
    rcases List.mem_cons.1 hl with rfl | hl
    · exact Parser.isSymbol_of_isWord word _
    · exact high.assignless l hl
  | unbounded low word last =>
    refine low.assignless.append ?_
    simp [Assignless, Parser.isSymbol_of_isWord word, Parser.isSymbol_of_isWord last]

theorem FieldEnd.assignsThird {name number : String} {options : List FieldOption} {last : Position}
    (h : FieldEnd ms name number options last) (typed : Assignless ls) (first : Lexeme)
    (rest : List Lexeme) : assignsThird (first :: (ls ++ (ms ++ rest))) = ls.isEmpty := by
  cases h with
  | @mk n equals digits semi opts options word assigns number listed ends =>
    cases ls with
    | nil => exact assigns
    | cons l ls =>
      have hname : Assignless [n] := by simp [Assignless, Token.isSymbol, word]
      have hthird := assignsThird_cons first (typed.append hname) (by simp)
        (equals :: digits :: (opts ++ [semi]) ++ rest)
      rw [List.append_assoc] at hthird
      exact hthird

/-! ### Statements that begin with a word -/

def BeginsWith (word : String) (ls : List Lexeme) : Prop :=
  ∃ l tail, ls = l :: tail ∧ l.token.isWord word = true

theorem VersionClause.begins {v : LanguageVersion} (h : VersionClause ls v) :
    BeginsWith "syntax" ls ∨ BeginsWith "edition" ls := by
  cases h with
  | mk word _ _ _ => exact word.imp (⟨_, _, rfl, ·⟩) (⟨_, _, rfl, ·⟩)

theorem PackageClause.begins {p : Package} (h : PackageClause ls p) : BeginsWith "package" ls := by
  cases h with
  | mk word _ _ => exact ⟨_, _, rfl, word⟩

theorem ImportClause.begins {i : Import} (h : ImportClause ls i) : BeginsWith "import" ls := by
  cases h with
  | mk word _ _ _ => exact ⟨_, _, rfl, word⟩

theorem OptionClause.begins {o : OptionStatement} (h : OptionClause ls o) :
    BeginsWith "option" ls := by
  cases h with
  | mk word _ _ _ _ => exact ⟨_, _, rfl, word⟩

theorem MapClause.begins {f : MapField} (h : MapClause ls f) : BeginsWith "map" ls := by
  cases h with
  | mk word _ _ _ _ _ _ => exact ⟨_, _, rfl, word⟩

theorem CallClause.begins {c : Rpc} (h : CallClause ls c) : BeginsWith "rpc" ls := by
  cases h with
  | mk word _ _ _ _ _ => exact ⟨_, _, rfl, word⟩

theorem ReservedClause.begins {c : Reserved} (h : ReservedClause ls c) :
    BeginsWith "reserved" ls := by
  cases h with
  | numbers word _ _ | names word _ _ => exact ⟨_, _, rfl, word⟩

theorem ExtensionsClause.begins {e : Extensions} (h : ExtensionsClause ls e) :
    BeginsWith "extensions" ls := by
  cases h with
  | mk word _ _ _ => exact ⟨_, _, rfl, word⟩

theorem BlockHead.begins {kind : BlockKind} {name : String} {first : Position}
    (h : BlockHead kind ls name first) : BeginsWith (Parser.blockWord kind) ls := by
  cases h with
  | mk word _ _ => exact ⟨_, _, rfl, word⟩

end SchemaLint.Grammar
