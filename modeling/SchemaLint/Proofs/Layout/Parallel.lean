import SchemaLint.Proofs.Grammar.Rules
import SchemaLint.Proofs.Layout.Content
import SchemaLint.Proofs.Parse.Basic

/-!
# Parsers that do not see the layout

On two rows of lexemes that differ in layout only, a parser takes equally many lexemes and makes of
them values that are related in some way, or it fails at the same place for the same reason.
-/

set_option autoImplicit false
set_option relaxedAutoImplicit false

namespace SchemaLint

open Lexeme (Fits)

/-- Two rows of lexemes with the same tokens.  A point behind the word `stream` touches it in both or
in neither. -/
inductive Relaid : List Lexeme → List Lexeme → Prop
  | nil : Relaid [] []
  | cons {l l' : Lexeme} {ls ls' : List Lexeme} (content : l.token.content = l'.token.content)
      (touch : l.token.isWord "stream" = true → Grammar.touches ls = Grammar.touches ls')
      (fits : ∃ after, Fits (l :: ls) after) (fits' : ∃ after, Fits (l' :: ls') after)
      (others : Relaid ls ls') : Relaid (l :: ls) (l' :: ls')

namespace Relaid

variable {ls ls' : List Lexeme}

theorem map_content (h : Relaid ls ls') :
    ls.map (·.token.content) = ls'.map (·.token.content) := by
  induction h with
  | nil => rfl
  | cons content _ _ _ _ ih => simp [content, ih]

theorem length_eq (h : Relaid ls ls') : ls.length = ls'.length := by
  simpa using congrArg List.length h.map_content

theorem drop (h : Relaid ls ls') (n : Nat) : Relaid (ls.drop n) (ls'.drop n) := by
  induction n generalizing ls ls' with
  | zero => exact h
  | succ n ih =>
    cases h with
    | nil => exact .nil
    | cons _ _ _ _ others => exact ih others

theorem exists_fits (h : Relaid ls ls') : ∃ after, Fits ls after := by
  cases h with
  | nil => exact ⟨[], trivial⟩
  | cons _ _ fits _ _ => exact fits

theorem exists_fits' (h : Relaid ls ls') : ∃ after, Fits ls' after := by
  cases h with
  | nil => exact ⟨[], trivial⟩
  | cons _ _ _ fits' _ => exact fits'

theorem refl {after : List Char} (h : Fits ls after) : Relaid ls ls := by
  induction ls with
  | nil => exact .nil
  | cons l ls ih => exact .cons rfl (fun _ => rfl) ⟨_, h⟩ ⟨_, h⟩ (ih h.2.2)

end Relaid

private theorem Text.says_spell_take {ls : List Lexeme} (h : ∃ after, Fits ls after) (n : Nat) :
    Says (Parser.spell (ls.take n)) ((ls.take n).map (·.token.content)) := by
  obtain ⟨after, hfits⟩ := h
  rw [← List.take_append_drop n ls, Lexeme.fits_append] at hfits
  exact says_spell hfits.1

def Text.Alike (s s' : String) : Prop :=
  ∃ cs, cs ≠ [] ∧ Says s cs ∧ Says s' cs

namespace Parser

theorem IsPlain.eq {α : Type} {f : Token → α} (h : IsPlain f) {t t' : Token}
    (same : t.content = t'.content) : f t = f t' := by
  obtain ⟨kind, text, position⟩ := t
  obtain ⟨kind', text', position'⟩ := t'
  obtain ⟨rfl, rfl⟩ := Prod.mk.inj same
  exact (h _ position').symm

theorem isSymbol_congr {t t' : Token} (same : t.content = t'.content) (c : Char) :
    t.isSymbol c = t'.isSymbol c :=
  IsPlain.eq (f := (·.isSymbol c)) (fun _ _ => rfl) same

theorem isWord_congr {t t' : Token} (same : t.content = t'.content) (word : String) :
    t.isWord word = t'.isWord word :=
  IsPlain.eq (f := (·.isWord word)) (fun _ _ => rfl) same

theorem unquoted_congr {t t' : Token} (same : t.content = t'.content) :
    t.unquoted = t'.unquoted :=
  IsPlain.eq (fun _ _ => rfl) same

inductive SameFault (ls ls' : List Lexeme) : SyntaxFault → SyntaxFault → Prop
  | endOfInput : SameFault ls ls' .endOfInput .endOfInput
  | expected {what : String} {n : Nat} {l l' : Lexeme} (here : ls[n]? = some l)
      (here' : ls'[n]? = some l') :
      SameFault ls ls' (.expected what l.token) (.expected what l'.token)

/-- Two outcomes that belong together: either equally many lexemes of two rows were taken and the
values are related, or it is the same fault. -/
inductive Together {α α' : Type} (R : α → α' → Prop) (ls ls' : List Lexeme) :
    Except SyntaxFault (α × List Lexeme) → Except SyntaxFault (α' × List Lexeme) → Prop
  | ok {a : α} {a' : α'} (n : Nat) (rel : R a a') :
      Together R ls ls' (.ok (a, ls.drop n)) (.ok (a', ls'.drop n))
  | error {e e' : SyntaxFault} (same : SameFault ls ls' e e') :
      Together R ls ls' (.error e) (.error e')

/-- Whether two parsers have outcomes that belong together, however the lexemes are laid out. -/
def Parallel {α α' : Type} (R : α → α' → Prop) (p : Parser α) (p' : Parser α') : Prop :=
  ∀ ls ls', Relaid ls ls' → Together R ls ls' (p ls) (p' ls')

variable {α α' β β' : Type} {R : α → α' → Prop} {S : β → β' → Prop}

theorem Together.of_drop {n : Nat} {ls ls' : List Lexeme}
    {x : Except SyntaxFault (α × List Lexeme)} {x' : Except SyntaxFault (α' × List Lexeme)}
    (h : Together R (ls.drop n) (ls'.drop n) x x') : Together R ls ls' x x' := by
  cases h with
  | ok m rel =>
    rw [List.drop_drop, List.drop_drop]
    exact .ok _ rel
  | error same =>
    refine .error ?_
    cases same with
    | endOfInput => exact .endOfInput
    | expected here here' =>
      rw [List.getElem?_drop] at here here'
      exact .expected here here'

theorem parallel_pure {a : α} {a' : α'} (h : R a a') : Parallel R (pure a) (pure a') :=
  fun _ _ _ => .ok 0 h

variable {p : Parser α} {p' : Parser α'}

theorem Parallel.bind {f : α → Parser β} {f' : α' → Parser β'} (h : Parallel R p p')
    (hf : ∀ a a', R a a' → Parallel S (f a) (f' a')) : Parallel S (p >>= f) (p' >>= f') := by
  intro ls ls' same
  have first := h ls ls' same
  simp only [Bind.bind, StateT.bind, Except.bind]
  generalize p ls = x, p' ls' = x' at first
  cases first with
  | ok n rel => exact (hf _ _ rel _ _ (same.drop n)).of_drop
  | error fault => exact .error fault

theorem Parallel.mono {R' : α → α' → Prop} (h : Parallel R p p')
    (weaker : ∀ a a', R a a' → R' a a') : Parallel R' p p' := by
  intro ls ls' same
  have outcome := h ls ls' same
  generalize p ls = x, p' ls' = x' at outcome
  cases outcome with
  | ok n rel => exact .ok n (weaker _ _ rel)
  | error fault => exact .error fault

theorem Parallel.bind_eq {q q' : Parser α} {f : α → Parser β} {f' : α → Parser β'}
    (h : Parallel Eq q q') (hf : ∀ a, Parallel S (f a) (f' a)) :
    Parallel S (q >>= f) (q' >>= f') := by
  refine h.bind ?_
  rintro a _ rfl
  exact hf a

theorem Parallel.map (h : Parallel R p p') {f : α → β} {f' : α' → β'}
    (hf : ∀ a a', R a a' → S (f a) (f' a')) : Parallel S (f <$> p) (f' <$> p') :=
  h.bind fun a a' rel => parallel_pure (hf a a' rel)

theorem Parallel.discard (h : Parallel R p p') :
    Parallel (fun _ _ => True) (discard p : Parser Unit) (discard p' : Parser Unit) :=
  h.map fun _ _ _ => trivial

theorem Parallel.choose {c c' : Parser Bool} {q : Parser α} {q' : Parser α'}
    (h : Parallel Eq c c') (hp : Parallel R p p') (hq : Parallel R q q') :
    Parallel R (c >>= fun b => if b = true then p else q)
      (c' >>= fun b => if b = true then p' else q') := by
  refine h.bind_eq fun b => ?_
  cases b with
  | true => exact hp
  | false => exact hq

section Tokens

variable {test : Token → Bool}

theorem parallel_satisfy (what : String) (plain : IsPlain test) :
    Parallel (fun t t' => t.content = t'.content) (satisfy what test) (satisfy what test) := by
  intro ls ls' same
  cases same with
  | nil => exact .error .endOfInput
  | @cons l l' ls ls' content =>
    simp only [satisfy, plain.eq content]
    split
    · exact .ok 1 content
    · exact .error (.expected (n := 0) rfl rfl)

theorem parallel_map_satisfy (what : String) (plain : IsPlain test) {f : Token → α}
    (f_plain : IsPlain f) : Parallel Eq (f <$> satisfy what test) (f <$> satisfy what test) :=
  (parallel_satisfy what plain).map fun _ _ content => f_plain.eq content

theorem parallel_refuse (what : String) : Parallel R (refuse what) (refuse what) := by
  intro ls ls' same
  cases same with
  | nil => exact .error .endOfInput
  | cons => exact .error (.expected (n := 0) rfl rfl)

theorem parallel_accept (plain : IsPlain test) : Parallel Eq (accept test) (accept test) := by
  intro ls ls' same
  cases same with
  | nil => exact .ok 0 rfl
  | @cons l l' ls ls' content =>
    simp only [accept, plain.eq content]
    split
    · exact .ok 1 rfl
    · exact .ok 0 rfl

theorem parallel_acceptSymbol (c : Char) :
    Parallel Eq (accept (·.isSymbol c)) (accept (·.isSymbol c)) :=
  parallel_accept fun _ _ => rfl

theorem parallel_acceptWord (word : String) :
    Parallel Eq (accept (·.isWord word)) (accept (·.isWord word)) :=
  parallel_accept fun _ _ => rfl

theorem parallel_look (ahead : Nat) :
    Parallel (fun o o' => o.map Token.content = o'.map Token.content) (look ahead)
      (look ahead) := by
  intro ls ls' same
  refine .ok 0 ?_
  have hcontents := congrArg (·[ahead]?) same.map_content
  simpa [Function.comp_def] using hcontents

theorem IsPlain.any_eq (plain : IsPlain test) {o o' : Option Token}
    (same : o.map Token.content = o'.map Token.content) : o.any test = o'.any test := by
  cases o with
  | none =>
    obtain rfl : o' = none := by simpa using same.symm
    rfl
  | some t =>
    obtain ⟨t', rfl, content⟩ : ∃ t', o' = some t' ∧ t'.content = t.content := by
      simpa using same.symm
    exact plain.eq content.symm

theorem parallel_sees (plain : IsPlain test) : Parallel Eq (sees test) (sees test) :=
  (parallel_look 0).map fun _ _ => plain.any_eq

theorem parallel_seesWord (word : String) :
    Parallel Eq (sees (·.isWord word)) (sees (·.isWord word)) :=
  parallel_sees fun _ _ => rfl

end Tokens

private theorem Parallel.separated_go {mark : Char} (h : Parallel R p p') (n : Nat) :
    Parallel (List.Forall₂ R) (separated.go mark p n) (separated.go mark p' n) := by
  induction n with
  | zero => exact h.bind fun a a' first => parallel_pure (.cons first .nil)
  | succ n ih =>
    refine h.bind fun a a' first => (parallel_acceptSymbol _).choose ?_ ?_
    · exact ih.bind fun as as' others => parallel_pure (.cons first others)
    · exact parallel_pure (.cons first .nil)

theorem Parallel.separated (mark : Char) (h : Parallel R p p') :
    Parallel (List.Forall₂ R) (separated mark p) (separated mark p') := by
  intro ls ls' same
  simp only [Parser.separated, ← same.length_eq]
  exact h.separated_go _ ls ls' same

theorem Parallel.separated_eq {q q' : Parser α} (mark : Char) (h : Parallel Eq q q') :
    Parallel Eq (Parser.separated mark q) (Parser.separated mark q') := by
  rw [← List.forall₂_eq_eq_eq]
  exact h.separated mark

private theorem Parallel.enclosed_go (h : Parallel R p p') (n : Nat) :
    Parallel (fun x x' => List.Forall₂ R x.1 x'.1) (enclosed.go p n) (enclosed.go p' n) := by
  induction n with
  | zero => exact fun _ _ _ => .error .endOfInput
  | succ n ih =>
    refine (parallel_sees fun _ _ => rfl).choose ?_ ((parallel_acceptSymbol _).choose ih ?_)
    · exact (parallel_satisfy _ fun _ _ => rfl).bind fun t t' _ => parallel_pure .nil
    · exact h.bind fun a a' first => ih.bind fun x x' others => parallel_pure (.cons first others)

theorem Parallel.enclosed (h : Parallel R p p') :
    Parallel (fun x x' => List.Forall₂ R x.1 x'.1) (enclosed p) (enclosed p') := by
  intro ls ls' same
  simp only [Parser.enclosed, ← same.length_eq]
  exact h.enclosed_go _ ls ls' same

theorem Parallel.written (h : Parallel R p p') (progresses : Progresses p) :
    Parallel Text.Alike (written p) (written p') := by
  have taken : ∀ (ls : List Lexeme) (n : Nat),
      ls.take (ls.length - (ls.drop n).length) = ls.take n := by
    intro ls n
    rw [List.length_drop, List.take_eq_take_iff]
    omega
  intro ls ls' same
  have outcome := h ls ls' same
  have shorter := progresses ls
  simp only [Parser.written, Bind.bind, Except.bind]
  generalize p ls = x, p' ls' = x' at outcome shorter
  cases outcome with
  | error fault => exact .error fault
  | ok n rel =>
    have hlt := shorter _ _ rfl
    refine .ok n ⟨(ls.take n).map (·.token.content), ?_, ?_, ?_⟩
    · rw [List.length_drop] at hlt
      refine List.ne_nil_of_length_pos ?_
      rw [List.length_map, List.length_take]
      omega
    · rw [taken]
      exact Text.says_spell_take same.exists_fits n
    · rw [taken, List.map_take, same.map_content, ← List.map_take]
      exact Text.says_spell_take same.exists_fits' n

private theorem SameFault.at_token {ls ls' : List Lexeme} {e e' : SyntaxFault}
    (h : SameFault ls ls' e e') :
    e = .endOfInput ∨ ∃ what, ∃ l ∈ ls, e = .expected what l.token := by
  cases h with
  | endOfInput => exact .inl rfl
  | expected here _ => exact .inr ⟨_, _, List.mem_of_getElem? here, rfl⟩

theorem Parallel.at_token {Q : α → α → Prop} (h : Parallel Q p p) {ls : List Lexeme}
    {after : List Char} (fits : Fits ls after) {e : SyntaxFault} (failed : p ls = .error e) :
    e = .endOfInput ∨ ∃ what, ∃ l ∈ ls, e = .expected what l.token := by
  have outcome := h ls ls (.refl fits)
  rw [failed] at outcome
  cases outcome with
  | error fault => exact fault.at_token

end Parser

end SchemaLint
