import SchemaLint.Proofs.Layout.Statement
import SchemaLint.Proofs.Parse.Declaration
import SchemaLint.Proofs.Span.Row

/-!
# Files, however they are laid out

Two texts with the same tokens denote the same declarations or have the same fault at the same token,
whatever blanks, line ends and comments stand between the tokens.
-/

set_option autoImplicit false
set_option relaxedAutoImplicit false

namespace SchemaLint

open Lexeme (Fits Placed)

namespace Parser

inductive HeaderAlike : Header → Header → Prop
  | statement {d d' : Declaration} (same : Shows Declaration.outline? d d') :
      HeaderAlike (.statement d) (.statement d')
  | opening (kind : BlockKind) (name : String) (first first' : Position) :
      HeaderAlike (.opening kind name first) (.opening kind name first')

theorem Parallel.statement {α : Type} {wrap : α → Declaration} {p p' : Parser α}
    (h : Parallel (Declares wrap) p p') :
    Parallel HeaderAlike (p >>= fun a => pure (.statement (wrap a)))
      (p' >>= fun a => pure (.statement (wrap a))) :=
  h.bind fun _ _ same => parallel_pure (.statement same)

theorem parallel_opening (kind : BlockKind) :
    Parallel HeaderAlike (opening kind) (opening kind) := by
  refine (parallel_keywordAt _).bind fun first first' _ => ?_
  have named : ∀ name, Parallel HeaderAlike
      (discard (symbol '\x7b') >>= fun _ => pure (.opening kind name first))
      (discard (symbol '\x7b') >>= fun _ => pure (.opening kind name first')) := fun name =>
    (parallel_symbol _).discard.bind fun _ _ _ => parallel_pure (.opening kind name first first')
  split
  · exact parallel_typeName.bind_eq named
  · exact parallel_identifier.bind_eq named

theorem parallel_atKeyword (word : String) : Parallel Eq (atKeyword word) (atKeyword word) := by
  refine (parallel_look 2).bind fun o o' same => ?_
  rw [IsPlain.any_eq (fun _ _ => rfl) same]
  split
  · exact parallel_pure rfl
  · exact parallel_seesWord word

private theorem parallel_optionHeader :
    Parallel HeaderAlike (option >>= fun o => pure (.statement (.option o)))
      (option >>= fun o => pure (.statement (.option o))) :=
  Parallel.statement (parallel_option.mono fun _ _ => OptionStatement.declares)

theorem parallel_fileHeader : Parallel HeaderAlike fileHeader fileHeader := by
  refine (parallel_sees fun _ _ => rfl).choose parallel_languageVersion.statement ?_
  refine (parallel_seesWord _).choose parallel_package.statement ?_
  refine (parallel_seesWord _).choose parallel_imported.statement ?_
  refine (parallel_seesWord _).choose parallel_optionHeader ?_
  refine (parallel_seesWord _).choose (parallel_opening _) ?_
  refine (parallel_seesWord _).choose (parallel_opening _) ?_
  refine (parallel_seesWord _).choose (parallel_opening _) ?_
  exact (parallel_seesWord _).choose (parallel_opening _) (parallel_refuse _)

theorem parallel_messageHeader : Parallel HeaderAlike messageHeader messageHeader := by
  refine (parallel_seesWord _).choose parallel_optionHeader ?_
  refine (parallel_atKeyword _).choose (parallel_opening _) ?_
  refine (parallel_atKeyword _).choose (parallel_opening _) ?_
  refine (parallel_atKeyword _).choose (parallel_opening _) ?_
  refine (parallel_atKeyword _).choose (parallel_opening _) ?_
  refine (parallel_atKeyword _).choose parallel_reserved.statement ?_
  refine (parallel_atKeyword _).choose parallel_extensions.statement ?_
  refine (parallel_seesWord _).bind_eq fun map => (parallel_look 1).bind fun o o' same => ?_
  rw [IsPlain.any_eq (fun _ _ => rfl) same]
  split
  · exact parallel_mapField.statement
  · exact parallel_field.statement

theorem parallel_header (scope : Scope) : Parallel HeaderAlike (header scope) (header scope) := by
  match scope with
  | .file => exact parallel_fileHeader
  | .body .message => exact parallel_messageHeader
  | .body .oneof => exact (parallel_seesWord _).choose parallel_optionHeader parallel_field.statement
  | .body .enumeration =>
    exact (parallel_seesWord _).choose parallel_optionHeader
      ((parallel_atKeyword _).choose parallel_reserved.statement parallel_enumValue.statement)
  | .body .service => exact (parallel_seesWord _).choose parallel_optionHeader parallel_rpc.statement
  | .body .extend => exact parallel_field.statement

private theorem parallel_declaration_go (depth : Nat) (scope : Scope) :
    Parallel (Shows Declaration.outline?) (declaration.go depth scope)
      (declaration.go depth scope) := by
  induction depth generalizing scope with
  | zero => exact fun _ _ _ => .error .endOfInput
  | succ depth ih =>
    refine (parallel_header scope).bind fun head head' alike => ?_
    cases alike with
    | statement same => exact parallel_pure same
    | opening kind name first first' =>
      refine (ih _).enclosed.bind fun x x' same => parallel_pure ?_
      obtain ⟨outlines, ho, ho'⟩ := Shows.outlineAll same
      exact ⟨.block kind name outlines, by simp [Declaration.outline?, ho],
        by simp [Declaration.outline?, ho']⟩

theorem parallel_declaration (scope : Scope) :
    Parallel (Shows Declaration.outline?) (declaration scope) (declaration scope) := by
  intro ls ls' same
  simp only [declaration, ← same.length_eq]
  exact parallel_declaration_go _ scope ls ls' same

private theorem parallel_declarations_go (n : Nat) :
    Parallel (List.Forall₂ (Shows Declaration.outline?)) (declarations.go n)
      (declarations.go n) := by
  induction n with
  | zero => exact parallel_pure .nil
  | succ n ih =>
    intro ls ls' same
    cases same with
    | nil => exact .ok 0 .nil
    | @cons l l' ls ls' content touch fits fits' others =>
      rw [declarations_go_cons, declarations_go_cons, isSymbol_congr content]
      split
      · exact (ih _ _ others).of_drop (n := 1)
      · refine Parallel.bind (parallel_declaration .file) (fun d d' first => ?_) _ _
          (.cons content touch fits fits' others)
        exact ih.bind fun ds ds' others => parallel_pure (.cons first others)

theorem parallel_declarations :
    Parallel (List.Forall₂ (Shows Declaration.outline?)) declarations declarations := by
  intro ls ls' same
  simp only [declarations, ← same.length_eq]
  exact parallel_declarations_go _ ls ls' same

end Parser

/-- Whether every point behind the word `stream` touches it in both of two rows of tokens, or in
neither. -/
def StreamsAlike : List Token → List Token → Prop
  | t :: u :: ts, t' :: u' :: ts' =>
    (t.isWord "stream" → u.isSymbol '.' →
      (t.stop = u.position.offset ↔ t'.stop = u'.position.offset)) ∧
      StreamsAlike (u :: ts) (u' :: ts')
  | _, _ => True

instance : ∀ ts ts', Decidable (StreamsAlike ts ts')
  | _ :: u :: ts, _ :: u' :: ts' =>
    have := instDecidableStreamsAlike (u :: ts) (u' :: ts')
    inferInstanceAs (Decidable (_ ∧ _))
  | [], _ => .isTrue trivial
  | [_], _ => .isTrue trivial
  | _ :: _ :: _, [] => .isTrue trivial
  | _ :: _ :: _, [_] => .isTrue trivial

private theorem Lexeme.Placed.gap_eq_nil_iff {p : Position} {l m : Lexeme} {ls : List Lexeme}
    (h : Placed p (l :: m :: ls)) : m.gap = [] ↔ l.token.stop = m.token.position.offset := by
  rw [h.stop_eq, h.2.1, Position.offset_advance (p.advance l.chars), ← Text.byteLength_eq_zero]
  omega

theorem Relaid.of_tokens {p p' : Position} {ls ls' : List Lexeme} {after after' : List Char}
    (fits : Fits ls after) (fits' : Fits ls' after') (placed : Placed p ls)
    (placed' : Placed p' ls')
    (contents : (ls.map Lexeme.token).map Token.content = (ls'.map Lexeme.token).map Token.content)
    (streams : StreamsAlike (ls.map Lexeme.token) (ls'.map Lexeme.token)) : Relaid ls ls' := by
  induction ls generalizing ls' p p' with
  | nil =>
    obtain rfl : ls' = [] := by simpa using contents.symm
    exact .nil
  | cons l ls ih =>
    obtain ⟨l', ls', rfl⟩ : ∃ l' tail, ls' = l' :: tail :=
      List.exists_cons_of_ne_nil (by rintro rfl; simp at contents)
    obtain ⟨content, others⟩ := List.cons.inj contents
    cases ls with
    | nil =>
      obtain rfl : ls' = [] := by simpa using others.symm
      exact .cons content (fun _ => rfl) ⟨_, fits⟩ ⟨_, fits'⟩ .nil
    | cons m ms =>
      obtain ⟨m', ms', rfl⟩ : ∃ m' tail, ls' = m' :: tail :=
        List.exists_cons_of_ne_nil (by rintro rfl; simp at others)
      obtain ⟨here, streams⟩ := streams
      refine .cons content (fun hstream => ?_) ⟨_, fits⟩ ⟨_, fits'⟩
        (ih fits.2.2 fits'.2.2 placed.2 placed'.2 others streams)
      have hpoint := Parser.isSymbol_congr (List.cons.inj others).1 '.'
      simp only [Grammar.touches, List.head?_cons, Option.any_some, ← hpoint]
      cases hmark : m.token.isSymbol '.' with
      | false => rfl
      | true =>
        rw [Bool.true_and, Bool.true_and, Bool.eq_iff_iff, List.isEmpty_iff, List.isEmpty_iff,
          placed.gap_eq_nil_iff, placed'.gap_eq_nil_iff]
        exact here hstream hmark

namespace SchemaFile

/-- Two texts with the same tokens denote files that are the same apart from their layout, or they have
the same fault, at the same token or at their ends. -/
theorem parse_alike {filename source source' : String} {ts ts' : List Token}
    (tokens : tokenize filename source.toList = .ok ts)
    (tokens' : tokenize filename source'.toList = .ok ts')
    (contents : ts.map Token.content = ts'.map Token.content) (streams : StreamsAlike ts ts') :
    (∃ file file', parse filename source = .ok file ∧ parse filename source' = .ok file' ∧
      Shows outline? file file') ∨
    ∃ e e', parse filename source = .error e ∧ parse filename source' = .error e' ∧
      e.message = e'.message ∧
      ((∃ (n : Nat) (t t' : Token), ts[n]? = some t ∧ ts'[n]? = some t' ∧
          e.position = t.position ∧ e'.position = t'.position) ∨
        e.position = .behind filename source.toList ∧
          e'.position = .behind filename source'.toList) := by
  obtain ⟨ls, read, rfl⟩ := tokenize_eq_ok_iff.1 tokens
  obtain ⟨ls', read', rfl⟩ := tokenize_eq_ok_iff.1 tokens'
  obtain ⟨rest, -, fits, placed, -⟩ := Lexer.read_eq_iff_fits.1 read
  obtain ⟨rest', -, fits', placed', -⟩ := Lexer.read_eq_iff_fits.1 read'
  have same : Relaid ls ls' := .of_tokens fits fits' placed placed' contents streams
  have outcome := Parser.parallel_declarations ls ls' same
  rw [parse_of_read read, parse_of_read read']
  simp only [ofLexemes, Bind.bind, Except.bind]
  generalize Parser.declarations ls = x, Parser.declarations ls' = x' at outcome
  cases outcome with
  | ok n same =>
    obtain ⟨outlines, ho, ho'⟩ := Shows.outlineAll same
    exact .inl ⟨_, _, rfl, rfl, (filename, outlines), by simp [outline?, ho], by simp [outline?, ho']⟩
  | error fault =>
    refine .inr ⟨_, _, rfl, rfl, ?_⟩
    cases fault with
    | endOfInput => exact ⟨rfl, .inr ⟨rfl, rfl⟩⟩
    | @expected what n l l' here here' =>
      have content : l.token.content = l'.token.content := by
        have := congrArg (·[n]?) same.map_content
        simpa [here, here'] using this
      have htext : l.token.text = l'.token.text := congrArg Prod.snd content
      refine ⟨?_, .inl ⟨n, l.token, l'.token, by simp [here], by simp [here'], rfl, rfl⟩⟩
      simp only [ParseError.ofSyntaxFault, SyntaxFault.message, htext]

/-- A comment within a number changes nothing; a point touches `stream` in both texts of the one side
of the call and in neither of the other.  Where a brace is missing, it is missed in both. -/
theorem parse_alike_service :
    let source := "service S \x7brpc A (stream .B) returns (stream.C);\x7d enum E \x7bA = -1;\x7d"
    let source' := "service S\x7brpc A(stream\n.B)returns(stream.C);\x7denum E\x7bA=- /* */ 1;\x7d"
    (∃ file file', parse "a.proto" source = .ok file ∧ parse "a.proto" source' = .ok file' ∧
      Shows outline? file file') ∧
    ∃ e e', parse "a.proto" "enum E \x7d" = .error e ∧
      parse "a.proto" "enum/**/E\n\x7d" = .error e' ∧ e.message = e'.message := by
  intro source source'
  have alike : ∀ s s' : String,
      ((tokenize "a.proto" s.toList).toOption.any fun ts =>
        (tokenize "a.proto" s'.toList).toOption.any fun ts' =>
          decide (ts.map Token.content = ts'.map Token.content ∧ StreamsAlike ts ts')) = true →
      ∃ ts ts', tokenize "a.proto" s.toList = .ok ts ∧ tokenize "a.proto" s'.toList = .ok ts' ∧
        ts.map Token.content = ts'.map Token.content ∧ StreamsAlike ts ts' := by
    intro s s' h
    obtain ⟨ts, hts, h⟩ := (Option.any_eq_true _ _).1 h
    obtain ⟨ts', hts', h⟩ := (Option.any_eq_true _ _).1 h
    exact ⟨ts, ts', eq_ok_of_toOption hts, eq_ok_of_toOption hts', of_decide_eq_true h⟩
  constructor
  · obtain ⟨ts, ts', tokens, tokens', contents, streams⟩ := alike source source' (by decide +kernel)
    have good : (parse "a.proto" source).toOption.isSome = true := by decide +kernel
    rcases parse_alike tokens tokens' contents streams with h | ⟨e, _, he, -⟩
    · exact h
    · simp [he, Except.toOption] at good
  · obtain ⟨ts, ts', tokens, tokens', contents, streams⟩ := alike "enum E \x7d" "enum/**/E\n\x7d"
      (by decide +kernel)
    have bad : (parse "a.proto" "enum E \x7d").toOption.isSome = false := by decide +kernel
    rcases parse_alike tokens tokens' contents streams with ⟨file, _, hfile, -⟩ | ⟨e, e', he, he', h, -⟩
    · simp [hfile, Except.toOption] at bad
    · exact ⟨e, e', he, he', h⟩

end SchemaFile

end SchemaLint
