import SchemaLint.Proofs.Grammar.Body

/-!
# Where declarations stand among the lexemes

A declaration has a run of lexemes to itself.  Its span begins at the first of them and ends at the
last, a semicolon or a closing brace; whatever stands in it has its own run between these two.
-/

set_option autoImplicit false
set_option relaxedAutoImplicit false

namespace SchemaLint

/-- The declarations right below a declaration: its body, or the options of a call. -/
def Declaration.parts : Declaration → List Declaration
  | .block _ _ body _ => body
  | .rpc r => r.options.map .option
  | _ => []

theorem Declaration.preorderAll_options (options : List OptionStatement) :
    preorderAll (options.map .option) = options.map .option := by
  induction options with
  | nil => rfl
  | cons o options ih => rw [List.map_cons, preorderAll, ih]; rfl

theorem Declaration.preorderAll_cons (d : Declaration) (ds : List Declaration) :
    preorderAll (d :: ds) = d :: (preorderAll d.parts ++ preorderAll ds) := by
  cases d with
  | block => rfl
  | rpc r =>
    rw [preorderAll, parts, preorderAll_options]
    rfl
  | _ => rfl

/-- What holds of no declarations, and of some once it holds of the parts of the first and of the
others, holds of all. -/
theorem Declaration.forest_induction {P : List Declaration → Prop} (nil : P [])
    (cons : ∀ d ds, P d.parts → P ds → P (d :: ds)) (ds : List Declaration) : P ds := by
  induction hlength : (preorderAll ds).length using Nat.strongRecOn generalizing ds with
  | ind n ih =>
    cases ds with
    | nil => exact nil
    | cons d ds =>
      rw [preorderAll_cons, List.length_cons, List.length_append] at hlength
      exact cons d ds (ih _ (by omega) d.parts rfl) (ih _ (by omega) ds rfl)

namespace Grammar

open SchemaLint.Parser (Scope)

/-- The run of lexemes of a declaration: the grammar derives the declaration from it, the span begins
and ends with it, and what closes it is a semicolon or a brace. -/
structure Run (d : Declaration) (first : Lexeme) (inner : List Lexeme) (last : Lexeme) : Prop where
  derived : ∃ scope, Element scope (first :: (inner ++ [last])) d
  begins : d.span.first = first.token.position
  ends : d.span.last = last.token.position
  closes : last.token.isSymbol ';' = true ∨ last.token.isSymbol '\x7d' = true

/-- Declarations with their runs in a row of lexemes, one behind the other, and the runs of their
parts inside their own. -/
inductive Stands : List Lexeme → List Declaration → Prop
  | nil {ls : List Lexeme} : Stands ls []
  | cons {before inner after : List Lexeme} {first last : Lexeme} {d : Declaration}
      {ds : List Declaration} (run : Run d first inner last) (inside : Stands inner d.parts)
      (others : Stands after ds) :
      Stands (before ++ first :: (inner ++ last :: after)) (d :: ds)

variable {scope : Scope} {ls : List Lexeme} {d : Declaration} {ds : List Declaration}

theorem Stands.behind (h : Stands ls ds) (before : List Lexeme) : Stands (before ++ ls) ds := by
  cases h with
  | nil => exact .nil
  | cons run inside others =>
    rw [← List.append_assoc]
    exact .cons run inside others

private theorem Stands.front {first last : Lexeme} {inner after : List Lexeme}
    (run : Run d first inner last) (inside : Stands inner d.parts) (others : Stands after ds) :
    Stands (first :: (inner ++ [last]) ++ after) (d :: ds) := by
  have hstands : Stands ([] ++ first :: (inner ++ last :: after)) (d :: ds) :=
    .cons run inside others
  simpa using hstands

private theorem Statement.exists_run_of_semicolon (derived : Statement scope ls d)
    (first : Lexeme) (inner : List Lexeme) (last : Lexeme) (row : ls = first :: (inner ++ [last]))
    (begins : d.span.first = first.token.position) (ends : d.span.last = last.token.position)
    (semicolon : last.token.isSymbol ';' = true) :
    ∃ first inner last, ls = first :: (inner ++ [last]) ∧ Run d first inner last :=
  ⟨first, inner, last, row, ⟨scope, .statement (row ▸ derived)⟩, begins, ends, .inl semicolon⟩

theorem OptionClause.exists_run {o : OptionStatement} (clause : OptionClause ls o) :
    ∃ first inner last, ls = first :: (inner ++ [last]) ∧ Run (.option o) first inner last := by
  have derived : Statement .file ls (.option o) := .option (by decide) clause
  cases clause with
  | @mk first equals last named value _ _ _ _ _ ends =>
    exact derived.exists_run_of_semicolon first (named ++ equals :: value) last (by simp) rfl rfl ends

theorem stands_options {options : List OptionStatement} (h : Phrases OptionClause ls options) :
    Stands ls (options.map .option) := by
  induction h with
  | nil => exact .nil
  | skip semicolon others ih => exact ih.behind [_]
  | cons first others ih =>
    obtain ⟨l, inner, last, rfl, hrun⟩ := first.exists_run
    exact .front hrun .nil ih

private theorem FieldEnd.exists_last {name number : String} {options : List FieldOption}
    {p : Position} (h : FieldEnd ls name number options p) :
    ∃ inner last, ls = inner ++ [last] ∧ p = last.token.position ∧
      last.token.isSymbol ';' = true := by
  cases h with
  | @mk name equals number last ls _ _ _ _ _ ends =>
    exact ⟨name :: equals :: number :: ls, last, rfl, rfl, ends⟩

private theorem FieldClause.exists_run {f : Field} (clause : FieldClause ls f)
    (derived : Statement scope ls (.field f)) :
    ∃ first inner last, ls = first :: (inner ++ [last]) ∧ Run (.field f) first inner last := by
  cases clause with
  | @labelled label type _ _ _ _ _ _ _ _ _ ends =>
    obtain ⟨inner, last, rfl, rfl, hlast⟩ := ends.exists_last
    exact derived.exists_run_of_semicolon label (type ++ inner) last (by simp) rfl rfl hlast
  | @plain first type _ _ _ _ _ _ _ _ ends =>
    obtain ⟨inner, last, rfl, rfl, hlast⟩ := ends.exists_last
    exact derived.exists_run_of_semicolon first (type ++ inner) last (by simp) rfl rfl hlast

theorem Statement.exists_run (h : Statement scope ls d) :
    ∃ first inner last, ls = first :: (inner ++ [last]) ∧ Run d first inner last ∧
      Stands inner d.parts := by
  have plain : d.parts = [] →
      (∃ first inner last, ls = first :: (inner ++ [last]) ∧ Run d first inner last) →
      ∃ first inner last, ls = first :: (inner ++ [last]) ∧ Run d first inner last ∧
        Stands inner d.parts := by
    rintro hparts ⟨first, inner, last, row, hrun⟩
    exact ⟨first, inner, last, row, hrun, hparts ▸ .nil⟩
  have derived := h
  cases h with
  | version clause =>
    refine plain rfl ?_
    cases clause with
    | @mk first equals version last _ _ _ ends =>
      exact derived.exists_run_of_semicolon first [equals, version] last rfl rfl rfl ends
  | package clause =>
    refine plain rfl ?_
    cases clause with
    | @mk first last name _ _ _ ends =>
      exact derived.exists_run_of_semicolon first name last rfl rfl rfl ends
  | imported clause =>
    refine plain rfl ?_
    cases clause with
    | @mk first location last modifier _ _ _ _ ends =>
      exact derived.exists_run_of_semicolon first (modifier ++ [location]) last (by simp) rfl rfl ends
  | option listed clause => exact plain rfl clause.exists_run
  | reserved listed clause =>
    refine plain rfl ?_
    cases clause with
    | @numbers first last ranges _ _ _ ends =>
      exact derived.exists_run_of_semicolon first ranges last rfl rfl rfl ends
    | @names first last names _ _ _ ends =>
      exact derived.exists_run_of_semicolon first names last rfl rfl rfl ends
  | extensions clause =>
    refine plain rfl ?_
    cases clause with
    | @mk first last ranges options _ _ _ _ _ ends =>
      exact derived.exists_run_of_semicolon first (ranges ++ options) last (by simp) rfl rfl ends
  | mapField clause =>
    refine plain rfl ?_
    cases clause with
    | @mk first opening key comma closing type _ _ _ _ _ _ _ _ _ _ _ _ ends =>
      obtain ⟨inner, last, rfl, rfl, hlast⟩ := ends.exists_last
      exact derived.exists_run_of_semicolon first
        (opening :: key :: comma :: (type ++ closing :: inner)) last (by simp) rfl rfl hlast
  | messageField no_option as_type clause => exact plain rfl (clause.exists_run derived)
  | oneofField no_option clause => exact plain rfl (clause.exists_run derived)
  | extendField clause => exact plain rfl (clause.exists_run derived)
  | enumValue no_option no_reserved clause =>
    refine plain rfl ?_
    cases clause with
    | @mk name equals last number options _ _ _ _ _ ends =>
      exact derived.exists_run_of_semicolon name (equals :: (number ++ options)) last (by simp)
        rfl rfl ends
  | rpc clause =>
    cases clause with
    | @mk first name returns request response _ _ _ _ _ _ _ _ _ _ ends =>
      cases ends with
      | semicolon hlast =>
        obtain ⟨first, inner, last, row, hrun⟩ := derived.exists_run_of_semicolon first
          (name :: (request ++ returns :: response)) _ (by simp) rfl rfl hlast
        exact ⟨first, inner, last, row, hrun, .nil⟩
      | @block opening closing options _ _ inside closes =>
        have row : first :: name :: (request ++ returns ::
              (response ++ opening :: (options ++ [closing]))) =
            first :: (((name :: (request ++ returns :: (response ++ [opening]))) ++ options) ++
              [closing]) := by
          simp
        exact ⟨first, _, closing, row, ⟨⟨_, .statement (row ▸ derived)⟩, rfl, rfl, .inr closes⟩,
          (stands_options inside).behind _⟩

theorem Body.stands (h : Body scope ls ds) : Stands ls ds := by
  induction h with
  | nil => exact .nil
  | skip semicolon others ih => exact ih.behind [_]
  | statement first others ih =>
    obtain ⟨l, inner, last, rfl, hrun, hinside⟩ := first.exists_run
    exact .front hrun hinside ih
  | @block scope kind ls ms ns closing name first body ds listed head inside closes others hbody ih =>
    have derived := Element.block listed head inside closes
    cases head with
    | @mk k opening named _ _ _ _ =>
      have hrun : Run (.block kind name body ⟨k.token.position, closing.token.position⟩) k
          (named ++ opening :: ms) closing := by
        refine ⟨⟨scope, ?_⟩, rfl, rfl, .inr closes⟩
        simpa using derived
      have hinside : Stands (named ++ opening :: ms) body := by
        simpa using hbody.behind (named ++ [opening])
      have hstands := Stands.front hrun hinside ih
      simpa using hstands

end Grammar

namespace SchemaFile

variable {filename source : String} {file : SchemaFile}

theorem parse_of_read {ls : List Lexeme}
    (read : (Lexer.start filename source.toList).read = ⟨ls, none⟩) :
    parse filename source =
      (ofLexemes filename (.behind filename source.toList) ls).mapError
        (.ofSyntaxFault (.behind filename source.toList)) := by
  simp only [parse, read]

/-- A file that was read has its declarations among the lexemes of its text. -/
theorem exists_stands (h : parse filename source = .ok file) :
    ∃ ls, (Lexer.start filename source.toList).read = ⟨ls, none⟩ ∧ Grammar.Stands ls file.body ∧
      file.span = ⟨.start filename, .behind filename source.toList⟩ := by
  rcases hread : (Lexer.start filename source.toList).read with ⟨ls, fault⟩
  cases fault with
  | some e => simp [parse, hread] at h
  | none =>
    rw [parse_of_read hread] at h
    obtain ⟨⟨body, rest⟩, hbody, hdone⟩ := bind_eq_ok_iff.1 (mapError_eq_ok_iff.1 h)
    obtain rfl := Except.ok.inj hdone
    exact ⟨ls, rfl, (Parser.declarations_eq_ok_iff.1 hbody).1.stands, rfl⟩

end SchemaFile

end SchemaLint
