import SchemaLint.Parse.File
import SchemaLint.Proofs.Grammar.Header
import SchemaLint.Proofs.Parse.Declaration
import SchemaLint.Proofs.Outcome

/-!
# Files are recognized

Blocks nest, and a body is read by the parser of the blocks around it, one level deeper.  Both
directions go by induction on how deep blocks may nest; no file nests deeper than it has lexemes.
-/

set_option autoImplicit false
set_option relaxedAutoImplicit false

namespace SchemaLint

open SchemaLint.Parser (Scope)

namespace Grammar

variable {scope : Scope} {ls : List Lexeme} {ds : List Declaration}

/-- One declaration of a body, with everything in it. -/
inductive Element (scope : Scope) : List Lexeme → Declaration → Prop
  | statement {ls : List Lexeme} {d : Declaration} (first : Statement scope ls d) :
      Element scope ls d
  | block {kind : BlockKind} {ls ms : List Lexeme} {closing : Lexeme} {name : String}
      {first : Position} {body : List Declaration} (listed : kind ∈ blocks scope)
      (head : BlockHead kind ls name first) (inside : Body (.body kind) ms body)
      (closes : closing.token.isSymbol '\x7d') :
      Element scope (ls ++ (ms ++ [closing])) (.block kind name body ⟨first, closing.token.position⟩)

theorem Body.phrases (h : Body scope ls ds) : Phrases (Element scope) ls ds := by
  induction h with
  | nil => exact .nil
  | skip semicolon others ih => exact .skip semicolon ih
  | statement first others ih => exact .cons (.statement first) ih
  | @block scope kind ls ms ns closing name first body ds listed head inside closes others _ ih =>
    have hcons := Phrases.cons (.block listed head inside closes) ih
    simpa using hcons

theorem body_of_phrases (h : Phrases (Element scope) ls ds) : Body scope ls ds := by
  induction h with
  | nil => exact .nil
  | skip semicolon others ih => exact .skip semicolon ih
  | cons first others ih =>
    cases first with
    | statement first => exact .statement first ih
    | block listed head inside closes =>
      have hblock := Body.block listed head inside closes ih
      simpa using hblock

private theorem BeginsWith.skips {word : String} (h : BeginsWith word ls) :
    ∃ l tail, ls = l :: tail ∧ l.token.isSymbol '\x7d' = false ∧ l.token.isSymbol ';' = false := by
  obtain ⟨l, tail, rfl, hl⟩ := h
  exact ⟨l, tail, rfl, Parser.isSymbol_of_isWord hl _, Parser.isSymbol_of_isWord hl _⟩

private theorem FieldClause.skips {f : Field} (h : FieldClause ls f) :
    ∃ l tail, ls = l :: tail ∧ l.token.isSymbol '\x7d' = false ∧ l.token.isSymbol ';' = false := by
  cases h with
  | labelled word _ _ => exact BeginsWith.skips ⟨_, _, rfl, word⟩
  | @plain first ls ms _ _ _ _ _ _ typed _ =>
    refine ⟨first, ls ++ ms, rfl, ?_⟩
    rcases typed.forall_mem first (by simp) with hl | hl
    · simp [Token.isSymbol, hl]
    · exact ⟨Parser.isSymbol_of_ne hl (by decide), Parser.isSymbol_of_ne hl (by decide)⟩

theorem Element.skips {d : Declaration} (h : Element scope ls d) :
    ∃ l tail, ls = l :: tail ∧ l.token.isSymbol '\x7d' = false ∧ l.token.isSymbol ';' = false := by
  cases h with
  | block listed head inside closes =>
    obtain ⟨l, tail, rfl, hl⟩ := head.begins.skips
    exact ⟨l, _, rfl, hl⟩
  | statement first =>
    cases first with
    | version clause => exact clause.begins.elim BeginsWith.skips BeginsWith.skips
    | package clause => exact clause.begins.skips
    | imported clause => exact clause.begins.skips
    | option _ clause => exact clause.begins.skips
    | reserved _ clause => exact clause.begins.skips
    | extensions clause => exact clause.begins.skips
    | mapField clause => exact clause.begins.skips
    | messageField _ _ clause => exact clause.skips
    | oneofField _ clause => exact clause.skips
    | extendField clause => exact clause.skips
    | rpc clause => exact clause.begins.skips
    | enumValue _ _ clause =>
      cases clause with
      | mk word _ _ _ _ => exact ⟨_, _, rfl, by simp [Token.isSymbol, word]⟩

end Grammar

namespace Parser

open Grammar

variable {scope : Scope} {ls rest used : List Lexeme} {d : Declaration} {ds : List Declaration}

theorem element_of_go (depth : Nat) (he : declaration.go depth scope ls = .ok (d, rest)) :
    ∃ used, ls = used ++ rest ∧ Element scope used d := by
  induction depth generalizing scope ls rest d with
  | zero => simp [declaration.go] at he
  | succ depth ih =>
    unfold declaration.go at he
    obtain ⟨hd, mid, hhead, hafter⟩ := bind_eq_ok_iff.1 he
    obtain ⟨used, rfl, hused⟩ := (recognizes_header scope).sound hhead
    cases hused with
    | statement first =>
      obtain ⟨rfl, rfl⟩ := pure_eq_ok_iff.1 hafter
      exact ⟨used, rfl, .statement first⟩
    | opening listed head =>
      obtain ⟨⟨body, last⟩, _, hbody, hdone⟩ := bind_eq_ok_iff.1 hafter
      obtain ⟨rfl, rfl⟩ := pure_eq_ok_iff.1 hdone
      obtain ⟨inner, closing, rfl, hinner, hclosing, rfl⟩ :=
        ((enclosed_eq_ok_iff (progresses_go _ _)).1 hbody).phrases fun _ _ _ => ih
      exact ⟨used ++ (inner ++ [closing]), by simp,
        .block listed head (body_of_phrases hinner) hclosing⟩

theorem go_of_element (depth : Nat) (h : Element scope used d) (deep : used.length ≤ depth)
    (rest : List Lexeme) : declaration.go depth scope (used ++ rest) = .ok (d, rest) := by
  induction depth generalizing scope used rest d with
  | zero =>
    obtain ⟨l, tail, rfl, -⟩ := h.skips
    simp at deep
  | succ depth ih =>
    unfold declaration.go
    cases h with
    | statement first =>
      have hhead := (recognizes_header scope).complete (.statement first) (ahead_true rest)
      exact bind_eq_ok_iff.2 ⟨_, _, hhead, pure_eq_ok_iff.2 ⟨rfl, rfl⟩⟩
    | @block kind ls ms closing name first body listed head inside closes =>
      obtain ⟨l, tail, rfl, -⟩ := head.begins
      have hhead := (recognizes_header scope).complete (.opening listed head)
        (ahead_true (ms ++ closing :: rest))
      have hinner : Phrases (fun ls d => Element (.body kind) ls d ∧ ls.length ≤ depth) ms body := by
        refine inside.phrases.mono fun ls d hle element => ⟨element, ?_⟩
        simp only [List.length_append, List.length_cons] at deep
        omega
      have hbody : Encloses (declaration.go depth (.body kind)) (ms ++ closing :: rest) body
          closing.token rest :=
        encloses_of_phrases hinner (fun _ _ rest h => ih h.1 h.2 rest) (fun _ _ h => h.1.skips) closes
      rw [List.append_assoc, List.append_assoc, List.singleton_append]
      refine bind_eq_ok_iff.2 ⟨_, _, hhead, ?_⟩
      exact bind_eq_ok_iff.2
        ⟨_, _, (enclosed_eq_ok_iff (progresses_go _ _)).2 hbody, pure_eq_ok_iff.2 ⟨rfl, rfl⟩⟩

theorem recognizes_declaration (scope : Scope) :
    Recognizes (declaration scope) (fun _ => true) (Element scope) where
  sound := element_of_go _
  complete := fun derived _ => go_of_element _ derived (by simp) _

private theorem phrases_of_go (n : Nat) (enough : ls.length ≤ n)
    (he : declarations.go n ls = .ok (ds, rest)) : Phrases (Element .file) ls ds ∧ rest = [] := by
  induction n generalizing ls ds with
  | zero =>
    obtain rfl : ls = [] := List.length_eq_zero_iff.1 (Nat.le_zero.1 enough)
    obtain ⟨rfl, rfl⟩ := pure_eq_ok_iff.1 he
    exact ⟨.nil, rfl⟩
  | succ n ih =>
    cases ls with
    | nil =>
      obtain ⟨rfl, rfl⟩ := Prod.mk.inj (Except.ok.inj he)
      exact ⟨.nil, rfl⟩
    | cons l ls =>
      rw [List.length_cons] at enough
      rw [declarations_go_cons] at he
      by_cases hskip : l.token.isSymbol ';' = true
      · rw [if_pos hskip] at he
        obtain ⟨hothers, rfl⟩ := ih (by omega) he
        exact ⟨.skip hskip hothers, rfl⟩
      · rw [if_neg hskip] at he
        obtain ⟨d, mid, hd, hafter⟩ := bind_eq_ok_iff.1 he
        obtain ⟨others, _, hothers, hdone⟩ := bind_eq_ok_iff.1 hafter
        obtain ⟨rfl, rfl⟩ := pure_eq_ok_iff.1 hdone
        obtain ⟨used, hls, hused⟩ := (recognizes_declaration .file).sound hd
        have hlength := congrArg List.length hls
        obtain ⟨first, tail, rfl, -⟩ := hused.skips
        simp only [List.length_cons, List.length_append] at hlength
        obtain ⟨hmid, rfl⟩ := ih (by omega) hothers
        rw [hls]
        exact ⟨.cons hused hmid, rfl⟩

private theorem go_of_phrases (n : Nat) (h : Phrases (Element .file) ls ds)
    (enough : ls.length ≤ n) : declarations.go n ls = .ok (ds, []) := by
  induction h generalizing n with
  | nil => cases n <;> rfl
  | @skip l ls ds semicolon others ih =>
    obtain ⟨n, rfl⟩ : ∃ k, n = k + 1 := ⟨n - 1, by simp at enough; omega⟩
    rw [declarations_go_cons, if_pos semicolon]
    exact ih n (by simpa using enough)
  | @cons ls ms d ds first others ih =>
    have hfirst := (recognizes_declaration .file).complete first (ahead_true ms)
    obtain ⟨l, tail, rfl, -, hskip⟩ := first.skips
    simp only [List.length_cons, List.length_append] at enough
    obtain ⟨n, rfl⟩ : ∃ k, n = k + 1 := ⟨n - 1, by omega⟩
    rw [List.cons_append, declarations_go_cons, if_neg (by simp [hskip])]
    exact bind_eq_ok_iff.2
      ⟨d, ms, hfirst, bind_eq_ok_iff.2 ⟨ds, [], ih n (by omega), pure_eq_ok_iff.2 ⟨rfl, rfl⟩⟩⟩

theorem declarations_eq_ok_iff :
    declarations ls = .ok (ds, rest) ↔ Body .file ls ds ∧ rest = [] := by
  constructor
  · intro he
    obtain ⟨hphrases, rfl⟩ := phrases_of_go _ (Nat.le_refl _) he
    exact ⟨body_of_phrases hphrases, rfl⟩
  · rintro ⟨body, rfl⟩
    exact go_of_phrases _ body.phrases (Nat.le_refl _)

end Parser

/-- A file denotes one tree at most. -/
theorem Grammar.Body.unique {ls : List Lexeme} {ds ds' : List Declaration}
    (h : Body .file ls ds) (h' : Body .file ls ds') : ds = ds' := by
  have hds := Parser.declarations_eq_ok_iff.2 ⟨h, rfl⟩
  have hds' := Parser.declarations_eq_ok_iff.2 ⟨h', rfl⟩
  rw [hds] at hds'
  exact congrArg Prod.fst (Except.ok.inj hds')

/-- A text is a schema file just if it has tokens and the grammar derives them, and then the file is
what the grammar says that they denote. -/
theorem SchemaFile.parse_eq_ok_iff {filename source : String} {file : SchemaFile} :
    SchemaFile.parse filename source = .ok file ↔
      ∃ ls, (Lexer.start filename source.toList).read = ⟨ls, none⟩ ∧
        Grammar.Body .file ls file.body ∧
        file = ⟨filename, file.body,
          ⟨.start filename, (Position.start filename).advance source.toList⟩⟩ := by
  rw [Position.advance_start]
  unfold parse
  dsimp only
  constructor
  · intro h
    split at h
    · simp at h
    · rename_i hfault
      obtain ⟨⟨body, rest⟩, hbody, hdone⟩ := bind_eq_ok_iff.1 (mapError_eq_ok_iff.1 h)
      obtain rfl := Except.ok.inj hdone
      obtain ⟨hderived, -⟩ := Parser.declarations_eq_ok_iff.1 hbody
      exact ⟨_, by rw [← hfault], hderived, rfl⟩
  · rintro ⟨ls, hread, hbody, hfile⟩
    rw [hread, hfile]
    refine mapError_eq_ok_iff.2 (bind_eq_ok_iff.2 ⟨(file.body, []), ?_, rfl⟩)
    exact Parser.declarations_eq_ok_iff.2 ⟨hbody, rfl⟩

end SchemaLint
