import SchemaLint.Proofs.Grammar.Clause

/-!
# What stands ahead

The first three lexemes decide between the statements and blocks of a body.  They decide as the
grammar does: no other rule derives what begins like this.
-/

set_option autoImplicit false
set_option relaxedAutoImplicit false

namespace SchemaLint

open SchemaLint.Parser (Header Scope firstIs)

namespace Grammar

variable {ls ms : List Lexeme}

inductive Heading (scope : Scope) : List Lexeme → Header → Prop
  | statement {ls : List Lexeme} {d : Declaration} (first : Statement scope ls d) :
      Heading scope ls (.statement d)
  | opening {kind : BlockKind} {ls : List Lexeme} {name : String} {first : Position}
      (listed : kind ∈ blocks scope) (head : BlockHead kind ls name first) :
      Heading scope ls (.opening kind name first)

theorem assignsThird_append (long : 3 ≤ ls.length) (ms : List Lexeme) :
    assignsThird (ls ++ ms) = assignsThird ls := by
  match ls with
  | [] | [_] | [_, _] => simp at long
  | _ :: _ :: _ :: _ => rfl

theorem FieldEnd.long {name number : String} {options : List FieldOption} {last : Position}
    (h : FieldEnd ls name number options last) : 3 ≤ ls.length := by
  cases h
  simp

theorem FieldClause.long {f : Field} (h : FieldClause ls f) : 3 ≤ ls.length := by
  cases h with
  | labelled _ _ ends | plain _ _ ends =>
    have hlong := ends.long
    simp only [List.length_cons, List.length_append]
    omega

theorem FieldClause.not_angled {f : Field} (h : FieldClause ls f) (rest : List Lexeme) :
    ((ls ++ rest)[1]?).any (·.token.isSymbol '<') = false := by
  have named : ∀ {l : Lexeme}, l.token.kind = .identifier ∨ l.token.isSymbol '.' = true →
      l.token.isSymbol '<' = false := by
    rintro l (hl | hl)
    · simp [Token.isSymbol, hl]
    · exact Parser.isSymbol_of_ne hl (by decide)
  cases h with
  | labelled _ typed _ =>
    obtain ⟨l, tail, rfl, hl⟩ := typed.begins
    exact named hl
  | @plain first ls ms type name number options last _ typed ends =>
    cases ls with
    | nil =>
      cases ends with
      | mk word _ _ _ _ => exact named (.inl word)
    | cons l ls => exact named (typed.forall_mem l (by simp))

theorem BlockName.assignless {kind : BlockKind} {name : String} (h : BlockName kind ls name) :
    Assignless ls ∧ ls ≠ [] := by
  cases h with
  | word names word => simp [Assignless, Token.isSymbol, word]
  | extended typed =>
    obtain ⟨l, tail, rfl, -⟩ := typed.begins
    exact ⟨typed.assignless, by simp⟩

private theorem assignsThird_of_last {first last : Lexeme} (inner : Assignless ls) (ne : ls ≠ [])
    {c : Char} (ends : last.token.isSymbol c = true) (other : c ≠ '=') (ms : List Lexeme) :
    assignsThird (first :: (ls ++ last :: ms)) = false := by
  have hlast : Assignless [last] := by simp [Assignless, Parser.isSymbol_of_ne ends other]
  have hlength := List.length_pos_iff.2 ne
  have hthird := assignsThird_cons first (inner.append hlast) (by simp; omega) ms
  rwa [List.append_assoc] at hthird

theorem BlockHead.assignsThird {kind : BlockKind} {name : String} {first : Position}
    (h : BlockHead kind ls name first) (rest : List Lexeme) : assignsThird (ls ++ rest) = false := by
  cases h with
  | mk word named opens =>
    obtain ⟨hnames, hne⟩ := named.assignless
    rw [List.cons_append, List.append_assoc]
    exact assignsThird_of_last hnames hne opens (by decide) rest

private theorem Separated.ranges_assignless {ranges : List String}
    (h : Separated ',' Range ls ranges) : Assignless ls ∧ ls ≠ [] := by
  obtain ⟨l, tail, rfl, -⟩ := h.begins fun _ _ item => item.begins
  exact ⟨h.forall_mem (fun _ _ item => item.assignless) fun _ mark =>
    Parser.isSymbol_of_ne mark (by decide), by simp⟩

private theorem Separated.names_assignless {names : List String}
    (h : Separated ',' ReservedName ls names) : Assignless ls ∧ ls ≠ [] := by
  obtain ⟨l, tail, rfl, -⟩ := h.begins fun _ _ item => item.begins
  refine ⟨h.forall_mem (fun ms name item => ?_) fun _ mark =>
    Parser.isSymbol_of_ne mark (by decide), by simp⟩
  cases item with
  | mk sort => rcases sort with sort | sort <;> simp [Token.isSymbol, sort]

theorem ReservedClause.assignsThird {c : Reserved} (h : ReservedClause ls c) (rest : List Lexeme) :
    assignsThird (ls ++ rest) = false := by
  cases h with
  | numbers word listed ends =>
    obtain ⟨hitems, hne⟩ := listed.ranges_assignless
    rw [List.cons_append, List.append_assoc]
    exact assignsThird_of_last hitems hne ends (by decide) rest
  | names word listed ends =>
    obtain ⟨hitems, hne⟩ := listed.names_assignless
    rw [List.cons_append, List.append_assoc]
    exact assignsThird_of_last hitems hne ends (by decide) rest

theorem ExtensionsClause.assignsThird {e : Extensions} (h : ExtensionsClause ls e)
    (rest : List Lexeme) : assignsThird (ls ++ rest) = false := by
  cases h with
  | mk word listed dropped ends =>
    obtain ⟨hitems, hne⟩ := listed.ranges_assignless
    rw [List.cons_append, List.append_assoc, List.append_assoc]
    cases dropped with
    | absent => exact assignsThird_of_last hitems hne ends (by decide) rest
    | brackets opens _ _ => exact assignsThird_of_last hitems hne opens (by decide) _

theorem ValueClause.assignsThird {v : EnumValue} (h : ValueClause ls v) (rest : List Lexeme) :
    assignsThird (ls ++ rest) = false := by
  cases h with
  | mk word assigns digits listed ends =>
    obtain ⟨l, tail, rfl, hl⟩ := digits.begins
    exact digits.assignless l (by simp)

theorem ValueClause.firstIs {v : EnumValue} (h : ValueClause ls v) (rest : List Lexeme)
    (word : String) : firstIs (ls ++ rest) word = decide (v.name = word) := by
  cases h with
  | mk identifier _ _ _ _ => simp [Parser.firstIs, Token.isWord, identifier]

end Grammar

namespace Parser

open Grammar

variable {α : Type} {ls rest used : List Lexeme}

theorem firstIs_cons_of_isWord {l : Lexeme} {word : String} (h : l.token.isWord word = true) :
    firstIs (l :: ls) = fun other => decide (word = other) := by
  funext other
  obtain ⟨hkind, htext⟩ : l.token.kind = .identifier ∧ l.token.text = word := by
    simpa [Token.isWord] using h
  simp [firstIs, Token.isWord, hkind, htext]

theorem recognizes_opening (kind : BlockKind) : Recognizes (opening kind) (fun _ => true)
    fun ls h => ∃ name first, BlockHead kind ls name first ∧ h = .opening kind name first where
  sound := by
    intro ls h rest he
    unfold opening at he
    obtain ⟨first, ls₁, hfirst, h₁⟩ := bind_eq_ok_iff.1 he
    obtain ⟨k, rfl, hk, rfl⟩ := keywordAt_eq_ok_iff.1 hfirst
    by_cases hkind : kind = .extend
    · rw [if_pos hkind] at h₁
      obtain ⟨name, ls₂, hname, h₂⟩ := bind_eq_ok_iff.1 h₁
      obtain ⟨_, ls₃, hopen, hdone⟩ := bind_eq_ok_iff.1 h₂
      obtain ⟨rfl, rfl⟩ := pure_eq_ok_iff.1 hdone
      obtain ⟨types, rfl, htypes⟩ := recognizes_typeName.sound hname
      obtain ⟨o, rfl, ho⟩ := discard_symbol_eq_ok_iff.1 hopen
      subst hkind
      exact ⟨k :: (types ++ [o]), by simp, _, _, .mk hk (.extended htypes) ho, rfl⟩
    · rw [if_neg hkind] at h₁
      obtain ⟨name, ls₂, hname, h₂⟩ := bind_eq_ok_iff.1 h₁
      obtain ⟨_, ls₃, hopen, hdone⟩ := bind_eq_ok_iff.1 h₂
      obtain ⟨rfl, rfl⟩ := pure_eq_ok_iff.1 hdone
      obtain ⟨l, rfl, hl, rfl⟩ := identifier_eq_ok_iff.1 hname
      obtain ⟨o, rfl, ho⟩ := discard_symbol_eq_ok_iff.1 hopen
      exact ⟨k :: ([l] ++ [o]), rfl, _, _, .mk hk (.word hkind hl) ho, rfl⟩
  complete := by
    rintro used h rest ⟨name, first, derived, rfl⟩ -
    unfold opening
    cases derived with
    | @mk _ opening ls _ word named opens =>
      rw [List.cons_append, List.append_assoc]
      refine bind_eq_ok_iff.2 ⟨_, _, keywordAt_eq_ok_iff.2 ⟨_, rfl, word, rfl⟩, ?_⟩
      cases named with
      | word names word =>
        rw [if_neg names]
        refine bind_eq_ok_iff.2 ⟨_, _, identifier_eq_ok_iff.2 ⟨_, rfl, word, rfl⟩, ?_⟩
        refine bind_eq_ok_iff.2 ⟨(), _, discard_symbol_eq_ok_iff.2 ⟨_, rfl, opens⟩, ?_⟩
        exact pure_eq_ok_iff.2 ⟨rfl, rfl⟩
      | extended typed =>
        have htype := recognizes_typeName.before typed (endsName_of_isSymbol opens (by decide)) rest
        rw [if_pos rfl]
        refine bind_eq_ok_iff.2 ⟨_, _, htype, ?_⟩
        refine bind_eq_ok_iff.2 ⟨(), _, discard_symbol_eq_ok_iff.2 ⟨_, rfl, opens⟩, ?_⟩
        exact pure_eq_ok_iff.2 ⟨rfl, rfl⟩

/-! ### What is found is derived -/

private def Finds (scope : Scope) (ls : List Lexeme) (p : Parser Header) : Prop :=
  ∀ hd rest, p ls = .ok (hd, rest) → ∃ used, ls = used ++ rest ∧ Heading scope used hd

variable {scope : Scope}

private theorem Finds.statement {p : Parser α} {rule : List Lexeme → α → Prop}
    (h : Recognizes p (fun _ => true) rule) {wrap : α → Declaration}
    (may : ∀ used rest a, ls = used ++ rest → rule used a → Statement scope used (wrap a)) :
    Finds scope ls (p >>= fun a => pure (.statement (wrap a))) := by
  intro hd rest he
  obtain ⟨a, mid, ha, hdone⟩ := bind_eq_ok_iff.1 he
  obtain ⟨rfl, rfl⟩ := pure_eq_ok_iff.1 hdone
  obtain ⟨used, hls, hused⟩ := h.sound ha
  exact ⟨used, hls, .statement (may used mid a hls hused)⟩

private theorem Finds.opening {kind : BlockKind} (listed : kind ∈ blocks scope) :
    Finds scope ls (Parser.opening kind) := by
  intro hd rest he
  obtain ⟨used, hls, name, first, head, rfl⟩ := (recognizes_opening kind).sound he
  exact ⟨used, hls, .opening listed head⟩

private theorem Finds.choose {c : Bool} {p q : Parser Header} (hp : c = true → Finds scope ls p)
    (hq : c = false → Finds scope ls q) : Finds scope ls (if c = true then p else q) := by
  cases c with
  | true => exact hp rfl
  | false => exact hq rfl

private theorem Finds.version (word : (firstIs ls "syntax" || firstIs ls "edition") = true) :
    Finds .file ls (languageVersion >>= fun v => pure (.statement (.version v))) := by
  intro hd rest he
  obtain ⟨v, mid, hv, hdone⟩ := bind_eq_ok_iff.1 he
  obtain ⟨rfl, rfl⟩ := pure_eq_ok_iff.1 hdone
  obtain ⟨used, rfl, hused⟩ := versionClause_of_languageVersion word hv
  exact ⟨used, rfl, .statement (.version hused)⟩

private theorem Finds.option (listed : scope ≠ .body .extend) :
    Finds scope ls (Parser.option >>= fun o => pure (.statement (.option o))) :=
  .statement recognizes_option fun _ _ _ _ clause => .option listed clause

private theorem Finds.messageField (no_option : firstIs ls "option" = false)
    (as_type : assignsThird ls = true ∨ ∀ word ∈ bodyWords, firstIs ls word = false) :
    Finds (.body .message) ls (field >>= fun f => pure (.statement (.field f))) := by
  refine .statement recognizes_field fun used rest f hls clause => ?_
  subst hls
  rw [assignsThird_append clause.long] at as_type
  obtain ⟨first, tail, rfl⟩ : ∃ first tail, used = first :: tail := by
    cases clause <;> exact ⟨_, _, rfl⟩
  exact .messageField no_option as_type clause

private theorem Finds.oneofField (no_option : firstIs ls "option" = false) :
    Finds (.body .oneof) ls (field >>= fun f => pure (.statement (.field f))) := by
  refine .statement recognizes_field fun used rest f hls clause => ?_
  subst hls
  obtain ⟨first, tail, rfl⟩ : ∃ first tail, used = first :: tail := by
    cases clause <;> exact ⟨_, _, rfl⟩
  exact .oneofField no_option clause

private theorem Finds.enumValue (no_option : firstIs ls "option" = false)
    (no_reserved : (!assignsThird ls && firstIs ls "reserved") = false) :
    Finds (.body .enumeration) ls (Parser.enumValue >>= fun v => pure (.statement (.enumValue v))) := by
  refine .statement recognizes_enumValue fun used rest v hls clause => ?_
  subst hls
  rw [clause.assignsThird, clause.firstIs] at no_reserved
  rw [clause.firstIs] at no_option
  exact .enumValue (by simpa using no_option) (by simpa using no_reserved) clause

private theorem finds_chosen (scope : Scope) (angled : Bool) :
    Finds scope ls (chosen (firstIs ls) (assignsThird ls) angled scope) := by
  cases scope with
  | file =>
    exact .choose .version fun _ =>
      .choose (fun _ => .statement recognizes_package fun _ _ _ _ => .package) fun _ =>
      .choose (fun _ => .statement recognizes_imported fun _ _ _ _ => .imported) fun _ =>
      .choose (fun _ => .option (by decide)) fun _ =>
      .choose (fun _ => .opening (by decide)) fun _ =>
      .choose (fun _ => .opening (by decide)) fun _ =>
      .choose (fun _ => .opening (by decide)) fun _ =>
      .choose (fun _ => .opening (by decide)) fun _ hd rest he => by
        cases ls <;> simp [refuse] at he
  | body kind =>
    cases kind with
    | message =>
      refine .choose (fun _ => .option (by decide)) fun no_option =>
        .choose (fun _ => .opening (by decide)) fun no_message =>
        .choose (fun _ => .opening (by decide)) fun no_enum =>
        .choose (fun _ => .opening (by decide)) fun no_oneof =>
        .choose (fun _ => .opening (by decide)) fun no_extend =>
        .choose (fun _ => .statement recognizes_reserved fun _ _ _ _ => .reserved (.inl rfl))
          fun no_reserved =>
        .choose (fun _ => .statement recognizes_extensions fun _ _ _ _ => .extensions)
          fun no_extensions =>
        .choose (fun _ => .statement recognizes_mapField fun _ _ _ _ => .mapField) fun _ =>
        .messageField no_option ?_
      -- A field is what is left: its first word is none of the others, or is its type.
      cases hthird : assignsThird ls with
      | true => exact .inl rfl
      | false =>
        have plain : ∀ {word}, (!assignsThird ls && firstIs ls word) = false →
            firstIs ls word = false := by
          simp [hthird]
        exact .inr (by simp [bodyWords, plain no_message, plain no_enum, plain no_oneof,
          plain no_extend, plain no_reserved, plain no_extensions])
    | oneof => exact .choose (fun _ => .option (by decide)) .oneofField
    | enumeration =>
      exact .choose (fun _ => .option (by decide)) fun no_option =>
        .choose (fun _ => .statement recognizes_reserved fun _ _ _ _ => .reserved (.inr rfl))
          (.enumValue no_option)
    | service =>
      exact .choose (fun _ => .option (by decide)) fun _ =>
        .statement recognizes_rpc fun _ _ _ _ => .rpc
    | extend => exact .statement recognizes_field fun _ _ _ _ => .extendField

/-! ### What is derived is found -/

private theorem statement_of {p : Parser α} {rule : List Lexeme → α → Prop}
    (h : Recognizes p (fun _ => true) rule) {a : α} (derived : rule used a)
    (wrap : α → Declaration) (rest : List Lexeme) :
    (p >>= fun a => pure (Header.statement (wrap a))) (used ++ rest) =
      .ok (.statement (wrap a), rest) :=
  bind_eq_ok_iff.2 ⟨a, rest, h.complete derived (ahead_true rest), pure_eq_ok_iff.2 ⟨rfl, rfl⟩⟩

private theorem header_of_word {word : String} {hd : Header} (begins : BeginsWith word used)
    (he : chosen (fun other => decide (word = other)) (assignsThird (used ++ rest))
      (((used ++ rest)[1]?).any (·.token.isSymbol '<')) scope (used ++ rest) = .ok (hd, rest)) :
    header scope (used ++ rest) = .ok (hd, rest) := by
  obtain ⟨first, tail, rfl, hfirst⟩ := begins
  rw [header_eq]
  rw [← firstIs_cons_of_isWord hfirst] at he
  exact he

private theorem chosen_messageField (word : String → Bool) (assigned angled : Bool)
    (no_option : word "option" = false) (no_map : angled = false)
    (as_type : assigned = true ∨ ∀ w ∈ bodyWords, word w = false) :
    chosen word assigned angled (.body .message) =
      field >>= fun f => pure (.statement (.field f)) := by
  have plain : ∀ w ∈ bodyWords, (!assigned && word w) = false := by
    intro w hw
    rcases as_type with h | h
    · rw [h]
      rfl
    · rw [h w hw, Bool.and_false]
  simp only [bodyWords, List.forall_mem_cons] at plain
  obtain ⟨no_message, no_enum, no_oneof, no_extend, no_reserved, no_extensions, -⟩ := plain
  simp only [chosen, no_option, no_map, no_message, no_enum, no_oneof, no_extend, no_reserved,
    no_extensions, Bool.and_false, Bool.false_eq_true, if_false]

private theorem header_of_statement {d : Declaration} (h : Statement scope used d)
    (rest : List Lexeme) : header scope (used ++ rest) = .ok (.statement d, rest) := by
  cases h with
  | @version _ v clause =>
    have hv : (languageVersion >>= fun v => pure (Header.statement (.version v))) (used ++ rest) =
        .ok (.statement (.version v), rest) :=
      bind_eq_ok_iff.2
        ⟨v, rest, languageVersion_of_versionClause clause, pure_eq_ok_iff.2 ⟨rfl, rfl⟩⟩
    rcases clause.begins with begins | begins
    · exact header_of_word begins (by simpa [chosen] using hv)
    · exact header_of_word begins (by simpa [chosen] using hv)
  | package clause =>
    have hp := statement_of recognizes_package clause .package rest
    exact header_of_word clause.begins (by simpa [chosen] using hp)
  | imported clause =>
    have hi := statement_of recognizes_imported clause .imported rest
    exact header_of_word clause.begins (by simpa [chosen] using hi)
  | option listed clause =>
    have ho := statement_of recognizes_option clause .option rest
    refine header_of_word clause.begins ?_
    cases scope with
    | file => simpa [chosen] using ho
    | body kind => cases kind <;> simp_all [chosen]
  | reserved listed clause =>
    have hc := statement_of recognizes_reserved clause .reserved rest
    have hthird := clause.assignsThird rest
    refine header_of_word clause.begins ?_
    rcases listed with rfl | rfl
    · simpa [chosen, hthird] using hc
    · simpa [chosen, hthird] using hc
  | extensions clause =>
    have he := statement_of recognizes_extensions clause .extensions rest
    exact header_of_word clause.begins (by simpa [chosen, clause.assignsThird rest] using he)
  | mapField clause =>
    have hf := statement_of recognizes_mapField clause .mapField rest
    have hangle : ((used ++ rest)[1]?).any (·.token.isSymbol '<') = true := by
      cases clause with
      | mk _ opens _ _ _ _ _ => exact opens
    exact header_of_word clause.begins (by simpa [chosen, hangle] using hf)
  | @messageField first tail f no_option as_type clause =>
    have hchosen := chosen_messageField (firstIs (first :: tail ++ rest)) _ _ no_option
      (clause.not_angled rest) (as_type.imp_left (assignsThird_append clause.long rest).trans)
    rw [header_eq]
    exact (congrFun hchosen _).trans (statement_of recognizes_field clause .field rest)
  | @oneofField first tail f no_option clause =>
    have hword : firstIs (first :: tail ++ rest) "option" = false := no_option
    rw [header_eq]
    simp only [chosen, hword, Bool.false_eq_true, if_false]
    exact statement_of recognizes_field clause .field rest
  | extendField clause =>
    rw [header_eq]
    exact statement_of recognizes_field clause .field rest
  | enumValue no_option no_reserved clause =>
    have hv := statement_of recognizes_enumValue clause .enumValue rest
    rw [header_eq]
    simpa [chosen, clause.firstIs, no_option, no_reserved] using hv
  | rpc clause =>
    have hc := statement_of recognizes_rpc clause .rpc rest
    exact header_of_word clause.begins (by simpa [chosen] using hc)

private theorem header_of_opening {kind : BlockKind} {name : String} {first : Position}
    (listed : kind ∈ blocks scope) (head : BlockHead kind used name first) (rest : List Lexeme) :
    header scope (used ++ rest) = .ok (.opening kind name first, rest) := by
  have ho : opening kind (used ++ rest) = .ok (.opening kind name first, rest) :=
    (recognizes_opening kind).complete ⟨name, first, head, rfl⟩ (ahead_true rest)
  have hthird := head.assignsThird rest
  refine header_of_word head.begins ?_
  cases scope with
  | file => cases kind <;> simp_all [chosen, blocks, blockWord]
  | body outer => cases outer <;> cases kind <;> simp_all [chosen, blocks, blockWord]

/-- The statement or block that stands ahead is the one that the grammar derives. -/
theorem recognizes_header (scope : Scope) :
    Recognizes (header scope) (fun _ => true) (Heading scope) where
  sound := by
    intro ls hd rest he
    rw [header_eq] at he
    exact finds_chosen scope _ hd rest he
  complete := by
    intro used hd rest derived _
    cases derived with
    | statement first => exact header_of_statement first rest
    | opening listed head => exact header_of_opening listed head rest

end Parser

end SchemaLint
