import SchemaLint.Proofs.Parse.Piece

/-!
# Statements under a renaming

The lexemes of a statement fall into pieces, and the renamed pieces are read as the renamed
statement, whatever follows them.
-/

set_option autoImplicit false
set_option relaxedAutoImplicit false

namespace SchemaLint.Parser

open Piece (flat allRenamed)

variable {α : Type} {ls rest : List Lexeme} {p : Position}

theorem discard_symbol_eq_ok_iff {c : Char} {u : Unit} :
    (discard (symbol c) : Parser Unit) ls = .ok (u, rest) ↔
      ∃ l, ls = l :: rest ∧ l.token.isSymbol c = true := by
  rw [discard_eq_ok_iff]
  constructor
  · rintro ⟨t, ht⟩
    obtain ⟨l, rfl, hl, rfl⟩ := satisfy_eq_ok_iff.1 ht
    exact ⟨l, rfl, hl⟩
  · rintro ⟨l, rfl, hl⟩
    exact ⟨l.token, satisfy_eq_ok_iff.2 ⟨l, rfl, hl, rfl⟩⟩

theorem discard_keyword_eq_ok_iff {word : String} {u : Unit} :
    (discard (keyword word) : Parser Unit) ls = .ok (u, rest) ↔
      ∃ l, ls = l :: rest ∧ l.token.isWord word = true := by
  rw [discard_eq_ok_iff]
  constructor
  · rintro ⟨t, ht⟩
    obtain ⟨l, rfl, hl, rfl⟩ := satisfy_eq_ok_iff.1 ht
    exact ⟨l, rfl, hl⟩
  · rintro ⟨l, rfl, hl⟩
    exact ⟨l.token, satisfy_eq_ok_iff.2 ⟨l, rfl, hl, rfl⟩⟩

theorem symbolAt_eq_ok_iff {c : Char} :
    symbolAt c ls = .ok (p, rest) ↔
      ∃ l, ls = l :: rest ∧ l.token.isSymbol c = true ∧ l.token.position = p := by
  unfold symbolAt
  rw [map_eq_ok_iff]
  constructor
  · rintro ⟨t, ht, rfl⟩
    obtain ⟨l, rfl, hl, rfl⟩ := satisfy_eq_ok_iff.1 ht
    exact ⟨l, rfl, hl, rfl⟩
  · rintro ⟨l, rfl, hl, rfl⟩
    exact ⟨l.token, satisfy_eq_ok_iff.2 ⟨l, rfl, hl, rfl⟩, rfl⟩

theorem keywordAt_eq_ok_iff {word : String} :
    keywordAt word ls = .ok (p, rest) ↔
      ∃ l, ls = l :: rest ∧ l.token.isWord word = true ∧ l.token.position = p := by
  unfold keywordAt
  rw [map_eq_ok_iff]
  constructor
  · rintro ⟨t, ht, rfl⟩
    obtain ⟨l, rfl, hl, rfl⟩ := satisfy_eq_ok_iff.1 ht
    exact ⟨l, rfl, hl, rfl⟩
  · rintro ⟨l, rfl, hl, rfl⟩
    exact ⟨l.token, satisfy_eq_ok_iff.2 ⟨l, rfl, hl, rfl⟩, rfl⟩

/-- What a parser took for a declaration, cut into pieces that it takes again when they are
renamed. -/
structure Rereading (p : Parser α) (wrap : α → Declaration) (a : α) (ps : List Piece) : Prop where
  unfolds : Unfolds ((wrap a).preorder.filter Declaration.isNamed) ps
  long : 3 ≤ (flat ps).length
  leads : (∃ l qs, ps = .plain l :: qs) ∨ ∃ v, wrap a = .enumValue v
  again : ∀ (r : Renaming) (rest : List Lexeme),
    ∃ a', p (allRenamed r ps ++ rest) = .ok (a', rest) ∧ wrap a' = r.declaration (wrap a)

def Rereads (p : Parser α) (wrap : α → Declaration) : Prop :=
  ∀ ls a rest, p ls = .ok (a, rest) → ∃ ps, ls = flat ps ++ rest ∧ Rereading p wrap a ps

theorem Rereading.plain {p : Parser α} {wrap : α → Declaration} {a : α} {used : List Lexeme}
    {last : Lexeme} (unnamed : (wrap a).preorder.filter Declaration.isNamed = [])
    (closes : SourceText.endsStatement last.token = true) (long : 2 ≤ used.length)
    (again : ∀ (r : Renaming) (rest : List Lexeme),
      ∃ a', p ((used ++ [last]).map (Lexeme.move r.place) ++ rest) = .ok (a', rest) ∧
        wrap a' = r.declaration (wrap a)) :
    Rereading p wrap a ((used ++ [last]).map .plain) where
  unfolds := by
    rw [unnamed]
    refine .plain fun l hl => ?_
    obtain rfl : last = l := by simpa using hl
    exact closes
  long := by
    rw [Piece.flat_map_plain, List.length_append, List.length_singleton]
    omega
  leads := by
    obtain ⟨l, tail, hl⟩ : ∃ l tail, used = l :: tail :=
      List.exists_cons_of_ne_nil (List.ne_nil_of_length_pos (by omega))
    exact .inl ⟨l, (tail ++ [last]).map .plain, by rw [hl, List.cons_append, List.map_cons]⟩
  again := by
    intro r rest
    rw [Piece.allRenamed_map_plain]
    exact again r rest

theorem endsStatement_of_semicolon {t : Token} (h : t.isSymbol ';' = true) :
    SourceText.endsStatement t = true := by
  simp [SourceText.endsStatement, h]

theorem rereads_languageVersion : Rereads languageVersion .version := by
  intro ls v rest h
  unfold languageVersion at h
  obtain ⟨word, ls₁, hword, h₁⟩ := bind_eq_ok_iff.1 h
  obtain ⟨_, ls₂, hequals, h₂⟩ := bind_eq_ok_iff.1 h₁
  obtain ⟨version, ls₃, hversion, h₃⟩ := bind_eq_ok_iff.1 h₂
  obtain ⟨last, ls₄, hlast, hdone⟩ := bind_eq_ok_iff.1 h₃
  obtain ⟨rfl, rfl⟩ := pure_eq_ok_iff.1 hdone
  obtain ⟨w, rfl, -, rfl⟩ := satisfy_eq_ok_iff.1 hword
  obtain ⟨assign, rfl, hassign⟩ := discard_symbol_eq_ok_iff.1 hequals
  obtain ⟨s, rfl, hs, rfl⟩ := satisfy_eq_ok_iff.1 hversion
  obtain ⟨semi, rfl, hsemi, rfl⟩ := symbolAt_eq_ok_iff.1 hlast
  refine ⟨([w, assign, s] ++ [semi]).map .plain, rfl, .plain rfl
    (endsStatement_of_semicolon hsemi) (by simp) fun r rest => ⟨_, ?_, rfl⟩⟩
  unfold languageVersion
  refine bind_eq_ok_iff.2 ⟨_, _, satisfy_eq_ok_iff.2 ⟨_, rfl, rfl, rfl⟩, ?_⟩
  refine bind_eq_ok_iff.2 ⟨(), _, discard_symbol_eq_ok_iff.2 ⟨_, rfl, hassign⟩, ?_⟩
  refine bind_eq_ok_iff.2 ⟨_, _, satisfy_eq_ok_iff.2 ⟨_, rfl, hs, rfl⟩, ?_⟩
  refine bind_eq_ok_iff.2 ⟨_, _, symbolAt_eq_ok_iff.2 ⟨_, rfl, hsemi, rfl⟩, ?_⟩
  exact pure_eq_ok_iff.2 ⟨rfl, rfl⟩

private def isNoModifier (t : Token) : Bool :=
  !t.isWord "weak" && !t.isWord "public"

private theorem isLocal_importModifier : IsLocal importModifier isNoModifier := by
  have publicly : IsLocal (accept (·.isWord "public") >>= fun b =>
      if b = true then pure (some ImportModifier.publicly) else pure none) isNoModifier :=
    ((isLocal_pure _).weaken fun _ _ => rfl).ifAccept (fun _ _ => rfl)
      ((isLocal_pure _).weaken fun _ _ => rfl) (.inr fun t ht => by
        have h : isNoModifier t = true := ht
        simp_all [isNoModifier])
  exact ((isLocal_pure _).weaken fun _ _ => rfl).ifAccept (fun _ _ => rfl) publicly
    (.inr fun t ht => by simp_all [isNoModifier])

theorem rereads_imported : Rereads imported .imported := by
  intro ls i rest h
  unfold imported at h
  obtain ⟨first, ls₁, hfirst, h₁⟩ := bind_eq_ok_iff.1 h
  obtain ⟨modifier, ls₂, hmodifier, h₂⟩ := bind_eq_ok_iff.1 h₁
  obtain ⟨location, ls₃, hlocation, h₃⟩ := bind_eq_ok_iff.1 h₂
  obtain ⟨last, ls₄, hlast, hdone⟩ := bind_eq_ok_iff.1 h₃
  obtain ⟨rfl, rfl⟩ := pure_eq_ok_iff.1 hdone
  obtain ⟨k, rfl, hk, rfl⟩ := keywordAt_eq_ok_iff.1 hfirst
  obtain ⟨s, rfl, hs, rfl⟩ := satisfy_eq_ok_iff.1 hlocation
  obtain ⟨semi, rfl, hsemi, rfl⟩ := symbolAt_eq_ok_iff.1 hlast
  obtain ⟨used, rfl, hread⟩ := isLocal_importModifier _ _ _ hmodifier
  refine ⟨((k :: (used ++ [s])) ++ [semi]).map .plain, by simp, .plain rfl
    (endsStatement_of_semicolon hsemi) (by simp) fun r rest => ⟨_, ?_, rfl⟩⟩
  simp only [List.map_append, List.map_cons, List.map_nil, List.append_assoc, List.cons_append,
    List.nil_append]
  have hstring : s.token.kind = .string := by simpa using hs
  have hnext : Ahead isNoModifier (s.move r.place :: semi.move r.place :: rest) := by
    simp [isNoModifier, Token.isWord, hstring]
  unfold imported
  refine bind_eq_ok_iff.2 ⟨_, _, keywordAt_eq_ok_iff.2 ⟨_, rfl, hk, rfl⟩, ?_⟩
  refine bind_eq_ok_iff.2 ⟨_, _, hread r.place _ hnext, ?_⟩
  refine bind_eq_ok_iff.2 ⟨_, _, satisfy_eq_ok_iff.2 ⟨_, rfl, hs, rfl⟩, ?_⟩
  refine bind_eq_ok_iff.2 ⟨_, _, symbolAt_eq_ok_iff.2 ⟨_, rfl, hsemi, rfl⟩, ?_⟩
  exact pure_eq_ok_iff.2 ⟨rfl, rfl⟩

theorem endsName_of_isSymbol {t : Token} {c : Char} (h : t.isSymbol c = true) (ne : c ≠ '.') :
    endsName t = true := by
  simp [endsName, isSymbol_of_ne h ne]

theorem endsConstant_of_isSymbol {t : Token} {c : Char} (h : t.isSymbol c = true) (ne : c ≠ '.') :
    endsConstant t = true := by
  have hkind : t.kind = .symbol := by simp_all [Token.isSymbol]
  simp [endsConstant, hkind, isSymbol_of_ne h ne]

theorem rereads_option : Rereads option .option := by
  intro ls o rest h
  unfold option at h
  obtain ⟨first, ls₁, hfirst, h₁⟩ := bind_eq_ok_iff.1 h
  obtain ⟨name, ls₂, hname, h₂⟩ := bind_eq_ok_iff.1 h₁
  obtain ⟨_, ls₃, hequals, h₃⟩ := bind_eq_ok_iff.1 h₂
  obtain ⟨value, ls₄, hvalue, h₄⟩ := bind_eq_ok_iff.1 h₃
  obtain ⟨last, ls₅, hlast, hdone⟩ := bind_eq_ok_iff.1 h₄
  obtain ⟨rfl, rfl⟩ := pure_eq_ok_iff.1 hdone
  obtain ⟨k, rfl, hk, rfl⟩ := keywordAt_eq_ok_iff.1 hfirst
  obtain ⟨assign, rfl, hassign⟩ := discard_symbol_eq_ok_iff.1 hequals
  obtain ⟨semi, rfl, hsemi, rfl⟩ := symbolAt_eq_ok_iff.1 hlast
  obtain ⟨names, rfl, hnames⟩ := isLocal_optionName _ _ _ hname
  obtain ⟨values, rfl, hvalues⟩ := isLocal_constant _ _ _ hvalue
  refine ⟨((k :: (names ++ assign :: values)) ++ [semi]).map .plain, by simp, .plain rfl
    (endsStatement_of_semicolon hsemi) (by simp; omega) fun r rest => ⟨_, ?_, rfl⟩⟩
  simp only [List.map_append, List.map_cons, List.map_nil, List.append_assoc, List.cons_append,
    List.nil_append]
  have hname_ends := endsName_of_isSymbol hassign (by decide)
  have hvalue_ends := endsConstant_of_isSymbol hsemi (by decide)
  unfold option
  refine bind_eq_ok_iff.2 ⟨_, _, keywordAt_eq_ok_iff.2 ⟨_, rfl, hk, rfl⟩, ?_⟩
  refine bind_eq_ok_iff.2 ⟨_, _, hnames r.place _ ((ahead_cons _ _ _).2 hname_ends), ?_⟩
  refine bind_eq_ok_iff.2 ⟨(), _, discard_symbol_eq_ok_iff.2 ⟨_, rfl, hassign⟩, ?_⟩
  refine bind_eq_ok_iff.2 ⟨_, _, hvalues r.place _ ((ahead_cons _ _ _).2 hvalue_ends), ?_⟩
  refine bind_eq_ok_iff.2 ⟨_, _, symbolAt_eq_ok_iff.2 ⟨_, rfl, hsemi, rfl⟩, ?_⟩
  exact pure_eq_ok_iff.2 ⟨rfl, rfl⟩

theorem isLocal_reservedItems : IsLocal reservedItems endsRange := by
  have names : IsLocal (separated ',' (Token.unquoted <$> satisfy "reserved name"
      fun t => t.kind = .string || t.kind = .identifier)) endsRange :=
    ((isLocal_map_satisfy _ (fun _ _ => rfl) fun _ _ => rfl).separated fun _ _ => rfl).weaken
      fun t ht => by simp_all [endsRange]
  exact IsLocal.ifSees (fun _ _ => rfl) (names.bind_pure _) (isLocal_ranges.bind_pure _)
    (((progresses_satisfy _ _).map _).separated.bind_pure _)
    (progresses_range.separated.bind_pure _)

theorem progresses_reservedItems : Progresses reservedItems :=
  Progresses.ifSees (((progresses_satisfy _ _).map _).separated.bind_pure _)
    (progresses_range.separated.bind_pure _)

theorem rereads_reserved : Rereads reserved .reserved := by
  intro ls c rest h
  unfold reserved at h
  obtain ⟨first, ls₁, hfirst, h₁⟩ := bind_eq_ok_iff.1 h
  obtain ⟨⟨numbers, names⟩, ls₂, hitems, h₂⟩ := bind_eq_ok_iff.1 h₁
  obtain ⟨last, ls₃, hlast, hdone⟩ := bind_eq_ok_iff.1 h₂
  obtain ⟨rfl, rfl⟩ := pure_eq_ok_iff.1 hdone
  obtain ⟨k, rfl, hk, rfl⟩ := keywordAt_eq_ok_iff.1 hfirst
  obtain ⟨semi, rfl, hsemi, rfl⟩ := symbolAt_eq_ok_iff.1 hlast
  obtain ⟨items, rfl, hread⟩ := isLocal_reservedItems _ _ _ hitems
  have hsome := List.length_pos_iff.2 (IsLocal.ne_nil progresses_reservedItems hitems)
  refine ⟨((k :: items) ++ [semi]).map .plain, by simp, .plain rfl
    (endsStatement_of_semicolon hsemi) (by simp; omega) fun r rest => ⟨_, ?_, rfl⟩⟩
  simp only [List.map_append, List.map_cons, List.map_nil, List.append_assoc, List.cons_append,
    List.nil_append]
  have hends : endsRange semi.token = true := by
    simp [endsRange, isWord_of_isSymbol hsemi, isSymbol_of_ne hsemi]
  unfold reserved
  refine bind_eq_ok_iff.2 ⟨_, _, keywordAt_eq_ok_iff.2 ⟨_, rfl, hk, rfl⟩, ?_⟩
  refine bind_eq_ok_iff.2 ⟨_, _, hread r.place _ ((ahead_cons _ _ _).2 hends), ?_⟩
  refine bind_eq_ok_iff.2 ⟨_, _, symbolAt_eq_ok_iff.2 ⟨_, rfl, hsemi, rfl⟩, ?_⟩
  exact pure_eq_ok_iff.2 ⟨rfl, rfl⟩

theorem rereads_extensions : Rereads extensions .extensions := by
  intro ls e rest h
  unfold extensions at h
  obtain ⟨first, ls₁, hfirst, h₁⟩ := bind_eq_ok_iff.1 h
  obtain ⟨numbers, ls₂, hnumbers, h₂⟩ := bind_eq_ok_iff.1 h₁
  obtain ⟨_, ls₃, hoptions, h₃⟩ := bind_eq_ok_iff.1 h₂
  obtain ⟨last, ls₄, hlast, hdone⟩ := bind_eq_ok_iff.1 h₃
  obtain ⟨rfl, rfl⟩ := pure_eq_ok_iff.1 hdone
  obtain ⟨k, rfl, hk, rfl⟩ := keywordAt_eq_ok_iff.1 hfirst
  obtain ⟨semi, rfl, hsemi, rfl⟩ := symbolAt_eq_ok_iff.1 hlast
  obtain ⟨options, hoptions⟩ := discard_eq_ok_iff.1 hoptions
  obtain ⟨items, rfl, hread⟩ := isLocal_ranges _ _ _ hnumbers
  have hbegins := fieldOptions_begins hoptions
  obtain ⟨used, rfl, hread'⟩ := isLocal_fieldOptions _ _ _ hoptions
  have hsome := List.length_pos_iff.2 (IsLocal.ne_nil progresses_range.separated hnumbers)
  refine ⟨((k :: (items ++ used)) ++ [semi]).map .plain, by simp, .plain rfl
    (endsStatement_of_semicolon hsemi) (by simp; omega) fun r rest => ⟨_, ?_, rfl⟩⟩
  simp only [List.map_append, List.map_cons, List.map_nil, List.append_assoc, List.cons_append,
    List.nil_append]
  have hends : Ahead endsRange (used.map (Lexeme.move r.place) ++ semi.move r.place :: rest) := by
    cases used with
    | nil => simp [endsRange, isWord_of_isSymbol hsemi, isSymbol_of_ne hsemi]
    | cons l used =>
      rcases hbegins with he | ⟨m, tail, he, hm⟩
      · have hlength := congrArg List.length he
        simp only [List.length_append, List.length_cons] at hlength
        omega
      · obtain ⟨rfl, -⟩ := List.cons.inj he
        simp [endsRange, isWord_of_isSymbol hm, isSymbol_of_ne hm]
  have hstops := isSymbol_of_ne hsemi (show ';' ≠ '[' by decide)
  unfold extensions
  refine bind_eq_ok_iff.2 ⟨_, _, keywordAt_eq_ok_iff.2 ⟨_, rfl, hk, rfl⟩, ?_⟩
  refine bind_eq_ok_iff.2 ⟨_, _, hread r.place _ hends, ?_⟩
  refine bind_eq_ok_iff.2 ⟨(), _, discard_eq_ok_iff.2 ⟨_, hread' r.place _ (by simp [hstops])⟩, ?_⟩
  refine bind_eq_ok_iff.2 ⟨_, _, symbolAt_eq_ok_iff.2 ⟨_, rfl, hsemi, rfl⟩, ?_⟩
  exact pure_eq_ok_iff.2 ⟨rfl, rfl⟩

end SchemaLint.Parser
