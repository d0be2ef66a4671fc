import SchemaLint.Proofs.Parse.Named

/-!
# Headers under a renaming

Which statement or block stands ahead is told by the first three lexemes.  A renaming leaves them
alike, so that the renamed lexemes are read by the same parser.
-/

set_option autoImplicit false
set_option relaxedAutoImplicit false

namespace SchemaLint

open SchemaLint.Parser (Header)

def Renaming.header (r : Renaming) (d : Declaration) : Header → Header
  | .statement d => .statement (r.declaration d)
  | .opening kind name first => .opening kind (r.rewrite d name) (r.place first)

namespace Parser

open Piece (flat allRenamed)

inductive Heads : Header → Declaration → Prop
  | statement (d : Declaration) : Heads (.statement d) d
  | opening (kind : BlockKind) (name : String) (body : List Declaration) (first last : Position) :
      Heads (.opening kind name first) (.block kind name body ⟨first, last⟩)

def Header.named (d : Declaration) : Header → List Declaration
  | .statement d => d.preorder.filter Declaration.isNamed
  | .opening _ _ _ => [d].filter Declaration.isNamed

/-- What a parser took for a header, cut into pieces that it takes again when they are renamed. -/
structure HeaderRereading (p : Parser Header) (h : Header) (d : Declaration) (ps : List Piece) :
    Prop where
  unfolds : Unfolds (h.named d) ps
  long : 3 ≤ (flat ps).length
  again : ∀ (r : Renaming) (rest : List Lexeme),
    p (allRenamed r ps ++ rest) = .ok (r.header d h, rest)

def LeadsPlain (ps : List Piece) : Prop :=
  ∃ l qs, ps = .plain l :: qs

def HeaderRereads (begins : List Piece → Prop) (p : Parser Header) : Prop :=
  ∀ ls h rest d, p ls = .ok (h, rest) → Heads h d →
    ∃ ps, ls = flat ps ++ rest ∧ HeaderRereading p h d ps ∧ begins ps

variable {α : Type} {ls rest : List Lexeme}

theorem Rereads.header {p : Parser α} {wrap : α → Declaration} (rereads : Rereads p wrap)
    (begins : List Piece → Prop)
    (enough : ∀ a ps, LeadsPlain ps ∨ (∃ v, wrap a = .enumValue v) → begins ps) :
    HeaderRereads begins (p >>= fun a => pure (.statement (wrap a))) := by
  intro ls h rest d he heads
  obtain ⟨a, mid, ha, hdone⟩ := bind_eq_ok_iff.1 he
  obtain ⟨rfl, rfl⟩ := pure_eq_ok_iff.1 hdone
  obtain ⟨ps, rfl, hread⟩ := rereads ls a mid ha
  refine ⟨ps, rfl, ⟨hread.unfolds, hread.long, fun r rest => ?_⟩, enough a ps hread.leads⟩
  obtain ⟨a', ha', hwrap⟩ := hread.again r rest
  refine bind_eq_ok_iff.2 ⟨a', rest, ha', pure_eq_ok_iff.2 ⟨?_, rfl⟩⟩
  rw [hwrap]
  rfl

theorem headerRereads_refuse (begins : List Piece → Prop) (what : String) :
    HeaderRereads begins (refuse what) := by
  intro ls h rest d he
  cases ls <;> simp [refuse] at he

private theorem headerRereads_extend : HeaderRereads LeadsPlain (opening .extend) := by
  intro ls h rest d he heads
  unfold opening at he
  obtain ⟨first, ls₁, hfirst, h₁⟩ := bind_eq_ok_iff.1 he
  rw [if_pos rfl] at h₁
  obtain ⟨name, ls₂, hname, h₂⟩ := bind_eq_ok_iff.1 h₁
  obtain ⟨_, ls₃, hopen, hdone⟩ := bind_eq_ok_iff.1 h₂
  obtain ⟨rfl, rfl⟩ := pure_eq_ok_iff.1 hdone
  obtain ⟨k, rfl, hk, rfl⟩ := keywordAt_eq_ok_iff.1 hfirst
  obtain ⟨used, rfl, hread⟩ := isLocal_typeName _ _ _ hname
  have hsome := List.length_pos_iff.2 (IsLocal.ne_nil progresses_typeName hname)
  obtain ⟨o, rfl, ho⟩ := discard_symbol_eq_ok_iff.1 hopen
  cases heads with
  | opening _ _ body _ last =>
    refine ⟨(k :: (used ++ [o])).map .plain, by simp, ⟨?_, by simp; omega, fun r rest => ?_⟩,
      ⟨k, (used ++ [o]).map .plain, rfl⟩⟩
    · refine .plain fun l hl => ?_
      rw [← List.cons_append, List.getLast?_concat] at hl
      obtain rfl : o = l := Option.some.inj hl
      simp [SourceText.endsStatement, ho]
    · rw [Piece.allRenamed_map_plain]
      simp only [List.map_append, List.map_cons, List.map_nil, List.append_assoc,
        List.cons_append, List.nil_append]
      have hends := endsName_of_isSymbol ho (by decide)
      unfold opening
      refine bind_eq_ok_iff.2 ⟨_, _, keywordAt_eq_ok_iff.2 ⟨_, rfl, hk, rfl⟩, ?_⟩
      rw [if_pos rfl]
      refine bind_eq_ok_iff.2 ⟨_, _, hread r.place _ ((ahead_cons _ _ _).2 hends), ?_⟩
      refine bind_eq_ok_iff.2 ⟨(), _, discard_symbol_eq_ok_iff.2 ⟨_, rfl, ho⟩, ?_⟩
      refine pure_eq_ok_iff.2 ⟨?_, rfl⟩
      rw [Renaming.header, r.extended]
      rfl

theorem headerRereads_opening (kind : BlockKind) : HeaderRereads LeadsPlain (opening kind) := by
  by_cases hkind : kind = .extend
  · rw [hkind]
    exact headerRereads_extend
  intro ls h rest d he heads
  unfold opening at he
  obtain ⟨first, ls₁, hfirst, h₁⟩ := bind_eq_ok_iff.1 he
  rw [if_neg hkind] at h₁
  obtain ⟨name, ls₂, hname, h₂⟩ := bind_eq_ok_iff.1 h₁
  obtain ⟨_, ls₃, hopen, hdone⟩ := bind_eq_ok_iff.1 h₂
  obtain ⟨rfl, rfl⟩ := pure_eq_ok_iff.1 hdone
  obtain ⟨k, rfl, hk, rfl⟩ := keywordAt_eq_ok_iff.1 hfirst
  obtain ⟨l, rfl, hl, rfl⟩ := identifier_eq_ok_iff.1 hname
  obtain ⟨o, rfl, ho⟩ := discard_symbol_eq_ok_iff.1 hopen
  cases heads with
  | opening _ _ body _ last =>
    have hin : Introduced (.block kind l.token.text body ⟨k.token.position, last⟩) [k] [l]
        ([] ++ [o]) :=
      ⟨.keyword (if_neg hkind) hk, ⟨[l.token.text], .last hl, by
        simp [Declaration.name?, hkind]⟩, rfl⟩
    refine ⟨[k].map .plain ++ .name (.block kind l.token.text body ⟨k.token.position, last⟩) [l] ::
      ([] ++ [o]).map .plain, rfl, ⟨?_, by simp, fun r rest => ?_⟩, ⟨k, _, rfl⟩⟩
    · have hnamed : (Header.opening kind l.token.text k.token.position).named
          (.block kind l.token.text body ⟨k.token.position, last⟩) =
          [.block kind l.token.text body ⟨k.token.position, last⟩] := by
        rw [Header.named, List.filter_cons_of_pos hin.isNamed, List.filter_nil]
      rw [hnamed]
      exact .name hin (by simp [SourceText.endsStatement, ho])
    · unfold opening
      refine bind_eq_ok_iff.2 ⟨_, _, keywordAt_eq_ok_iff.2 ⟨_, rfl, hk, rfl⟩, ?_⟩
      rw [if_neg hkind]
      refine bind_eq_ok_iff.2 ⟨_, _, identifier_eq_ok_iff.2 ⟨_, rfl, by simpa using hl, rfl⟩, ?_⟩
      refine bind_eq_ok_iff.2 ⟨(), _, discard_symbol_eq_ok_iff.2 ⟨_, rfl, ho⟩, ?_⟩
      refine pure_eq_ok_iff.2 ⟨?_, rfl⟩
      rw [Lexeme.text_move_reword hl]
      rfl

def chosen (word : String → Bool) (assigned angled : Bool) : Scope → Parser Header
  | .file =>
    if word "syntax" || word "edition" then languageVersion >>= fun v => pure (.statement (.version v))
    else if word "package" then package >>= fun p => pure (.statement (.package p))
    else if word "import" then imported >>= fun i => pure (.statement (.imported i))
    else if word "option" then option >>= fun o => pure (.statement (.option o))
    else if word "message" then opening .message
    else if word "enum" then opening .enumeration
    else if word "service" then opening .service
    else if word "extend" then opening .extend
    else refuse "top-level declaration"
  | .body .message =>
    if word "option" then option >>= fun o => pure (.statement (.option o))
    else if !assigned && word "message" then opening .message
    else if !assigned && word "enum" then opening .enumeration
    else if !assigned && word "oneof" then opening .oneof
    else if !assigned && word "extend" then opening .extend
    else if !assigned && word "reserved" then reserved >>= fun c => pure (.statement (.reserved c))
    else if !assigned && word "extensions" then
      extensions >>= fun e => pure (.statement (.extensions e))
    else if word "map" && angled then mapField >>= fun f => pure (.statement (.mapField f))
    else field >>= fun f => pure (.statement (.field f))
  | .body .oneof =>
    if word "option" then option >>= fun o => pure (.statement (.option o))
    else field >>= fun f => pure (.statement (.field f))
  | .body .enumeration =>
    if word "option" then option >>= fun o => pure (.statement (.option o))
    else if !assigned && word "reserved" then reserved >>= fun c => pure (.statement (.reserved c))
    else enumValue >>= fun v => pure (.statement (.enumValue v))
  | .body .service =>
    if word "option" then option >>= fun o => pure (.statement (.option o))
    else rpc >>= fun c => pure (.statement (.rpc c))
  | .body .extend => field >>= fun f => pure (.statement (.field f))

def firstIs (ls : List Lexeme) (word : String) : Bool :=
  ls.head?.any (·.token.isWord word)

private theorem sees_bind (test : Token → Bool) (f : Bool → Parser α) (ls : List Lexeme) :
    (sees test >>= f) ls = f (ls.head?.any (test ·.token)) ls :=
  bind_of_eq_ok (sees_apply test ls) f

private theorem look_bind (ahead : Nat) (f : Option Token → Parser α) (ls : List Lexeme) :
    (look ahead >>= f) ls = f ((ls[ahead]?).map Lexeme.token) ls :=
  bind_of_eq_ok (look_apply ahead ls) f

private theorem any_map_token (l : Option Lexeme) (test : Token → Bool) :
    (l.map Lexeme.token).any test = l.any (test ·.token) := by
  cases l <;> rfl

private theorem atKeyword_bind (word : String) (f : Bool → Parser α) (ls : List Lexeme) :
    (atKeyword word >>= f) ls =
      f (!(ls[2]?).any (·.token.isSymbol '=') && firstIs ls word) ls := by
  have happly : atKeyword word ls =
      .ok (!(ls[2]?).any (·.token.isSymbol '=') && firstIs ls word, ls) := by
    unfold atKeyword
    rw [look_bind, any_map_token]
    split
    · rename_i h
      rw [h]
      rfl
    · rename_i h
      rw [sees_apply, Bool.eq_false_iff.2 h]
      rfl
  exact bind_of_eq_ok happly f

private theorem parser_ite (c : Prop) [Decidable c] (p q : Parser α) (ls : List Lexeme) :
    (if c then p else q) ls = if c then p ls else q ls := by
  split <;> rfl

private theorem any_isWord_or (ls : List Lexeme) (v w : String) :
    ls.head?.any (fun l => l.token.isWord v || l.token.isWord w) =
      (firstIs ls v || firstIs ls w) := by
  cases ls <;> rfl

theorem header_eq (scope : Scope) (ls : List Lexeme) :
    header scope ls = chosen (firstIs ls) ((ls[2]?).any (·.token.isSymbol '='))
      ((ls[1]?).any (·.token.isSymbol '<')) scope ls := by
  cases scope with
  | file =>
    simp only [header, fileHeader, chosen, sees_bind, parser_ite, any_isWord_or]
    rfl
  | body kind =>
    cases kind with
    | message =>
      simp only [header, messageHeader, chosen, sees_bind, atKeyword_bind, look_bind, parser_ite,
        any_map_token]
      rfl
    | oneof =>
      simp only [header, chosen, sees_bind, parser_ite]
      rfl
    | enumeration =>
      simp only [header, chosen, sees_bind, atKeyword_bind, parser_ite]
      rfl
    | service =>
      simp only [header, chosen, sees_bind, parser_ite]
      rfl
    | extend => rfl

private def valueAhead (word : String → Bool) (assigned : Bool) (scope : Scope) : Bool :=
  scope = .body .enumeration && !word "option" && !(!assigned && word "reserved")

private theorem headerRereads_chosen (word : String → Bool) (assigned angled : Bool)
    (scope : Scope) (other : valueAhead word assigned scope = false) :
    HeaderRereads LeadsPlain (chosen word assigned angled scope) := by
  have statement : ∀ {α : Type} {p : Parser α} {wrap : α → Declaration}, Rereads p wrap →
      (∀ a v, wrap a ≠ .enumValue v) →
        HeaderRereads LeadsPlain (p >>= fun a => pure (.statement (wrap a))) := by
    intro α p wrap hp hother
    exact hp.header LeadsPlain fun a ps h => h.resolve_right fun ⟨v, hv⟩ => hother a v hv
  have version := statement rereads_languageVersion nofun
  have package := statement rereads_package nofun
  have imported := statement rereads_imported nofun
  have option := statement rereads_option nofun
  have reserved := statement rereads_reserved nofun
  have extensions := statement rereads_extensions nofun
  have mapField := statement rereads_mapField nofun
  have field := statement rereads_field nofun
  have rpc := statement rereads_rpc nofun
  have opens := headerRereads_opening
  have choose : ∀ {c : Bool} {p q : Parser Header}, HeaderRereads LeadsPlain p →
      HeaderRereads LeadsPlain q → HeaderRereads LeadsPlain (if c = true then p else q) := by
    intro c p q hp hq
    split
    · exact hp
    · exact hq
  cases scope with
  | file =>
    exact choose version (choose package (choose imported (choose option (choose (opens _)
      (choose (opens _) (choose (opens _) (choose (opens _) (headerRereads_refuse _ _))))))))
  | body kind =>
    cases kind with
    | message =>
      exact choose option (choose (opens _) (choose (opens _) (choose (opens _) (choose (opens _)
        (choose reserved (choose extensions (choose mapField field)))))))
    | oneof => exact choose option field
    | enumeration =>
      simp only [chosen]
      by_cases hoption : word "option" = true
      · rw [if_pos hoption]
        exact option
      · by_cases hreserved : (!assigned && word "reserved") = true
        · rw [if_neg hoption, if_pos hreserved]
          exact reserved
        · simp [valueAhead, hoption, hreserved] at other
    | service => exact choose option rpc
    | extend => exact field

private theorem firstIs_of_leadsPlain {ps : List Piece} (h : LeadsPlain ps) (r : Renaming)
    (rest rest' : List Lexeme) :
    firstIs (allRenamed r ps ++ rest') = firstIs (flat ps ++ rest) := by
  obtain ⟨l, qs, rfl⟩ := h
  rfl

private theorem firstIs_of_unfolds {named : List Declaration} {ps : List Piece}
    (h : Unfolds named ps) (nonempty : ps ≠ []) (r : Renaming) {word : String}
    (keyword : word = "option" ∨ word = "reserved") {rest : List Lexeme}
    (old : firstIs (flat ps ++ rest) word = false) (rest' : List Lexeme) :
    firstIs (allRenamed r ps ++ rest') word = false := by
  obtain ⟨p, qs, rfl⟩ := List.exists_cons_of_ne_nil nonempty
  cases p with
  | plain l => exact old
  | name d run =>
    obtain ⟨lead, before, hlead, hin, -⟩ := h.introduced [] d run qs rfl
    obtain ⟨-, hbefore⟩ : lead = [] ∧ before = [] := by simpa using hlead.symm
    obtain ⟨v, l, rfl, rfl⟩ := hin.place.eq_enumValue hbefore
    obtain ⟨names, hrun, hname⟩ := hin.spells
    cases hrun with
    | last hl =>
      have hv : v.name = l.token.text := by simpa [Declaration.name?] using hname
      have hne : v.name ≠ word := by
        rw [hv]
        simpa [firstIs, Token.isWord, hl] using old
      have hnew := r.valued v word keyword hne
      rw [hv] at hnew
      have hfirst : firstIs (allRenamed r (.name (.enumValue v) [l] :: qs) ++ rest') word =
          (((l.reword (r.rewrite (.enumValue v))).move r.place).token.isWord word) := rfl
      rw [hfirst, Token.isWord, Lexeme.text_move_reword hl]
      simp [hnew]

theorem headerRereads (scope : Scope) : HeaderRereads (fun _ => True) (header scope) := by
  intro ls h rest d he heads
  rw [header_eq] at he
  by_cases hvalue : valueAhead (firstIs ls) ((ls[2]?).any (·.token.isSymbol '=')) scope = true
  · obtain ⟨⟨rfl, hoption⟩, hreserved⟩ : (scope = .body .enumeration ∧
        firstIs ls "option" = false) ∧
        ((ls[2]?).any (·.token.isSymbol '=') = true ∨ firstIs ls "reserved" = false) := by
      simpa [valueAhead] using hvalue
    have hvalues := rereads_enumValue.header (fun _ => True) fun _ _ _ => trivial
    have hchosen : ∀ word assigned angled, word "option" = false →
        (assigned = true ∨ word "reserved" = false) →
          chosen word assigned angled (.body .enumeration) =
            enumValue >>= fun v => pure (.statement (.enumValue v)) := by
      intro word assigned angled ho hr
      have hr : (!assigned && word "reserved") = false := by
        rcases hr with h | h <;> simp [h]
      simp only [chosen, ho, hr]
      rfl
    rw [hchosen _ _ _ hoption hreserved] at he
    obtain ⟨ps, rfl, hread, -⟩ := hvalues ls h rest d he heads
    have hlong := hread.long
    have hnonempty : ps ≠ [] := by
      rintro rfl
      simp at hlong
    refine ⟨ps, rfl, ⟨hread.unfolds, hread.long, fun r rest' => ?_⟩, trivial⟩
    rw [header_eq, hchosen]
    · exact hread.again r rest'
    · exact firstIs_of_unfolds hread.unfolds hnonempty r (.inl rfl) hoption rest'
    · rw [Piece.any_isSymbol_allRenamed r (by omega) '=' rest rest']
      exact hreserved.imp_right fun old =>
        firstIs_of_unfolds hread.unfolds hnonempty r (.inr rfl) old rest'
  · obtain ⟨ps, rfl, hread, hleads⟩ :=
      headerRereads_chosen _ _ _ scope (Bool.eq_false_iff.2 hvalue) ls h rest d he heads
    refine ⟨ps, rfl, ⟨hread.unfolds, hread.long, fun r rest' => ?_⟩, trivial⟩
    have hlong := hread.long
    rw [header_eq, firstIs_of_leadsPlain hleads r rest rest',
      Piece.any_isSymbol_allRenamed r (by omega) '=' rest rest',
      Piece.any_isSymbol_allRenamed r (by omega) '<' rest rest']
    exact hread.again r rest'

end Parser

end SchemaLint
