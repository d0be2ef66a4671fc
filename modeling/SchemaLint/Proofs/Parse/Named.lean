import SchemaLint.Proofs.Parse.Statement

/-!
# Named statements under a renaming

The statements that introduce a name.  Written with another name they are read as the same statement
with that name.
-/

set_option autoImplicit false
set_option relaxedAutoImplicit false

namespace SchemaLint.Parser

open Piece (flat allRenamed)

variable {ls rest : List Lexeme}

theorem Rereading.named {α : Type} {p : Parser α} {wrap : α → Declaration} {a : α}
    {before run after : List Lexeme} {last : Lexeme}
    (introduced : Introduced (wrap a) before run (after ++ [last]))
    (alone : (wrap a).preorder.filter Declaration.isNamed = [wrap a])
    (closes : SourceText.endsStatement last.token = true)
    (long : 2 ≤ before.length + after.length + run.length)
    (again : ∀ (r : Renaming) (rest : List Lexeme), ∃ a',
      p (before.map (Lexeme.move r.place) ++
        (run.map (fun l => (l.reword (r.rewrite (wrap a))).move r.place) ++
          ((after ++ [last]).map (Lexeme.move r.place) ++ rest))) = .ok (a', rest) ∧
        wrap a' = r.declaration (wrap a)) :
    Rereading p wrap a
      (before.map .plain ++ .name (wrap a) run :: (after ++ [last]).map .plain) where
  unfolds := alone ▸ .name introduced closes
  long := by
    simp only [Piece.flat_append, Piece.flat_map_plain, Piece.flat_name, List.length_append,
      List.length_singleton]
    omega
  leads := by
    cases before with
    | nil =>
      obtain ⟨v, -, hv, -⟩ := introduced.place.eq_enumValue rfl
      exact .inr ⟨v, hv⟩
    | cons l before => exact .inl ⟨l, _, rfl⟩
  again := by
    intro r rest
    obtain ⟨a', ha, hw⟩ := again r rest
    refine ⟨a', ?_, hw⟩
    rw [← ha]
    simp only [Piece.allRenamed_append, Piece.allRenamed_map_plain, Piece.allRenamed_name,
      List.append_assoc]

theorem rereads_package : Rereads package .package := by
  intro ls p rest h
  unfold package at h
  obtain ⟨first, ls₁, hfirst, h₁⟩ := bind_eq_ok_iff.1 h
  obtain ⟨name, ls₂, hname, h₂⟩ := bind_eq_ok_iff.1 h₁
  obtain ⟨last, ls₃, hlast, hdone⟩ := bind_eq_ok_iff.1 h₂
  obtain ⟨rfl, rfl⟩ := pure_eq_ok_iff.1 hdone
  obtain ⟨k, rfl, hk, rfl⟩ := keywordAt_eq_ok_iff.1 hfirst
  obtain ⟨run, names, rfl, hrun, rfl⟩ := dotted_of_dottedName hname
  obtain ⟨semi, rfl, hsemi, rfl⟩ := symbolAt_eq_ok_iff.1 hlast
  have hsome := List.length_pos_iff.2 hrun.ne_nil
  refine ⟨[k].map .plain ++ .name (.package ⟨".".intercalate names, _⟩) run ::
    ([] ++ [semi]).map .plain, by simp, .named ⟨.package hk hsemi, ⟨names, hrun, rfl⟩, rfl⟩ rfl
    (endsStatement_of_semicolon hsemi) (by simp; omega) fun r rest => ⟨_, ?_, rfl⟩⟩
  have hreworded := (hrun.reword (r.rewrite (.package ⟨".".intercalate names,
    ⟨k.token.position, semi.token.position⟩⟩))).move r.place
  have hends : Ahead endsName (semi.move r.place :: rest) :=
    (ahead_cons _ _ _).2 (endsName_of_isSymbol hsemi (by decide))
  have hname := dottedName_of_dotted hreworded hends
  rw [← r.dotted, List.map_map] at hname
  unfold package
  refine bind_eq_ok_iff.2 ⟨_, _, keywordAt_eq_ok_iff.2 ⟨_, rfl, hk, rfl⟩, ?_⟩
  refine bind_eq_ok_iff.2 ⟨_, _, hname, ?_⟩
  refine bind_eq_ok_iff.2 ⟨_, _, symbolAt_eq_ok_iff.2 ⟨_, rfl, hsemi, rfl⟩, ?_⟩
  exact pure_eq_ok_iff.2 ⟨rfl, rfl⟩

theorem rereads_enumValue : Rereads enumValue .enumValue := by
  intro ls v rest h
  unfold enumValue at h
  obtain ⟨name, ls₁, hname, h₁⟩ := bind_eq_ok_iff.1 h
  obtain ⟨_, ls₂, hequals, h₂⟩ := bind_eq_ok_iff.1 h₁
  obtain ⟨number, ls₃, hnumber, h₃⟩ := bind_eq_ok_iff.1 h₂
  obtain ⟨options, ls₄, hoptions, h₄⟩ := bind_eq_ok_iff.1 h₃
  obtain ⟨last, ls₅, hlast, hdone⟩ := bind_eq_ok_iff.1 h₄
  obtain ⟨rfl, rfl⟩ := pure_eq_ok_iff.1 hdone
  obtain ⟨l, rfl, hl, rfl⟩ := satisfy_eq_ok_iff.1 hname
  obtain ⟨assign, rfl, hassign⟩ := discard_symbol_eq_ok_iff.1 hequals
  obtain ⟨digits, rfl, hdigits⟩ := isLocal_signedNumber _ _ _ hnumber
  obtain ⟨used, rfl, hused⟩ := isLocal_fieldOptions _ _ _ hoptions
  obtain ⟨semi, rfl, hsemi, rfl⟩ := symbolAt_eq_ok_iff.1 hlast
  have hword : l.token.kind = .identifier := by simpa using hl
  have hsome := List.length_pos_iff.2 (IsLocal.ne_nil progresses_signedNumber hnumber)
  refine ⟨[].map .plain ++ .name (.enumValue ⟨l.token.text, number, options, _⟩) [l] ::
    ((assign :: (digits ++ used)) ++ [semi]).map .plain, by simp,
    .named ⟨.leading, ⟨[l.token.text], .last hword, by simp [Declaration.name?]⟩, rfl⟩ rfl
    (endsStatement_of_semicolon hsemi) (by simp) fun r rest => ⟨_, ?_, rfl⟩⟩
  simp only [List.map_append, List.map_cons, List.map_nil, List.append_assoc, List.cons_append,
    List.nil_append]
  have hstops := isSymbol_of_ne hsemi (show ';' ≠ '[' by decide)
  unfold enumValue
  refine bind_eq_ok_iff.2 ⟨_, _, satisfy_eq_ok_iff.2 ⟨_, rfl, by simpa using hword, rfl⟩, ?_⟩
  refine bind_eq_ok_iff.2 ⟨(), _, discard_symbol_eq_ok_iff.2 ⟨_, rfl, hassign⟩, ?_⟩
  refine bind_eq_ok_iff.2 ⟨_, _, hdigits r.place _ (ahead_true _), ?_⟩
  refine bind_eq_ok_iff.2 ⟨_, _, hused r.place _ (by simp [hstops]), ?_⟩
  refine bind_eq_ok_iff.2 ⟨_, _, symbolAt_eq_ok_iff.2 ⟨_, rfl, hsemi, rfl⟩, ?_⟩
  refine pure_eq_ok_iff.2 ⟨?_, rfl⟩
  rw [Lexeme.text_move_reword hword, Lexeme.move_position, Lexeme.reword_position,
    Lexeme.move_position]
  rfl

/-- The label that stands before a field's type. -/
def labelAhead (ls : List Lexeme) : Option Cardinality :=
  if (ls[2]?).any (·.token.isSymbol '=') then none
  else if ls.head?.any (·.token.isWord "optional") then some .optional
  else if ls.head?.any (·.token.isWord "required") then some .required
  else if ls.head?.any (·.token.isWord "repeated") then some .repeated
  else none

private theorem accept_apply (test : Token → Bool) (ls : List Lexeme) :
    accept test ls = .ok (ls.head?.any (test ·.token),
      if ls.head?.any (test ·.token) then ls.tail else ls) := by
  cases ls with
  | nil => rfl
  | cons l ls => by_cases h : test l.token = true <;> simp [accept, h]

theorem cardinality_apply (ls : List Lexeme) :
    cardinality ls = .ok (labelAhead ls, if (labelAhead ls).isSome then ls.tail else ls) := by
  unfold cardinality labelAhead
  rw [bind_of_eq_ok (look_apply 2 ls)]
  have hlook : ((ls[2]?).map Lexeme.token).any (·.isSymbol '=') =
      (ls[2]?).any (·.token.isSymbol '=') := by
    cases ls[2]? <;> rfl
  rw [hlook]
  split
  · rfl
  · rw [bind_of_eq_ok (accept_apply _ ls)]
    split
    · rfl
    · rw [bind_of_eq_ok (accept_apply _ ls)]
      split
      · rfl
      · rw [bind_of_eq_ok (accept_apply _ ls)]
        split <;> rfl

theorem labelAhead_congr {ls ls' : List Lexeme}
    (first : ∀ word, ls'.head?.any (·.token.isWord word) = ls.head?.any (·.token.isWord word))
    (third : (ls'[2]?).any (·.token.isSymbol '=') = (ls[2]?).any (·.token.isSymbol '=')) :
    labelAhead ls' = labelAhead ls := by
  unfold labelAhead
  rw [third, first, first, first]

private theorem labelAhead_again {before : List Lexeme} (nonempty : before ≠ [])
    (place : Position → Position) {l l' : Lexeme}
    (same : l'.token.isSymbol '=' = l.token.isSymbol '=') (assign : Lexeme)
    (behind behind' : List Lexeme) :
    labelAhead (before.map (Lexeme.move place) ++ l' :: assign.move place :: behind') =
      labelAhead (before ++ l :: assign :: behind) := by
  match before with
  | [] => exact absurd rfl nonempty
  | [_] => exact labelAhead_congr (fun _ => rfl) rfl
  | [_, _] => exact labelAhead_congr (fun _ => rfl) same
  | _ :: _ :: _ :: _ => exact labelAhead_congr (fun _ => rfl) rfl

theorem here_eq_ok_iff {p : Position} {mid : List Lexeme} :
    here ls = .ok (p, mid) ↔ ∃ l tail, ls = l :: tail ∧ l.token.position = p ∧ mid = ls := by
  cases ls with
  | nil => simp [here]
  | cons l ls =>
    simp only [here, Except.ok.injEq, Prod.mk.injEq, List.cons.injEq]
    constructor
    · rintro ⟨rfl, rfl⟩
      exact ⟨l, ls, ⟨rfl, rfl⟩, rfl, rfl⟩
    · rintro ⟨_, _, ⟨rfl, rfl⟩, rfl, rfl⟩
      exact ⟨rfl, rfl⟩

private theorem isWord_of_labelAhead {l : Lexeme} {tail : List Lexeme}
    (h : (labelAhead (l :: tail)).isSome = true) : l.token.kind = .identifier := by
  unfold labelAhead at h
  have word : ∀ word, (l :: tail).head?.any (·.token.isWord word) = true →
      l.token.kind = .identifier := by
    intro word hword
    simp_all [Token.isWord]
  split at h
  · simp at h
  · split at h
    · exact word _ ‹_›
    · split at h
      · exact word _ ‹_›
      · split at h
        · exact word _ ‹_›
        · simp at h

theorem cardinality_used {label : Option Cardinality} {mid : List Lexeme}
    (h : cardinality ls = .ok (label, mid)) :
    ∃ lead, ls = lead ++ mid ∧ (∀ l ∈ lead, l.token.kind = .identifier) ∧
      ∀ lead' mid', lead'.length = lead.length → labelAhead (lead' ++ mid') = labelAhead ls →
        cardinality (lead' ++ mid') = .ok (label, mid') := by
  rw [cardinality_apply] at h
  obtain ⟨rfl, hmid⟩ := Prod.mk.inj (Except.ok.inj h)
  split at hmid
  · rename_i hsome
    cases ls with
    | nil => simp [labelAhead] at hsome
    | cons k tail =>
      obtain rfl : tail = mid := hmid
      refine ⟨[k], rfl, by simpa using isWord_of_labelAhead hsome, ?_⟩
      intro lead' mid' hlength hlabel
      obtain ⟨k', rfl⟩ := List.length_eq_one_iff.1 hlength
      rw [cardinality_apply, hlabel, if_pos hsome]
      rfl
  · rename_i hnone
    obtain rfl : ls = mid := hmid
    refine ⟨[], rfl, by simp, ?_⟩
    intro lead' mid' hlength hlabel
    obtain rfl : lead' = [] := List.length_eq_zero_iff.1 hlength
    rw [cardinality_apply, hlabel, if_neg hnone]
    rfl

theorem fieldNumber_eq_ok_iff {number : String} :
    fieldNumber ls = .ok (number, rest) ↔
      ∃ l, ls = l :: rest ∧ l.token.kind = .number ∧ l.token.text = number := by
  unfold fieldNumber
  rw [map_eq_ok_iff]
  constructor
  · rintro ⟨t, ht, rfl⟩
    obtain ⟨l, rfl, hl, rfl⟩ := satisfy_eq_ok_iff.1 ht
    exact ⟨l, rfl, by simpa using hl, rfl⟩
  · rintro ⟨l, rfl, hl, rfl⟩
    exact ⟨l.token, satisfy_eq_ok_iff.2 ⟨l, rfl, by simpa using hl, rfl⟩, rfl⟩

private theorem followsName_of_type {t : Token}
    (h : t.kind = .identifier ∨ t.isSymbol '.' = true) : SourceText.followsName t = false := by
  rcases h with h | h
  · simp [SourceText.followsName, SourceText.endsStatement, Token.isSymbol, h]
  · simp [SourceText.followsName, SourceText.endsStatement, isSymbol_of_ne h]

private theorem followsName_of_isSymbol {t : Token} {c : Char} (h : t.isSymbol c = true)
    (other : c ≠ '=' ∧ c ≠ ';' ∧ c ≠ '\x7b' ∧ c ≠ '\x7d') :
    SourceText.followsName t = false := by
  obtain ⟨h₁, h₂, h₃, h₄⟩ := other
  simp [SourceText.followsName, SourceText.endsStatement, isSymbol_of_ne h h₁,
    isSymbol_of_ne h h₂, isSymbol_of_ne h h₃, isSymbol_of_ne h h₄]

theorem rereads_field : Rereads field .field := by
  intro ls f rest h
  unfold field at h
  obtain ⟨first, ls₁, hfirst, h₁⟩ := bind_eq_ok_iff.1 h
  obtain ⟨label, ls₂, hlabel, h₂⟩ := bind_eq_ok_iff.1 h₁
  obtain ⟨type, ls₃, htype, h₃⟩ := bind_eq_ok_iff.1 h₂
  obtain ⟨name, ls₄, hname, h₄⟩ := bind_eq_ok_iff.1 h₃
  obtain ⟨_, ls₅, hequals, h₅⟩ := bind_eq_ok_iff.1 h₄
  obtain ⟨number, ls₆, hnumber, h₆⟩ := bind_eq_ok_iff.1 h₅
  obtain ⟨options, ls₇, hoptions, h₇⟩ := bind_eq_ok_iff.1 h₆
  obtain ⟨last, ls₈, hlast, hdone⟩ := bind_eq_ok_iff.1 h₇
  obtain ⟨rfl, rfl⟩ := pure_eq_ok_iff.1 hdone
  obtain ⟨k, tail, hls, rfl, rfl⟩ := here_eq_ok_iff.1 hfirst
  obtain ⟨lead, rfl, hlead, hlabels⟩ := cardinality_used hlabel
  obtain ⟨init, b, rfl, htypes, hb, hinit⟩ := typeName_used htype
  obtain ⟨l, rfl, hl, rfl⟩ := identifier_eq_ok_iff.1 hname
  obtain ⟨assign, rfl, hassign⟩ := discard_symbol_eq_ok_iff.1 hequals
  obtain ⟨n, rfl, hn, rfl⟩ := fieldNumber_eq_ok_iff.1 hnumber
  obtain ⟨used, rfl, hused⟩ := isLocal_fieldOptions _ _ _ hoptions
  obtain ⟨semi, rfl, hsemi, rfl⟩ := symbolAt_eq_ok_iff.1 hlast
  have hgoes_on : ∀ m ∈ (lead ++ init) ++ [b], SourceText.followsName m.token = false := by
    intro m hm
    simp only [List.mem_append, List.mem_singleton] at hm
    rcases hm with (hm | hm) | rfl
    · exact followsName_of_type (.inl (hlead m hm))
    · exact followsName_of_type (hinit m hm)
    · exact followsName_of_type (.inl hb)
  obtain ⟨c, cs, hcs⟩ : ∃ c cs, (lead ++ init) ++ [b] = c :: cs :=
    List.exists_cons_of_ne_nil (by simp)
  obtain rfl : c = k := by
    have hfront : (lead ++ init) ++ [b] ++ (l :: assign :: n :: (used ++ semi :: ls₈)) =
        k :: tail := by simpa using hls
    rw [hcs] at hfront
    exact (List.cons.inj hfront).1
  have hin : Introduced (.field ⟨label, type, l.token.text, n.token.text, options,
      ⟨c.token.position, semi.token.position⟩⟩) ((lead ++ init) ++ [b]) [l]
      ((assign :: n :: used) ++ [semi]) :=
    ⟨.assigned (.inl rfl) hgoes_on (.inl hb) hassign,
      ⟨[l.token.text], .last hl, by simp [Declaration.name?]⟩, by rw [hcs]; rfl⟩
  refine ⟨_, ?_, .named hin rfl (endsStatement_of_semicolon hsemi) (by simp; omega) fun r rest =>
    ⟨_, ?_, rfl⟩⟩
  · simp
  · simp only [List.map_append, List.map_cons, List.map_nil, List.append_assoc, List.cons_append,
      List.nil_append]
    have hfront : ∀ behind, lead.map (Lexeme.move r.place) ++ (init.map (Lexeme.move r.place) ++
        b.move r.place :: behind) = c.move r.place :: (cs.map (Lexeme.move r.place) ++ behind) := by
      intro behind
      have hmap := congrArg (fun ms => ms.map (Lexeme.move r.place) ++ behind) hcs
      simpa using hmap
    have hlabelled : ∀ l', l'.token.isSymbol '=' = l.token.isSymbol '=' → ∀ behind,
        labelAhead (lead.map (Lexeme.move r.place) ++ (init.map (Lexeme.move r.place) ++
          b.move r.place :: l' :: assign.move r.place :: behind)) =
        labelAhead (lead ++ (init ++ b :: l :: assign :: n :: (used ++ semi :: ls₈))) := by
      intro l' hl' behind
      have hagain := labelAhead_again (List.append_ne_nil_of_right_ne_nil (lead ++ init)
        (List.cons_ne_nil b [])) r.place hl' assign (n :: (used ++ semi :: ls₈)) behind
      simpa using hagain
    have htyped : ∀ l', l'.token.kind = .identifier → ∀ behind,
        typeName (init.map (Lexeme.move r.place) ++ b.move r.place :: l' :: behind) =
          .ok (type, l' :: behind) := by
      intro l' hl' behind
      have hagain := htypes r.place (l' :: behind) (by simp [endsName, Token.isSymbol, hl'])
      simpa using hagain
    have hstops := isSymbol_of_ne hsemi (show ';' ≠ '[' by decide)
    unfold field
    refine bind_eq_ok_iff.2 ⟨_, _, here_eq_ok_iff.2 ⟨_, _, hfront _, rfl, rfl⟩, ?_⟩
    refine bind_eq_ok_iff.2 ⟨_, _, hlabels _ _ (by simp) (hlabelled _ (by simp) _), ?_⟩
    refine bind_eq_ok_iff.2 ⟨_, _, htyped _ (by simpa using hl) _, ?_⟩
    refine bind_eq_ok_iff.2 ⟨_, _, identifier_eq_ok_iff.2 ⟨_, rfl, by simpa using hl, rfl⟩, ?_⟩
    refine bind_eq_ok_iff.2 ⟨(), _, discard_symbol_eq_ok_iff.2 ⟨_, rfl, hassign⟩, ?_⟩
    refine bind_eq_ok_iff.2 ⟨_, _, fieldNumber_eq_ok_iff.2 ⟨_, rfl, hn, rfl⟩, ?_⟩
    refine bind_eq_ok_iff.2 ⟨_, _, hused r.place _ (by simp [hstops]), ?_⟩
    refine bind_eq_ok_iff.2 ⟨_, _, symbolAt_eq_ok_iff.2 ⟨_, rfl, hsemi, rfl⟩, ?_⟩
    refine pure_eq_ok_iff.2 ⟨?_, rfl⟩
    rw [Lexeme.text_move_reword hl]
    rfl

theorem rereads_mapField : Rereads mapField .mapField := by
  intro ls f rest h
  unfold mapField at h
  obtain ⟨first, ls₁, hfirst, h₁⟩ := bind_eq_ok_iff.1 h
  obtain ⟨_, ls₂, hless, h₂⟩ := bind_eq_ok_iff.1 h₁
  obtain ⟨key, ls₃, hkey, h₃⟩ := bind_eq_ok_iff.1 h₂
  obtain ⟨_, ls₄, hcomma, h₄⟩ := bind_eq_ok_iff.1 h₃
  obtain ⟨type, ls₅, htype, h₅⟩ := bind_eq_ok_iff.1 h₄
  obtain ⟨_, ls₆, hgreater, h₆⟩ := bind_eq_ok_iff.1 h₅
  obtain ⟨name, ls₇, hname, h₇⟩ := bind_eq_ok_iff.1 h₆
  obtain ⟨_, ls₈, hequals, h₈⟩ := bind_eq_ok_iff.1 h₇
  obtain ⟨number, ls₉, hnumber, h₉⟩ := bind_eq_ok_iff.1 h₈
  obtain ⟨options, ls₁₀, hoptions, h₁₀⟩ := bind_eq_ok_iff.1 h₉
  obtain ⟨last, ls₁₁, hlast, hdone⟩ := bind_eq_ok_iff.1 h₁₀
  obtain ⟨rfl, rfl⟩ := pure_eq_ok_iff.1 hdone
  obtain ⟨k, rfl, hk, rfl⟩ := keywordAt_eq_ok_iff.1 hfirst
  obtain ⟨less, rfl, hangle⟩ := discard_symbol_eq_ok_iff.1 hless
  obtain ⟨m, rfl, hm, rfl⟩ := identifier_eq_ok_iff.1 hkey
  obtain ⟨comma, rfl, hmark⟩ := discard_symbol_eq_ok_iff.1 hcomma
  obtain ⟨init, b, rfl, htypes, hb, hinit⟩ := typeName_used htype
  obtain ⟨greater, rfl, hclose⟩ := discard_symbol_eq_ok_iff.1 hgreater
  obtain ⟨l, rfl, hl, rfl⟩ := identifier_eq_ok_iff.1 hname
  obtain ⟨assign, rfl, hassign⟩ := discard_symbol_eq_ok_iff.1 hequals
  obtain ⟨n, rfl, hn, rfl⟩ := fieldNumber_eq_ok_iff.1 hnumber
  obtain ⟨used, rfl, hused⟩ := isLocal_fieldOptions _ _ _ hoptions
  obtain ⟨semi, rfl, hsemi, rfl⟩ := symbolAt_eq_ok_iff.1 hlast
  have hkeyword : k.token.kind = .identifier := by simp_all [Token.isWord]
  have hgoes_on : ∀ x ∈ (k :: less :: m :: comma :: (init ++ [b])) ++ [greater],
      SourceText.followsName x.token = false := by
    intro x hx
    simp only [List.cons_append, List.mem_cons, List.mem_append, List.not_mem_nil, or_false] at hx
    rcases hx with rfl | rfl | rfl | rfl | (hx | rfl) | rfl
    · exact followsName_of_type (.inl hkeyword)
    · exact followsName_of_isSymbol hangle (by decide)
    · exact followsName_of_type (.inl hm)
    · exact followsName_of_isSymbol hmark (by decide)
    · exact followsName_of_type (hinit x hx)
    · exact followsName_of_type (.inl hb)
    · exact followsName_of_isSymbol hclose (by decide)
  have hin : Introduced (.mapField ⟨m.token.text, type, l.token.text, n.token.text, options,
      ⟨k.token.position, semi.token.position⟩⟩)
      ((k :: less :: m :: comma :: (init ++ [b])) ++ [greater]) [l]
      ((assign :: n :: used) ++ [semi]) :=
    ⟨.assigned (.inr rfl) hgoes_on (.inr hclose) hassign,
      ⟨[l.token.text], .last hl, by simp [Declaration.name?]⟩, rfl⟩
  refine ⟨_, ?_, .named hin rfl (endsStatement_of_semicolon hsemi) (by simp; omega) fun r rest =>
    ⟨_, ?_, rfl⟩⟩
  · simp
  · simp only [List.map_append, List.map_cons, List.map_nil, List.append_assoc, List.cons_append,
      List.nil_append]
    have htyped : ∀ behind, typeName (init.map (Lexeme.move r.place) ++ b.move r.place ::
        greater.move r.place :: behind) = .ok (type, greater.move r.place :: behind) := by
      intro behind
      have hagain := htypes r.place (greater.move r.place :: behind)
        ((ahead_cons _ _ _).2 (endsName_of_isSymbol hclose (by decide)))
      simpa using hagain
    have hstops := isSymbol_of_ne hsemi (show ';' ≠ '[' by decide)
    unfold mapField
    refine bind_eq_ok_iff.2 ⟨_, _, keywordAt_eq_ok_iff.2 ⟨_, rfl, hk, rfl⟩, ?_⟩
    refine bind_eq_ok_iff.2 ⟨(), _, discard_symbol_eq_ok_iff.2 ⟨_, rfl, hangle⟩, ?_⟩
    refine bind_eq_ok_iff.2 ⟨_, _, identifier_eq_ok_iff.2 ⟨_, rfl, hm, rfl⟩, ?_⟩
    refine bind_eq_ok_iff.2 ⟨(), _, discard_symbol_eq_ok_iff.2 ⟨_, rfl, hmark⟩, ?_⟩
    refine bind_eq_ok_iff.2 ⟨_, _, htyped _, ?_⟩
    refine bind_eq_ok_iff.2 ⟨(), _, discard_symbol_eq_ok_iff.2 ⟨_, rfl, hclose⟩, ?_⟩
    refine bind_eq_ok_iff.2 ⟨_, _, identifier_eq_ok_iff.2 ⟨_, rfl, by simpa using hl, rfl⟩, ?_⟩
    refine bind_eq_ok_iff.2 ⟨(), _, discard_symbol_eq_ok_iff.2 ⟨_, rfl, hassign⟩, ?_⟩
    refine bind_eq_ok_iff.2 ⟨_, _, fieldNumber_eq_ok_iff.2 ⟨_, rfl, hn, rfl⟩, ?_⟩
    refine bind_eq_ok_iff.2 ⟨_, _, hused r.place _ (by simp [hstops]), ?_⟩
    refine bind_eq_ok_iff.2 ⟨_, _, symbolAt_eq_ok_iff.2 ⟨_, rfl, hsemi, rfl⟩, ?_⟩
    refine pure_eq_ok_iff.2 ⟨?_, rfl⟩
    rw [Lexeme.text_move_reword hl]
    rfl

def streamAhead : List Lexeme → Bool
  | word :: following :: _ =>
    word.token.isWord "stream" && !following.token.isSymbol ')' &&
      !(following.token.isSymbol '.' && following.gap.isEmpty)
  | _ => false

theorem streams_apply (ls : List Lexeme) :
    streams ls = .ok (streamAhead ls, if streamAhead ls then ls.tail else ls) := by
  match ls with
  | [] => rfl
  | [_] => rfl
  | word :: following :: tail =>
    simp only [streams, streamAhead]
    split <;> simp_all

private theorem streams_used {isStream : Bool} {mid : List Lexeme}
    (h : streams ls = .ok (isStream, mid)) :
    ∃ lead, ls = lead ++ mid ∧
      ∀ lead' mid', lead'.length = lead.length → streamAhead (lead' ++ mid') = streamAhead ls →
        streams (lead' ++ mid') = .ok (isStream, mid') := by
  rw [streams_apply] at h
  obtain ⟨rfl, hmid⟩ := Prod.mk.inj (Except.ok.inj h)
  split at hmid
  · rename_i hahead
    cases ls with
    | nil => simp [streamAhead] at hahead
    | cons k tail =>
      obtain rfl : tail = mid := hmid
      refine ⟨[k], rfl, fun lead' mid' hlength hsame => ?_⟩
      obtain ⟨k', rfl⟩ := List.length_eq_one_iff.1 hlength
      rw [streams_apply, hsame, if_pos hahead]
      rfl
  · rename_i hahead
    obtain rfl : ls = mid := hmid
    refine ⟨[], rfl, fun lead' mid' hlength hsame => ?_⟩
    obtain rfl : lead' = [] := List.length_eq_zero_iff.1 hlength
    rw [streams_apply, hsame, if_neg hahead]
    rfl

private theorem streamAhead_again {front : List Lexeme} (long : 2 ≤ front.length)
    (place : Position → Position) (behind behind' : List Lexeme) :
    streamAhead (front.map (Lexeme.move place) ++ behind') = streamAhead (front ++ behind) := by
  match front with
  | [] => simp at long
  | [_] => simp at long
  | _ :: _ :: _ => rfl

theorem isLocal_callMessage : IsLocal callMessage fun _ => true := by
  intro ls c rest h
  unfold callMessage at h
  obtain ⟨_, ls₁, hopen, h₁⟩ := bind_eq_ok_iff.1 h
  obtain ⟨isStream, ls₂, hstream, h₂⟩ := bind_eq_ok_iff.1 h₁
  obtain ⟨type, ls₃, htype, h₃⟩ := bind_eq_ok_iff.1 h₂
  obtain ⟨_, ls₄, hclose, hdone⟩ := bind_eq_ok_iff.1 h₃
  obtain ⟨rfl, rfl⟩ := pure_eq_ok_iff.1 hdone
  obtain ⟨o, rfl, ho⟩ := discard_symbol_eq_ok_iff.1 hopen
  obtain ⟨close, rfl, hc⟩ := discard_symbol_eq_ok_iff.1 hclose
  obtain ⟨lead, rfl, hstreams⟩ := streams_used hstream
  obtain ⟨used, rfl, hread⟩ := isLocal_typeName _ _ _ htype
  have hsome := List.length_pos_iff.2 (IsLocal.ne_nil progresses_typeName htype)
  refine ⟨o :: (lead ++ (used ++ [close])), by simp, fun place rest _ => ?_⟩
  simp only [List.map_append, List.map_cons, List.map_nil, List.append_assoc, List.cons_append,
    List.nil_append]
  have hsame : streamAhead (lead.map (Lexeme.move place) ++ (used.map (Lexeme.move place) ++
      close.move place :: rest)) = streamAhead (lead ++ (used ++ close :: ls₄)) := by
    have hlong : 2 ≤ (lead ++ (used ++ [close])).length := by
      simp only [List.length_append, List.length_singleton]
      omega
    simpa using streamAhead_again hlong place ls₄ rest
  have hends : Ahead endsName (close.move place :: rest) :=
    (ahead_cons _ _ _).2 (endsName_of_isSymbol hc (by decide))
  unfold callMessage
  refine bind_eq_ok_iff.2 ⟨(), _, discard_symbol_eq_ok_iff.2 ⟨_, rfl, ho⟩, ?_⟩
  refine bind_eq_ok_iff.2 ⟨_, _, hstreams _ _ (by simp) hsame, ?_⟩
  refine bind_eq_ok_iff.2 ⟨_, _, hread place _ hends, ?_⟩
  refine bind_eq_ok_iff.2 ⟨(), _, discard_symbol_eq_ok_iff.2 ⟨_, rfl, hc⟩, ?_⟩
  exact pure_eq_ok_iff.2 ⟨rfl, rfl⟩

theorem Rereads.progresses {α : Type} {p : Parser α} {wrap : α → Declaration}
    (h : Rereads p wrap) : Progresses p := by
  intro ls a rest he
  obtain ⟨ps, rfl, hread⟩ := h ls a rest he
  have hlong := hread.long
  rw [List.length_append]
  omega

private theorem eq_map_plain {ps : List Piece} (h : ps.filterMap Piece.owner? = []) :
    ps = (flat ps).map .plain := by
  induction ps with
  | nil => rfl
  | cons p ps ih =>
    cases p with
    | plain l =>
      have htail := ih (by simpa [Piece.owner?] using h)
      rw [Piece.flat_plain, List.map_cons, ← htail]
    | name d run => simp [Piece.owner?] at h

private theorem encloses_options_again {options : List OptionStatement} {last : Token}
    (h : Encloses option ls options last rest) :
    ∃ init l, ls = init ++ l :: rest ∧ l.token = last ∧ l.token.isSymbol '\x7d' = true ∧
      ∀ (r : Renaming) rest', Encloses option
        (init.map (Lexeme.move r.place) ++ l.move r.place :: rest') (options.map r.option)
        (l.move r.place).token rest' := by
  induction h with
  | @close l rest closes => exact ⟨[], l, rfl, rfl, closes, fun r rest' => .close closes⟩
  | @skip k ls rest options last skips others ih =>
    obtain ⟨init, l, rfl, rfl, hclose, hagain⟩ := ih
    exact ⟨k :: init, l, rfl, rfl, hclose, fun r rest' => .skip skips (hagain r rest')⟩
  | @item ls mid rest o options last goes_on first shorter others ih =>
    obtain ⟨init, l, rfl, rfl, hclose, hagain⟩ := ih
    obtain ⟨ps, rfl, hread⟩ := rereads_option _ _ _ first
    have hps := eq_map_plain (hread.unfolds.owners.trans rfl)
    refine ⟨flat ps ++ init, l, by simp, rfl, hclose, fun r rest' => ?_⟩
    obtain ⟨o', ho', hwrap⟩ := hread.again r
      (init.map (Lexeme.move r.place) ++ l.move r.place :: rest')
    obtain rfl : o' = r.option o := Declaration.option.inj hwrap
    have hmoved : allRenamed r ps = (flat ps).map (Lexeme.move r.place) := by
      rw [hps, Piece.allRenamed_map_plain, Piece.flat_map_plain]
    obtain ⟨k, tail, hk⟩ := List.exists_cons_of_ne_nil
      (List.ne_nil_of_length_pos (Nat.lt_of_lt_of_le (by decide) hread.long))
    rw [hmoved] at ho'
    rw [List.map_append, List.append_assoc, List.map_cons]
    refine .item ?_ ho' ?_ (hagain r rest')
    · rw [hk] at goes_on ⊢
      simpa using goes_on
    · rw [hk]
      simp only [List.map_cons, List.length_append, List.length_cons]
      omega

private theorem callOptions_used {options : List OptionStatement} {p : Position}
    (h : callOptions ls = .ok ((options, p), rest)) :
    ∃ init l, ls = init ++ l :: rest ∧ l.token.position = p ∧
      SourceText.endsStatement l.token = true ∧ ∀ (r : Renaming) rest',
        callOptions (init.map (Lexeme.move r.place) ++ l.move r.place :: rest') =
          .ok ((options.map r.option, r.place p), rest') := by
  unfold callOptions at h
  obtain ⟨b, mid, hb, hafter⟩ := bind_eq_ok_iff.1 h
  rcases accept_eq_ok_iff.1 hb with ⟨rfl, o, rfl, ho⟩ | ⟨rfl, rfl, hnone⟩
  · rw [if_pos rfl] at hafter
    obtain ⟨⟨os, last⟩, _, hbody, hdone⟩ := bind_eq_ok_iff.1 hafter
    obtain ⟨he, rfl⟩ := pure_eq_ok_iff.1 hdone
    obtain ⟨rfl, rfl⟩ := Prod.mk.inj he
    obtain ⟨init, l, rfl, rfl, hclose, hagain⟩ :=
      encloses_options_again ((enclosed_eq_ok_iff rereads_option.progresses).1 hbody)
    refine ⟨o :: init, l, rfl, rfl, by simp [SourceText.endsStatement, hclose], fun r rest' => ?_⟩
    unfold callOptions
    refine bind_eq_ok_iff.2 ⟨true, _, accept_eq_ok_iff.2 (.inl ⟨rfl, _, rfl, ho⟩), ?_⟩
    rw [if_pos rfl]
    refine bind_eq_ok_iff.2 ⟨_, _,
      (enclosed_eq_ok_iff rereads_option.progresses).2 (hagain r rest'), ?_⟩
    exact pure_eq_ok_iff.2 ⟨rfl, rfl⟩
  · rw [if_neg (by simp)] at hafter
    obtain ⟨q, _, hsemi, hdone⟩ := bind_eq_ok_iff.1 hafter
    obtain ⟨he, rfl⟩ := pure_eq_ok_iff.1 hdone
    obtain ⟨rfl, rfl⟩ := Prod.mk.inj he
    obtain ⟨l, rfl, hl, rfl⟩ := symbolAt_eq_ok_iff.1 hsemi
    refine ⟨[], l, rfl, rfl, endsStatement_of_semicolon hl, fun r rest' => ?_⟩
    unfold callOptions
    refine bind_eq_ok_iff.2 ⟨false, _, accept_eq_ok_iff.2 (.inr ⟨rfl, rfl, hnone⟩), ?_⟩
    rw [if_neg (by simp)]
    refine bind_eq_ok_iff.2 ⟨_, _, symbolAt_eq_ok_iff.2 ⟨_, rfl, hl, rfl⟩, ?_⟩
    exact pure_eq_ok_iff.2 ⟨rfl, rfl⟩

theorem rereads_rpc : Rereads rpc .rpc := by
  intro ls c rest h
  unfold rpc at h
  obtain ⟨first, ls₁, hfirst, h₁⟩ := bind_eq_ok_iff.1 h
  obtain ⟨name, ls₂, hname, h₂⟩ := bind_eq_ok_iff.1 h₁
  obtain ⟨request, ls₃, hrequest, h₃⟩ := bind_eq_ok_iff.1 h₂
  obtain ⟨_, ls₄, hreturns, h₄⟩ := bind_eq_ok_iff.1 h₃
  obtain ⟨response, ls₅, hresponse, h₅⟩ := bind_eq_ok_iff.1 h₄
  obtain ⟨⟨options, last⟩, ls₆, hoptions, hdone⟩ := bind_eq_ok_iff.1 h₅
  obtain ⟨rfl, rfl⟩ := pure_eq_ok_iff.1 hdone
  obtain ⟨k, rfl, hk, rfl⟩ := keywordAt_eq_ok_iff.1 hfirst
  obtain ⟨l, rfl, hl, rfl⟩ := identifier_eq_ok_iff.1 hname
  obtain ⟨taken, rfl, htaken⟩ := isLocal_callMessage _ _ _ hrequest
  obtain ⟨word, rfl, hword⟩ := discard_keyword_eq_ok_iff.1 hreturns
  obtain ⟨given, rfl, hgiven⟩ := isLocal_callMessage _ _ _ hresponse
  obtain ⟨init, final, rfl, rfl, hfinal, hagain⟩ := callOptions_used hoptions
  have hin : Introduced (.rpc ⟨l.token.text, request, response, options,
      ⟨k.token.position, final.token.position⟩⟩) [k] [l]
      ((taken ++ word :: (given ++ init)) ++ [final]) :=
    ⟨.keyword rfl hk, ⟨[l.token.text], .last hl, by simp [Declaration.name?]⟩, rfl⟩
  refine ⟨_, ?_, .named hin (Declaration.named_rpc _) hfinal (by simp) fun r rest => ⟨_, ?_, rfl⟩⟩
  · simp
  · simp only [List.map_append, List.map_cons, List.map_nil, List.append_assoc, List.cons_append,
      List.nil_append]
    unfold rpc
    refine bind_eq_ok_iff.2 ⟨_, _, keywordAt_eq_ok_iff.2 ⟨_, rfl, hk, rfl⟩, ?_⟩
    refine bind_eq_ok_iff.2 ⟨_, _, identifier_eq_ok_iff.2 ⟨_, rfl, by simpa using hl, rfl⟩, ?_⟩
    refine bind_eq_ok_iff.2 ⟨_, _, htaken r.place _ (ahead_true _), ?_⟩
    refine bind_eq_ok_iff.2 ⟨(), _, discard_keyword_eq_ok_iff.2 ⟨_, rfl, hword⟩, ?_⟩
    refine bind_eq_ok_iff.2 ⟨_, _, hgiven r.place _ (ahead_true _), ?_⟩
    refine bind_eq_ok_iff.2 ⟨_, _, hagain r rest, ?_⟩
    refine pure_eq_ok_iff.2 ⟨?_, rfl⟩
    rw [Lexeme.text_move_reword hl]
    rfl

end SchemaLint.Parser
