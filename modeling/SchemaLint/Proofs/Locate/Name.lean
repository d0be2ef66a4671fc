import SchemaLint.Locate
import SchemaLint.Proofs.Outcome
import SchemaLint.Proofs.Token.Tiling

/-!
# The name that is found is the name that was read

A search that sets in where a declaration begins reads the declaration's own lexemes again.  So it
finds the name where the declaration has it.
-/

set_option autoImplicit false
set_option relaxedAutoImplicit false

namespace SchemaLint

def Lexeme.bare : List Lexeme → List Lexeme
  | [] => []
  | l :: ls => { l with gap := [] } :: ls

@[simp] theorem Lexeme.bare_append {ls : List Lexeme} (nonempty : ls ≠ []) (ms : List Lexeme) :
    bare (ls ++ ms) = bare ls ++ ms := by
  obtain ⟨l, ls, rfl⟩ := List.exists_cons_of_ne_nil nonempty
  rfl

@[simp] theorem Lexeme.map_token_bare (ls : List Lexeme) :
    (bare ls).map Lexeme.token = ls.map Lexeme.token := by
  cases ls <;> rfl

theorem Reading.upTo_append {ends : Token → Bool} {ls tail : List Lexeme} {l : Lexeme}
    {fault : Option LexError} (goes_on : ∀ m ∈ ls, ends m.token = false)
    (stops : ends l.token = true) :
    Reading.upTo ends ⟨ls ++ l :: tail, fault⟩ = ⟨ls ++ [l], none⟩ := by
  induction ls with
  | nil => simp [upTo, stops]
  | cons m ls ih =>
    have hm := goes_on m (by simp)
    have hls := ih fun k hk => goes_on k (by simp [hk])
    simp [upTo, hm, hls]

theorem Reading.head_upTo (ends : Token → Bool) (l : Lexeme) (tail : List Lexeme)
    (fault : Option LexError) :
    ∃ others : Reading, Reading.upTo ends ⟨l :: tail, fault⟩ = ⟨l :: others.lexemes, others.fault⟩ := by
  by_cases h : ends l.token = true
  · exact ⟨⟨[], none⟩, by simp [upTo, h]⟩
  · exact ⟨Reading.upTo ends ⟨tail, fault⟩, by simp [upTo, h]⟩

theorem SourceText.followsName_of_identifier {t : Token} (word : t.kind = .identifier) :
    followsName t = false := by
  simp [followsName, endsStatement, Token.isSymbol, word]

theorem Token.kind_of_isWord {t : Token} {word : String} (h : t.isWord word = true) :
    t.kind = .identifier := by
  simp_all [Token.isWord]

inductive NamePlace.Between : NamePlace → List Lexeme → List Lexeme → Prop
  | afterKeyword {word : String} {k : Lexeme} {after : List Lexeme}
      (keyword : k.token.isWord word = true) : Between (.afterKeyword word) [k] after
  | leading {after : List Lexeme} : Between .leading [] after
  | beforeAssign {before after : List Lexeme} {assign : Lexeme}
      (goes_on : ∀ m ∈ before, SourceText.followsName m.token = false)
      (assigns : assign.token.isSymbol '=' = true) :
      Between .beforeAssign before (assign :: after)

namespace SourceText

variable {s : SourceText} {lead before after tail : List Lexeme} {l : Lexeme} {trail : List Char}

theorem readFrom_eq_ok
    (tiles : Lexer.Tiles (Lexer.start s.filename s.text) (lead ++ l :: tail) trail)
    (ends : Token → Bool) :
    s.readFrom l.token.position ends =
      .ok (Reading.upTo ends ⟨Lexeme.bare (l :: tail), none⟩) := by
  have hread := Lexer.read_eq_iff.2 ⟨trail, tiles.drop.resume⟩
  obtain ⟨htext, hplace⟩ := tiles.cut
  have hafter := Text.afterByte?_append (Lexeme.spelled lead ++ l.gap)
    (l.token.text.toList ++ (Lexeme.spelled tail ++ trail))
  rw [← htext, ← hplace] at hafter
  unfold readFrom
  rw [hafter]
  simp only [Lexer.readUpTo_eq, hread]
  rfl

private theorem lastBeforeAssign_eq_ok {lack notFound : LocateError} {last : Option Token}
    {ts : List Token} {t assign : Token} {more : List Token}
    (goes_on : ∀ u ∈ ts, followsName u = false) (word : t.kind = .identifier)
    (assigns : assign.isSymbol '=' = true) :
    lastBeforeAssign lack notFound last (ts ++ t :: assign :: more) = .ok t := by
  induction ts generalizing last with
  | nil =>
    obtain ⟨hassign, hends⟩ : t.isSymbol '=' = false ∧ endsStatement t = false := by
      simpa [followsName] using followsName_of_identifier word
    simp [lastBeforeAssign, hassign, hends, word, assigns]
  | cons u ts ih =>
    obtain ⟨hassign, hends⟩ : u.isSymbol '=' = false ∧ endsStatement u = false := by
      simpa [followsName] using goes_on u (by simp)
    simp only [List.cons_append, lastBeforeAssign, hassign, hends, Bool.false_eq_true, if_false]
    exact ih fun v hv => goes_on v (by simp [hv])

private theorem tokens_upTo_assign {assign : Lexeme}
    (goes_on : ∀ m ∈ before, followsName m.token = false) (word : l.token.kind = .identifier)
    (assigns : assign.token.isSymbol '=' = true) :
    (Reading.upTo followsName ⟨Lexeme.bare (before ++ l :: assign :: after), none⟩).tokens =
      before.map Lexeme.token ++ [l.token, assign.token] := by
  have hassign : followsName assign.token = true := by simp [followsName, assigns]
  have hgoes_on : ∀ m ∈ Lexeme.bare (before ++ [l]), followsName m.token = false := by
    intro m hm
    have hmem : m.token ∈ (Lexeme.bare (before ++ [l])).map Lexeme.token :=
      List.mem_map_of_mem hm
    rw [Lexeme.map_token_bare, List.map_append, List.mem_append] at hmem
    rcases hmem with hmem | hmem
    · obtain ⟨k, hk, he⟩ := List.mem_map.1 hmem
      rw [← he]
      exact goes_on k hk
    · have he : m.token = l.token := by simpa using hmem
      rw [he]
      exact followsName_of_identifier word
  have hsplit : Lexeme.bare (before ++ l :: assign :: after) =
      Lexeme.bare (before ++ [l]) ++ assign :: after := by
    rw [← Lexeme.bare_append (by simp)]
    simp
  rw [hsplit, Reading.upTo_append hgoes_on hassign, Reading.tokens, List.map_append,
    Lexeme.map_token_bare]
  simp

theorem locateName_eq_ok {place : NamePlace} {name : String} {p : Position}
    (tiles : Lexer.Tiles (Lexer.start s.filename s.text) (lead ++ (before ++ l :: after)) trail)
    (first : (before ++ [l]).head?.map (·.token.position) = some p)
    (between : place.Between before after) (word : l.token.isWord name = true) :
    s.locateName p name place = .ok l.token.range := by
  obtain ⟨k, tail, htail, hfirst⟩ : ∃ k tail, before ++ l :: after = k :: tail ∧
      k.token.position = p := by
    cases before with
    | nil => exact ⟨l, after, rfl, by simpa using first⟩
    | cons k before => exact ⟨k, before ++ l :: after, rfl, by simpa using first⟩
  have hread := readFrom_eq_ok (htail ▸ tiles) followsName
  rw [← htail, hfirst] at hread
  have hword := Token.kind_of_isWord word
  unfold locateName
  refine bind_eq_ok_iff.2 ⟨_, hread, ?_⟩
  cases between with
  | @afterKeyword keyword k after hkeyword =>
    have hk : followsName k.token = false :=
      followsName_of_identifier (Token.kind_of_isWord hkeyword)
    obtain ⟨others, hothers⟩ := Reading.head_upTo followsName l after none
    have hreading : Reading.upTo followsName ⟨Lexeme.bare ([k] ++ l :: after), none⟩ =
        ⟨⟨[], k.token⟩ :: l :: others.lexemes, others.fault⟩ := by
      simp only [List.singleton_append, Lexeme.bare, Reading.upTo, hk, hothers]
      rfl
    rw [hreading]
    simp only [Reading.afterKeyword, Reading.uncons, bind, Except.bind, hkeyword, if_true, pure,
      Except.pure, word]
  | leading =>
    obtain ⟨others, hothers⟩ := Reading.head_upTo followsName { l with gap := [] } after none
    have hreading : Reading.upTo followsName ⟨Lexeme.bare ([] ++ l :: after), none⟩ =
        ⟨⟨[], l.token⟩ :: others.lexemes, others.fault⟩ := hothers
    rw [hreading]
    simp only [Reading.uncons, bind, Except.bind, pure, Except.pure, word, if_true]
  | @beforeAssign before after assign goes_on assigns =>
    have htokens : _ = before.map Lexeme.token ++ [l.token, assign.token] :=
      @tokens_upTo_assign before after l assign goes_on hword assigns
    have hlast : lastBeforeAssign
        (Reading.upTo followsName ⟨Lexeme.bare (before ++ l :: assign :: after), none⟩).lack
        (.nameNotFound name p.offset) none (before.map Lexeme.token ++ [l.token, assign.token]) =
        .ok l.token := by
      refine lastBeforeAssign_eq_ok (fun u hu => ?_) hword assigns
      obtain ⟨m, hm, rfl⟩ := List.mem_map.1 hu
      exact goes_on m hm
    simp only [htokens, hlast, bind, Except.bind, pure, Except.pure, word, if_true]

end SourceText

end SchemaLint
