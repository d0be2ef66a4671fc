import SchemaLint.Proofs.Grammar.Rules
import SchemaLint.Proofs.Parse.Words

/-!
# Parsers of a grammar

A parser recognizes a rule when it takes what the rule derives, all of that and nothing else.  A greedy
parser does so only before a lexeme that does not prolong what it took.
-/

set_option autoImplicit false
set_option relaxedAutoImplicit false

namespace SchemaLint

theorem Grammar.Phrases.mono {α : Type} {rule rule' : List Lexeme → α → Prop} {ls : List Lexeme}
    {as : List α} (h : Phrases rule ls as)
    (weaker : ∀ ms a, ms.length ≤ ls.length → rule ms a → rule' ms a) : Phrases rule' ls as := by
  induction h with
  | nil => exact .nil
  | skip semicolon others ih =>
    exact .skip semicolon (ih fun ms a hle => weaker ms a (Nat.le_succ_of_le hle))
  | @cons ls ms a as first others ih =>
    rw [List.length_append] at weaker
    exact .cons (weaker _ _ (by omega) first) (ih fun ms a hle => weaker ms a (by omega))

namespace Parser

open Grammar (Separated Phrases)

variable {α β : Type} {ls mid rest used : List Lexeme} {stop : Token → Bool}

/-- A parser takes what a rule derives, before anything that passes a test. -/
structure Recognizes (p : Parser α) (stop : Token → Bool) (rule : List Lexeme → α → Prop) :
    Prop where
  sound : ∀ {ls a rest}, p ls = .ok (a, rest) → ∃ used, ls = used ++ rest ∧ rule used a
  complete : ∀ {used a rest}, rule used a → Ahead stop rest → p (used ++ rest) = .ok (a, rest)

theorem Ahead.weaken {stop stop' : Token → Bool} (h : Ahead stop' rest)
    (weaker : ∀ t, stop' t = true → stop t = true) : Ahead stop rest := by
  cases rest with
  | nil => rfl
  | cons l rest =>
    rw [ahead_cons] at h ⊢
    exact weaker l.token h

namespace Recognizes

variable {p : Parser α} {rule : List Lexeme → α → Prop}

theorem weaken {stop' : Token → Bool} (h : Recognizes p stop rule)
    (weaker : ∀ t, stop' t = true → stop t = true) : Recognizes p stop' rule where
  sound := h.sound
  complete := fun derived ahead => h.complete derived (ahead.weaken weaker)

theorem congr {rule' : List Lexeme → α → Prop} (h : Recognizes p stop rule)
    (same : ∀ ls a, rule ls a ↔ rule' ls a) : Recognizes p stop rule' where
  sound := by
    intro ls a rest he
    obtain ⟨used, rfl, hused⟩ := h.sound he
    exact ⟨used, rfl, (same _ _).1 hused⟩
  complete := fun derived ahead => h.complete ((same _ _).2 derived) ahead

theorem before (h : Recognizes p stop rule) {a : α} (derived : rule used a) {l : Lexeme}
    (ends : stop l.token = true) (tail : List Lexeme) : p (used ++ l :: tail) = .ok (a, l :: tail) :=
  h.complete derived ((ahead_cons _ _ _).2 ends)

theorem map (h : Recognizes p stop rule) (f : α → β) :
    Recognizes (f <$> p) stop fun ls b => ∃ a, rule ls a ∧ f a = b where
  sound := by
    intro ls b rest he
    obtain ⟨a, ha, rfl⟩ := map_eq_ok_iff.1 he
    obtain ⟨used, rfl, hused⟩ := h.sound ha
    exact ⟨used, rfl, a, hused, rfl⟩
  complete := by
    rintro used b rest ⟨a, ha, rfl⟩ ahead
    exact map_eq_ok_iff.2 ⟨a, h.complete ha ahead, rfl⟩

theorem written {p : Parser Unit} {rule : List Lexeme → Prop}
    (h : Recognizes p stop fun ls _ => rule ls) :
    Recognizes (Parser.written p) stop fun ls s => rule ls ∧ s = spell ls where
  sound := by
    intro ls s rest he
    obtain ⟨⟨a, mid⟩, ha, hspelled⟩ := SchemaLint.bind_eq_ok_iff.1 he
    obtain ⟨rfl, rfl⟩ := Prod.mk.inj (Except.ok.inj hspelled)
    obtain ⟨used, rfl, hused⟩ := h.sound ha
    exact ⟨used, rfl, hused, by simp⟩
  complete := by
    rintro used s rest ⟨hused, rfl⟩ ahead
    refine SchemaLint.bind_eq_ok_iff.2 ⟨((), rest), h.complete hused ahead, ?_⟩
    have htaken : (used ++ rest).take ((used ++ rest).length - rest.length) = used := by simp
    exact congrArg (fun taken => Except.ok (spell taken, rest)) htaken

theorem afterOptional (h : Recognizes p stop rule) (test : Token → Bool)
    (begins : ∀ ls a, rule ls a → ∃ l tail, ls = l :: tail ∧ test l.token = false) :
    Recognizes (discard (accept test) >>= fun _ => p) stop fun ls a =>
      rule ls a ∨ ∃ l tail, ls = l :: tail ∧ test l.token = true ∧ rule tail a where
  sound := by
    intro ls a rest he
    obtain ⟨u, mid, hu, ha⟩ := bind_eq_ok_iff.1 he
    obtain ⟨b, hb⟩ := discard_eq_ok_iff.1 hu
    obtain ⟨used, rfl, hused⟩ := h.sound ha
    rcases accept_eq_ok_iff.1 hb with ⟨-, l, rfl, hl⟩ | ⟨-, rfl, -⟩
    · exact ⟨l :: used, rfl, .inr ⟨l, used, rfl, hl, hused⟩⟩
    · exact ⟨used, rfl, .inl hused⟩
  complete := by
    rintro used a rest (hused | ⟨l, tail, rfl, hl, htail⟩) ahead
    · have hnone : accept test (used ++ rest) = .ok (false, used ++ rest) := by
        obtain ⟨l, tail, rfl, hl⟩ := begins used a hused
        exact accept_eq_ok_iff.2 (.inr ⟨rfl, rfl, by simp [hl]⟩)
      exact bind_eq_ok_iff.2 ⟨(), _, discard_eq_ok_iff.2 ⟨_, hnone⟩, h.complete hused ahead⟩
    · have hsome : accept test (l :: tail ++ rest) = .ok (true, tail ++ rest) :=
        accept_eq_ok_iff.2 (.inl ⟨rfl, l, rfl, hl⟩)
      exact bind_eq_ok_iff.2 ⟨(), _, discard_eq_ok_iff.2 ⟨_, hsome⟩, h.complete htail ahead⟩

end Recognizes

section Separated

variable {mark : Char} {item : Parser α} {rule : List Lexeme → α → Prop}

private theorem separated_of_go (h : Recognizes item stop rule) (n : Nat) {as : List α}
    (he : separated.go mark item n ls = .ok (as, rest)) :
    ∃ used, ls = used ++ rest ∧ Separated mark rule used as := by
  induction n generalizing ls as with
  | zero =>
    unfold separated.go at he
    obtain ⟨a, mid, ha, hdone⟩ := bind_eq_ok_iff.1 he
    obtain ⟨rfl, rfl⟩ := pure_eq_ok_iff.1 hdone
    obtain ⟨used, rfl, hused⟩ := h.sound ha
    exact ⟨used, rfl, .last hused⟩
  | succ n ih =>
    unfold separated.go at he
    obtain ⟨a, mid, ha, hafter⟩ := bind_eq_ok_iff.1 he
    obtain ⟨used, rfl, hused⟩ := h.sound ha
    obtain ⟨more, behind, hmore, htail⟩ := bind_eq_ok_iff.1 hafter
    rcases accept_eq_ok_iff.1 hmore with ⟨rfl, l, rfl, hl⟩ | ⟨rfl, rfl, -⟩
    · obtain ⟨others, _, hothers, hdone⟩ := bind_eq_ok_iff.1 htail
      obtain ⟨rfl, rfl⟩ := pure_eq_ok_iff.1 hdone
      obtain ⟨used', rfl, hused'⟩ := ih hothers
      exact ⟨used ++ l :: used', by simp, .more hused hl hused'⟩
    · obtain ⟨rfl, rfl⟩ := pure_eq_ok_iff.1 htail
      exact ⟨used, rfl, .last hused⟩

private theorem go_of_separated (h : Recognizes item stop rule)
    (mark_stops : ∀ t, t.isSymbol mark = true → stop t = true) {as : List α}
    (derived : Separated mark rule used as)
    (ahead : Ahead (fun t => stop t && !t.isSymbol mark) rest) (n : Nat)
    (enough : used.length ≤ n) : separated.go mark item n (used ++ rest) = .ok (as, rest) := by
  induction derived generalizing n with
  | @last ls a only =>
    have ha := h.complete only (ahead.weaken fun t ht => (Bool.and_eq_true_iff.1 ht).1)
    have hnone : accept (·.isSymbol mark) rest = .ok (false, rest) :=
      accept_eq_ok_iff.2 (.inr ⟨rfl, rfl, ahead.weaken fun t ht => (Bool.and_eq_true_iff.1 ht).2⟩)
    cases n with
    | zero =>
      unfold separated.go
      rw [bind_of_eq_ok ha]
      rfl
    | succ n =>
      unfold separated.go
      rw [bind_of_eq_ok ha, bind_of_eq_ok hnone]
      rfl
  | @more ls ms l a as first joins others ih =>
    rw [List.length_append, List.length_cons] at enough
    obtain ⟨n, rfl⟩ : ∃ m, n = m + 1 := ⟨n - 1, by omega⟩
    have ha : item (ls ++ l :: (ms ++ rest)) = .ok (a, l :: (ms ++ rest)) :=
      h.complete first ((ahead_cons _ _ _).2 (mark_stops _ joins))
    have hmore : accept (·.isSymbol mark) (l :: (ms ++ rest)) = .ok (true, ms ++ rest) :=
      accept_eq_ok_iff.2 (.inl ⟨rfl, l, rfl, joins⟩)
    unfold separated.go
    rw [List.append_assoc, List.cons_append, bind_of_eq_ok ha, bind_of_eq_ok hmore, if_pos rfl,
      bind_of_eq_ok (ih n (by omega))]
    rfl

theorem Recognizes.separated (h : Recognizes item stop rule) (mark : Char)
    (mark_stops : ∀ t, t.isSymbol mark = true → stop t = true) :
    Recognizes (Parser.separated mark item) (fun t => stop t && !t.isSymbol mark)
      (Separated mark rule) where
  sound := separated_of_go h _
  complete := fun derived ahead => go_of_separated h mark_stops derived ahead _ (by simp)

end Separated

section Phrases

variable {item : Parser α} {rule : List Lexeme → α → Prop}

theorem Encloses.phrases {as : List α} {last : Token} (h : Encloses item ls as last rest)
    (sound : ∀ ls a rest, item ls = .ok (a, rest) → ∃ used, ls = used ++ rest ∧ rule used a) :
    ∃ used l, ls = used ++ l :: rest ∧ Phrases rule used as ∧ l.token.isSymbol '\x7d' = true ∧
      l.token = last := by
  induction h with
  | @close l rest closes => exact ⟨[], l, rfl, .nil, closes, rfl⟩
  | @skip k ls rest as last skips others ih =>
    obtain ⟨used, l, rfl, hused, hl, rfl⟩ := ih
    exact ⟨k :: used, l, rfl, .skip skips hused, hl, rfl⟩
  | @item ls mid rest a as last goes_on first shorter others ih =>
    obtain ⟨used, l, rfl, hused, hl, rfl⟩ := ih
    obtain ⟨run, rfl, hrun⟩ := sound _ _ _ first
    exact ⟨run ++ used, l, by simp, .cons hrun hused, hl, rfl⟩

theorem encloses_of_phrases {as : List α} (h : Phrases rule used as)
    (complete : ∀ ls a rest, rule ls a → item (ls ++ rest) = .ok (a, rest))
    (begins : ∀ ls a, rule ls a → ∃ l tail, ls = l :: tail ∧ l.token.isSymbol '\x7d' = false ∧
      l.token.isSymbol ';' = false)
    {l : Lexeme} (closes : l.token.isSymbol '\x7d' = true) :
    Encloses item (used ++ l :: rest) as l.token rest := by
  induction h with
  | nil => exact .close closes
  | skip semicolon others ih => exact .skip semicolon ih
  | @cons ls ms a as first others ih =>
    obtain ⟨k, tail, rfl, hclose, hskip⟩ := begins _ _ first
    rw [List.append_assoc]
    refine .item ?_ (complete _ _ _ first) ?_ ih
    · simp [hclose, hskip]
    · simp only [List.cons_append, List.length_cons, List.length_append]
      omega

end Phrases

end Parser

end SchemaLint
