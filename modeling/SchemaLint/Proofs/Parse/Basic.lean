import SchemaLint.Parse.Basic
import SchemaLint.Proofs.Outcome

/-!
# What parsers take

A parser that succeeds has taken some lexemes from the front.  It takes the same ones wherever they
stand in the text, and whatever follows them, as long as it is not one of them that the parser would
have taken too.
-/

set_option autoImplicit false
set_option relaxedAutoImplicit false

namespace SchemaLint

namespace Lexeme

def move (place : Position → Position) (l : Lexeme) : Lexeme :=
  ⟨l.gap, ⟨l.token.kind, l.token.text, place l.token.position⟩⟩

variable (place : Position → Position) (l : Lexeme)

@[simp] theorem move_gap : (l.move place).gap = l.gap := rfl

@[simp] theorem move_kind : (l.move place).token.kind = l.token.kind := rfl

@[simp] theorem move_text : (l.move place).token.text = l.token.text := rfl

@[simp] theorem move_position : (l.move place).token.position = place l.token.position := rfl

@[simp] theorem move_isSymbol (c : Char) :
    (l.move place).token.isSymbol c = l.token.isSymbol c := rfl

@[simp] theorem move_isWord (word : String) :
    (l.move place).token.isWord word = l.token.isWord word := rfl

@[simp] theorem move_unquoted : (l.move place).token.unquoted = l.token.unquoted := rfl

end Lexeme

namespace Parser

variable {α β : Type} {ls mid rest : List Lexeme}

theorem bind_eq_ok_iff {p : Parser α} {f : α → Parser β} {b : β} :
    (p >>= f) ls = .ok (b, rest) ↔ ∃ a mid, p ls = .ok (a, mid) ∧ f a mid = .ok (b, rest) := by
  simp only [bind, StateT.bind, Except.bind]
  cases hp : p ls with
  | error e => simp
  | ok r =>
    obtain ⟨a, mid⟩ := r
    constructor
    · exact fun h => ⟨a, mid, rfl, h⟩
    · rintro ⟨_, _, he, h⟩
      obtain ⟨rfl, rfl⟩ := Prod.mk.inj (Except.ok.inj he)
      exact h

theorem bind_of_eq_ok {p : Parser α} {a : α} (h : p ls = .ok (a, mid)) (f : α → Parser β) :
    (p >>= f) ls = f a mid := by
  simp only [bind, StateT.bind, Except.bind, h]

theorem pure_eq_ok_iff {a b : α} :
    (pure a : Parser α) ls = .ok (b, rest) ↔ a = b ∧ ls = rest := by
  show Except.ok (a, ls) = .ok (b, rest) ↔ _
  rw [Except.ok.injEq, Prod.mk.injEq]

theorem map_eq_ok_iff {p : Parser α} {f : α → β} {b : β} :
    (f <$> p) ls = .ok (b, rest) ↔ ∃ a, p ls = .ok (a, rest) ∧ f a = b := by
  simp only [Functor.map, StateT.map, bind, Except.bind, pure, Except.pure]
  cases hp : p ls with
  | error e => simp
  | ok r =>
    obtain ⟨a, mid⟩ := r
    simp only [Except.ok.injEq, Prod.mk.injEq]
    constructor
    · rintro ⟨rfl, rfl⟩
      exact ⟨a, ⟨rfl, rfl⟩, rfl⟩
    · rintro ⟨a, ⟨rfl, rfl⟩, rfl⟩
      exact ⟨rfl, rfl⟩

theorem discard_eq_ok_iff {p : Parser α} {u : Unit} :
    (discard p : Parser Unit) ls = .ok (u, rest) ↔ ∃ a, p ls = .ok (a, rest) := by
  cases u
  refine (map_eq_ok_iff (f := Function.const α ())).trans ?_
  simp

theorem satisfy_eq_ok_iff {what : String} {test : Token → Bool} {t : Token} :
    satisfy what test ls = .ok (t, rest) ↔
      ∃ l, ls = l :: rest ∧ test l.token = true ∧ l.token = t := by
  cases ls with
  | nil => simp [satisfy]
  | cons l ls =>
    simp only [satisfy, List.cons.injEq]
    split
    · rename_i h
      constructor
      · intro he
        obtain ⟨rfl, rfl⟩ : l.token = t ∧ ls = rest := by simpa using he
        exact ⟨l, ⟨rfl, rfl⟩, h, rfl⟩
      · rintro ⟨_, ⟨rfl, rfl⟩, -, rfl⟩
        rfl
    · rename_i h
      constructor
      · simp
      · rintro ⟨_, ⟨rfl, -⟩, ht, -⟩
        exact absurd ht h

def Ahead (stop : Token → Bool) (rest : List Lexeme) : Prop :=
  rest.head?.all (fun l => stop l.token) = true

@[simp] theorem ahead_cons (stop : Token → Bool) (l : Lexeme) (ls : List Lexeme) :
    Ahead stop (l :: ls) ↔ stop l.token = true := by
  simp [Ahead]

@[simp] theorem ahead_true (rest : List Lexeme) : Ahead (fun _ => true) rest := by
  cases rest <;> simp [Ahead]

theorem accept_eq_ok_iff {test : Token → Bool} {b : Bool} :
    accept test ls = .ok (b, rest) ↔
      (b = true ∧ ∃ l, ls = l :: rest ∧ test l.token = true) ∨
        (b = false ∧ ls = rest ∧ Ahead (fun t => !test t) ls) := by
  cases ls with
  | nil =>
    simp only [accept]
    constructor
    · intro h
      obtain ⟨rfl, rfl⟩ : false = b ∧ [] = rest := by simpa using h
      exact .inr ⟨rfl, rfl, rfl⟩
    · rintro (⟨-, l, hl, -⟩ | ⟨rfl, rfl, -⟩)
      · simp at hl
      · rfl
  | cons l ls =>
    simp only [accept]
    split
    · rename_i h
      constructor
      · intro he
        obtain ⟨rfl, rfl⟩ : true = b ∧ ls = rest := by simpa using he
        exact .inl ⟨rfl, l, rfl, h⟩
      · rintro (⟨rfl, _, hl, -⟩ | ⟨-, -, ht⟩)
        · simp_all
        · simp [h] at ht
    · rename_i h
      constructor
      · intro he
        obtain ⟨rfl, rfl⟩ : false = b ∧ l :: ls = rest := by simpa using he
        exact .inr ⟨rfl, rfl, by simpa using h⟩
      · rintro (⟨-, _, hl, ht⟩ | ⟨rfl, rfl, -⟩)
        · simp_all
        · rfl

theorem look_apply (ahead : Nat) (ls : List Lexeme) :
    look ahead ls = .ok ((ls[ahead]?).map Lexeme.token, ls) := rfl

theorem sees_apply (test : Token → Bool) (ls : List Lexeme) :
    sees test ls = .ok (ls.head?.any (test ·.token), ls) := by
  cases ls <;> rfl

/-- A parser makes a value of some lexemes wherever they stand, before anything that passes a
test. -/
def Reads (p : Parser α) (stop : Token → Bool) (used : List Lexeme) (a : α) : Prop :=
  ∀ place rest, Ahead stop rest → p (used.map (Lexeme.move place) ++ rest) = .ok (a, rest)

/-- Whatever a parser takes, it takes just so elsewhere. -/
def IsLocal (p : Parser α) (stop : Token → Bool) : Prop :=
  ∀ ls a rest, p ls = .ok (a, rest) → ∃ used, ls = used ++ rest ∧ Reads p stop used a

theorem Reads.weaken {p : Parser α} {stop stop' : Token → Bool} {used : List Lexeme} {a : α}
    (h : Reads p stop used a) (weaker : ∀ t, stop' t = true → stop t = true) :
    Reads p stop' used a := by
  intro place rest ahead
  refine h place rest ?_
  cases rest with
  | nil => rfl
  | cons l rest => simpa using weaker l.token (by simpa using ahead)

theorem IsLocal.map {p : Parser α} {stop : Token → Bool} (h : IsLocal p stop) (f : α → β) :
    IsLocal (f <$> p) stop := by
  intro ls b rest he
  obtain ⟨a, ha, rfl⟩ := map_eq_ok_iff.1 he
  obtain ⟨used, rfl, hread⟩ := h ls a rest ha
  exact ⟨used, rfl, fun place rest ahead => map_eq_ok_iff.2 ⟨a, hread place rest ahead, rfl⟩⟩

def Progresses (p : Parser α) : Prop :=
  ∀ ls a rest, p ls = .ok (a, rest) → rest.length < ls.length

def Starts (p : Parser α) (test : Token → Bool) : Prop :=
  ∀ ls a rest, p ls = .ok (a, rest) → ∃ l tail, ls = l :: tail ∧ test l.token = true

def IsPlain (f : Token → α) : Prop :=
  ∀ (t : Token) (p : Position), f { t with position := p } = f t

theorem Starts.bind {p : Parser α} {test : Token → Bool} (h : Starts p test)
    (f : α → Parser β) : Starts (p >>= f) test := by
  intro ls b rest he
  obtain ⟨a, mid, ha, -⟩ := bind_eq_ok_iff.1 he
  exact h ls a mid ha

theorem starts_satisfy {what : String} {test weaker : Token → Bool}
    (h : ∀ t, test t = true → weaker t = true) : Starts (satisfy what test) weaker := by
  intro ls t rest he
  obtain ⟨l, rfl, hl, rfl⟩ := satisfy_eq_ok_iff.1 he
  exact ⟨l, rest, rfl, h _ hl⟩

theorem Starts.discard {p : Parser α} {test : Token → Bool} (h : Starts p test) :
    Starts (discard p : Parser Unit) test := by
  intro ls u rest he
  obtain ⟨a, ha⟩ := discard_eq_ok_iff.1 he
  exact h ls a rest ha

theorem progresses_satisfy (what : String) (test : Token → Bool) :
    Progresses (satisfy what test) := by
  intro ls t rest he
  obtain ⟨l, rfl, -, -⟩ := satisfy_eq_ok_iff.1 he
  simp

theorem Progresses.map {p : Parser α} (h : Progresses p) (f : α → β) : Progresses (f <$> p) := by
  intro ls b rest he
  obtain ⟨a, ha, -⟩ := map_eq_ok_iff.1 he
  exact h ls a rest ha

theorem Progresses.bind_pure {p : Parser α} (h : Progresses p) (f : α → β) :
    Progresses (p >>= fun a => pure (f a)) :=
  h.map f

theorem Progresses.discard {p : Parser α} (h : Progresses p) :
    Progresses (discard p : Parser Unit) := by
  intro ls u rest he
  obtain ⟨a, ha⟩ := discard_eq_ok_iff.1 he
  exact h ls a rest ha

theorem IsLocal.length_le {p : Parser α} {stop : Token → Bool} (h : IsLocal p stop) {a : α}
    (he : p ls = .ok (a, rest)) : rest.length ≤ ls.length := by
  obtain ⟨used, rfl, -⟩ := h ls a rest he
  simp

theorem Progresses.bind {p : Parser α} (h : Progresses p) {f : α → Parser β}
    {stop : Token → Bool} (hf : ∀ a, IsLocal (f a) stop) : Progresses (p >>= f) := by
  intro ls b rest he
  obtain ⟨a, mid, ha, hb⟩ := bind_eq_ok_iff.1 he
  exact Nat.lt_of_le_of_lt ((hf a).length_le hb) (h ls a mid ha)

theorem IsLocal.weaken {p : Parser α} {stop stop' : Token → Bool} (h : IsLocal p stop)
    (weaker : ∀ t, stop' t = true → stop t = true) : IsLocal p stop' := by
  intro ls a rest he
  obtain ⟨used, rfl, hread⟩ := h ls a rest he
  exact ⟨used, rfl, hread.weaken weaker⟩

theorem IsLocal.bind_pure {p : Parser α} {stop : Token → Bool} (h : IsLocal p stop) (f : α → β) :
    IsLocal (p >>= fun a => pure (f a)) stop :=
  h.map f

theorem isLocal_pure (a : α) : IsLocal (pure a : Parser α) fun _ => true := by
  intro ls b rest he
  obtain ⟨rfl, rfl⟩ := pure_eq_ok_iff.1 he
  exact ⟨[], rfl, fun place rest _ => rfl⟩

theorem IsLocal.bind {p : Parser α} {stop : Token → Bool} (h : IsLocal p stop)
    {f : α → Parser β} {stop' : Token → Bool} (hf : ∀ a, IsLocal (f a) stop')
    (starts : ∀ a, Starts (f a) stop) : IsLocal (p >>= f) stop' := by
  intro ls b rest he
  obtain ⟨a, mid, ha, hb⟩ := bind_eq_ok_iff.1 he
  obtain ⟨used, rfl, hread⟩ := h ls a mid ha
  obtain ⟨used', rfl, hread'⟩ := hf a mid b rest hb
  refine ⟨used ++ used', by simp, fun place rest ahead => ?_⟩
  have hsecond := hread' place rest ahead
  obtain ⟨l, tail, hl, hstop⟩ := starts a _ _ _ hsecond
  have hfirst := hread place (used'.map (Lexeme.move place) ++ rest)
    (by rw [hl, ahead_cons]; exact hstop)
  rw [List.map_append, List.append_assoc]
  exact bind_eq_ok_iff.2 ⟨a, _, hfirst, hsecond⟩

theorem IsLocal.bind_any {p : Parser α} (h : IsLocal p fun _ => true) {f : α → Parser β}
    {stop : Token → Bool} (hf : ∀ a, IsLocal (f a) stop) : IsLocal (p >>= f) stop := by
  intro ls b rest he
  obtain ⟨a, mid, ha, hb⟩ := bind_eq_ok_iff.1 he
  obtain ⟨used, rfl, hread⟩ := h ls a mid ha
  obtain ⟨used', rfl, hread'⟩ := hf a mid b rest hb
  refine ⟨used ++ used', by simp, fun place rest ahead => ?_⟩
  have hfirst := hread place (used'.map (Lexeme.move place) ++ rest) (ahead_true _)
  rw [List.map_append, List.append_assoc]
  exact bind_eq_ok_iff.2 ⟨a, _, hfirst, hread' place rest ahead⟩

theorem IsLocal.satisfy_bind {what : String} {test : Token → Bool} (plain : IsPlain test)
    {f : Token → Parser β} (f_plain : IsPlain f) {stop : Token → Bool}
    (hf : ∀ t, IsLocal (f t) stop) : IsLocal (satisfy what test >>= f) stop := by
  intro ls b rest he
  obtain ⟨t, mid, ht, hb⟩ := bind_eq_ok_iff.1 he
  obtain ⟨l, rfl, hl, rfl⟩ := satisfy_eq_ok_iff.1 ht
  obtain ⟨used, rfl, hread⟩ := hf _ _ _ _ hb
  refine ⟨l :: used, rfl, fun place rest ahead => ?_⟩
  have hmoved : test (l.move place).token = true := (plain l.token _).trans hl
  refine bind_eq_ok_iff.2 ⟨_, _, satisfy_eq_ok_iff.2 ⟨_, rfl, hmoved, rfl⟩, ?_⟩
  have hsame : f (l.move place).token = f l.token := f_plain l.token _
  rw [hsame]
  exact hread place rest ahead

theorem isLocal_map_satisfy (what : String) {test : Token → Bool} (plain : IsPlain test)
    {f : Token → α} (f_plain : IsPlain f) : IsLocal (f <$> satisfy what test) fun _ => true := by
  intro ls a rest he
  obtain ⟨t, ht, rfl⟩ := map_eq_ok_iff.1 he
  obtain ⟨l, rfl, hl, rfl⟩ := satisfy_eq_ok_iff.1 ht
  refine ⟨[l], rfl, fun place rest _ => ?_⟩
  have hmoved : test (l.move place).token = true := (plain l.token _).trans hl
  exact map_eq_ok_iff.2 ⟨_, satisfy_eq_ok_iff.2 ⟨_, rfl, hmoved, rfl⟩, f_plain l.token _⟩

theorem isLocal_discard_satisfy (what : String) {test : Token → Bool} (plain : IsPlain test) :
    IsLocal (discard (satisfy what test) : Parser Unit) fun _ => true :=
  isLocal_map_satisfy what plain fun _ _ => rfl

theorem accept_again {test : Token → Bool} (plain : IsPlain test) {used : List Lexeme}
    (none : Ahead (fun t => !test t) (used ++ mid)) (place : Position → Position)
    (again : used = [] → Ahead (fun t => !test t) rest) :
    accept test (used.map (Lexeme.move place) ++ rest) =
      .ok (false, used.map (Lexeme.move place) ++ rest) := by
  refine accept_eq_ok_iff.2 (.inr ⟨rfl, rfl, ?_⟩)
  cases used with
  | nil => exact again rfl
  | cons l used =>
    have hl : test (l.move place).token = test l.token := plain l.token _
    simpa [hl] using none

theorem IsLocal.ne_nil {p : Parser α} (h : Progresses p) {used : List Lexeme} {a : α}
    (he : p (used ++ rest) = .ok (a, rest)) : used ≠ [] := by
  rintro rfl
  exact Nat.lt_irrefl _ (h _ _ _ he)

theorem IsLocal.ifAccept {test : Token → Bool} (plain : IsPlain test) {p q : Parser α}
    {stop : Token → Bool} (hp : IsLocal p stop) (hq : IsLocal q stop)
    (sees : Progresses q ∨ ∀ t, stop t = true → test t = false) :
    IsLocal (accept test >>= fun b => if b = true then p else q) stop := by
  intro ls a rest he
  obtain ⟨b, mid, hb, ha⟩ := bind_eq_ok_iff.1 he
  rcases accept_eq_ok_iff.1 hb with ⟨rfl, l, rfl, hl⟩ | ⟨rfl, rfl, hnone⟩
  · obtain ⟨used, rfl, hread⟩ := hp _ _ _ ha
    refine ⟨l :: used, rfl, fun place rest ahead => ?_⟩
    have hmoved : test (l.move place).token = true := (plain l.token _).trans hl
    exact bind_eq_ok_iff.2 ⟨true, _, accept_eq_ok_iff.2 (.inl ⟨rfl, _, rfl, hmoved⟩),
      hread place rest ahead⟩
  · obtain ⟨used, rfl, hread⟩ := hq _ _ _ ha
    refine ⟨used, rfl, fun place rest' ahead => ?_⟩
    refine bind_eq_ok_iff.2 ⟨false, _, accept_again plain hnone place ?_, hread place rest' ahead⟩
    intro hnil
    rcases sees with hprogress | hstop
    · exact absurd hnil (IsLocal.ne_nil hprogress ha)
    · cases rest' with
      | nil => rfl
      | cons l rest' => simpa using hstop l.token (by simpa using ahead)

theorem IsLocal.ifSees {test : Token → Bool} (plain : IsPlain test) {p q : Parser α}
    {stop : Token → Bool} (hp : IsLocal p stop) (hq : IsLocal q stop) (p_progresses : Progresses p)
    (q_progresses : Progresses q) :
    IsLocal (sees test >>= fun b => if b = true then p else q) stop := by
  have same : ∀ (used rest rest' : List Lexeme) (place : Position → Position), used ≠ [] →
      (used.map (Lexeme.move place) ++ rest').head?.any (test ·.token) =
        (used ++ rest).head?.any (test ·.token) := by
    intro used rest rest' place hne
    obtain ⟨l, used, rfl⟩ := List.exists_cons_of_ne_nil hne
    exact plain l.token _
  intro ls a rest he
  rw [bind_of_eq_ok (sees_apply test ls)] at he
  split at he
  · rename_i hsees
    obtain ⟨used, rfl, hread⟩ := hp ls a rest he
    refine ⟨used, rfl, fun place rest' ahead => ?_⟩
    rw [bind_of_eq_ok (sees_apply _ _),
      same used rest rest' place (IsLocal.ne_nil p_progresses he), if_pos hsees]
    exact hread place rest' ahead
  · rename_i hsees
    obtain ⟨used, rfl, hread⟩ := hq ls a rest he
    refine ⟨used, rfl, fun place rest' ahead => ?_⟩
    rw [bind_of_eq_ok (sees_apply _ _),
      same used rest rest' place (IsLocal.ne_nil q_progresses he), if_neg hsees]
    exact hread place rest' ahead

theorem Progresses.ifSees {test : Token → Bool} {p q : Parser α} (hp : Progresses p)
    (hq : Progresses q) : Progresses (sees test >>= fun b => if b = true then p else q) := by
  intro ls a rest he
  rw [bind_of_eq_ok (sees_apply test ls)] at he
  split at he
  · exact hp ls a rest he
  · exact hq ls a rest he

theorem Progresses.ifAccept {test : Token → Bool} {p q : Parser α} {stop : Token → Bool}
    (hp : IsLocal p stop) (hq : Progresses q) :
    Progresses (accept test >>= fun b => if b = true then p else q) := by
  intro ls a rest he
  obtain ⟨b, mid, hb, ha⟩ := bind_eq_ok_iff.1 he
  rcases accept_eq_ok_iff.1 hb with ⟨rfl, l, rfl, -⟩ | ⟨rfl, rfl, -⟩
  · exact Nat.lt_succ_of_le (hp.length_le ha)
  · exact hq _ _ _ ha

theorem Progresses.afterOptional {test : Token → Bool} {p : Parser α} (h : Progresses p) :
    Progresses (Functor.discard (accept test) >>= fun _ => p) := by
  intro ls a rest he
  obtain ⟨u, mid, hu, ha⟩ := bind_eq_ok_iff.1 he
  obtain ⟨b, hb⟩ := discard_eq_ok_iff.1 hu
  have hlt := h _ _ _ ha
  rcases accept_eq_ok_iff.1 hb with ⟨rfl, l, rfl, -⟩ | ⟨rfl, rfl, -⟩
  · exact Nat.lt_succ_of_lt hlt
  · exact hlt

theorem IsLocal.afterOptional {test : Token → Bool} (plain : IsPlain test) {p : Parser α}
    {stop : Token → Bool} (hp : IsLocal p stop) (progresses : Progresses p) :
    IsLocal (discard (accept test) >>= fun _ => p) stop := by
  have same : (discard (accept test) >>= fun _ => p) =
      (accept test >>= fun b => if b = true then p else p) := by
    funext ls
    obtain ⟨b, mid, hb⟩ : ∃ b mid, accept test ls = .ok (b, mid) := by
      cases ls with
      | nil => exact ⟨_, _, rfl⟩
      | cons l ls =>
        by_cases hl : test l.token = true
        · exact ⟨_, _, if_pos hl⟩
        · exact ⟨_, _, if_neg hl⟩
    have hdiscard : (discard (accept test) : Parser Unit) ls = .ok ((), mid) :=
      discard_eq_ok_iff.2 ⟨b, hb⟩
    rw [bind_of_eq_ok hdiscard, bind_of_eq_ok hb, ite_self]
  rw [same]
  exact hp.ifAccept plain hp (.inl progresses)

private theorem separated_single {mark : Char} {item : Parser α} {stop : Token → Bool}
    {used : List Lexeme} {a : α} (h : Reads item stop used a) (place : Position → Position)
    (n : Nat) (ahead : Ahead (fun t => stop t && !t.isSymbol mark) rest) :
    separated.go mark item n (used.map (Lexeme.move place) ++ rest) = .ok ([a], rest) := by
  have hitem : Ahead stop rest := by
    cases rest with
    | nil => rfl
    | cons l rest => simp_all
  have hnone : accept (·.isSymbol mark) rest = .ok (false, rest) := by
    refine accept_eq_ok_iff.2 (.inr ⟨rfl, rfl, ?_⟩)
    cases rest with
    | nil => rfl
    | cons l rest => simp_all
  cases n with
  | zero =>
    unfold separated.go
    rw [bind_of_eq_ok (h place rest hitem)]
    rfl
  | succ n =>
    unfold separated.go
    rw [bind_of_eq_ok (h place rest hitem), bind_of_eq_ok hnone]
    rfl

private theorem separated_go {mark : Char} {item : Parser α} {stop : Token → Bool}
    (h : IsLocal item stop) (mark_stops : ∀ t, t.isSymbol mark = true → stop t = true) (n : Nat)
    {as : List α} (he : separated.go mark item n ls = .ok (as, rest)) :
    ∃ used, ls = used ++ rest ∧ ∀ place m rest', used.length ≤ m →
      Ahead (fun t => stop t && !t.isSymbol mark) rest' →
        separated.go mark item m (used.map (Lexeme.move place) ++ rest') = .ok (as, rest') := by
  induction n generalizing ls as with
  | zero =>
    unfold separated.go at he
    obtain ⟨a, mid, ha, he⟩ := bind_eq_ok_iff.1 he
    obtain ⟨rfl, rfl⟩ := pure_eq_ok_iff.1 he
    obtain ⟨used, rfl, hread⟩ := h ls a mid ha
    exact ⟨used, rfl, fun place m rest' _ ahead => separated_single hread place m ahead⟩
  | succ n ih =>
    unfold separated.go at he
    obtain ⟨a, mid, ha, hafter⟩ := bind_eq_ok_iff.1 he
    obtain ⟨more, behind, hmore, htail⟩ := bind_eq_ok_iff.1 hafter
    obtain ⟨used, rfl, hread⟩ := h ls a mid ha
    rcases accept_eq_ok_iff.1 hmore with ⟨rfl, l, rfl, hl⟩ | ⟨rfl, rfl, -⟩
    · obtain ⟨others, _, hothers, hlast⟩ := bind_eq_ok_iff.1 htail
      obtain ⟨rfl, rfl⟩ := pure_eq_ok_iff.1 hlast
      obtain ⟨used', rfl, hgo⟩ := ih hothers
      refine ⟨used ++ l :: used', by simp, ?_⟩
      intro place m rest' hm ahead
      obtain ⟨m, rfl⟩ : ∃ k, m = k + 1 := ⟨m - 1, by simp at hm; omega⟩
      have hm' : used'.length ≤ m := by
        simp only [List.length_append, List.length_cons] at hm
        omega
      have htail := hgo place m rest' hm' ahead
      have hitem := hread place (l.move place :: (used'.map (Lexeme.move place) ++ rest'))
        ((ahead_cons _ _ _).2 (mark_stops _ hl))
      have haccept : accept (·.isSymbol mark)
          (l.move place :: (used'.map (Lexeme.move place) ++ rest')) =
          .ok (true, used'.map (Lexeme.move place) ++ rest') :=
        accept_eq_ok_iff.2 (.inl ⟨rfl, _, rfl, hl⟩)
      rw [List.map_append, List.map_cons, List.append_assoc, List.cons_append]
      unfold separated.go
      rw [bind_of_eq_ok hitem, bind_of_eq_ok haccept, if_pos rfl, bind_of_eq_ok htail]
      rfl
    · obtain ⟨rfl, rfl⟩ := pure_eq_ok_iff.1 htail
      exact ⟨used, rfl, fun place m rest' _ ahead => separated_single hread place m ahead⟩

theorem IsLocal.separated {mark : Char} {item : Parser α} {stop : Token → Bool}
    (h : IsLocal item stop) (mark_stops : ∀ t, t.isSymbol mark = true → stop t = true) :
    IsLocal (Parser.separated mark item) fun t => stop t && !t.isSymbol mark := by
  intro ls as rest he
  obtain ⟨used, rfl, hgo⟩ := separated_go h mark_stops _ he
  refine ⟨used, rfl, fun place rest ahead => hgo place _ rest ?_ ahead⟩
  simp

private theorem length_lt_of_separated_go {mark : Char} {item : Parser α} (h : Progresses item)
    (n : Nat) {as : List α} (he : separated.go mark item n ls = .ok (as, rest)) :
    rest.length < ls.length := by
  induction n generalizing ls as with
  | zero =>
    unfold separated.go at he
    obtain ⟨a, mid, ha, hdone⟩ := bind_eq_ok_iff.1 he
    obtain ⟨-, rfl⟩ := pure_eq_ok_iff.1 hdone
    exact h ls a mid ha
  | succ n ih =>
    unfold separated.go at he
    obtain ⟨a, mid, ha, hafter⟩ := bind_eq_ok_iff.1 he
    obtain ⟨more, behind, hmore, htail⟩ := bind_eq_ok_iff.1 hafter
    have hfirst := h ls a mid ha
    rcases accept_eq_ok_iff.1 hmore with ⟨rfl, l, rfl, -⟩ | ⟨rfl, rfl, -⟩
    · obtain ⟨others, _, hothers, hlast⟩ := bind_eq_ok_iff.1 htail
      obtain ⟨-, rfl⟩ := pure_eq_ok_iff.1 hlast
      have hlt := ih hothers
      simp only [List.length_cons] at hfirst
      omega
    · obtain ⟨-, rfl⟩ := pure_eq_ok_iff.1 htail
      exact hfirst

theorem Progresses.separated {mark : Char} {item : Parser α} (h : Progresses item) :
    Progresses (Parser.separated mark item) :=
  fun _ _ _ he => length_lt_of_separated_go h _ he

theorem Progresses.written {p : Parser α} (h : Progresses p) : Progresses (Parser.written p) := by
  intro ls s rest he
  obtain ⟨⟨a, mid⟩, ha, hspelled⟩ := SchemaLint.bind_eq_ok_iff.1 he
  obtain ⟨-, rfl⟩ := Prod.mk.inj (Except.ok.inj hspelled)
  exact h ls a mid ha

theorem spell_map_move (place : Position → Position) (ls : List Lexeme) :
    spell (ls.map (Lexeme.move place)) = spell ls := by
  cases ls with
  | nil => rfl
  | cons l ls => simp [spell, Function.comp_def]

theorem IsLocal.written {p : Parser α} {stop : Token → Bool} (h : IsLocal p stop) :
    IsLocal (Parser.written p) stop := by
  have taken : ∀ used rest : List Lexeme,
      (used ++ rest).take ((used ++ rest).length - rest.length) = used := by
    intro used rest
    simp
  intro ls s rest he
  obtain ⟨⟨a, mid⟩, ha, hspelled⟩ := SchemaLint.bind_eq_ok_iff.1 he
  obtain ⟨rfl, rfl⟩ := Prod.mk.inj (Except.ok.inj hspelled)
  obtain ⟨used, rfl, hread⟩ := h ls a mid ha
  refine ⟨used, rfl, fun place rest ahead => ?_⟩
  have again : Parser.written p (used.map (Lexeme.move place) ++ rest) =
      .ok (spell ((used.map (Lexeme.move place) ++ rest).take
        ((used.map (Lexeme.move place) ++ rest).length - rest.length)), rest) :=
    SchemaLint.bind_eq_ok_iff.2 ⟨_, hread place rest ahead, rfl⟩
  rw [again, taken, taken, spell_map_move]

/-- Items up to a closing brace, read one by one: what is taken, without a bound on how much. -/
inductive Encloses (item : Parser α) : List Lexeme → List α → Token → List Lexeme → Prop
  | close {l : Lexeme} {rest : List Lexeme} (closes : l.token.isSymbol '\x7d' = true) :
      Encloses item (l :: rest) [] l.token rest
  | skip {l : Lexeme} {ls rest : List Lexeme} {as : List α} {last : Token}
      (skips : l.token.isSymbol ';' = true) (others : Encloses item ls as last rest) :
      Encloses item (l :: ls) as last rest
  | item {ls mid rest : List Lexeme} {a : α} {as : List α} {last : Token}
      (goes_on : Ahead (fun t => !t.isSymbol '\x7d' && !t.isSymbol ';') ls)
      (first : item ls = .ok (a, mid)) (shorter : mid.length < ls.length)
      (others : Encloses item mid as last rest) : Encloses item ls (a :: as) last rest

private theorem encloses_of_go {item : Parser α} (progresses : Progresses item) (n : Nat)
    {as : List α} {last : Token} (h : enclosed.go item n ls = .ok ((as, last), rest)) :
    Encloses item ls as last rest := by
  induction n generalizing ls as with
  | zero => simp [enclosed.go] at h
  | succ n ih =>
    unfold enclosed.go at h
    rw [bind_of_eq_ok (sees_apply _ ls)] at h
    split at h
    · obtain ⟨t, mid, ht, hdone⟩ := bind_eq_ok_iff.1 h
      obtain ⟨l, rfl, hl, rfl⟩ := satisfy_eq_ok_iff.1 ht
      obtain ⟨he, rfl⟩ := pure_eq_ok_iff.1 hdone
      obtain ⟨rfl, rfl⟩ := Prod.mk.inj he
      exact .close hl
    · rename_i hopen
      obtain ⟨skipped, mid, hskip, hafter⟩ := bind_eq_ok_iff.1 h
      rcases accept_eq_ok_iff.1 hskip with ⟨rfl, l, rfl, hl⟩ | ⟨rfl, rfl, hnone⟩
      · exact .skip hl (ih hafter)
      · obtain ⟨a, mid, ha, hothers⟩ := bind_eq_ok_iff.1 hafter
        obtain ⟨⟨others, t⟩, _, hgo, hdone⟩ := bind_eq_ok_iff.1 hothers
        obtain ⟨he, rfl⟩ := pure_eq_ok_iff.1 hdone
        obtain ⟨rfl, rfl⟩ := Prod.mk.inj he
        refine .item ?_ ha (progresses _ _ _ ha) (ih hgo)
        cases ls with
        | nil => rfl
        | cons l ls => simp_all [Ahead]

private theorem go_of_encloses {item : Parser α} {as : List α} {last : Token}
    (h : Encloses item ls as last rest) (n : Nat) (enough : ls.length ≤ n) :
    enclosed.go item n ls = .ok ((as, last), rest) := by
  induction h generalizing n with
  | @close l rest closes =>
    obtain ⟨n, rfl⟩ : ∃ m, n = m + 1 := ⟨n - 1, by simp at enough; omega⟩
    have hclose : symbol '\x7d' (l :: rest) = .ok (l.token, rest) :=
      satisfy_eq_ok_iff.2 ⟨l, rfl, closes, rfl⟩
    unfold enclosed.go
    rw [bind_of_eq_ok (sees_apply _ _), if_pos (by simpa using closes), bind_of_eq_ok hclose]
    rfl
  | @skip l ls rest as last skips others ih =>
    obtain ⟨n, rfl⟩ : ∃ m, n = m + 1 := ⟨n - 1, by simp at enough; omega⟩
    have hopen : l.token.isSymbol '\x7d' = false := by
      simp_all [Token.isSymbol]
    have hskip : accept (·.isSymbol ';') (l :: ls) = .ok (true, ls) :=
      accept_eq_ok_iff.2 (.inl ⟨rfl, l, rfl, skips⟩)
    unfold enclosed.go
    rw [bind_of_eq_ok (sees_apply _ _), if_neg (by simp [hopen]), bind_of_eq_ok hskip, if_pos rfl]
    exact ih n (by simpa using enough)
  | @item ls mid rest a as last goes_on first shorter others ih =>
    obtain ⟨n, rfl⟩ : ∃ m, n = m + 1 := ⟨n - 1, by omega⟩
    have hhead : ls.head?.any (·.token.isSymbol '\x7d') = false ∧
        ls.head?.all (!·.token.isSymbol ';') = true := by
      cases ls with
      | nil => exact ⟨rfl, rfl⟩
      | cons l ls => simp_all [Ahead]
    have hskip : accept (·.isSymbol ';') ls = .ok (false, ls) :=
      accept_eq_ok_iff.2 (.inr ⟨rfl, rfl, hhead.2⟩)
    unfold enclosed.go
    rw [bind_of_eq_ok (sees_apply _ _), if_neg (by simp [hhead.1]), bind_of_eq_ok hskip,
      if_neg (by simp), bind_of_eq_ok first, bind_of_eq_ok (ih n (by omega))]
    rfl

/-- The bound on the number of items is never reached. -/
theorem enclosed_eq_ok_iff {item : Parser α} (progresses : Progresses item) {as : List α}
    {last : Token} :
    enclosed item ls = .ok ((as, last), rest) ↔ Encloses item ls as last rest :=
  ⟨encloses_of_go progresses _, fun h => go_of_encloses h _ (Nat.le_refl _)⟩

end Parser

end SchemaLint
