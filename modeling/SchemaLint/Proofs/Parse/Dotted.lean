import SchemaLint.Proofs.Parse.Words

/-!
# Dotted names as lexemes

A dotted name is a row of identifiers with a point between each two.  Other identifiers in their
place make another dotted name.
-/

set_option autoImplicit false
set_option relaxedAutoImplicit false

namespace SchemaLint

namespace Lexeme

/-- A lexeme with another identifier, if it is one. -/
def reword (f : String → String) (l : Lexeme) : Lexeme :=
  if l.token.kind = .identifier then ⟨l.gap, { l.token with text := f l.token.text }⟩ else l

theorem reword_of_identifier {l : Lexeme} (h : l.token.kind = .identifier) (f : String → String) :
    l.reword f = ⟨l.gap, { l.token with text := f l.token.text }⟩ := if_pos h

theorem reword_text {l : Lexeme} (h : l.token.kind = .identifier) (f : String → String) :
    (l.reword f).token.text = f l.token.text := by
  rw [reword_of_identifier h]

theorem text_move_reword {l : Lexeme} (h : l.token.kind = .identifier) (f : String → String)
    (place : Position → Position) : ((l.reword f).move place).token.text = f l.token.text :=
  reword_text h f

theorem reword_of_ne {l : Lexeme} (h : l.token.kind ≠ .identifier) (f : String → String) :
    l.reword f = l := if_neg h

@[simp] theorem reword_kind (f : String → String) (l : Lexeme) :
    (l.reword f).token.kind = l.token.kind := by
  unfold reword
  split <;> rfl

@[simp] theorem reword_gap (f : String → String) (l : Lexeme) : (l.reword f).gap = l.gap := by
  unfold reword
  split <;> rfl

@[simp] theorem reword_position (f : String → String) (l : Lexeme) :
    (l.reword f).token.position = l.token.position := by
  unfold reword
  split <;> rfl

@[simp] theorem reword_isSymbol (f : String → String) (l : Lexeme) (c : Char) :
    (l.reword f).token.isSymbol c = l.token.isSymbol c := by
  unfold reword
  split
  · rename_i h
    simp [Token.isSymbol, h]
  · rfl

theorem map_reword_of_kept {f : String → String} (kept : ∀ t, f t = t) (run : List Lexeme) :
    run.map (reword f) = run := by
  have hid : reword f = id := by
    funext l
    unfold reword
    rw [kept]
    split <;> rfl
  rw [hid, List.map_id]

end Lexeme

namespace Parser

/-- Some lexemes spell identifiers with points between them. -/
inductive Dotted : List Lexeme → List String → Prop
  | last {l : Lexeme} (word : l.token.kind = .identifier) : Dotted [l] [l.token.text]
  | more {l point : Lexeme} {ls : List Lexeme} {names : List String}
      (word : l.token.kind = .identifier) (joins : point.token.isSymbol '.' = true)
      (others : Dotted ls names) : Dotted (l :: point :: ls) (l.token.text :: names)

variable {ls run rest : List Lexeme} {names : List String}

theorem identifier_eq_ok_iff {name : String} :
    identifier ls = .ok (name, rest) ↔
      ∃ l, ls = l :: rest ∧ l.token.kind = .identifier ∧ l.token.text = name := by
  unfold identifier
  rw [map_eq_ok_iff]
  constructor
  · rintro ⟨t, ht, rfl⟩
    obtain ⟨l, rfl, hl, rfl⟩ := satisfy_eq_ok_iff.1 ht
    exact ⟨l, rfl, by simpa using hl, rfl⟩
  · rintro ⟨l, rfl, hl, rfl⟩
    exact ⟨l.token, satisfy_eq_ok_iff.2 ⟨l, rfl, by simpa using hl, rfl⟩, rfl⟩

private theorem dotted_of_go (n : Nat) (h : separated.go '.' identifier n ls = .ok (names, rest)) :
    ∃ run, ls = run ++ rest ∧ Dotted run names := by
  induction n generalizing ls names with
  | zero =>
    unfold separated.go at h
    obtain ⟨name, mid, hname, hdone⟩ := bind_eq_ok_iff.1 h
    obtain ⟨rfl, rfl⟩ := pure_eq_ok_iff.1 hdone
    obtain ⟨l, rfl, hl, rfl⟩ := identifier_eq_ok_iff.1 hname
    exact ⟨[l], rfl, .last hl⟩
  | succ n ih =>
    unfold separated.go at h
    obtain ⟨name, mid, hname, hafter⟩ := bind_eq_ok_iff.1 h
    obtain ⟨l, rfl, hl, rfl⟩ := identifier_eq_ok_iff.1 hname
    obtain ⟨more, behind, hmore, htail⟩ := bind_eq_ok_iff.1 hafter
    rcases accept_eq_ok_iff.1 hmore with ⟨rfl, point, rfl, hpoint⟩ | ⟨rfl, rfl, -⟩
    · obtain ⟨others, _, hothers, hdone⟩ := bind_eq_ok_iff.1 htail
      obtain ⟨rfl, rfl⟩ := pure_eq_ok_iff.1 hdone
      obtain ⟨run, rfl, hrun⟩ := ih hothers
      exact ⟨l :: point :: run, rfl, .more hl hpoint hrun⟩
    · obtain ⟨rfl, rfl⟩ := pure_eq_ok_iff.1 htail
      exact ⟨[l], rfl, .last hl⟩

private theorem go_of_dotted (h : Dotted run names) (ahead : Ahead endsName rest) (n : Nat)
    (enough : run.length ≤ n) :
    separated.go '.' identifier n (run ++ rest) = .ok (names, rest) := by
  induction h generalizing n with
  | @last l word =>
    obtain ⟨n, rfl⟩ : ∃ m, n = m + 1 := ⟨n - 1, by simp at enough; omega⟩
    have hname : identifier (l :: rest) = .ok (l.token.text, rest) :=
      identifier_eq_ok_iff.2 ⟨l, rfl, word, rfl⟩
    have hnone : accept (·.isSymbol '.') rest = .ok (false, rest) :=
      accept_eq_ok_iff.2 (.inr ⟨rfl, rfl, ahead⟩)
    unfold separated.go
    rw [List.singleton_append, bind_of_eq_ok hname, bind_of_eq_ok hnone]
    rfl
  | @more l point ls names word joins others ih =>
    obtain ⟨n, rfl⟩ : ∃ m, n = m + 1 := ⟨n - 1, by simp at enough; omega⟩
    have hname : identifier (l :: point :: ls ++ rest) =
        .ok (l.token.text, point :: ls ++ rest) :=
      identifier_eq_ok_iff.2 ⟨l, rfl, word, rfl⟩
    have hmore : accept (·.isSymbol '.') (point :: ls ++ rest) = .ok (true, ls ++ rest) :=
      accept_eq_ok_iff.2 (.inl ⟨rfl, point, rfl, joins⟩)
    unfold separated.go
    rw [bind_of_eq_ok hname, bind_of_eq_ok hmore, if_pos rfl,
      bind_of_eq_ok (ih n (by simp only [List.length_cons] at enough; omega))]
    rfl

theorem dotted_of_dottedName {name : String} (h : dottedName ls = .ok (name, rest)) :
    ∃ run names, ls = run ++ rest ∧ Dotted run names ∧ name = ".".intercalate names := by
  obtain ⟨names, hnames, rfl⟩ := map_eq_ok_iff.1 h
  obtain ⟨run, rfl, hrun⟩ := dotted_of_go _ hnames
  exact ⟨run, names, rfl, hrun, rfl⟩

theorem dottedName_of_dotted (h : Dotted run names) (ahead : Ahead endsName rest) :
    dottedName (run ++ rest) = .ok (".".intercalate names, rest) :=
  map_eq_ok_iff.2 ⟨names, go_of_dotted h ahead _ (by simp), rfl⟩

namespace Dotted

theorem reword (h : Dotted run names) (f : String → String) :
    Dotted (run.map (Lexeme.reword f)) (names.map f) := by
  induction h with
  | @last l word =>
    rw [List.map_singleton, List.map_singleton, ← Lexeme.reword_text word f]
    exact last (by simpa using word)
  | @more l point ls names word joins others ih =>
    rw [List.map_cons, List.map_cons, List.map_cons, ← Lexeme.reword_text word f]
    exact more (by simpa using word) (by simpa using joins) ih

theorem move (h : Dotted run names) (place : Position → Position) :
    Dotted (run.map (Lexeme.move place)) names := by
  induction h with
  | @last l word => exact @last (l.move place) word
  | @more l point ls names word joins others ih =>
    exact @more (l.move place) (point.move place) _ _ word joins ih

theorem join_eq (h : Dotted run names) :
    String.join (run.map (·.token.text)) = ".".intercalate names := by
  induction h with
  | last word => simp
  | @more l point ls names word joins others ih =>
    have hpoint : point.token.text = "." := by
      have : point.token.text.toList = ['.'] := by simp_all [Token.isSymbol]
      exact String.toList_injective this
    have hnames : names ≠ [] := by
      cases others <;> simp
    rw [List.map_cons, List.map_cons, String.join_cons, String.join_cons, ih, hpoint,
      String.intercalate_cons_of_ne_nil hnames, String.append_assoc]

theorem begins (h : Dotted run names) :
    ∃ l tail, run = l :: tail ∧ l.token.kind = .identifier := by
  cases h with
  | last word => exact ⟨_, _, rfl, word⟩
  | more word _ _ => exact ⟨_, _, rfl, word⟩

theorem ne_nil (h : Dotted run names) : run ≠ [] := by
  cases h <;> simp

theorem kind_or_isSymbol (h : Dotted run names) :
    ∀ l ∈ run, l.token.kind = .identifier ∨ l.token.isSymbol '.' = true := by
  induction h with
  | last word => simpa using Or.inl word
  | more word joins others ih =>
    intro m hm
    simp only [List.mem_cons] at hm
    rcases hm with rfl | rfl | hm
    · exact .inl word
    · exact .inr joins
    · exact ih m hm

theorem getLast?_eq (h : Dotted run names) :
    ∃ l, run.getLast? = some l ∧ l.token.kind = .identifier := by
  induction h with
  | @last l word => exact ⟨l, rfl, word⟩
  | more word joins others ih =>
    obtain ⟨l, hl, hword⟩ := ih
    refine ⟨l, ?_, hword⟩
    rw [List.getLast?_cons_cons, List.getLast?_cons]
    simp [hl]

theorem point_before (h : Dotted run names) {as bs : List Lexeme} {l : Lexeme}
    (split : run = as ++ l :: bs) (word : l.token.kind = .identifier) :
    as = [] ∨ ∃ point, as.getLast? = some point ∧ point.token.isSymbol '.' = true := by
  induction h generalizing as with
  | last _ =>
    cases as with
    | nil => exact .inl rfl
    | cons a as => simp at split
  | @more first point ls names _ joins others ih =>
    cases as with
    | nil => exact .inl rfl
    | cons a as =>
      cases as with
      | nil =>
        obtain ⟨-, rfl, -⟩ : first = a ∧ point = l ∧ ls = bs := by simpa using split
        simp_all [Token.isSymbol]
      | cons b as =>
        obtain ⟨rfl, rfl, hls⟩ : first = a ∧ point = b ∧ ls = as ++ l :: bs := by
          simpa using split
        rcases ih hls with rfl | ⟨p, hp, hpoint⟩
        · exact .inr ⟨point, rfl, joins⟩
        · refine .inr ⟨p, ?_, hpoint⟩
          rw [List.getLast?_cons_cons, List.getLast?_cons]
          simp [hp]

end Dotted

theorem typeName_used {name : String} (h : typeName ls = .ok (name, rest)) :
    ∃ init last, ls = init ++ last :: rest ∧ Reads typeName endsName (init ++ [last]) name ∧
      last.token.kind = .identifier ∧
        ∀ l ∈ init, l.token.kind = .identifier ∨ l.token.isSymbol '.' = true := by
  have spelled : ∃ lead run names, ls = lead ++ run ++ rest ∧ Dotted run names ∧
      ∀ l ∈ lead, l.token.isSymbol '.' = true := by
    unfold typeName at h
    obtain ⟨b, mid, hb, hafter⟩ := bind_eq_ok_iff.1 h
    rcases accept_eq_ok_iff.1 hb with ⟨rfl, l, rfl, hl⟩ | ⟨rfl, rfl, -⟩
    · obtain ⟨bare, _, hbare, hdone⟩ := bind_eq_ok_iff.1 hafter
      obtain ⟨-, rfl⟩ := pure_eq_ok_iff.1 hdone
      obtain ⟨run, names, rfl, hrun, -⟩ := dotted_of_dottedName hbare
      exact ⟨[l], run, names, rfl, hrun, by simpa using hl⟩
    · obtain ⟨run, names, rfl, hrun, -⟩ := dotted_of_dottedName hafter
      exact ⟨[], run, names, rfl, hrun, by simp⟩
  obtain ⟨used, rfl, hread⟩ := isLocal_typeName _ _ _ h
  obtain ⟨lead, run, names, he, hrun, hlead⟩ := spelled
  obtain rfl : used = lead ++ run := List.append_cancel_right he
  obtain ⟨last, hlast, hword⟩ := hrun.getLast?_eq
  obtain ⟨init, rfl⟩ := List.getLast?_eq_some_iff.1 hlast
  refine ⟨lead ++ init, last, by simp, by simpa using hread, hword, fun l hl => ?_⟩
  rcases List.mem_append.1 hl with hl | hl
  · exact .inr (hlead l hl)
  · exact hrun.kind_or_isSymbol l (by simp [hl])

end Parser

end SchemaLint
