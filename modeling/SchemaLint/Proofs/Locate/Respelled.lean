import SchemaLint.Casing
import SchemaLint.Proofs.Edit.Exact
import SchemaLint.Proofs.Locate.Dotted

/-!
# Dotted names written anew

A dotted name is changed as if one edit for each of its identifiers was applied, and nothing else of
it is touched.  Where it is written with other identifiers, these are found at the same place.
-/

set_option autoImplicit false
set_option relaxedAutoImplicit false

namespace SchemaLint

open Lexeme (spelled Fits Placed bare settle words)

/-- The edits that write other words in the place of the parts of a dotted name. -/
def DottedName.edits (ruleId : String) (d : DottedName) (names : List String) : List Edit :=
  List.zipWith (fun part name => ⟨ruleId, part.start, part.stop, name⟩) d.parts names

/-- What a dotted name is in a text.  It reaches over certain bytes, between what stands before and
behind them.  Lexemes that are read from a position on spell it, and its parts are the identifiers
among these. -/
structure SourceText.Reaches (s : SourceText) (p : Position) (name : String) (d : DottedName)
    (before old behind : List Char) (run : List Lexeme) : Prop where
  split : s.text = before ++ old ++ behind
  starts : Text.byteLength before = d.range.start
  stops : Text.byteLength (before ++ old) = d.range.stop
  read : ∃ rest, Text.afterByte? s.text p.offset = some rest ∧
    run <:+: (⟨rest, p⟩ : Lexer).read.lexemes
  spells : String.join (run.map (·.token.text)) = name
  parts : d.parts = ((run.map Lexeme.token).filter (·.kind = .identifier)).map Token.range
  names : List.Forall₂ s.Spells d.parts (words run)
  identifiers : ∀ name ∈ words run, Scan.isIdentifier name.toList = true
  inside : ∀ part ∈ d.parts,
    d.range.start ≤ part.start ∧ part.start < part.stop ∧ part.stop ≤ d.range.stop
  order : d.parts.Pairwise fun a b => a.stop ≤ b.start

namespace Lexeme

variable {p : Position} {run : List Lexeme}

theorem edits_ofRun (ruleId : String) (f : String → String) (run : List Lexeme) :
    (DottedName.ofRun run).edits ruleId ((words run).map f) =
      ((run.map token).filter (·.kind = .identifier)).map fun t =>
        ⟨ruleId, t.position.offset, t.stop, f t.text⟩ := by
  unfold DottedName.edits DottedName.ofRun words
  rw [List.map_map, List.zipWith_map, List.zipWith_self]
  rfl

theorem Placed.rewrites (h : Placed p run) (ruleId : String) (f : String → String) {cursor : Nat}
    {pending : List Char} (here : p.offset = cursor + Text.byteLength pending) :
    Edit.Rewrites cursor ((DottedName.ofRun run).edits ruleId ((words run).map f))
      (pending ++ spelled run) (pending ++ spelled (run.map (reword f))) := by
  rw [edits_ofRun]
  induction run generalizing p cursor pending with
  | nil => exact .done cursor _
  | cons l ls ih =>
    obtain ⟨hplace, hothers⟩ := h
    by_cases hword : l.token.kind = .identifier
    · have hstart : cursor + Text.byteLength (pending ++ l.gap) = l.token.position.offset := by
        rw [hplace, Position.offset_advance, here, Text.byteLength_append]
        omega
      have hstop : l.token.position.offset + Text.byteLength l.token.text.toList = l.token.stop := by
        rw [Token.byteLength_text]
        rfl
      have hlater := @ih (p.advance l.chars) hothers l.token.stop []
        (Placed.stop_eq ⟨hplace, hothers⟩).symm
      have hedit := @Edit.Rewrites.edit cursor ⟨ruleId, l.token.position.offset, l.token.stop,
        f l.token.text⟩ _ _ _ _ _ hstart hstop hlater
      simpa [hword, chars, reword_text hword] using hedit
    · have hpassed := @ih (p.advance l.chars) hothers cursor (pending ++ l.chars) (by
        rw [Position.offset_advance, here, Text.byteLength_append]
        omega)
      simpa [hword, reword_of_ne hword] using hpassed

theorem Placed.start_le {l : Lexeme} {ls : List Lexeme} (h : Placed p (l :: ls)) :
    ∀ m ∈ l :: ls, (extent (l :: ls)).start ≤ m.token.position.offset := by
  intro m hm
  rw [h.extent_eq]
  rcases List.mem_cons.1 hm with rfl | hm
  · rw [h.1, Position.offset_advance]
  · have hle := Placed.le_offset h.2 m hm
    rw [Position.offset_advance, chars, Text.byteLength_append] at hle
    dsimp only
    omega

theorem Placed.stop_le (h : Placed p run) :
    ∀ l ∈ run, l.token.stop ≤ p.offset + Text.byteLength (spelled run) := by
  induction run generalizing p with
  | nil => simp
  | cons m ms ih =>
    intro l hl
    rw [spelled_cons, Text.byteLength_append]
    rcases List.mem_cons.1 hl with rfl | hl
    · rw [h.stop_eq, Position.offset_advance]
      omega
    · have hle := ih h.2 l hl
      rw [Position.offset_advance] at hle
      omega

theorem Fits.isToken {after : List Char} (h : Fits run after) :
    ∀ l ∈ run, ∃ behind, Scan.IsToken l.token.kind l.token.text.toList behind := by
  intro l hl
  obtain ⟨as, bs, rfl⟩ := List.append_of_mem hl
  exact ⟨_, (fits_append.1 h).2.2.1⟩

section Settled

variable (p : Position) (ls ms : List Lexeme)

theorem settle_append :
    settle p (ls ++ ms) = settle p ls ++ settle (p.advance (spelled ls)) ms := by
  induction ls generalizing p with
  | nil => rfl
  | cons l ls ih => simp [settle, ih, Position.advance_append]

theorem map_text_settle :
    (settle p ls).map (·.token.text) = ls.map (·.token.text) := by
  induction ls generalizing p with
  | nil => rfl
  | cons l ls ih => simp [settle, ih]

theorem words_settle : words (settle p ls) = words ls := by
  induction ls generalizing p with
  | nil => rfl
  | cons l ls ih => simp [settle, words_cons, ih]

theorem extent_settle (l : Lexeme) : extent (settle p (l :: ls)) =
    ⟨p.offset + Text.byteLength l.gap, p.offset + Text.byteLength (spelled (l :: ls))⟩ := by
  have hplaced := placed_settle p (l :: ls)
  rw [← spelled_settle p (l :: ls)]
  exact hplaced.extent_eq

theorem isSymbol_settle {c : Char} (h : ∀ l ∈ ls, l.token.isSymbol c = false) :
    ∀ l ∈ settle p ls, l.token.isSymbol c = false := by
  induction ls generalizing p with
  | nil => simp [settle]
  | cons m ms ih =>
    intro l hl
    rcases List.mem_cons.1 hl with rfl | hl
    · exact h m List.mem_cons_self
    · exact ih _ (fun l hl => h l (List.mem_cons_of_mem m hl)) l hl

end Settled

end Lexeme

namespace SourceText

variable {s : SourceText} {p : Position} {word name : String} {d : DottedName}
  {front rest : List Char} {k l semi : Lexeme} {run ls : List Lexeme}

namespace Clause

theorem whole (h : s.Clause p word front k run semi rest) :
    s.text = front ++ k.chars ++ (spelled run ++ (semi.chars ++ rest)) := by
  rw [h.split]
  simp

theorem reached (h : s.Clause p word front k run semi rest) :
    Text.byteLength (front ++ k.chars) = (p.advance k.chars).offset := by
  rw [Text.byteLength_append, h.place, Position.offset_advance]

theorem placed_run (h : s.Clause p word front k run semi rest) : Placed (p.advance k.chars) run :=
  (Lexeme.placed_append.1 h.placed.2).1

theorem afterByte_eq (h : s.Clause p word front k run semi rest) :
    Text.afterByte? s.text p.offset = some (spelled (k :: (run ++ [semi])) ++ rest) := by
  rw [h.split, ← h.place, Text.afterByte?_append]

theorem infix_read (h : s.Clause p word front k run semi rest) :
    run <:+: (⟨spelled (k :: (run ++ [semi])) ++ rest, p⟩ : Lexer).read.lexemes := by
  obtain ⟨more, hmore⟩ := Lexer.read_append h.fits h.placed
  rw [hmore]
  exact ⟨[k], semi :: more.lexemes, by simp⟩

theorem spells (h : s.Clause p word front k run semi rest) :
    ∀ m ∈ run, s.Spells m.token.range m.token.text := by
  intro m hm
  rw [Spells, h.split]
  exact @Lexer.slice_of_mem front ⟨spelled (k :: (run ++ [semi])) ++ rest, p⟩ m h.place
    (h.infix_read.subset hm)

theorem isToken (h : s.Clause p word front k run semi rest) : ∀ m ∈ run, ∃ behind,
    Scan.IsToken m.token.kind m.token.text.toList behind := fun m hm =>
  h.fits.isToken m (List.mem_cons_of_mem k (List.mem_append_left [semi] hm))

theorem isIdentifier (h : s.Clause p word front k run semi rest) :
    ∀ name ∈ words run, Scan.isIdentifier name.toList = true := by
  intro name hname
  obtain ⟨m, hm, hkind, rfl⟩ := Lexeme.mem_words.1 hname
  obtain ⟨behind, htoken⟩ := h.isToken m hm
  rw [hkind] at htoken
  cases htoken with
  | identifier word => exact word

theorem reaches (h : s.Clause p word front k (l :: ls) semi rest) :
    s.Reaches p (String.join ((l :: ls).map (·.token.text))) (.ofRun (l :: ls))
      (front ++ k.chars ++ l.gap) (spelled (bare (l :: ls))) (semi.chars ++ rest) (l :: ls) := by
  have hbare := Lexeme.spelled_bare l ls
  have hstarts : Text.byteLength (front ++ k.chars ++ l.gap) =
      (DottedName.ofRun (l :: ls)).range.start := by
    rw [DottedName.ofRun, h.placed_run.extent_eq, Text.byteLength_append, h.reached]
  have hstops : Text.byteLength (front ++ k.chars ++ l.gap ++ spelled (bare (l :: ls))) =
      (DottedName.ofRun (l :: ls)).range.stop := by
    rw [DottedName.ofRun, h.placed_run.extent_eq, List.append_assoc, ← hbare,
      Text.byteLength_append, h.reached]
  refine
    { split := ?_
      starts := hstarts
      stops := hstops
      read := ⟨_, h.afterByte_eq, h.infix_read⟩
      spells := rfl
      parts := rfl
      names := Lexeme.forall₂_parts h.spells
      identifiers := h.isIdentifier
      inside := ?_
      order := ?_ }
  · rw [h.whole, hbare]
    simp only [List.append_assoc]
  · intro part hpart
    obtain ⟨t, ht, rfl⟩ := List.mem_map.1 hpart
    obtain ⟨m, hm, rfl⟩ := List.mem_map.1 (List.mem_filter.1 ht).1
    obtain ⟨behind, htoken⟩ := h.isToken m hm
    refine ⟨h.placed_run.start_le m hm, Lexeme.start_lt_stop htoken.ne_nil, ?_⟩
    rw [← hstops, List.append_assoc, ← hbare, Text.byteLength_append, h.reached]
    exact h.placed_run.stop_le m hm
  · have horder := h.placed_run.pairwise
    exact List.pairwise_map.2 ((List.pairwise_map.2 horder).sublist List.filter_sublist)

/-- With other identifiers in the name, a clause is one again. -/
theorem reword (h : s.Clause p word front k run semi rest) {f : String → String}
    (identifiers : ∀ name ∈ words run, Scan.isIdentifier (f name).toList = true) :
    ∃ semi', (⟨s.filename, front ++ k.chars ++
      (spelled (run.map (Lexeme.reword f)) ++ (semi.chars ++ rest))⟩ : SourceText).Clause p word
        front k (settle (p.advance k.chars) (run.map (Lexeme.reword f))) semi' rest := by
  have hrewords : List.Forall₂ Lexeme.Rewords (k :: run) (k :: run.map (Lexeme.reword f)) := by
    refine .cons ⟨rfl, rfl, .inl rfl⟩ ?_
    rw [List.forall₂_map_right_iff, List.forall₂_same]
    exact fun m hm => Lexeme.rewords_reword fun hkind =>
      identifiers _ (Lexeme.mem_words.2 ⟨m, hm, hkind, rfl⟩)
  have hk : (⟨k.gap, ⟨k.token.kind, k.token.text, p.advance k.gap⟩⟩ : Lexeme) = k := by
    rw [← h.placed.1]
  have hrow : settle p (k :: run.map (Lexeme.reword f) ++ [semi]) =
      k :: (settle (p.advance k.chars) (run.map (Lexeme.reword f)) ++
        settle ((p.advance k.chars).advance (spelled (run.map (Lexeme.reword f)))) [semi]) := by
    rw [List.cons_append, settle, hk, Lexeme.settle_append]
  have hfits := (Lexeme.fits_settle p _).2 (Lexeme.Fits.reword h.fits h.ends hrewords)
  have hplaced := Lexeme.placed_settle p (k :: run.map (Lexeme.reword f) ++ [semi])
  rw [hrow] at hfits hplaced
  refine ⟨_, ?_, h.place, hfits, hplaced, h.keyword, Lexeme.isSymbol_settle _ _ ?_, h.ends⟩
  · simp [Lexeme.spelled_settle, Lexeme.chars]
  · intro m hm
    obtain ⟨l, hl, rfl⟩ := List.mem_map.1 hm
    simpa using h.goes_on l hl

end Clause

/-- A dotted name that a search has found is its identifiers and what stands between them.  With any
function applied to each identifier it is written as by one edit for each of these; with none, it is
the text that was there.  If the identifiers become identifiers, the text with the name written anew is
searched with success for the name that they spell now, and its parts are these identifiers. -/
theorem locateDotted_respelled (found : s.locateDotted p word name = .ok d) :
    ∃ before old behind run, s.Reaches p name d before old behind run ∧
      s.mapDotted d id = .ok (String.ofList old) ∧
      ∀ f, ∃ new, s.mapDotted d f = .ok new ∧
        (∀ ruleId, Edit.Rewrites d.range.start (d.edits ruleId ((words run).map f)) old
          new.toList) ∧
        ((∀ name ∈ words run, Scan.isIdentifier (f name).toList = true) →
          let t : SourceText := ⟨s.filename, before ++ new.toList ++ behind⟩
          ∃ d', t.locateDotted p word (String.join (run.map fun l => (l.reword f).token.text)) =
              .ok d' ∧
            d'.range = ⟨d.range.start, d.range.start + Text.byteLength new.toList⟩ ∧
            List.Forall₂ t.Spells d'.parts ((words run).map f)) := by
  obtain ⟨front, k, run, semi, rest, hclause, nonempty, rfl, rfl⟩ := locateDotted_eq_ok_iff.1 found
  obtain ⟨l, ls, rfl⟩ := List.exists_cons_of_ne_nil nonempty
  have hmap := fun f => mapDotted_ofRun hclause.whole hclause.reached hclause.placed_run nonempty f
  have hreaches := hclause.reaches
  refine ⟨_, _, _, l :: ls, hreaches, ?_, fun f => ⟨_, hmap f, fun ruleId => ?_, fun wordy => ?_⟩⟩
  · rw [hmap, Lexeme.map_reword_of_kept (@id_eq String)]
  · have hrewrites := hclause.placed_run.bare.rewrites ruleId f
      (show l.token.position.offset = l.token.position.offset + Text.byteLength [] from rfl)
    rw [Lexeme.edits_ofRun, Lexeme.map_token_bare, ← Lexeme.edits_ofRun, Lexeme.reword_bare]
      at hrewrites
    rw [String.toList_ofList]
    exact hrewrites
  · obtain ⟨semi', hagain⟩ := hclause.reword wordy
    have htext : front ++ k.chars ++ l.gap ++
        (String.ofList (spelled (bare ((l :: ls).map (Lexeme.reword f))))).toList ++
          (semi.chars ++ rest) =
        front ++ k.chars ++ (spelled ((l :: ls).map (Lexeme.reword f)) ++ (semi.chars ++ rest)) := by
      rw [List.map_cons, Lexeme.spelled_bare, Lexeme.reword_gap, String.toList_ofList]
      simp only [List.append_assoc]
    have hjoin := congrArg String.join
      (Lexeme.map_text_settle (p.advance k.chars) ((l :: ls).map (Lexeme.reword f)))
    have hnames := Lexeme.forall₂_parts hagain.spells
    rw [Lexeme.words_settle, Lexeme.words_map_reword] at hnames
    rw [htext]
    refine ⟨_, locateDotted_eq_ok_iff.2 ⟨front, k, _, semi', rest, hagain, List.cons_ne_nil _ _, ?_,
      rfl⟩, ?_, hnames⟩
    · rw [hjoin, List.map_map]
      rfl
    · rw [String.toList_ofList, DottedName.ofRun, DottedName.ofRun, List.map_cons,
        Lexeme.extent_settle, hclause.placed_run.extent_eq, Lexeme.reword_gap, Lexeme.spelled_bare,
        Lexeme.reword_gap, Text.byteLength_append, Nat.add_assoc]

/-- A package's name with comments in it, and two words in its second part. -/
theorem locateDotted_respelled_package :
    let s : SourceText := ⟨"a.proto", "package Foo /*.*/ . // b\n  BarBaz ;".toList⟩
    let p : Position := .start "a.proto"
    ∃ d before behind lowered d', s.locateDotted p "package" "Foo.BarBaz" = .ok d ∧
      s.mapDotted d Casing.lowerSnake.convert = .ok "foo /*.*/ . // b\n  bar_baz" ∧
      let t : SourceText := ⟨"a.proto", before ++ "foo /*.*/ . // b\n  bar_baz".toList ++ behind⟩
      t.locateDotted p "package" lowered = .ok d' ∧ d'.range = ⟨8, 34⟩ ∧
        List.Forall₂ t.Spells d'.parts ["foo", "bar_baz"] := by
  intro s p
  have hfound : (s.locateDotted p "package" "Foo.BarBaz").toOption =
      some ⟨⟨8, 33⟩, [⟨8, 11⟩, ⟨27, 33⟩]⟩ := by decide +kernel
  have hmapped : (s.mapDotted ⟨⟨8, 33⟩, [⟨8, 11⟩, ⟨27, 33⟩]⟩ Casing.lowerSnake.convert).toOption =
      some "foo /*.*/ . // b\n  bar_baz" := by decide +kernel
  have found := eq_ok_of_toOption hfound
  obtain ⟨before, old, behind, run, hreaches, -, hrespelled⟩ := locateDotted_respelled found
  obtain ⟨new, hnew, -, hagain⟩ := hrespelled Casing.lowerSnake.convert
  obtain rfl := Except.ok.inj ((eq_ok_of_toOption hmapped).symm.trans hnew)
  have hnames : List.Forall₂ s.Spells [⟨8, 11⟩, ⟨27, 33⟩] ["Foo", "BarBaz"] :=
    .cons (by decide +kernel) (.cons (by decide +kernel) .nil)
  have hwords : words run = ["Foo", "BarBaz"] :=
    s.spells_rightUnique.forall₂ hreaches.names hnames
  rw [hwords] at hagain
  obtain ⟨d', hd', hrange, hparts⟩ := hagain (by decide +kernel)
  have hlength : Text.byteLength "foo /*.*/ . // b\n  bar_baz".toList = 26 := by decide +kernel
  have hconverted : ["Foo", "BarBaz"].map Casing.lowerSnake.convert = ["foo", "bar_baz"] := by
    decide +kernel
  rw [hlength] at hrange
  rw [hconverted] at hparts
  exact ⟨_, before, behind, _, d', found, eq_ok_of_toOption hmapped, hd', hrange, hparts⟩

end SourceText

end SchemaLint
