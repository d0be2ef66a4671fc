import SchemaLint.Locate.Dotted
import SchemaLint.Proofs.Locate.Anywhere
import SchemaLint.Proofs.Locate.Name
import SchemaLint.Proofs.Parse.Dotted
import SchemaLint.Proofs.Token.Settle

/-!
# Dotted names found and changed

A dotted name is found where a keyword, lexemes that spell the name and a semicolon stand in a text.
Changed part by part, it is written like its lexemes with other identifiers in their places.
-/

set_option autoImplicit false
set_option relaxedAutoImplicit false

namespace SchemaLint

open SchemaLint.Parser (Dotted)
open Lexeme (spelled Fits Placed bare reword)

theorem SourceText.slice_append (as bs cs : List Char) :
    slice (as ++ bs ++ cs) (Text.byteLength as) (Text.byteLength (as ++ bs)) = .ok bs := by
  unfold slice
  rw [Text.slice?_append]

namespace Lexeme

def extent (ls : List Lexeme) : ByteRange :=
  ⟨ls.head?.elim 0 (·.token.position.offset), ls.getLast?.elim 0 (·.token.stop)⟩

theorem Placed.extent_eq {p : Position} {l : Lexeme} {ls : List Lexeme}
    (h : Placed p (l :: ls)) :
    extent (l :: ls) = ⟨p.offset + Text.byteLength l.gap,
      p.offset + Text.byteLength (spelled (l :: ls))⟩ := by
  have hstart : l.token.position.offset = p.offset + Text.byteLength l.gap := by
    rw [h.1, Position.offset_advance]
  have hstop : (l :: ls).getLast?.elim 0 (·.token.stop) =
      p.offset + Text.byteLength (spelled (l :: ls)) := by
    clear hstart
    induction ls generalizing p l with
    | nil =>
      have hhere := h.1
      simp only [List.getLast?_singleton, Option.elim_some, Token.stop, hhere,
        Position.offset_advance, spelled_cons, spelled_nil, chars, Text.byteLength_append,
        Token.byteLength_text, Text.byteLength]
      omega
    | cons m ms ih =>
      have hms := ih h.2
      rw [List.getLast?_cons_cons, hms, Position.offset_advance, spelled_cons l,
        Text.byteLength_append]
      omega
  simp only [extent, List.head?_cons, Option.elim_some, hstart, hstop]

theorem Placed.bare {p : Position} {l : Lexeme} {ls : List Lexeme} (h : Placed p (l :: ls)) :
    Placed l.token.position (Lexeme.bare (l :: ls)) := by
  obtain ⟨here, others⟩ := h
  rw [chars, Position.advance_append, ← here] at others
  exact ⟨rfl, others⟩

theorem spelled_bare (l : Lexeme) (ls : List Lexeme) :
    spelled (l :: ls) = l.gap ++ spelled (bare (l :: ls)) := by
  simp [bare, Lexeme.chars]

theorem reword_bare (f : String → String) (ls : List Lexeme) :
    (bare ls).map (reword f) = bare (ls.map (reword f)) := by
  cases ls with
  | nil => rfl
  | cons l ls =>
    by_cases hword : l.token.kind = .identifier
    · simp [bare, reword, hword]
    · simp [bare, reword, hword]

theorem rewords_reword {f : String → String} {l : Lexeme}
    (h : l.token.kind = .identifier → Scan.isIdentifier (f l.token.text).toList = true) :
    Rewords l (l.reword f) := by
  refine ⟨reword_gap f l, reword_kind f l, ?_⟩
  by_cases hword : l.token.kind = .identifier
  · rw [reword_text hword]
    exact .inr ⟨hword, h hword⟩
  · rw [reword_of_ne hword]
    exact .inl rfl

end Lexeme

def DottedName.ofRun (run : List Lexeme) : DottedName :=
  ⟨Lexeme.extent run, ((run.map Lexeme.token).filter (·.kind = .identifier)).map Token.range⟩

namespace Lexeme

variable {run : List Lexeme} {names : List String}

/-- The texts of the identifiers among some lexemes. -/
def words (run : List Lexeme) : List String :=
  ((run.map token).filter (·.kind = .identifier)).map Token.text

theorem mem_words {name : String} :
    name ∈ words run ↔ ∃ l ∈ run, l.token.kind = .identifier ∧ l.token.text = name := by
  simp [words, and_assoc]

theorem words_cons (l : Lexeme) (run : List Lexeme) : words (l :: run) =
    if l.token.kind = .identifier then l.token.text :: words run else words run := by
  by_cases hword : l.token.kind = .identifier
  · simp [words, hword]
  · simp [words, hword]

theorem words_eq_of_dotted (h : Dotted run names) : words run = names := by
  induction h with
  | last word => simp [words, word]
  | more word joins others ih =>
    obtain ⟨hpoint, -⟩ : _ ∧ _ := Bool.and_eq_true_iff.1 joins
    simp only [decide_eq_true_eq] at hpoint
    simp [words_cons, word, hpoint, ih]

theorem words_map_reword (f : String → String) (run : List Lexeme) :
    words (run.map (reword f)) = (words run).map f := by
  induction run with
  | nil => rfl
  | cons l run ih =>
    by_cases hword : l.token.kind = .identifier
    · simp [words_cons, hword, reword_text hword, ih]
    · simp [words_cons, hword, ih]

theorem forall₂_parts {s : SourceText} (spells : ∀ l ∈ run, s.Spells l.token.range l.token.text) :
    List.Forall₂ s.Spells (DottedName.ofRun run).parts (words run) := by
  unfold DottedName.ofRun words
  rw [List.forall₂_map_left_iff, List.forall₂_map_right_iff, List.forall₂_same]
  intro t ht
  obtain ⟨l, hl, rfl⟩ := List.mem_map.1 (List.mem_filter.1 ht).1
  exact spells l hl

end Lexeme

namespace SourceText

private theorem mapParts_eq_ok (f : String → String) {text pre pending post : List Char}
    {ms : List Lexeme} {p : Position}
    (split : text = pre ++ pending ++ Lexeme.spelled ms ++ post) (placed : Lexeme.Placed p ms)
    (here : p.offset = Text.byteLength (pre ++ pending)) :
    mapParts text f (Text.byteLength (pre ++ pending ++ Lexeme.spelled ms)) (Text.byteLength pre)
        (((ms.map Lexeme.token).filter (·.kind = .identifier)).map Token.range) =
      .ok (pending ++ Lexeme.spelled (ms.map (Lexeme.reword f))) := by
  induction ms generalizing pre pending p with
  | nil =>
    have hslice := slice_append pre pending post
    simp only [Lexeme.spelled_nil, List.append_nil] at split
    simpa [mapParts, split] using hslice
  | cons m ms ih =>
    obtain ⟨hplace, hplaced⟩ := placed
    by_cases hword : m.token.kind = .identifier
    · have hgap : m.token.position.offset = Text.byteLength (pre ++ (pending ++ m.gap)) := by
        rw [hplace, Position.offset_advance, here]
        simp only [Text.byteLength_append]
        omega
      have hstop : m.token.stop =
          Text.byteLength (pre ++ (pending ++ m.gap) ++ m.token.text.toList) := by
        rw [Token.stop, hgap, Text.byteLength_append _ m.token.text.toList, Token.byteLength_text]
      have hbefore := slice_append pre (pending ++ m.gap)
        (m.token.text.toList ++ (Lexeme.spelled ms ++ post))
      have hold := slice_append (pre ++ (pending ++ m.gap)) m.token.text.toList
        (Lexeme.spelled ms ++ post)
      have hsplit : text = pre ++ (pending ++ m.gap) ++ m.token.text.toList ++ [] ++
          Lexeme.spelled ms ++ post := by
        rw [split]
        simp [Lexeme.chars]
      have hothers := ih hsplit hplaced (by
        rw [Position.offset_advance, here]
        simp only [Lexeme.chars, List.append_nil, Text.byteLength_append]
        omega)
      have htext : text = pre ++ (pending ++ m.gap) ++
          (m.token.text.toList ++ (Lexeme.spelled ms ++ post)) := by
        rw [hsplit]
        simp
      rw [← htext] at hbefore
      rw [List.append_assoc (pre ++ (pending ++ m.gap)), ← htext] at hold
      have hall : Text.byteLength (pre ++ pending ++ Lexeme.spelled (m :: ms)) =
          Text.byteLength (pre ++ (pending ++ m.gap) ++ m.token.text.toList ++ [] ++
            Lexeme.spelled ms) := by
        simp [Lexeme.chars]
      simp only [List.map_cons, List.filter_cons, hword, decide_true, if_true, mapParts,
        Token.range, hgap, hstop, hall]
      rw [hbefore, hold]
      simp only [bind, Except.bind]
      rw [hothers]
      simp [Lexeme.chars, Lexeme.reword_text hword, pure, Except.pure]
    · have hsplit : text = pre ++ (pending ++ m.chars) ++ Lexeme.spelled ms ++ post := by
        rw [split]
        simp
      have hpending := ih hsplit hplaced (by
        rw [Position.offset_advance, here]
        simp only [Text.byteLength_append]
        omega)
      simp only [List.map_cons, List.filter_cons, hword, decide_false, Bool.false_eq_true,
        if_false, Lexeme.reword_of_ne hword, Lexeme.spelled_cons]
      simpa using hpending

variable {s : SourceText} {p : Position} {word name : String} {d : DottedName}
  {lead run after : List Lexeme} {k semi : Lexeme} {front trail : List Char} {names : List String}

theorem mapDotted_ofRun {rest : List Char} (split : s.text = front ++ (spelled run ++ rest))
    (place : Text.byteLength front = p.offset) (placed : Placed p run) (nonempty : run ≠ [])
    (f : String → String) :
    s.mapDotted (.ofRun run) f = .ok (String.ofList (spelled (bare (run.map (reword f))))) := by
  obtain ⟨l, ls, rfl⟩ := List.exists_cons_of_ne_nil nonempty
  have hextent := placed.extent_eq
  have hstart : l.token.position.offset = Text.byteLength (front ++ l.gap ++ []) := by
    rw [placed.1, Position.offset_advance, ← place]
    simp
  have htext : s.text = front ++ l.gap ++ [] ++ spelled (bare (l :: ls)) ++ rest := by
    rw [split]
    simp [Lexeme.chars, bare]
  have hparts := mapParts_eq_ok f htext placed.bare hstart
  rw [Lexeme.map_token_bare, Lexeme.reword_bare] at hparts
  have hrange : (Lexeme.extent (l :: ls)).start = Text.byteLength (front ++ l.gap) ∧
      (Lexeme.extent (l :: ls)).stop =
        Text.byteLength (front ++ l.gap ++ [] ++ spelled (bare (l :: ls))) := by
    rw [hextent, ← place]
    simp [Lexeme.chars, bare]
  unfold mapDotted DottedName.ofRun
  simp only [hrange.1, hrange.2]
  rw [hparts]
  rfl

theorem statementTokens_eq_ok_iff {r : Reading} {ts : List Token} :
    statementTokens r = .ok ts ↔ ∃ run semi more, r.lexemes = run ++ semi :: more ∧
      (∀ m ∈ run, m.token.isSymbol ';' = false) ∧ semi.token.isSymbol ';' = true ∧
        ts = run.map Lexeme.token := by
  obtain ⟨ls, fault⟩ := r
  unfold statementTokens Reading.tokens
  simp only [List.takeWhile_map]
  constructor
  · intro h
    split at h
    · rename_i hshort
      obtain rfl := Except.ok.inj h
      have hsplit := List.takeWhile_append_dropWhile
        (p := (fun t : Token => !t.isSymbol ';') ∘ Lexeme.token) (l := ls)
      have hstops := List.head?_dropWhile_not ((fun t : Token => !t.isSymbol ';') ∘ Lexeme.token) ls
      cases hdrop : ls.dropWhile ((fun t : Token => !t.isSymbol ';') ∘ Lexeme.token) with
      | nil =>
        rw [hdrop, List.append_nil] at hsplit
        rw [hsplit] at hshort
        exact absurd hshort (Nat.lt_irrefl _)
      | cons semi more =>
        rw [hdrop] at hsplit hstops
        refine ⟨_, semi, more, hsplit.symm, fun m hm => ?_, by simpa using hstops, rfl⟩
        have hall :=
          List.all_takeWhile (p := (fun t : Token => !t.isSymbol ';') ∘ Lexeme.token) (l := ls)
        simpa using List.all_eq_true.1 hall m hm
    · cases h
  · rintro ⟨run, semi, more, rfl, goes_on, ends, rfl⟩
    have htake : (run ++ semi :: more).takeWhile ((fun t => !t.isSymbol ';') ∘ Lexeme.token) =
        run := by
      rw [List.takeWhile_append_of_pos (by simpa using goes_on)]
      simp [ends]
    rw [htake]
    exact if_pos (by simp)

/-- A keyword, some lexemes and a semicolon behind the front of a text. -/
structure Clause (s : SourceText) (p : Position) (word : String) (front : List Char) (k : Lexeme)
    (run : List Lexeme) (semi : Lexeme) (rest : List Char) : Prop where
  split : s.text = front ++ (spelled (k :: (run ++ [semi])) ++ rest)
  place : Text.byteLength front = p.offset
  fits : Fits (k :: (run ++ [semi])) rest
  placed : Placed p (k :: (run ++ [semi]))
  keyword : k.token.isWord word = true
  goes_on : ∀ m ∈ run, m.token.isSymbol ';' = false
  ends : semi.token.isSymbol ';' = true

theorem locateDotted_eq_ok_iff : s.locateDotted p word name = .ok d ↔
    ∃ front k run semi rest, s.Clause p word front k run semi rest ∧ run ≠ [] ∧
      String.join (run.map (·.token.text)) = name ∧ d = .ofRun run := by
  unfold locateDotted
  constructor
  · intro h
    obtain ⟨reading, hreading, h⟩ := bind_eq_ok_iff.1 h
    obtain ⟨others, hothers, h⟩ := bind_eq_ok_iff.1 h
    obtain ⟨tokens, htokens, h⟩ := bind_eq_ok_iff.1 h
    obtain ⟨front, rest, htext, hplace, rfl⟩ := readFrom_eq_ok_iff.1 hreading
    obtain ⟨k, ls, hls, hkeyword, rfl⟩ := Reading.afterKeyword_eq_ok_iff.1 hothers
    obtain ⟨run, semi, more, hrow, hgoes_on, hends, rfl⟩ := statementTokens_eq_ok_iff.1 htokens
    dsimp only at hrow
    rw [hrow] at hls
    obtain ⟨tail, hprefix⟩ := Reading.prefix_upTo (·.isSymbol ';') (⟨rest, p⟩ : Lexer).read
    rw [hls] at hprefix
    obtain ⟨trail, hrest, hfits, hplaced, -⟩ := Lexer.read_eq_iff_fits.1
      (show (⟨rest, p⟩ : Lexer).read = ⟨_, (⟨rest, p⟩ : Lexer).read.fault⟩ from rfl)
    have hsplit : k :: (run ++ semi :: more) ++ tail = k :: (run ++ [semi]) ++ (more ++ tail) := by
      simp
    rw [← hprefix, hsplit] at hfits hplaced hrest
    rw [Lexeme.fits_append] at hfits
    have hwhole : s.text =
        front ++ (spelled (k :: (run ++ [semi])) ++ (spelled (more ++ tail) ++ trail)) := by
      rw [htext, show rest = _ from hrest, Lexeme.spelled_append, List.append_assoc]
    refine ⟨front, k, run, semi, _,
      ⟨hwhole, hplace, hfits.1, (Lexeme.placed_append.1 hplaced).1, hkeyword, hgoes_on, hends⟩, ?_⟩
    cases run with
    | nil => cases h
    | cons l ls =>
      obtain ⟨last, hlast⟩ :=
        Option.isSome_iff_exists.1 (List.getLast?_isSome.2 (List.cons_ne_nil l ls))
      simp only [List.head?_map, List.getLast?_map, hlast, List.head?_cons, Option.map_some,
        List.map_map] at h
      split at h
      · rename_i hjoin
        obtain rfl := Except.ok.inj h
        exact ⟨List.cons_ne_nil l ls, hjoin, by simp [DottedName.ofRun, Lexeme.extent, hlast]⟩
      · cases h
  · rintro ⟨front, k, run, semi, rest, hclause, nonempty, rfl, rfl⟩
    obtain ⟨others, hothers⟩ := Lexer.read_append hclause.fits hclause.placed
    have hk : k.token.isSymbol ';' = false := by
      simp [Token.isSymbol, Token.kind_of_isWord hclause.keyword]
    have hstop : Reading.upTo (·.isSymbol ';')
        ⟨(k :: run) ++ semi :: others.lexemes, others.fault⟩ = ⟨(k :: run) ++ [semi], none⟩ :=
      Reading.upTo_append (by simpa [hk] using hclause.goes_on) hclause.ends
    have hreading : s.readFrom p (·.isSymbol ';') = .ok ⟨k :: (run ++ [semi]), none⟩ := by
      refine readFrom_eq_ok_iff.2 ⟨front, _, hclause.split, hclause.place, ?_⟩
      rw [hothers]
      simpa using hstop.symm
    obtain ⟨l, ls, rfl⟩ := List.exists_cons_of_ne_nil nonempty
    obtain ⟨last, hlast⟩ := Option.isSome_iff_exists.1 (List.getLast?_isSome.2 nonempty)
    refine bind_eq_ok_iff.2 ⟨_, hreading, bind_eq_ok_iff.2 ⟨⟨l :: ls ++ [semi], none⟩,
      Reading.afterKeyword_eq_ok_iff.2 ⟨k, _, rfl, hclause.keyword, rfl⟩, bind_eq_ok_iff.2 ⟨_,
        statementTokens_eq_ok_iff.2 ⟨_, semi, [], rfl, hclause.goes_on, hclause.ends, rfl⟩, ?_⟩⟩⟩
    simp only [List.head?_map, List.getLast?_map, hlast, List.head?_cons, Option.map_some,
      List.map_map]
    refine (if_pos rfl).trans ?_
    simp [DottedName.ofRun, Lexeme.extent, hlast, pure, Except.pure]

theorem locateDotted_eq_ok
    (tiles : Lexer.Tiles (Lexer.start s.filename s.text) (lead ++ (k :: run ++ semi :: after)) trail)
    (keyword : k.token.isWord word = true) (spells : Dotted run names)
    (ends : semi.token.isSymbol ';' = true) :
    s.locateDotted k.token.position word (".".intercalate names) = .ok (.ofRun run) := by
  have hgoes_on : ∀ m ∈ run, m.token.isSymbol ';' = false := by
    intro m hm
    rcases spells.kind_or_isSymbol m hm with h | h
    · simp [Token.isSymbol, h]
    · exact Parser.isSymbol_of_ne h (by decide)
  have hplace : Text.byteLength (spelled lead ++ k.gap) = k.token.position.offset := by
    have hplaced := (Lexeme.placed_append.1 tiles.placed).2.1
    rw [hplaced, ← Position.advance_append, Position.offset_advance]
    exact (Nat.zero_add _).symm
  have hsplit : ({ k with gap := [] } :: (run ++ semi :: after) : List Lexeme) =
      ({ k with gap := [] } :: (run ++ [semi])) ++ after := by simp
  have htiles := tiles.drop.resume
  have hfits := htiles.fits
  have hplaced := htiles.placed
  simp only [List.append_eq] at hfits hplaced
  rw [hsplit] at hfits hplaced
  refine locateDotted_eq_ok_iff.2 ⟨spelled lead ++ k.gap, { k with gap := [] }, run, semi,
    spelled after ++ trail, ⟨?_, hplace, (Lexeme.fits_append.1 hfits).1,
      (Lexeme.placed_append.1 hplaced).1, keyword, hgoes_on, ends⟩, spells.ne_nil, spells.join_eq,
      rfl⟩
  have htext := tiles.rest_eq
  simpa [Lexer.start, Lexeme.chars] using htext

theorem mapDotted_eq_ok
    (tiles : Lexer.Tiles (Lexer.start s.filename s.text) (lead ++ (run ++ after)) trail)
    (nonempty : run ≠ []) (f : String → String) :
    s.mapDotted (.ofRun run) f = .ok (String.ofList (spelled (bare (run.map (reword f))))) := by
  have hplaced := (Lexeme.placed_append.1 (Lexeme.placed_append.1 tiles.placed).2).1
  have htext : s.text = spelled lead ++ (spelled run ++ (spelled after ++ trail)) := by
    simpa [Lexer.start] using tiles.rest_eq
  refine mapDotted_ofRun htext ?_ hplaced nonempty f
  rw [Position.offset_advance]
  exact (Nat.zero_add _).symm

end SourceText

end SchemaLint
