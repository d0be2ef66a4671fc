import SchemaLint.Proofs.Token.Shape
import SchemaLint.Proofs.Token.Tiling

/-!
# A text and its tokens

A text is read as tokens exactly where gaps and tokens of the right shape make it up from its
beginning to its end.  It has a fault exactly where they make it up to that fault.
-/

set_option autoImplicit false
set_option relaxedAutoImplicit false

namespace SchemaLint

open Scan (Spacing IsToken IsFault)

namespace Lexeme

/-- Whether lexemes may stand before a text: each is a gap and a whole token. -/
def Fits : List Lexeme → List Char → Prop
  | [], _ => True
  | l :: ls, after =>
    Spacing l.gap (l.token.text.toList ++ (spelled ls ++ after)) ∧
      IsToken l.token.kind l.token.text.toList (spelled ls ++ after) ∧ Fits ls after

/-- A text made up of lexemes and of what stands behind them.  Each lexeme is blanks and comments, then
a token that does not go on in the text behind it.  The tokens know their places, are found there, and
come one behind the other. -/
structure Tiling (filename : String) (text : List Char) (ls : List Lexeme) (after : List Char) :
    Prop where
  whole : text = spelled ls ++ after
  gap : ∀ as l bs, ls = as ++ l :: bs →
    Spacing l.gap (l.token.text.toList ++ (spelled bs ++ after))
  token : ∀ as l bs, ls = as ++ l :: bs →
    IsToken l.token.kind l.token.text.toList (spelled bs ++ after)
  position : ∀ as l bs, ls = as ++ l :: bs →
    l.token.position = .behind filename (spelled as ++ l.gap)
  slice : ∀ l ∈ ls, l.token.position.offset < l.token.stop ∧
    Text.slice? text l.token.position.offset l.token.stop = some l.token.text.toList
  order : ls.Pairwise fun l m => l.token.stop ≤ m.token.position.offset

theorem fits_append {ls ms : List Lexeme} {after : List Char} :
    Fits (ls ++ ms) after ↔ Fits ls (spelled ms ++ after) ∧ Fits ms after := by
  induction ls with
  | nil => simp [Fits]
  | cons l ls ih => simp [Fits, ih, and_assoc]

theorem Placed.stop_eq {p : Position} {l : Lexeme} {ls : List Lexeme} (h : Placed p (l :: ls)) :
    l.token.stop = (p.advance l.chars).offset := by
  rw [Token.stop, h.1, ← Token.byteLength_text, chars, Position.advance_append,
    Position.offset_advance (p.advance l.gap)]

theorem Placed.pairwise {p : Position} {ls : List Lexeme} (h : Placed p ls) :
    ls.Pairwise fun l m => l.token.stop ≤ m.token.position.offset := by
  induction ls generalizing p with
  | nil => exact .nil
  | cons l ls ih =>
    refine .cons (fun m hm => ?_) (ih h.2)
    rw [h.stop_eq]
    exact Placed.le_offset h.2 m hm

theorem Placed.slice_eq {p : Position} {ls : List Lexeme} (h : Placed p ls)
    {front rest : List Char} (here : Text.byteLength front = p.offset) : ∀ l ∈ ls,
    Text.slice? (front ++ (spelled ls ++ rest)) l.token.position.offset l.token.stop =
      some l.token.text.toList := by
  intro l hl
  obtain ⟨as, bs, rfl⟩ := List.append_of_mem hl
  have hstart : l.token.position.offset =
      Text.byteLength (front ++ (spelled as ++ l.gap)) := by
    have hplace := (placed_append.1 h).2.1
    rw [hplace, Position.offset_advance, Position.offset_advance, ← here]
    simp only [Text.byteLength_append]
    omega
  have hstop : l.token.stop =
      Text.byteLength (front ++ (spelled as ++ l.gap) ++ l.token.text.toList) := by
    rw [Token.stop, hstart, ← Token.byteLength_text, ← Text.byteLength_append]
  have hwhole : front ++ (spelled (as ++ l :: bs) ++ rest) =
      front ++ (spelled as ++ l.gap) ++ l.token.text.toList ++ (spelled bs ++ rest) := by
    simp [chars]
  rw [hwhole, hstart, hstop, Text.slice?_append]

theorem start_lt_stop {l : Lexeme} (nonempty : l.token.text.toList ≠ []) :
    l.token.position.offset < l.token.stop := by
  have hpos := Text.byteLength_eq_zero.not.2 nonempty
  rw [Token.byteLength_text] at hpos
  unfold Token.stop
  omega

theorem tiling_iff {filename : String} {text after : List Char} {ls : List Lexeme} :
    Tiling filename text ls after ↔
      text = spelled ls ++ after ∧ Fits ls after ∧ Placed (.start filename) ls := by
  constructor
  · rintro ⟨whole, gap, token, position, -, -⟩
    -- The lexemes are walked with those already passed in front of them.
    have walk : ∀ as bs, ls = as ++ bs →
        Fits bs after ∧ Placed ((Position.start filename).advance (spelled as)) bs := by
      intro as bs
      induction bs generalizing as with
      | nil => exact fun _ => ⟨trivial, trivial⟩
      | cons l bs ih =>
        intro hls
        obtain ⟨hfits, hplaced⟩ := ih (as ++ [l]) (by simp [hls])
        have hposition := position as l bs hls
        rw [← Position.advance_start, Position.advance_append] at hposition
        simp only [spelled_append, spelled_cons, spelled_nil, List.append_nil,
          Position.advance_append] at hplaced
        exact ⟨⟨gap as l bs hls, token as l bs hls, hfits⟩, hposition, hplaced⟩
    exact ⟨whole, walk [] ls rfl⟩
  · rintro ⟨rfl, hfits, hplaced⟩
    have hposition : ∀ as l bs, ls = as ++ l :: bs →
        l.token.position = .behind filename (spelled as ++ l.gap) := by
      rintro as l bs rfl
      rw [← Position.advance_start, Position.advance_append]
      exact (placed_append.1 hplaced).2.1
    refine ⟨rfl, ?_, ?_, hposition, ?_, hplaced.pairwise⟩
    · rintro as l bs rfl
      exact (fits_append.1 hfits).2.1
    · rintro as l bs rfl
      exact (fits_append.1 hfits).2.2.1
    · intro l hl
      refine ⟨start_lt_stop ?_, @Placed.slice_eq _ _ hplaced [] _ rfl l hl⟩
      obtain ⟨as, bs, rfl⟩ := List.append_of_mem hl
      exact ((fits_append.1 hfits).2.2.1).ne_nil

end Lexeme

namespace Lexer

variable {x after : Lexer} {l : Lexeme} {e : LexError}

open Lexeme (spelled Fits Placed)

theorem takes_iff : x.Takes l after ↔ x.rest = l.chars ++ after.rest ∧
    Spacing l.gap (l.token.text.toList ++ after.rest) ∧
    IsToken l.token.kind l.token.text.toList after.rest ∧
    l.token.position = x.position.advance l.gap ∧
    after.position = x.position.advance l.chars := by
  constructor
  · intro h
    obtain ⟨hrest, hspacing, -⟩ := Scan.gap_eq_closed_iff.1 h.gap
    rw [← List.append_assoc] at hrest
    exact ⟨hrest, hspacing, Scan.isToken_of_head h.head h.endsGap, h.here, h.there⟩
  · rintro ⟨hrest, hspacing, htoken, hhere, hthere⟩
    refine ⟨Scan.gap_eq_closed_iff.2 ⟨?_, hspacing, .inr htoken.endsGap_append⟩,
      htoken.head_append, hhere, hthere⟩
    rw [hrest, Lexeme.chars, List.append_assoc]

theorem exists_finished_iff :
    (∃ gap after, x.next = .finished gap after) ↔ Spacing x.rest [] := by
  constructor
  · rintro ⟨gap, after, h⟩
    exact (Scan.gap_eq_closed_iff.1 (gap_of_finished h)).2.1
  · intro h
    have hgap : Scan.gap x.rest = ⟨x.rest, [], false⟩ :=
      Scan.gap_eq_closed_iff.2 ⟨by simp, h, .inl rfl⟩
    refine ⟨x.rest, ⟨[], x.position.advance x.rest⟩, ?_⟩
    simp only [next, hgap]
    rfl

theorem exists_failed_iff : (∃ after, x.next = .failed e after) ↔
    ∃ gap bad, x.rest = gap ++ bad ∧ Spacing gap bad ∧ IsFault e.fault bad ∧
      e.position = x.position.advance gap := by
  rcases hgap : Scan.gap x.rest with ⟨taken, rest, isOpen⟩
  constructor
  · rintro ⟨after, h⟩
    simp only [next, hgap] at h
    cases isOpen with
    | true =>
      obtain ⟨rfl, -⟩ := Step.failed.inj h
      obtain ⟨hrest, hspacing, hfault⟩ := Scan.gap_eq_open_iff.1 hgap
      exact ⟨taken, rest, hrest, hspacing, hfault, rfl⟩
    | false =>
      obtain ⟨hrest, hspacing, hends⟩ := Scan.gap_eq_closed_iff.1 hgap
      cases hhead : Scan.head rest with
      | nothing => simp [hhead] at h
      | token kind text behind => simp [hhead] at h
      | faulty fault read behind =>
        simp only [hhead] at h
        obtain ⟨rfl, -⟩ := Step.failed.inj h
        have hends : Scan.endsGap rest = true := by
          refine hends.resolve_left fun hnil => ?_
          rw [hnil] at hhead
          cases hhead
        exact ⟨taken, rest, hrest, hspacing, Scan.isFault_of_head hhead hends, rfl⟩
  · rintro ⟨gap, bad, hrest, hspacing, hfault, hposition⟩
    obtain ⟨fault, position⟩ := e
    obtain rfl : position = x.position.advance gap := hposition
    by_cases hcomment : fault = .openComment
    · subst hcomment
      have hopen := Scan.gap_eq_open_iff.2 ⟨hrest, hspacing, hfault⟩
      exact ⟨⟨[], (x.position.advance gap).advance bad⟩, by simp only [next, hopen]; rfl⟩
    · obtain ⟨hends, read, behind, hhead⟩ := hfault.exists_head hcomment
      have hclosed := Scan.gap_eq_closed_iff.2 ⟨hrest, hspacing, .inr hends⟩
      refine ⟨⟨behind, (x.position.advance gap).advance read⟩, ?_⟩
      simp only [next, hclosed, hhead]
      rfl

def Ends (p : Position) (rest : List Char) : Option LexError → Prop
  | none => Spacing rest []
  | some e => ∃ gap bad, rest = gap ++ bad ∧ Spacing gap bad ∧ IsFault e.fault bad ∧
      e.position = p.advance gap

/-- A lexer reads the lexemes that make up its text as far as there is no fault in it. -/
theorem read_eq_iff_fits {ls : List Lexeme} {fault : Option LexError} :
    x.read = ⟨ls, fault⟩ ↔ ∃ rest, x.rest = spelled ls ++ rest ∧ Fits ls rest ∧
      Placed x.position ls ∧ Ends (x.position.advance (spelled ls)) rest fault := by
  constructor
  · intro h
    induction x using read.induct generalizing ls with
    | case1 x e after hnext =>
      rw [read_of_failed hnext] at h
      obtain ⟨rfl, rfl⟩ := Reading.mk.inj h
      exact ⟨x.rest, rfl, trivial, trivial, exists_failed_iff.1 ⟨after, hnext⟩⟩
    | case2 x gap after hnext =>
      rw [read_of_finished hnext] at h
      obtain ⟨rfl, rfl⟩ := Reading.mk.inj h
      exact ⟨x.rest, rfl, trivial, trivial, exists_finished_iff.1 ⟨gap, after, hnext⟩⟩
    | case3 x l after hnext ih =>
      rw [read_of_lexeme hnext] at h
      obtain ⟨rfl, hfault⟩ := Reading.mk.inj h
      obtain ⟨rest, hrest, hfits, hplaced, hends⟩ := ih (by rw [← hfault])
      obtain ⟨hwhole, hspacing, htoken, hhere, hthere⟩ := takes_iff.1 (next_eq_lexeme_iff.1 hnext)
      rw [hrest] at hwhole hspacing htoken
      rw [hthere] at hplaced hends
      refine ⟨rest, by simp [hwhole], ⟨hspacing, htoken, hfits⟩, ⟨hhere, hplaced⟩, ?_⟩
      rwa [Lexeme.spelled_cons, Position.advance_append]
  · rintro ⟨rest, hrest, hfits, hplaced, hends⟩
    induction ls generalizing x with
    | nil =>
      rw [Lexeme.spelled_nil, List.nil_append] at hrest
      subst hrest
      cases fault with
      | none =>
        obtain ⟨gap, after, hnext⟩ := exists_finished_iff.2 hends
        exact read_of_finished hnext
      | some e =>
        obtain ⟨after, hnext⟩ := exists_failed_iff.2 hends
        exact read_of_failed hnext
    | cons l ls ih =>
      obtain ⟨hspacing, htoken, hfits⟩ := hfits
      obtain ⟨hhere, hplaced⟩ := hplaced
      rw [Lexeme.spelled_cons, List.append_assoc] at hrest
      rw [Lexeme.spelled_cons, Position.advance_append] at hends
      have htakes : x.Takes l ⟨spelled ls ++ rest, x.position.advance l.chars⟩ :=
        takes_iff.2 ⟨hrest, hspacing, htoken, hhere, rfl⟩
      rw [read_of_lexeme (next_eq_lexeme_iff.2 htakes), ih rfl hfits hplaced hends]

theorem Tiles.fits {ls : List Lexeme} {trail : List Char} (h : Tiles x ls trail) : Fits ls trail := by
  obtain ⟨rest, hrest, hfits, -, -⟩ := read_eq_iff_fits.1 (read_eq_iff.2 ⟨trail, h⟩)
  obtain rfl : trail = rest := List.append_cancel_left (h.rest_eq.symm.trans hrest)
  exact hfits

end Lexer

/-- A text has these tokens exactly where they tile it up to a last gap, and this fault exactly where
its tokens and a gap come up to a fault of that shape. -/
theorem tokenize_eq_iff (filename : String) (text : List Char) :
    (∀ ts, tokenize filename text = .ok ts ↔ ∃ ls trail,
      ts = ls.map Lexeme.token ∧ Lexeme.Tiling filename text ls trail ∧ Spacing trail []) ∧
    ∀ e, tokenize filename text = .error e ↔ ∃ ls gap bad,
      Lexeme.Tiling filename text ls (gap ++ bad) ∧ Spacing gap bad ∧ IsFault e.fault bad ∧
        e.position = .behind filename (Lexeme.spelled ls ++ gap) := by
  rcases h : (Lexer.start filename text).read with ⟨ms, found⟩
  have hread : ∀ ls fault, ms = ls ∧ found = fault ↔ ∃ after,
      Lexeme.Tiling filename text ls after ∧
        Lexer.Ends ((Position.start filename).advance (Lexeme.spelled ls)) after fault := by
    intro ls fault
    rw [← Reading.mk.injEq, ← h, Lexer.read_eq_iff_fits]
    simp only [Lexeme.tiling_iff, and_assoc]
    rfl
  constructor
  · intro ts
    have htokens : tokenize filename text = .ok ts ↔ ts = ms.map Lexeme.token ∧ found = none := by
      simp only [tokenize, h]
      cases found <;> simp [Reading.tokens, eq_comm]
    rw [htokens]
    constructor
    · rintro ⟨rfl, hfound⟩
      obtain ⟨trail, htiling, hends⟩ := (hread ms none).1 ⟨rfl, hfound⟩
      exact ⟨ms, trail, rfl, htiling, hends⟩
    · rintro ⟨ls, trail, rfl, htiling, hends⟩
      obtain ⟨rfl, hfound⟩ := (hread ls none).2 ⟨trail, htiling, hends⟩
      exact ⟨rfl, hfound⟩
  · intro e
    have hfault : tokenize filename text = .error e ↔ found = some e := by
      simp only [tokenize, h]
      cases found <;> simp
    rw [hfault]
    constructor
    · intro hfound
      obtain ⟨_, htiling, gap, bad, rfl, hspacing, hbad, hposition⟩ :=
        (hread ms (some e)).1 ⟨rfl, hfound⟩
      rw [← Position.advance_append, Position.advance_start] at hposition
      exact ⟨ms, gap, bad, htiling, hspacing, hbad, hposition⟩
    · rintro ⟨ls, gap, bad, htiling, hspacing, hbad, hposition⟩
      rw [← Position.advance_start, Position.advance_append] at hposition
      exact ((hread ls (some e)).2 ⟨_, htiling, gap, bad, rfl, hspacing, hbad, hposition⟩).2

end SchemaLint
