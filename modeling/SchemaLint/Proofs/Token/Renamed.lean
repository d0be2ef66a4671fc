import SchemaLint.Proofs.Outcome
import SchemaLint.Proofs.Rename.Place
import SchemaLint.Proofs.Token.Settle

/-!
# Reading on, and reading another name

Reading can set in at any token of a text: it gives that token and all those behind it.  With another
identifier in the place of one, a text has the same tokens, of which those behind are moved.
-/

set_option autoImplicit false
set_option relaxedAutoImplicit false

namespace SchemaLint

open Change (Shifted onLine)
open Lexeme (Rewords Placed spelled settle)

namespace Token

/-- How a token behind `t` is found again where `t` is written as `word`: farther by the bytes that
`word` takes more, and on the line of `t` by the columns. -/
structure Moves (t : Token) (word : String) (u u' : Token) : Prop where
  kind : u'.kind = u.kind
  text : u'.text = u.text
  filename : u'.position.filename = u.position.filename
  line : u'.position.line = u.position.line
  offset : u'.position.offset + t.text.utf8ByteSize = u.position.offset + word.utf8ByteSize
  beside : u.position.line = t.position.line →
    u'.position.column + t.text.length = u.position.column + word.length
  below : u.position.line ≠ t.position.line → u'.position.column = u.position.column

theorem moves_of_shifted {t u u' : Token} {word : String} (kind : u'.kind = u.kind)
    (text : u'.text = u.text) (h : Shifted [⟨t, word⟩] u.position u'.position) :
    Moves t word u u' := by
  have hoffset := h.offset
  have hcolumn := h.column
  simp only [Change.oldBytes, Change.newBytes, List.map_cons, List.map_nil, List.sum_cons,
    List.sum_nil, Nat.add_zero] at hoffset
  refine ⟨kind, text, h.filename, h.line, hoffset, fun hline => ?_, fun hline => ?_⟩
  · have hone : onLine u.position.line [⟨t, word⟩] = [⟨t, word⟩] := by simp [onLine, hline]
    rw [hone] at hcolumn
    simpa [Change.oldColumns, Change.newColumns] using hcolumn
  · have hnone : onLine u.position.line [⟨t, word⟩] = [] := by
      simp [onLine, Ne.symm hline]
    rw [hnone] at hcolumn
    exact hcolumn

end Token

namespace Lexeme

theorem rewords_settle_self (ls : List Lexeme) (p : Position) :
    List.Forall₂ Rewords ls (settle p ls) := by
  induction ls generalizing p with
  | nil => exact .nil
  | cons l ls ih => exact .cons ⟨rfl, rfl, .inl rfl⟩ (ih _)

theorem moves_settle {t : Token} {word : String} {p p' : Position} {ls : List Lexeme}
    (shifted : Shifted [⟨t, word⟩] p p') (placed : Placed p ls) :
    List.Forall₂ (t.Moves word) (ls.map token) ((settle p' ls).map token) := by
  induction ls generalizing p p' with
  | nil => exact .nil
  | cons l ls ih =>
    obtain ⟨here, others⟩ := placed
    have hplace : Shifted [⟨t, word⟩] l.token.position (p'.advance l.gap) := by
      rw [here]
      exact shifted.advance l.gap
    exact .cons (Token.moves_of_shifted rfl rfl hplace) (ih (shifted.advance l.chars) others)

end Lexeme

namespace Lexer

variable {filename : String} {text : List Char} {as bs : List Lexeme} {l : Lexeme}
  {trail : List Char}

theorem resume_eq (tiles : Tiles (start filename text) (as ++ l :: bs) trail) :
    resume text l.token.position =
      ⟨l.token.text.toList ++ (spelled bs ++ trail), l.token.position⟩ := by
  obtain ⟨hwhole, hplace⟩ := tiles.cut
  have hle : l.token.position.offset ≤ Text.byteLength text := by
    rw [hwhole, hplace, Text.byteLength_append (spelled as ++ l.gap)]
    exact Nat.le_add_right _ _
  have hafter : Text.afterByte? text l.token.position.offset =
      some (l.token.text.toList ++ (spelled bs ++ trail)) := by
    rw [hplace]
    nth_rewrite 1 [hwhole]
    exact Text.afterByte?_append _ _
  unfold resume
  simp only [Nat.min_eq_left hle, hafter]

theorem tokens_read_resume (tiles : Tiles (start filename text) (as ++ l :: bs) trail) :
    (resume text l.token.position).read.tokens = l.token :: bs.map Lexeme.token ∧
      (resume text l.token.position).read.fault = none := by
  rw [resume_eq tiles, read_eq_iff.2 ⟨trail, tiles.drop.resume⟩]
  exact ⟨rfl, rfl⟩

theorem exists_tiles_renamed (tiles : Tiles (start filename text) (as ++ l :: bs) trail)
    (word : l.token.kind = .identifier) {w : String} (word' : Scan.isIdentifier w.toList = true) :
    ∃ bs', Tiles (start filename (spelled as ++ l.gap ++ (w.toList ++ (spelled bs ++ trail))))
        (as ++ { l with token := { l.token with text := w } } :: bs') trail ∧
      List.Forall₂ (l.token.Moves w) (bs.map Lexeme.token) (bs'.map Lexeme.token) := by
  let l' : Lexeme := { l with token := { l.token with text := w } }
  let p := (Position.start filename).advance (spelled as)
  obtain ⟨hfront, hhere, hbehind⟩ := Lexeme.placed_append.1 tiles.placed
  have hmem : l ∈ as ++ l :: bs := by simp
  have hline := Scan.newline_notMem_of_isIdentifier (tiles.isIdentifier l hmem word)
  have hline' := Scan.newline_notMem_of_isIdentifier word'
  have hshifted : Shifted [⟨l.token, w⟩] (p.advance l.chars) (p.advance l'.chars) := by
    have h : Shifted [⟨l.token, w⟩] (l.token.position.advance l.token.text.toList)
        (l.token.position.advance w.toList) :=
      (Shifted.refl l.token.position).replace rfl (tiles.text_ne_nil l hmem) hline hline'
    rw [Lexeme.chars, Lexeme.chars, Position.advance_append, Position.advance_append]
    rwa [hhere] at h
  refine ⟨settle (p.advance l'.chars) bs, ?_, Lexeme.moves_settle hshifted hbehind⟩
  have hrewords : List.Forall₂ Rewords (as ++ l :: bs)
      (as ++ l' :: settle (p.advance l'.chars) bs) :=
    List.rel_append (List.forall₂_same.2 fun _ _ => ⟨rfl, rfl, .inl rfl⟩)
      (.cons ⟨rfl, rfl, .inr ⟨word, word'⟩⟩ (Lexeme.rewords_settle_self bs _))
  have hplaced : Placed (.start filename) (as ++ l' :: settle (p.advance l'.chars) bs) :=
    Lexeme.placed_append.2 ⟨hfront, hhere, Lexeme.placed_settle _ _⟩
  have hagain := tiles.reword hrewords hplaced
  simpa [start, Lexeme.chars, Lexeme.spelled_settle, l'] using hagain

end Lexer

theorem exists_tiles_of_tokenize {filename : String} {text : List Char} {ts : List Token}
    (h : tokenize filename text = .ok ts) :
    ∃ ls trail, Lexer.Tiles (.start filename text) ls trail ∧ ts = ls.map Lexeme.token := by
  rcases hread : (Lexer.start filename text).read with ⟨ls, fault⟩
  simp only [tokenize, hread] at h
  cases fault with
  | some e => cases h
  | none =>
    obtain ⟨trail, htiles⟩ := Lexer.read_eq_iff.1 hread
    exact ⟨ls, trail, htiles, (Except.ok.inj h).symm⟩

theorem tokenize_of_tiles {filename : String} {text : List Char} {ls : List Lexeme}
    {trail : List Char} (h : Lexer.Tiles (.start filename text) ls trail) :
    tokenize filename text = .ok (ls.map Lexeme.token) := by
  unfold tokenize
  rw [Lexer.read_eq_iff.2 ⟨trail, h⟩]
  rfl

/-- Reading that sets in at a token of a text gives that token and all behind it, up to the end.  And
where the token is an identifier, the text with any other identifier in its place has the same tokens
before it, that one in its place, and behind it the same ones, moved by what it takes more. -/
theorem tokenize_resumed_renamed {filename : String} {text : List Char} {ts : List Token}
    (tokens : tokenize filename text = .ok ts) {i : Nat} {t : Token} (here : ts[i]? = some t) :
    ((Lexer.resume text t.position).read.tokens = ts.drop i ∧
      (Lexer.resume text t.position).read.fault = none) ∧
    (t.kind = .identifier → ∀ w : String, Scan.isIdentifier w.toList = true → ∃ later,
      tokenize filename (Text.takeBytes text t.position.offset ++
          (w.toList ++ Text.dropBytes text t.stop)) =
        .ok (ts.take i ++ { t with text := w } :: later) ∧
      List.Forall₂ (t.Moves w) (ts.drop (i + 1)) later) := by
  obtain ⟨ls, trail, htiles, rfl⟩ := exists_tiles_of_tokenize tokens
  obtain ⟨l, hl, rfl⟩ : ∃ l, ls[i]? = some l ∧ l.token = t := by
    simpa using here
  obtain ⟨as, bs, rfl, rfl⟩ : ∃ as bs, ls = as ++ l :: bs ∧ i = as.length := by
    obtain ⟨hi, rfl⟩ := List.getElem?_eq_some_iff.1 hl
    exact ⟨ls.take i, ls.drop (i + 1), by simp, by simp [Nat.min_eq_left (Nat.le_of_lt hi)]⟩
  have htake : ((as ++ l :: bs).map Lexeme.token).take as.length = as.map Lexeme.token := by simp
  have hdrop : ((as ++ l :: bs).map Lexeme.token).drop as.length =
      l.token :: bs.map Lexeme.token := by simp
  have hlater : ((as ++ l :: bs).map Lexeme.token).drop (as.length + 1) = bs.map Lexeme.token := by
    rw [← List.drop_drop, hdrop]
    rfl
  rw [htake, hdrop, hlater]
  refine ⟨Lexer.tokens_read_resume htiles, fun word w word' => ?_⟩
  obtain ⟨hwhole, hplace⟩ := htiles.cut
  have hstop : l.token.stop =
      Text.byteLength (spelled as ++ l.gap ++ l.token.text.toList) := by
    rw [Token.stop, hplace, Text.byteLength_append (spelled as ++ l.gap), Token.byteLength_text]
  have hbefore : Text.takeBytes text l.token.position.offset = spelled as ++ l.gap := by
    rw [hplace, hwhole]
    exact Text.takeBytes_append _ _
  have hbehind : Text.dropBytes text l.token.stop = spelled bs ++ trail := by
    rw [hstop, hwhole, ← List.append_assoc (spelled as ++ l.gap)]
    exact Text.dropBytes_append _ _
  obtain ⟨bs', hagain, hmoves⟩ := Lexer.exists_tiles_renamed htiles word word'
  refine ⟨bs'.map Lexeme.token, ?_, hmoves⟩
  rw [hbefore, hbehind, tokenize_of_tiles hagain, List.map_append, List.map_cons]

/-- A name between slashes and a string is renamed; the symbols and the number behind it move, and the
next line stays. -/
theorem tokenize_resumed_renamed_slashes :
    let text := "a/b\"c\" .5/*é*/x\ny".toList
    ∃ ts t, tokenize "a.proto" text = .ok ts ∧ ts[2]? = some t ∧
      ((Lexer.resume text t.position).read.tokens = ts.drop 2 ∧
        (Lexer.resume text t.position).read.fault = none) ∧
      t.kind = .identifier ∧ Scan.isIdentifier "long_name".toList = true ∧ ∃ later,
        tokenize "a.proto" "a/long_name\"c\" .5/*é*/x\ny".toList =
          .ok (ts.take 2 ++ { t with text := "long_name" } :: later) ∧
        List.Forall₂ (t.Moves "long_name") (ts.drop 3) later := by
  intro text
  let t : Token := ⟨.identifier, "b", ⟨"a.proto", 2, 1, 3⟩⟩
  have htext : ((tokenize "a.proto" text).toOption.bind (·[2]?)) = some t := by decide +kernel
  obtain ⟨ts, hts, ht⟩ := Option.bind_eq_some_iff.1 htext
  have htokens : tokenize "a.proto" text = .ok ts := eq_ok_of_toOption hts
  obtain ⟨hresumed, hrenamed⟩ := tokenize_resumed_renamed htokens ht
  have hword : Scan.isIdentifier "long_name".toList = true := by decide +kernel
  obtain ⟨later, hlater, hmoves⟩ := hrenamed rfl "long_name" hword
  have hwhole : Text.takeBytes text t.position.offset ++ ("long_name".toList ++
      Text.dropBytes text t.stop) = "a/long_name\"c\" .5/*é*/x\ny".toList := by decide +kernel
  rw [hwhole] at hlater
  exact ⟨ts, t, htokens, ht, hresumed, rfl, hword, later, hlater, hmoves⟩

end SchemaLint
