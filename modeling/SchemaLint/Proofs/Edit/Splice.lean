import SchemaLint.Proofs.Edit.Arrange
import SchemaLint.Proofs.Locate.Dotted
import SchemaLint.Proofs.Parse.Piece

/-!
# Names written anew

Every renamed declaration has one edit, which reaches over the lexemes of its name.  All of these
applied, the text is spelled by the renamed lexemes.
-/

set_option autoImplicit false
set_option relaxedAutoImplicit false

namespace SchemaLint

def Edit.ofRun (ruleId : String) (f : String → String) (run : List Lexeme) : Edit where
  ruleId := ruleId
  start := (Lexeme.extent run).start
  stop := (Lexeme.extent run).stop
  replacement := String.ofList (Lexeme.spelled (Lexeme.bare (run.map (Lexeme.reword f))))

namespace Piece

def edit? (author : Declaration → Option String) (r : Renaming) : Piece → Option Edit
  | .plain _ => none
  | .name d run => (author d).map fun ruleId => .ofRun ruleId (r.rewrite d) run

def edits (author : Declaration → Option String) (r : Renaming) (ps : List Piece) : List Edit :=
  ps.filterMap (edit? author r)

/-- The names among some pieces have lexemes, and identifiers are written as identifiers. -/
structure Rewordable (r : Renaming) (ps : List Piece) : Prop where
  nonempty : ∀ d run, .name d run ∈ ps → run ≠ []
  identifiers : ∀ d run, .name d run ∈ ps → ∀ l ∈ run, l.token.kind = .identifier →
    Scan.isIdentifier (r.rewrite d l.token.text).toList = true

variable {author : Declaration → Option String} {r : Renaming} {ps : List Piece}

theorem Rewordable.tail {p : Piece} (h : Rewordable r (p :: ps)) : Rewordable r ps where
  nonempty d run hmem := h.nonempty d run (by simp [hmem])
  identifiers d run hmem := h.identifiers d run (by simp [hmem])

theorem Rewordable.rewords (h : Rewordable r ps) :
    List.Forall₂ Lexeme.Rewords (flat ps) (allRenamed r ps) := by
  induction ps with
  | nil => exact .nil
  | cons p ps ih =>
    have hothers := ih h.tail
    cases p with
    | plain l => exact .cons ⟨rfl, rfl, .inl rfl⟩ hothers
    | name d run =>
      have hrun : List.Forall₂ Lexeme.Rewords run
          (run.map fun l => (l.reword (r.rewrite d)).move r.place) := by
        rw [List.forall₂_map_right_iff, List.forall₂_same]
        intro l hl
        have hword := Lexeme.rewords_reword (h.identifiers d run (by simp) l hl)
        exact ⟨hword.gap, hword.kind, hword.text⟩
      rw [flat_name, allRenamed_name]
      exact List.rel_append hrun hothers

theorem spelled_map_move (f : String → String) (place : Position → Position) (run : List Lexeme) :
    Lexeme.spelled (run.map fun l => (l.reword f).move place) =
      Lexeme.spelled (run.map (Lexeme.reword f)) := by
  unfold Lexeme.spelled
  rw [List.flatMap_map, List.flatMap_map]
  rfl

theorem start_stop_ofRun {p : Position} {l : Lexeme} {ls : List Lexeme} (ruleId : String)
    (f : String → String) (placed : Lexeme.Placed p (l :: ls)) :
    (Edit.ofRun ruleId f (l :: ls)).start = p.offset + Text.byteLength l.gap ∧
      (Edit.ofRun ruleId f (l :: ls)).stop =
        p.offset + Text.byteLength (Lexeme.spelled (l :: ls)) := by
  simp [Edit.ofRun, placed.extent_eq]

theorem replacement_ofRun (ruleId : String) (f : String → String) (l : Lexeme) (ls : List Lexeme) :
    l.gap ++ (Edit.ofRun ruleId f (l :: ls)).replacement.toList =
      Lexeme.spelled ((l :: ls).map (Lexeme.reword f)) := by
  rw [List.map_cons, Lexeme.spelled_bare, Lexeme.reword_gap]
  simp [Edit.ofRun]

theorem splice_edits (wordy : Rewordable r ps) (kept : ∀ d, author d = none → ∀ t, r.rewrite d t = t)
    {p : Position} {cursor : Nat} {pending trail : List Char} (placed : Lexeme.Placed p (flat ps))
    (here : p.offset = cursor + Text.byteLength pending) :
    Edit.splice cursor (pending ++ (Lexeme.spelled (flat ps) ++ trail)) (edits author r ps) =
      pending ++ (Lexeme.spelled (allRenamed r ps) ++ trail) := by
  induction ps generalizing p cursor pending with
  | nil => rfl
  | cons piece ps ih =>
    have pass : ∀ ls : List Lexeme, flat (piece :: ps) = ls ++ flat ps →
        edit? author r piece = none → Lexeme.spelled (renamed r piece) = Lexeme.spelled ls →
        Edit.splice cursor (pending ++ (Lexeme.spelled (flat (piece :: ps)) ++ trail))
          (edits author r (piece :: ps)) =
          pending ++ (Lexeme.spelled (allRenamed r (piece :: ps)) ++ trail) := by
      intro ls hflat hnone hsame
      rw [hflat, Lexeme.placed_append] at placed
      have hhere : (p.advance (Lexeme.spelled ls)).offset =
          cursor + Text.byteLength (pending ++ Lexeme.spelled ls) := by
        rw [Position.offset_advance, here, Text.byteLength_append]
        omega
      have hothers := ih wordy.tail placed.2 hhere
      have hedits : edits author r (piece :: ps) = edits author r ps := by
        simp [edits, hnone]
      have hall : allRenamed r (piece :: ps) = renamed r piece ++ allRenamed r ps := rfl
      rw [hedits, hflat, hall, Lexeme.spelled_append, Lexeme.spelled_append, hsame]
      simpa using hothers
    cases piece with
    | plain l => exact pass [l] rfl rfl rfl
    | name d run =>
      cases hauthor : author d with
      | none =>
        refine pass run rfl (by simp [edit?, hauthor]) ?_
        rw [renamed, spelled_map_move, Lexeme.map_reword_of_kept (kept d hauthor)]
      | some ruleId =>
        obtain ⟨l, ls, rfl⟩ := List.exists_cons_of_ne_nil (wordy.nonempty d run (by simp))
        rw [flat_name, Lexeme.placed_append] at placed
        obtain ⟨hstart, hstop⟩ := start_stop_ofRun ruleId (r.rewrite d) placed.1
        have hhere : (p.advance (Lexeme.spelled (l :: ls))).offset =
            (Edit.ofRun ruleId (r.rewrite d) (l :: ls)).stop + Text.byteLength [] := by
          rw [Position.offset_advance, hstop]
          rfl
        have hothers := ih wordy.tail placed.2 hhere
        have hbefore : (Edit.ofRun ruleId (r.rewrite d) (l :: ls)).start - cursor =
            Text.byteLength (pending ++ l.gap) := by
          rw [hstart, Text.byteLength_append]
          omega
        have hover : (Edit.ofRun ruleId (r.rewrite d) (l :: ls)).stop - cursor =
            Text.byteLength (pending ++ Lexeme.spelled (l :: ls)) := by
          rw [hstop, Text.byteLength_append]
          omega
        have htext : pending ++ (Lexeme.spelled (l :: ls ++ flat ps) ++ trail) =
            (pending ++ l.gap) ++ (Lexeme.spelled (Lexeme.bare (l :: ls)) ++
              (Lexeme.spelled (flat ps) ++ trail)) := by
          rw [Lexeme.spelled_append, Lexeme.spelled_bare]
          simp only [List.append_assoc]
        have htext' : pending ++ (Lexeme.spelled (l :: ls ++ flat ps) ++ trail) =
            (pending ++ Lexeme.spelled (l :: ls)) ++ (Lexeme.spelled (flat ps) ++ trail) := by
          rw [Lexeme.spelled_append]
          simp only [List.append_assoc]
        have hedits : edits author r (.name d (l :: ls) :: ps) =
            Edit.ofRun ruleId (r.rewrite d) (l :: ls) :: edits author r ps := by
          simp [edits, edit?, hauthor]
        rw [flat_name, hedits, Edit.splice, hbefore, hover, htext, Text.takeBytes_append, ← htext,
          htext', Text.dropBytes_append, allRenamed_name, Lexeme.spelled_append,
          spelled_map_move, ← replacement_ofRun ruleId]
        simpa using hothers

theorem mem_edits {e : Edit} : e ∈ edits author r ps ↔
    ∃ d run ruleId, .name d run ∈ ps ∧ author d = some ruleId ∧
      e = .ofRun ruleId (r.rewrite d) run := by
  unfold edits
  rw [List.mem_filterMap]
  constructor
  · rintro ⟨piece, hmem, he⟩
    cases piece with
    | plain l => simp [edit?] at he
    | name d run =>
      obtain ⟨ruleId, hauthor, rfl⟩ := Option.map_eq_some_iff.1 he
      exact ⟨d, run, ruleId, hmem, hauthor, rfl⟩
  · rintro ⟨d, run, ruleId, hmem, hauthor, rfl⟩
    exact ⟨.name d run, hmem, by simp [edit?, hauthor]⟩

private theorem edits_apart (wordy : Rewordable r ps) {p : Position}
    (full : ∀ l ∈ flat ps, l.token.text.toList ≠ []) (placed : Lexeme.Placed p (flat ps)) :
    (∀ e ∈ edits author r ps, p.offset ≤ e.start ∧ e.start < e.stop) ∧
      (edits author r ps).Pairwise fun a b => a.stop ≤ b.start := by
  induction ps generalizing p with
  | nil => exact ⟨nofun, .nil⟩
  | cons piece ps ih =>
    have hflat : flat (piece :: ps) = lexemes piece ++ flat ps := rfl
    rw [hflat, Lexeme.placed_append] at placed
    obtain ⟨hbounds, hapart⟩ := ih wordy.tail (fun l hl => full l (by simp [hflat, hl])) placed.2
    have hoffset := p.offset_advance (Lexeme.spelled (lexemes piece))
    have hlater : ∀ e ∈ edits author r ps, p.offset ≤ e.start ∧ e.start < e.stop := by
      intro e he
      have := hbounds e he
      omega
    cases hedit : edit? author r piece with
    | none =>
      have hedits : edits author r (piece :: ps) = edits author r ps := by simp [edits, hedit]
      rw [hedits]
      exact ⟨hlater, hapart⟩
    | some e =>
      have hedits : edits author r (piece :: ps) = e :: edits author r ps := by
        simp [edits, hedit]
      cases piece with
      | plain l => simp [edit?] at hedit
      | name d run =>
        obtain ⟨ruleId, -, rfl⟩ := Option.map_eq_some_iff.1 hedit
        obtain ⟨l, ls, rfl⟩ := List.exists_cons_of_ne_nil (wordy.nonempty d run (by simp))
        obtain ⟨hstart, hstop⟩ := start_stop_ofRun ruleId (r.rewrite d) placed.1
        have hlength : 0 < Text.byteLength l.token.text.toList := by
          obtain ⟨c, cs, hcs⟩ := List.exists_cons_of_ne_nil (full l (by simp))
          have := c.utf8Size_pos
          rw [hcs, Text.byteLength]
          omega
        have hspelled : Text.byteLength (Lexeme.spelled (l :: ls)) = Text.byteLength l.gap +
            Text.byteLength l.token.text.toList + Text.byteLength (Lexeme.spelled ls) := by
          simp [Lexeme.chars, Nat.add_assoc]
        have hlexemes : lexemes (.name d (l :: ls)) = l :: ls := rfl
        rw [hlexemes] at hoffset hbounds
        rw [hedits]
        refine ⟨fun e he => ?_, List.pairwise_cons.2 ⟨fun e he => ?_, hapart⟩⟩
        · rcases List.mem_cons.1 he with rfl | he
          · omega
          · exact hlater e he
        · have := hbounds e he
          omega

private theorem misfit?_eq_none (wordy : Rewordable r ps) {p : Position} {trail : List Char}
    (full : ∀ l ∈ flat ps, l.token.text.toList ≠ []) (placed : Lexeme.Placed p (flat ps))
    (start : p.offset = 0) {e : Edit} (mem : e ∈ edits author r ps) :
    e.misfit? (Lexeme.spelled (flat ps) ++ trail) = none := by
  obtain ⟨d, run, ruleId, hmem, -, rfl⟩ := mem_edits.1 mem
  obtain ⟨as, bs, rfl⟩ := List.append_of_mem hmem
  obtain ⟨l, ls, rfl⟩ := List.exists_cons_of_ne_nil (wordy.nonempty d run hmem)
  have hplaced : Lexeme.Placed (p.advance (Lexeme.spelled (flat as))) (l :: ls) := by
    rw [flat_append, flat_name, Lexeme.placed_append, Lexeme.placed_append] at placed
    exact placed.2.1
  obtain ⟨hstart, hstop⟩ := start_stop_ofRun ruleId (r.rewrite d) hplaced
  rw [Position.offset_advance, start, Nat.zero_add, ← Text.byteLength_append] at hstart hstop
  have htext : Lexeme.spelled (flat (as ++ .name d (l :: ls) :: bs)) ++ trail =
      (Lexeme.spelled (flat as) ++ l.gap) ++ (Lexeme.spelled (Lexeme.bare (l :: ls)) ++
        (Lexeme.spelled (flat bs) ++ trail)) := by
    rw [flat_append, flat_name, Lexeme.spelled_append, Lexeme.spelled_append,
      Lexeme.spelled_bare]
    simp only [List.append_assoc]
  have htext' : Lexeme.spelled (flat (as ++ .name d (l :: ls) :: bs)) ++ trail =
      (Lexeme.spelled (flat as) ++ Lexeme.spelled (l :: ls)) ++
        (Lexeme.spelled (flat bs) ++ trail) := by
    rw [flat_append, flat_name, Lexeme.spelled_append, Lexeme.spelled_append]
    simp only [List.append_assoc]
  have hfirst : Text.isPlace (Lexeme.spelled (flat (as ++ .name d (l :: ls) :: bs)) ++ trail)
      (Edit.ofRun ruleId (r.rewrite d) (l :: ls)).start = true := by
    rw [htext, hstart, Text.isPlace, Text.afterByte?_append]
    rfl
  have hlast : Text.isPlace (Lexeme.spelled (flat (as ++ .name d (l :: ls) :: bs)) ++ trail)
      (Edit.ofRun ruleId (r.rewrite d) (l :: ls)).stop = true := by
    rw [htext', hstop, Text.isPlace, Text.afterByte?_append]
    rfl
  have hend : (Edit.ofRun ruleId (r.rewrite d) (l :: ls)).stop ≤
      Text.byteLength (Lexeme.spelled (flat (as ++ .name d (l :: ls) :: bs)) ++ trail) := by
    rw [htext', hstop, Text.byteLength_append _ (Lexeme.spelled (flat bs) ++ trail)]
    omega
  have horder : (Edit.ofRun ruleId (r.rewrite d) (l :: ls)).start ≤
      (Edit.ofRun ruleId (r.rewrite d) (l :: ls)).stop := by
    rw [hstart, hstop, Lexeme.spelled_bare, ← List.append_assoc,
      Text.byteLength_append (_ ++ l.gap)]
    omega
  have hnew : (Edit.ofRun ruleId (r.rewrite d) (l :: ls)).replacement.isEmpty = false := by
    have htextNe : (l.reword (r.rewrite d)).token.text.toList ≠ [] := by
      by_cases hword : l.token.kind = .identifier
      · rw [Lexeme.reword_text hword]
        have := wordy.identifiers d (l :: ls) hmem l (by simp) hword
        intro hnil
        simp [hnil, Scan.isIdentifier] at this
      · rw [Lexeme.reword_of_ne hword]
        exact full l (by simp)
    rw [← Bool.not_eq_true, String.isEmpty_iff]
    intro hempty
    have hnil := congrArg String.toList hempty
    simp [Edit.ofRun, Lexeme.bare, Lexeme.chars, htextNe] at hnil
  unfold Edit.misfit?
  rw [if_neg (by omega), if_neg (by omega), hfirst, hlast, hnew]
  rfl

theorem applyAll_eq_ok {filename : String} {text trail : List Char} {es : List Edit}
    (tiles : Lexer.Tiles (Lexer.start filename text) (flat ps) trail) (wordy : Rewordable r ps)
    (kept : ∀ d, author d = none → ∀ t, r.rewrite d t = t)
    (members : ∀ e, e ∈ es ↔ e ∈ edits author r ps) :
    Edit.applyAll text es = .ok (Lexeme.spelled (allRenamed r ps) ++ trail) := by
  have htext : text = Lexeme.spelled (flat ps) ++ trail := tiles.rest_eq
  obtain ⟨hbounds, hapart⟩ := @edits_apart author r ps wordy _ tiles.text_ne_nil tiles.placed
  have hfits : Edit.firstMisfit? text es = none := by
    refine Edit.firstMisfit?_eq_none_iff.2 fun e he => ?_
    rw [htext]
    exact misfit?_eq_none wordy tiles.text_ne_nil tiles.placed rfl ((members e).1 he)
  have hordered : ∀ e ∈ edits author r ps, e.start ≤ e.stop := fun e he =>
    Nat.le_of_lt (hbounds e he).2
  have hahead : (edits author r ps).Pairwise Edit.Ahead := by
    refine hapart.imp_of_mem fun {a b} ha hb hab => ⟨hab, ?_⟩
    have hfirst := (hbounds a ha).2
    have hsecond := (hbounds b hb).2
    omega
  have hsorted : (edits author r ps).Pairwise fun a b => a.key < b.key :=
    hahead.imp_of_mem fun ha _ hab => hab.key_lt (hordered _ ha)
  have harrange : Edit.arrange es = edits author r ps := Edit.arrange_eq members hsorted
  have hnone : Edit.firstOverlap? (edits author r ps) = none :=
    (Edit.firstOverlap?_eq_none_iff hordered hsorted).2 hahead
  have hsplice := @splice_edits author r ps wordy kept _ 0 [] trail tiles.placed rfl
  unfold Edit.applyAll
  simp only [hfits, harrange, hnone]
  rw [htext]
  exact congrArg Except.ok hsplice

end Piece

end SchemaLint
