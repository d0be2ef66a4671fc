import SchemaLint.Parse.File
import SchemaLint.Proofs.Parse.Header

/-!
# Files under a renaming

The lexemes of a file that was read fall into pieces, and the renamed pieces are read as the renamed
file.  Blocks nest, so this goes by induction on how deep they may.
-/

set_option autoImplicit false
set_option relaxedAutoImplicit false

namespace SchemaLint.Parser

open Piece (flat allRenamed)

variable {ls rest : List Lexeme}

/-- What a parser took for a declaration with all in it, cut into pieces that are read again when
they are renamed, where blocks may nest as deep as there are lexemes. -/
structure Nested (scope : Scope) (d : Declaration) (ps : List Piece) : Prop where
  unfolds : Unfolds (d.preorder.filter Declaration.isNamed) ps
  long : 3 ≤ (flat ps).length
  again : ∀ (r : Renaming) (depth : Nat) (rest : List Lexeme), (flat ps).length ≤ depth →
    declaration.go depth scope (allRenamed r ps ++ rest) = .ok (r.declaration d, rest)

theorem Encloses.length_le {α : Type} {item : Parser α} {as : List α} {last : Token}
    (h : Encloses item ls as last rest) : rest.length ≤ ls.length := by
  induction h with
  | close => simp
  | skip _ _ ih => exact Nat.le_succ_of_le ih
  | item _ _ shorter _ ih => omega

private theorem header_shorter {scope : Scope} {h : Header}
    (he : header scope ls = .ok (h, rest)) : rest.length < ls.length := by
  obtain ⟨d, hd⟩ : ∃ d, Heads h d := by
    cases h with
    | statement d => exact ⟨d, .statement d⟩
    | opening kind name first => exact ⟨_, .opening kind name [] first first⟩
  obtain ⟨ps, rfl, hread, -⟩ := headerRereads scope ls h rest d he hd
  have hlong := hread.long
  rw [List.length_append]
  omega

theorem progresses_go (depth : Nat) (scope : Scope) : Progresses (declaration.go depth scope) := by
  induction depth generalizing scope with
  | zero =>
    intro ls d rest he
    simp [declaration.go] at he
  | succ depth ih =>
    intro ls d rest he
    unfold declaration.go at he
    obtain ⟨h, mid, hh, hafter⟩ := bind_eq_ok_iff.1 he
    have hshorter := header_shorter hh
    cases h with
    | statement d' =>
      obtain ⟨-, rfl⟩ := pure_eq_ok_iff.1 hafter
      exact hshorter
    | opening kind name first =>
      obtain ⟨⟨body, last⟩, _, hbody, hdone⟩ := bind_eq_ok_iff.1 hafter
      obtain ⟨-, rfl⟩ := pure_eq_ok_iff.1 hdone
      have hle := ((enclosed_eq_ok_iff (ih _)).1 hbody).length_le
      omega

private theorem body_again {scope : Scope} {depth : Nat}
    (nested : ∀ ls d rest, declaration.go depth scope ls = .ok (d, rest) →
      ∃ ps, ls = flat ps ++ rest ∧ Nested scope d ps)
    {ds : List Declaration} {last : Token}
    (h : Encloses (declaration.go depth scope) ls ds last rest) :
    ∃ ps l, ls = flat ps ++ l :: rest ∧ l.token = last ∧ l.token.isSymbol '\x7d' = true ∧
      Unfolds ((Declaration.preorderAll ds).filter Declaration.isNamed) ps ∧
        ∀ (r : Renaming) (depth : Nat) (rest : List Lexeme), (flat ps).length ≤ depth →
          Encloses (declaration.go depth scope) (allRenamed r ps ++ l.move r.place :: rest)
            (r.declarations ds) (l.move r.place).token rest := by
  induction h with
  | @close l rest closes =>
    exact ⟨[], l, rfl, rfl, closes, .nil, fun r depth rest _ => .close closes⟩
  | @skip k ls rest ds last skips others ih =>
    obtain ⟨ps, l, rfl, rfl, hclose, hunfolds, hagain⟩ := ih
    have hskip : Unfolds [] ([k].map Piece.plain) :=
      .plain (by simpa using endsStatement_of_semicolon skips)
    refine ⟨.plain k :: ps, l, rfl, rfl, hclose, hskip.append hunfolds, ?_⟩
    intro r depth rest hdepth
    rw [Piece.flat_plain, List.length_cons] at hdepth
    exact .skip skips (hagain r depth rest (by omega))
  | @item ls mid rest d ds last goes_on first shorter others ih =>
    obtain ⟨qs, l, rfl, rfl, hclose, hunfolds, hagain⟩ := ih
    obtain ⟨ps, rfl, hfirst⟩ := nested _ _ _ first
    refine ⟨ps ++ qs, l, by simp, rfl, hclose, ?_, fun r depth rest' hdepth => ?_⟩
    · rw [Declaration.preorderAll, List.filter_append]
      exact hfirst.unfolds.append hunfolds
    · rw [Piece.flat_append, List.length_append] at hdepth
      have hlong := hfirst.long
      have hd := hfirst.again r depth (allRenamed r qs ++ l.move r.place :: rest') (by omega)
      rw [Piece.allRenamed_append, List.append_assoc]
      refine .item ?_ hd (progresses_go _ _ _ _ _ hd) (hagain r depth rest' (by omega))
      obtain ⟨k, tail, k', tail', hk, hk', hsame⟩ := Piece.head_allRenamed r
        (List.ne_nil_of_length_pos (Nat.lt_of_lt_of_le (by decide) hlong))
      rw [hk, List.cons_append, ahead_cons] at goes_on
      rw [hk', List.cons_append, ahead_cons, hsame, hsame]
      exact goes_on

theorem nested_of_go (depth : Nat) (scope : Scope) {d : Declaration}
    (he : declaration.go depth scope ls = .ok (d, rest)) :
    ∃ ps, ls = flat ps ++ rest ∧ Nested scope d ps := by
  induction depth generalizing scope ls rest d with
  | zero => simp [declaration.go] at he
  | succ depth ih =>
    unfold declaration.go at he
    obtain ⟨h, mid, hh, hafter⟩ := bind_eq_ok_iff.1 he
    cases h with
    | statement d' =>
      obtain ⟨rfl, rfl⟩ := pure_eq_ok_iff.1 hafter
      obtain ⟨ps, rfl, hread, -⟩ := headerRereads scope _ _ _ d' hh (.statement d')
      refine ⟨ps, rfl, hread.unfolds, hread.long, fun r depth rest hdepth => ?_⟩
      have hlong := hread.long
      obtain ⟨depth, rfl⟩ : ∃ n, depth = n + 1 := ⟨depth - 1, by omega⟩
      unfold declaration.go
      rw [bind_of_eq_ok (hread.again r rest)]
      rfl
    | opening kind name first =>
      obtain ⟨⟨body, last⟩, _, hbody, hdone⟩ := bind_eq_ok_iff.1 hafter
      obtain ⟨rfl, rfl⟩ := pure_eq_ok_iff.1 hdone
      obtain ⟨qs, l, rfl, rfl, hclose, hunfolds, hagain⟩ :=
        body_again (fun _ _ _ he => ih _ he) ((enclosed_eq_ok_iff (progresses_go _ _)).1 hbody)
      obtain ⟨ps, rfl, hread, -⟩ := headerRereads scope _ _ _ _ hh
        (.opening kind name body first l.token.position)
      have hlong := hread.long
      have hlast : Unfolds [] ([l].map Piece.plain) :=
        .plain (by simp [SourceText.endsStatement, hclose])
      refine ⟨ps ++ (qs ++ [.plain l]), by simp, ?_, by simp; omega, fun r depth rest hdepth => ?_⟩
      · have hall := hread.unfolds.append (hunfolds.append hlast)
        rw [List.append_nil] at hall
        rw [Declaration.preorder, ← List.singleton_append, List.filter_append]
        exact hall
      · simp only [Piece.flat_append, List.length_append] at hdepth
        obtain ⟨depth, rfl⟩ : ∃ n, depth = n + 1 := ⟨depth - 1, by omega⟩
        have hhead := hread.again r (allRenamed r qs ++ l.move r.place :: rest)
        have hbody := (enclosed_eq_ok_iff (progresses_go _ _)).2
          (hagain r depth rest (by omega))
        have hsplit : allRenamed r (ps ++ (qs ++ [.plain l])) ++ rest =
            allRenamed r ps ++ (allRenamed r qs ++ l.move r.place :: rest) := by
          simp
        unfold declaration.go
        rw [hsplit, bind_of_eq_ok hhead]
        exact bind_eq_ok_iff.2 ⟨_, _, hbody, pure_eq_ok_iff.2 ⟨rfl, rfl⟩⟩

theorem declarations_go_cons (n : Nat) (l : Lexeme) (ls : List Lexeme) :
    declarations.go (n + 1) (l :: ls) =
      if l.token.isSymbol ';' then declarations.go n ls
      else (declaration .file >>= fun first => declarations.go n >>= fun others =>
        pure (first :: others)) (l :: ls) := rfl

private theorem declarations_go (n : Nat) {ds : List Declaration} (enough : ls.length ≤ n)
    (he : declarations.go n ls = .ok (ds, rest)) :
    ∃ ps, ls = flat ps ∧
      Unfolds ((Declaration.preorderAll ds).filter Declaration.isNamed) ps ∧
        ∀ (r : Renaming) (m : Nat), (flat ps).length ≤ m →
          declarations.go m (allRenamed r ps) = .ok (r.declarations ds, []) := by
  induction n generalizing ls ds with
  | zero =>
    obtain ⟨rfl, rfl⟩ := pure_eq_ok_iff.1 he
    obtain rfl : ls = [] := List.length_eq_zero_iff.1 (Nat.le_zero.1 enough)
    refine ⟨[], rfl, .nil, fun r m _ => ?_⟩
    cases m <;> rfl
  | succ n ih =>
    cases ls with
    | nil =>
      obtain ⟨rfl, rfl⟩ := Prod.mk.inj (Except.ok.inj he)
      refine ⟨[], rfl, .nil, fun r m _ => ?_⟩
      cases m <;> rfl
    | cons l ls =>
      rw [List.length_cons] at enough
      rw [declarations_go_cons] at he
      by_cases hskip : l.token.isSymbol ';' = true
      · rw [if_pos hskip] at he
        obtain ⟨ps, rfl, hunfolds, hagain⟩ := ih (by omega) he
        have hplain : Unfolds [] ([l].map Piece.plain) :=
          .plain (by simpa using endsStatement_of_semicolon hskip)
        refine ⟨.plain l :: ps, rfl, hplain.append hunfolds, fun r m hm => ?_⟩
        rw [Piece.flat_plain, List.length_cons] at hm
        obtain ⟨m, rfl⟩ : ∃ k, m = k + 1 := ⟨m - 1, by omega⟩
        rw [Piece.allRenamed_plain, declarations_go_cons, Lexeme.move_isSymbol, if_pos hskip]
        exact hagain r m (by omega)
      · rw [if_neg hskip] at he
        obtain ⟨d, mid, hd, hafter⟩ := bind_eq_ok_iff.1 he
        obtain ⟨others, _, hothers, hdone⟩ := bind_eq_ok_iff.1 hafter
        obtain ⟨rfl, rfl⟩ := pure_eq_ok_iff.1 hdone
        obtain ⟨ps, hls, hfirst⟩ := nested_of_go _ _ hd
        have hlong := hfirst.long
        have hlength := congrArg List.length hls
        rw [List.length_append, List.length_cons] at hlength
        obtain ⟨qs, rfl, hunfolds, hagain⟩ := ih (by omega) hothers
        refine ⟨ps ++ qs, by rw [hls, Piece.flat_append], ?_, fun r m hm => ?_⟩
        · rw [Declaration.preorderAll, List.filter_append]
          exact hfirst.unfolds.append hunfolds
        · rw [Piece.flat_append, List.length_append] at hm
          obtain ⟨m, rfl⟩ : ∃ k, m = k + 1 := ⟨m - 1, by omega⟩
          obtain ⟨k, tail, k', tail', hk, hk', hsame⟩ := Piece.head_allRenamed r
            (List.ne_nil_of_length_pos (Nat.lt_of_lt_of_le (by decide) hlong))
          obtain rfl : l = k := by
            rw [hk, List.cons_append] at hls
            exact (List.cons.inj hls).1
          have hdeclaration : declaration .file (allRenamed r ps ++ allRenamed r qs) =
              .ok (r.declaration d, allRenamed r qs) :=
            hfirst.again r _ _ (by simp)
          rw [Piece.allRenamed_append]
          rw [hk', List.cons_append] at hdeclaration ⊢
          rw [declarations_go_cons, if_neg (by rwa [hsame])]
          rw [bind_of_eq_ok hdeclaration, bind_of_eq_ok (hagain r m (by omega))]
          rfl

theorem declarations_again {ds : List Declaration} (h : declarations ls = .ok (ds, rest)) :
    ∃ ps, ls = flat ps ∧
      Unfolds ((Declaration.preorderAll ds).filter Declaration.isNamed) ps ∧
        ∀ r : Renaming, declarations (allRenamed r ps) = .ok (r.declarations ds, []) := by
  obtain ⟨ps, rfl, hunfolds, hagain⟩ := declarations_go _ (Nat.le_refl _) h
  exact ⟨ps, rfl, hunfolds, fun r => hagain r _ (by simp)⟩

end SchemaLint.Parser
