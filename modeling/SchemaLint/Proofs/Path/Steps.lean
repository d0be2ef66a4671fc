import SchemaLint.Proofs.Outcome
import SchemaLint.Proofs.Text.Split
import SchemaLint.Store

/-!
# Where steps lead

A path that can be followed leads where its steps lead, one after the other.  So two spellings of
the same steps lead to one place, and names behind a directory's path lead down from the directory.
-/

set_option autoImplicit false
set_option relaxedAutoImplicit false

namespace SchemaLint

/-- The place to which a step leads from another. -/
def PathStep.move (place : Place) : PathStep → Place
  | .root => []
  | .here => place
  | .up => place.dropLast
  | .name s => place ++ [s]

theorem PathStep.foldl_move_names (place : Place) (names : List String) :
    (names.map PathStep.name).foldl move place = place ++ names := by
  induction names generalizing place with
  | nil => simp
  | cons name names ih => simp [move, ih]

namespace Path

def front : List (List Char) → List PathStep
  | [] :: _ :: _ => [.root]
  | ['.'] :: _ => [.here]
  | _ => []

def moves (ps : List (List Char)) : List PathStep :=
  (ps.filter (!isIdle ·)).map PathStep.ofPiece

theorem moves_append (ps qs : List (List Char)) : moves (ps ++ qs) = moves ps ++ moves qs := by
  simp [moves]

theorem steps_eq (path : String) : steps path = front (pieces path) ++ moves (pieces path) := by
  unfold steps
  split
  · rename_i p rest heq
    simp [heq, front, moves, isIdle]
  · rename_i rest heq
    simp [heq, front, moves, isIdle]
  · rename_i hroot hhere
    have hfront : front (pieces path) = [] := by
      unfold front
      split
      · exact absurd ‹_› (hroot _ _)
      · exact absurd ‹_› (hhere _)
      · rfl
    rw [hfront]
    rfl

theorem front_cons_congr {p : List Char} {ps qs : List (List Char)} (h : p ≠ [] ∨ ps ≠ [])
    (h' : p ≠ [] ∨ qs ≠ []) : front (p :: ps) = front (p :: qs) := by
  rcases eq_or_ne p [] with rfl | hp
  · obtain ⟨a, as, rfl⟩ := List.exists_cons_of_ne_nil (h.resolve_left fun hne => hne rfl)
    obtain ⟨b, bs, rfl⟩ := List.exists_cons_of_ne_nil (h'.resolve_left fun hne => hne rfl)
    rfl
  · rcases eq_or_ne p ['.'] with rfl | hdot
    · rfl
    · simp [front, hp, hdot]

theorem pieces_join {directory : String} (h : directory ≠ "") (rest : String) :
    ∃ p ps idle, pieces directory = p :: (ps ++ idle) ∧ (p ≠ [] ∨ ps ++ idle ≠ []) ∧
      moves idle = [] ∧ pieces (join directory rest) = p :: (ps ++ pieces rest) := by
  have hempty : directory.isEmpty = false := by simpa using h
  unfold join
  rw [hempty, if_neg Bool.false_ne_true]
  -- A slash at the end leaves an empty last piece, in whose place the joined pieces come.
  split
  · rename_i hlast
    obtain ⟨init, hinit⟩ := List.getLast?_eq_some_iff.1 hlast
    obtain ⟨p, ps, hps⟩ := List.exists_cons_of_ne_nil (Text.splitOn_ne_nil '/' init)
    refine ⟨p, ps, [[]], ?_, .inr (by simp), rfl, ?_⟩
    · unfold pieces
      rw [hinit, Text.splitOn_append_cons, hps]
      rfl
    · unfold pieces
      rw [String.toList_append, hinit, List.append_assoc, List.singleton_append,
        Text.splitOn_append_cons, hps, List.cons_append]
  · obtain ⟨p, ps, hps⟩ := List.exists_cons_of_ne_nil (Text.splitOn_ne_nil '/' directory.toList)
    refine ⟨p, ps, [], by rw [List.append_nil]; exact hps, ?_, rfl, ?_⟩
    · by_contra hnone
      obtain ⟨rfl, rfl⟩ : p = [] ∧ ps = [] := by simpa using hnone
      have hnil := Text.intercalate_splitOn '/' directory.toList
      rw [hps] at hnil
      exact h (by simpa using hnil.symm)
    · unfold pieces
      rw [String.toList_append, String.toList_append, List.append_assoc]
      change Text.splitOn '/' (directory.toList ++ '/' :: rest.toList) = _
      rw [Text.splitOn_append_cons, hps, List.cons_append]

theorem head?_join {directory : String} (h : directory ≠ "") (rest : String) :
    (join directory rest).toList.head? = directory.toList.head? := by
  have hempty : directory.isEmpty = false := by simpa using h
  obtain ⟨c, cs, hcs⟩ := List.exists_cons_of_ne_nil (mt String.toList_eq_nil_iff.1 h)
  unfold join
  rw [hempty, if_neg Bool.false_ne_true]
  split <;> simp [hcs]

theorem mem_join {directory rest : String} {c : Char} (h : c ∈ (join directory rest).toList) :
    c ∈ directory.toList ∨ c = '/' ∨ c ∈ rest.toList := by
  unfold join at h
  split_ifs at h
  · exact .inr (.inr h)
  · rw [String.toList_append, List.mem_append] at h
    exact h.imp_right .inr
  · simpa [or_assoc] using h

theorem join_ne_empty {directory : String} (h : directory ≠ "") (rest : String) :
    join directory rest ≠ "" := by
  have hempty : directory.isEmpty = false := by simpa using h
  unfold join
  rw [hempty, if_neg Bool.false_ne_true]
  split <;> simp [h]

theorem steps_join {directory : String} (h : directory ≠ "") (rest : String) :
    steps (join directory rest) = steps directory ++ moves (pieces rest) := by
  obtain ⟨p, ps, idle, hdirectory, hne, hidle, hjoin⟩ := pieces_join h rest
  have hrest : ps ++ pieces rest ≠ [] :=
    List.append_ne_nil_of_right_ne_nil ps (Text.splitOn_ne_nil '/' rest.toList)
  rw [steps_eq, steps_eq, hjoin, hdirectory, front_cons_congr (.inr hrest) hne,
    ← List.cons_append, ← List.cons_append, moves_append, moves_append, hidle, List.append_nil,
    List.append_assoc]

/-- A name that a directory can give to what it keeps: one piece that does not lead elsewhere, of at
most 255 bytes. -/
def IsName (name : String) : Prop :=
  '/' ∉ name.toList ∧ isIdle name.toList = false ∧ name.toList ≠ ['.', '.'] ∧
    '\x00' ∉ name.toList ∧ name.utf8ByteSize ≤ 255

instance : DecidablePred IsName :=
  fun _ => inferInstanceAs (Decidable (_ ∧ _))

theorem pieces_intercalate {names : List String} (nonempty : names ≠ [])
    (h : ∀ name ∈ names, IsName name) : pieces ("/".intercalate names) = names.map String.toList := by
  unfold pieces
  rw [String.toList_intercalate]
  refine Text.splitOn_intercalate (by simpa using nonempty) fun piece hpiece => ?_
  obtain ⟨name, hname, rfl⟩ := List.mem_map.1 hpiece
  exact (h name hname).1

theorem moves_pieces_intercalate {names : List String} (nonempty : names ≠ [])
    (h : ∀ name ∈ names, IsName name) :
    moves (pieces ("/".intercalate names)) = names.map PathStep.name := by
  rw [pieces_intercalate nonempty h]
  unfold moves
  rw [List.filter_eq_self.2 ?_, List.map_map]
  · refine List.map_congr_left fun name hname => ?_
    obtain ⟨-, hidle, hup, -, -⟩ := h name hname
    have hdot : name.toList ≠ ['.'] := by
      intro hdot
      simp [isIdle, hdot] at hidle
    simp [PathStep.ofPiece]
  · intro piece hpiece
    obtain ⟨name, hname, rfl⟩ := List.mem_map.1 hpiece
    simp [(h name hname).2.1]

theorem steps_join_names {directory : String} (h : directory ≠ "") {names : List String}
    (nonempty : names ≠ []) (named : ∀ name ∈ names, IsName name) :
    steps (join directory ("/".intercalate names)) =
      steps directory ++ names.map PathStep.name := by
  rw [steps_join h, moves_pieces_intercalate nonempty named]

theorem isSchema_join {directory : String} (h : directory ≠ "") {names : List String} {name : String}
    (named : ∀ n ∈ names ++ [name], IsName n) :
    isSchema (join directory ("/".intercalate (names ++ [name]))) = isSchemaName name := by
  unfold isSchema
  rw [steps_join_names h (by simp) named]
  simp

theorem foldl_move_front (path : String) (place : Place) :
    (front (pieces path)).foldl PathStep.move place =
      if path.toList.head? = some '/' then [] else place := by
  unfold pieces
  cases path.toList with
  | nil => rfl
  | cons c cs =>
    obtain ⟨piece, rest, hrest⟩ := List.exists_cons_of_ne_nil (Text.splitOn_ne_nil '/' cs)
    by_cases hc : c = '/'
    · simp [Text.splitOn, hc, hrest, front, PathStep.move]
    · rw [List.head?_cons, if_neg (by simpa using hc), Text.splitOn, if_neg hc, hrest]
      rcases eq_or_ne (c :: piece) ['.'] with hdot | hdot
      · simp [hdot, front, PathStep.move]
      · simp [front, hdot]

end Path

namespace Store

variable {s : Store} {path : String} {place : Place}

theorem step_eq_ok {start : Place} {piece : List Char} (h : s.step start piece = .ok place) :
    place = (Path.moves [piece]).foldl PathStep.move start := by
  unfold step at h
  split at h
  · cases h
  · by_cases hidle : Path.isIdle piece = true
    · rw [if_pos hidle] at h
      simp [Path.moves, hidle, Except.ok.inj h]
    · have hdot : piece ≠ ['.'] := by
        rintro rfl
        exact hidle rfl
      rw [if_neg hidle] at h
      split at h
      · rename_i hup
        rw [← Except.ok.inj h, hup]
        rfl
      · rename_i hup
        dsimp only at h
        split at h
        · cases h
        · rw [← Except.ok.inj h]
          simp [Path.moves, hidle, PathStep.ofPiece, PathStep.move]
  · cases h

theorem foldlM_step_eq_ok {ps : List (List Char)} {start : Place}
    (h : ps.foldlM s.step start = .ok place) :
    place = (Path.moves ps).foldl PathStep.move start := by
  induction ps generalizing start with
  | nil => exact (Except.ok.inj h).symm
  | cons p ps ih =>
    obtain ⟨next, hnext, hrest⟩ := bind_eq_ok_iff.1 h
    rw [ih hrest, step_eq_ok hnext, ← List.foldl_append, ← Path.moves_append,
      List.singleton_append]

theorem locate_eq_ok_iff : s.locate path = .ok place ↔
    path ≠ "" ∧ '\x00' ∉ path.toList ∧ path.utf8ByteSize ≤ 4095 ∧
      (Path.pieces path).foldlM s.step (if path.toList.head? = some '/' then [] else s.current) =
        .ok place := by
  unfold locate
  by_cases hempty : path = ""
  · simp [hempty]
  by_cases hzero : '\x00' ∈ path.toList
  · simp [hempty, hzero]
  by_cases hlong : 4095 < path.utf8ByteSize
  · simp [hempty, hzero, hlong, Nat.not_le.2 hlong]
  simp [hempty, hzero, hlong, Nat.not_lt.1 hlong]

theorem eq_of_locate (h : s.locate path = .ok place) :
    place = (Path.steps path).foldl PathStep.move s.current := by
  obtain ⟨-, -, -, hsteps⟩ := locate_eq_ok_iff.1 h
  rw [Path.steps_eq, List.foldl_append, Path.foldl_move_front]
  exact foldlM_step_eq_ok hsteps

theorem ne_empty_of_locate (h : s.locate path = .ok place) : path ≠ "" :=
  (locate_eq_ok_iff.1 h).1

theorem locate_unique {other : String} {place' : Place} (h : s.locate path = .ok place)
    (h' : s.locate other = .ok place') (same : Path.isSame path other = true) : place = place' := by
  rw [eq_of_locate h, eq_of_locate h', Path.isSame_iff.1 same]

end Store

end SchemaLint
