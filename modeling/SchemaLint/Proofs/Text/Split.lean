import SchemaLint.Text.Search

/-!
# Splitting a list of which a part changes

The pieces of a list around a mark change where the list does and nowhere else.
-/

set_option autoImplicit false
set_option relaxedAutoImplicit false

namespace SchemaLint.Text

variable {α : Type} [DecidableEq α] {mark : α}

theorem splitOn_append_cons (as bs : List α) :
    splitOn mark (as ++ mark :: bs) = splitOn mark as ++ splitOn mark bs := by
  induction as with
  | nil => simp [splitOn]
  | cons a as ih =>
    by_cases ha : a = mark
    · simp only [List.cons_append, splitOn, ha, if_true, ih]
    · obtain ⟨piece, pieces, hpieces⟩ := List.exists_cons_of_ne_nil (splitOn_ne_nil mark as)
      simp only [List.cons_append, splitOn, ha, if_false, ih, hpieces]

theorem splitOn_append_of_notMem {as bs piece : List α} {pieces : List (List α)}
    (h : mark ∉ as) (split : splitOn mark bs = piece :: pieces) :
    splitOn mark (as ++ bs) = (as ++ piece) :: pieces := by
  induction as with
  | nil => exact split
  | cons a as ih =>
    obtain ⟨ha, has⟩ : ¬ mark = a ∧ mark ∉ as := by simpa using h
    have ha : a ≠ mark := fun he => ha he.symm
    simp only [List.cons_append, splitOn, ha, if_false, ih has]

theorem splitOn_intercalate {pieces : List (List α)} (nonempty : pieces ≠ [])
    (free : ∀ piece ∈ pieces, mark ∉ piece) : splitOn mark ([mark].intercalate pieces) = pieces := by
  induction pieces with
  | nil => exact absurd rfl nonempty
  | cons piece pieces ih =>
    obtain ⟨hpiece, hpieces⟩ := List.forall_mem_cons.1 free
    have hsingle : splitOn mark piece = [piece] := by
      have hsplit : splitOn mark (piece ++ []) = [piece ++ []] := splitOn_append_of_notMem hpiece rfl
      simpa using hsplit
    cases pieces with
    | nil => simpa using hsingle
    | cons second others =>
      have hrest := ih (List.cons_ne_nil second others) hpieces
      rw [List.intercalate_cons_cons, List.append_assoc, List.singleton_append,
        splitOn_append_cons, hsingle, hrest]
      rfl

omit [DecidableEq α] in
theorem mem_intercalate {between : List α} {pieces : List (List α)} {a : α}
    (h : a ∈ between.intercalate pieces) : a ∈ between ∨ ∃ piece ∈ pieces, a ∈ piece := by
  induction pieces with
  | nil => simp at h
  | cons first others ih =>
    cases others with
    | nil => exact .inr ⟨first, by simp, by simpa using h⟩
    | cons second others =>
      rw [List.intercalate_cons_cons, List.append_assoc, List.mem_append, List.mem_append] at h
      rcases h with h | h | h
      · exact .inr ⟨first, by simp, h⟩
      · exact .inl h
      · exact (ih h).imp_right fun ⟨piece, hpiece, ha⟩ => ⟨piece, List.mem_cons_of_mem _ hpiece, ha⟩

theorem exists_last_piece (mark : α) (as : List α) : ∃ lead last, as = lead ++ last ∧
    mark ∉ last ∧ (lead = [] ∨ ∃ front, lead = front ++ [mark]) := by
  induction as with
  | nil => exact ⟨[], [], rfl, by simp, .inl rfl⟩
  | cons a as ih =>
    obtain ⟨lead, last, rfl, hlast, hlead⟩ := ih
    rcases hlead with rfl | ⟨front, rfl⟩
    · by_cases ha : a = mark
      · exact ⟨[a], last, rfl, hlast, .inr ⟨[], by simp [ha]⟩⟩
      · have ha : ¬ mark = a := fun he => ha he.symm
        exact ⟨[], a :: last, rfl, by simp [ha, hlast], .inl rfl⟩
    · exact ⟨a :: (front ++ [mark]), last, rfl, hlast, .inr ⟨a :: front, rfl⟩⟩

theorem exists_splitOn_lead {lead : List α} (h : lead = [] ∨ ∃ front, lead = front ++ [mark]) :
    ∃ pieces, ∀ as, splitOn mark (lead ++ as) = pieces ++ splitOn mark as := by
  rcases h with rfl | ⟨front, rfl⟩
  · exact ⟨[], fun as => rfl⟩
  · refine ⟨splitOn mark front, fun as => ?_⟩
    rw [List.append_assoc, List.singleton_append, splitOn_append_cons]

def lastPiece (mark : α) (as : List α) : List α :=
  (as.reverse.takeWhile (· ≠ mark)).reverse

theorem lastPiece_append {lead last : List α} (single : mark ∉ last)
    (begins : lead = [] ∨ ∃ front, lead = front ++ [mark]) :
    lastPiece mark (lead ++ last) = last := by
  have hall : ∀ c ∈ last.reverse, decide (c ≠ mark) = true := by
    intro c hc
    simpa using fun he : c = mark => single (he ▸ List.mem_reverse.1 hc)
  unfold lastPiece
  rw [List.reverse_append, List.takeWhile_append_of_pos hall]
  rcases begins with rfl | ⟨front, rfl⟩ <;> simp

theorem length_splitOn (as : List α) : (splitOn mark as).length = as.count mark + 1 := by
  induction as with
  | nil => rfl
  | cons a as ih =>
    obtain ⟨piece, pieces, hpieces⟩ := List.exists_cons_of_ne_nil (splitOn_ne_nil mark as)
    by_cases ha : a = mark
    · simp [splitOn, ha, ih]
    · rw [hpieces] at ih
      simp [splitOn, ha, hpieces, ← ih]

theorem head?_splitOn (as : List α) : (splitOn mark as)[0]? = some (as.takeWhile (· ≠ mark)) := by
  induction as with
  | nil => rfl
  | cons a as ih =>
    obtain ⟨piece, pieces, hpieces⟩ := List.exists_cons_of_ne_nil (splitOn_ne_nil mark as)
    by_cases ha : a = mark
    · simp [splitOn, ha]
    · rw [hpieces] at ih
      simp_all [splitOn]

theorem getElem?_splitOn_append (as bs : List α) : (splitOn mark (as ++ bs))[as.count mark]? =
    some (lastPiece mark as ++ bs.takeWhile (· ≠ mark)) := by
  obtain ⟨lead, last, rfl, hlast, hlead⟩ := exists_last_piece mark as
  obtain ⟨piece, pieces, hpieces⟩ := List.exists_cons_of_ne_nil (splitOn_ne_nil mark bs)
  have hpiece : (splitOn mark bs)[0]? = some (bs.takeWhile (· ≠ mark)) := head?_splitOn bs
  rw [hpieces] at hpiece
  obtain rfl : piece = bs.takeWhile (· ≠ mark) := by simpa using hpiece
  rw [lastPiece_append hlast hlead, List.count_append, List.count_eq_zero.2 hlast, Nat.add_zero,
    List.append_assoc]
  have hsplit := splitOn_append_of_notMem hlast hpieces
  rcases hlead with rfl | ⟨front, rfl⟩
  · rw [List.nil_append, hsplit]
    rfl
  · rw [List.append_assoc, List.singleton_append, splitOn_append_cons, hsplit, List.count_append,
      List.count_singleton_self, ← length_splitOn]
    simp

theorem exists_of_getElem?_splitOn {as piece : List α} {n : Nat}
    (h : (splitOn mark as)[n]? = some piece) : ∃ above below, as = above ++ (piece ++ below) ∧
      (above = [] ∨ ∃ front, above = front ++ [mark]) ∧ above.count mark = n ∧
        (below = [] ∨ ∃ behind, below = mark :: behind) := by
  induction as generalizing n piece with
  | nil =>
    obtain ⟨rfl, rfl⟩ : n = 0 ∧ [] = piece := by
      cases n <;> simp_all [splitOn]
    exact ⟨[], [], rfl, .inl rfl, rfl, .inl rfl⟩
  | cons a as ih =>
    obtain ⟨first, others, hothers⟩ := List.exists_cons_of_ne_nil (splitOn_ne_nil mark as)
    by_cases ha : a = mark
    · subst ha
      rw [splitOn, if_pos rfl] at h
      cases n with
      | zero =>
        obtain rfl : [] = piece := by simpa using h
        exact ⟨[], a :: as, rfl, .inl rfl, rfl, .inr ⟨as, rfl⟩⟩
      | succ n =>
        obtain ⟨above, below, rfl, hbegins, hcount, hends⟩ := ih (by simpa using h)
        refine ⟨a :: above, below, rfl, .inr ?_, by simp [hcount], hends⟩
        rcases hbegins with rfl | ⟨front, rfl⟩
        · exact ⟨[], rfl⟩
        · exact ⟨a :: front, rfl⟩
    · simp only [splitOn, ha, if_false, hothers] at h
      cases n with
      | zero =>
        obtain rfl : a :: first = piece := by simpa using h
        have hfirst : (splitOn mark as)[0]? = some first := by simp [hothers]
        obtain ⟨above, below, rfl, hbegins, hcount, hends⟩ := ih hfirst
        rcases hbegins with rfl | ⟨front, rfl⟩
        · exact ⟨[], below, rfl, .inl rfl, rfl, hends⟩
        · simp at hcount
      | succ n =>
        have hlater : (splitOn mark as)[n + 1]? = some piece := by simpa [hothers] using h
        obtain ⟨above, below, rfl, hbegins, hcount, hends⟩ := ih hlater
        rcases hbegins with rfl | ⟨front, rfl⟩
        · simp at hcount
        · exact ⟨a :: (front ++ [mark]), below, rfl, .inr ⟨a :: front, rfl⟩, by simpa [ha] using hcount,
            hends⟩

theorem lines_eq {cs last : List Char} {pieces : List (List Char)}
    (split : splitOn '\n' cs = pieces ++ [last]) :
    lines cs = pieces.map dropReturn ++ if last = [] then [] else [last] := by
  unfold lines
  simp only [split, List.dropLast_concat, List.getLast?_concat]
  cases last <;> simp

theorem dropReturn_append {as : List Char} {c : Char} (last : as.getLast? = some c) (hc : c ≠ '\r')
    (bs : List Char) : dropReturn (as ++ bs) = as ++ dropReturn bs := by
  rcases bs.eq_nil_or_concat with rfl | ⟨init, b, rfl⟩
  · simp [dropReturn, last, hc]
  · by_cases hb : b = '\r'
    · simp [dropReturn, hb, ← List.append_assoc]
    · simp [dropReturn, hb, ← List.append_assoc]

end SchemaLint.Text
