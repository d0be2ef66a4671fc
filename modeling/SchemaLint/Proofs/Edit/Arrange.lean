import Mathlib.Data.List.Sort
import Mathlib.Data.Prod.Lex
import Mathlib.Data.String.Basic
import SchemaLint.Edit.Apply

/-!
# Edits in their order

Edits are sorted by a linear order and told apart by it.  So a list of edits is arranged in one way,
in whatever order and how often its members occur in it, and if some of them overlap then so do two
neighbours.
-/

set_option autoImplicit false
set_option relaxedAutoImplicit false

namespace SchemaLint.Edit

def key (e : Edit) : Nat ×ₗ Nat ×ₗ String ×ₗ String :=
  toLex (e.start, toLex (e.stop, toLex (e.ruleId, e.replacement)))

theorem precedes_iff {a b : Edit} : a.precedes b = true ↔ a.key ≤ b.key := by
  unfold precedes key
  rw [Prod.Lex.toLex_le_toLex, Prod.Lex.toLex_le_toLex, Prod.Lex.toLex_le_toLex]
  split
  · rename_i h
    simp [h]
  · rename_i h
    split
    · rename_i h'
      simp_all
    · split <;> simp_all

theorem key_injective : Function.Injective key := by
  intro a b h
  unfold key at h
  simp only [EmbeddingLike.apply_eq_iff_eq, Prod.mk.injEq] at h
  obtain ⟨hstart, hstop, hrule, hreplacement⟩ := h
  cases a
  cases b
  subst hstart hstop hrule hreplacement
  rfl

theorem key_lt_of_place {a b : Edit}
    (h : a.start < b.start ∨ a.start = b.start ∧ a.stop < b.stop) : a.key < b.key := by
  unfold key
  rw [Prod.Lex.toLex_lt_toLex, Prod.Lex.toLex_lt_toLex]
  rcases h with h | ⟨h, h'⟩
  · exact .inl h
  · exact .inr ⟨h, .inl h'⟩

theorem place_of_key_le {a b : Edit} (h : a.key ≤ b.key) :
    a.start < b.start ∨ a.start = b.start ∧ a.stop ≤ b.stop := by
  unfold key at h
  rw [Prod.Lex.toLex_le_toLex, Prod.Lex.toLex_le_toLex] at h
  rcases h with h | ⟨h, h' | ⟨h', -⟩⟩
  · exact .inl h
  · exact .inr ⟨h, Nat.le_of_lt h'⟩
  · exact .inr ⟨h, Nat.le_of_eq h'⟩

private theorem pairwise_mergeSort (es : List Edit) :
    (es.mergeSort precedes).Pairwise fun a b => a.key ≤ b.key := by
  have sorted : (es.mergeSort precedes).Pairwise fun a b => a.precedes b = true := by
    refine List.pairwise_mergeSort (fun a b c h h' => ?_) (fun a b => ?_) es
    · exact precedes_iff.2 (le_trans (precedes_iff.1 h) (precedes_iff.1 h'))
    · simpa [precedes_iff] using le_total a.key b.key
  exact sorted.imp precedes_iff.1

theorem mem_dropRepeats {e : Edit} {es : List Edit} : e ∈ dropRepeats es ↔ e ∈ es := by
  fun_induction dropRepeats es with
  | case1 => rfl
  | case2 => rfl
  | case3 f es ih => simpa using ih
  | case4 f g es ne ih => simp [ih]

theorem mem_arrange {e : Edit} {es : List Edit} : e ∈ arrange es ↔ e ∈ es := by
  unfold arrange
  rw [mem_dropRepeats, List.mem_mergeSort]

private theorem pairwise_dropRepeats {es : List Edit}
    (sorted : es.Pairwise fun a b => a.key ≤ b.key) :
    (dropRepeats es).Pairwise fun a b => a.key < b.key := by
  fun_induction dropRepeats es with
  | case1 => exact .nil
  | case2 => exact List.pairwise_singleton _ _
  | case3 f es ih => exact ih sorted.of_cons
  | case4 f g es ne ih =>
    refine List.pairwise_cons.2 ⟨fun b hb => ?_, ih sorted.of_cons⟩
    have hle := (List.pairwise_cons.1 sorted).1 g (by simp)
    have hlt : f.key < g.key := lt_of_le_of_ne hle fun he => ne (key_injective he)
    have hsorted := (List.pairwise_cons.1 sorted.of_cons).1
    rcases List.mem_cons.1 (mem_dropRepeats.1 hb) with rfl | hb
    · exact hlt
    · exact lt_of_lt_of_le hlt (hsorted b hb)

theorem pairwise_arrange (es : List Edit) : (arrange es).Pairwise fun a b => a.key < b.key :=
  pairwise_dropRepeats (pairwise_mergeSort es)

/-- Edits are arranged as what has the same members in strict order. -/
theorem arrange_eq {es fs : List Edit} (members : ∀ e, e ∈ es ↔ e ∈ fs)
    (sorted : fs.Pairwise fun a b => a.key < b.key) : arrange es = fs := by
  have : Std.Irrefl fun a b : Edit => a.key < b.key := ⟨fun a => lt_irrefl a.key⟩
  have : Std.Antisymm fun a b : Edit => a.key < b.key := ⟨fun a b h h' => absurd h' (lt_asymm h)⟩
  exact (pairwise_arrange es).eq_of_mem_iff sorted fun e => mem_arrange.trans (members e)

theorem arrange_congr {es fs : List Edit} (members : ∀ e, e ∈ es ↔ e ∈ fs) :
    arrange es = arrange fs :=
  arrange_eq (fun e => (members e).trans mem_arrange.symm) (pairwise_arrange fs)

structure Ahead (a b : Edit) : Prop where
  stop_le : a.stop ≤ b.start
  start_lt : a.start < b.stop

theorem Ahead.trans {a b c : Edit} (h : a.Ahead b) (h' : b.Ahead c) (ordered : b.start ≤ b.stop)
    (ordered' : c.start ≤ c.stop) : a.Ahead c := by
  obtain ⟨hab, hab'⟩ := h
  obtain ⟨hbc, hbc'⟩ := h'
  constructor <;> omega

theorem Ahead.key_lt {a b : Edit} (h : a.Ahead b) (ordered : a.start ≤ a.stop) : a.key < b.key := by
  obtain ⟨hle, hlt⟩ := h
  apply key_lt_of_place
  omega

theorem overlaps_symm {a b : Edit} : a.overlaps b = b.overlaps a := by
  unfold overlaps
  simp only [Bool.and_comm, eq_comm]

theorem overlaps_eq_false_iff {a b : Edit} (ordered : a.start ≤ a.stop) (ordered' : b.start ≤ b.stop)
    (place : a.start < b.start ∨ a.start = b.start ∧ a.stop ≤ b.stop) :
    a.overlaps b = false ↔ a.Ahead b := by
  have hsplit : a.Ahead b ↔ a.stop ≤ b.start ∧ a.start < b.stop :=
    ⟨fun h => ⟨h.1, h.2⟩, fun h => ⟨h.1, h.2⟩⟩
  rw [hsplit]
  unfold overlaps
  split
  · rename_i h
    simp only [Bool.and_eq_true, decide_eq_true_eq] at h
    simp only [decide_eq_false_iff_not]
    omega
  · rename_i h
    simp only [Bool.and_eq_true, decide_eq_true_eq] at h
    simp only [Bool.and_eq_false_iff, decide_eq_false_iff_not]
    omega

theorem firstOverlap?_eq_none_iff {es : List Edit} (ordered : ∀ e ∈ es, e.start ≤ e.stop)
    (sorted : es.Pairwise fun a b => a.key < b.key) :
    firstOverlap? es = none ↔ es.Pairwise Ahead := by
  fun_induction firstOverlap? es with
  | case1 e f es hoverlaps =>
    have hplace := place_of_key_le (le_of_lt ((List.pairwise_cons.1 sorted).1 f (by simp)))
    have hnot : ¬ e.Ahead f := by
      rw [← overlaps_eq_false_iff (ordered e (by simp)) (ordered f (by simp)) hplace]
      simp [hoverlaps]
    have hfirst : ¬ (e :: f :: es).Pairwise Ahead := by
      intro h
      exact hnot ((List.pairwise_cons.1 h).1 f (by simp))
    simp [hfirst]
  | case2 e f es hoverlaps ih =>
    have hplace := place_of_key_le (le_of_lt ((List.pairwise_cons.1 sorted).1 f (by simp)))
    have hfirst : e.Ahead f :=
      (overlaps_eq_false_iff (ordered e (by simp)) (ordered f (by simp)) hplace).1 (by
        simpa using hoverlaps)
    rw [ih (fun g hg => ordered g (by simp [hg])) sorted.of_cons]
    constructor
    · intro h
      refine List.pairwise_cons.2 ⟨fun g hg => ?_, h⟩
      rcases List.mem_cons.1 hg with rfl | hg
      · exact hfirst
      · have hnext := (List.pairwise_cons.1 h).1 g hg
        exact hfirst.trans hnext (ordered f (by simp)) (ordered g (by simp [hg]))
    · exact List.Pairwise.of_cons
  | case3 es h =>
    have hshort : es.Pairwise Ahead := by
      match es, h with
      | [], _ => exact .nil
      | [e], _ => exact List.pairwise_singleton _ _
      | e :: f :: es, h => exact (h e f es rfl).elim
    simp [hshort]

theorem overlaps_of_firstOverlap? {es : List Edit} {a b : Edit}
    (found : firstOverlap? es = some (a, b)) : a.overlaps b = true ∧ [a, b].Sublist es := by
  fun_induction firstOverlap? es with
  | case1 e f es hoverlaps =>
    obtain ⟨rfl, rfl⟩ := Prod.mk.inj (Option.some.inj found)
    exact ⟨hoverlaps, by simp⟩
  | case2 e f es _ ih =>
    obtain ⟨hoverlaps, hsub⟩ := ih found
    exact ⟨hoverlaps, hsub.cons e⟩
  | case3 => cases found

theorem firstMisfit?_eq_none_iff {text : List Char} {es : List Edit} :
    firstMisfit? text es = none ↔ ∀ e ∈ es, e.misfit? text = none := by
  fun_induction firstMisfit? text es with
  | case1 => simp
  | case2 e es reason hmisfit => simp [hmisfit]
  | case3 e es hfits ih => simp [hfits, ih]

end SchemaLint.Edit
