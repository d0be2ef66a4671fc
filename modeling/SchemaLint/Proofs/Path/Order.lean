import Mathlib.Data.Prod.Lex
import Mathlib.Data.String.Basic
import SchemaLint.Path

/-!
# The order of paths

Of two paths one comes before the other, or they are the same steps.
-/

set_option autoImplicit false
set_option relaxedAutoImplicit false

namespace SchemaLint

def PathStep.key : PathStep → Nat ×ₗ String
  | .name s => toLex (3, s)
  | step => toLex (step.rank, "")

theorem PathStep.key_injective : Function.Injective key := by
  intro a b h
  cases a <;> cases b <;> simp_all [key, rank]

theorem PathStep.isBefore_iff {a b : PathStep} : a.isBefore b = true ↔ a.key < b.key := by
  cases a <;> cases b <;> simp [isBefore, key, rank, Prod.Lex.toLex_lt_toLex]

namespace Path

theorem stepsLe_cons {a b : PathStep} {as bs : List PathStep} :
    stepsLe (a :: as) (b :: bs) = true ↔ a.key < b.key ∨ a = b ∧ stepsLe as bs = true := by
  rw [stepsLe]
  by_cases h : a = b
  · subst h
    simp
  · simp [h, PathStep.isBefore_iff]

theorem stepsLe_total (as bs : List PathStep) : stepsLe as bs = true ∨ stepsLe bs as = true := by
  induction as generalizing bs with
  | nil => exact .inl (by simp [stepsLe])
  | cons a as ih =>
    cases bs with
    | nil => exact .inr (by simp [stepsLe])
    | cons b bs =>
      rw [stepsLe_cons, stepsLe_cons]
      rcases lt_trichotomy a.key b.key with h | h | h
      · exact .inl (.inl h)
      · have hab := PathStep.key_injective h
        rcases ih bs with h' | h'
        · exact .inl (.inr ⟨hab, h'⟩)
        · exact .inr (.inr ⟨hab.symm, h'⟩)
      · exact .inr (.inl h)

theorem stepsLe_trans {as bs cs : List PathStep} (h : stepsLe as bs = true)
    (h' : stepsLe bs cs = true) : stepsLe as cs = true := by
  induction as generalizing bs cs with
  | nil => simp [stepsLe]
  | cons a as ih =>
    cases bs with
    | nil => simp [stepsLe] at h
    | cons b bs =>
      cases cs with
      | nil => simp [stepsLe] at h'
      | cons c cs =>
        rw [stepsLe_cons] at h h' ⊢
        rcases h with h | ⟨rfl, h⟩
        · rcases h' with h' | ⟨rfl, -⟩
          · exact .inl (h.trans h')
          · exact .inl h
        · rcases h' with h' | ⟨rfl, h'⟩
          · exact .inl h'
          · exact .inr ⟨rfl, ih h h'⟩

theorem stepsLe_antisymm {as bs : List PathStep} (h : stepsLe as bs = true)
    (h' : stepsLe bs as = true) : as = bs := by
  induction as generalizing bs with
  | nil =>
    cases bs with
    | nil => rfl
    | cons b bs => simp [stepsLe] at h'
  | cons a as ih =>
    cases bs with
    | nil => simp [stepsLe] at h
    | cons b bs =>
      rw [stepsLe_cons] at h h'
      rcases h with h | ⟨rfl, h⟩
      · rcases h' with h' | ⟨rfl, -⟩
        · exact absurd h' (lt_asymm h)
        · exact absurd h (lt_irrefl _)
      · rcases h' with h' | ⟨-, h'⟩
        · exact absurd h' (lt_irrefl _)
        · rw [ih h h']

theorem le_total (a b : String) : (le a b || le b a) = true := by
  rw [Bool.or_eq_true]
  exact stepsLe_total (steps a) (steps b)

theorem le_trans {a b c : String} (h : le a b = true) (h' : le b c = true) : le a c = true :=
  stepsLe_trans h h'

theorem isSame_of_le {a b : String} (h : le a b = true) (h' : le b a = true) : isSame a b = true :=
  isSame_iff.2 (stepsLe_antisymm h h')

theorem le_of_isSame {a b c : String} (same : isSame a c = true) (h : le a b = true) :
    le c b = true := by
  unfold le at h ⊢
  rwa [← isSame_iff.1 same]

theorem mem_sort {p : String} {ps : List String} : p ∈ sort ps ↔ p ∈ ps := by
  rw [sort, List.mem_mergeSort]

theorem pairwise_sort (ps : List String) : (sort ps).Pairwise fun a b => le a b = true :=
  @List.pairwise_mergeSort _ le (fun _ _ _ => le_trans) le_total ps

theorem mem_of_mem_dropRepeats {p : String} {ps : List String} (h : p ∈ dropRepeats ps) :
    p ∈ ps := by
  fun_induction dropRepeats ps with
  | case1 => exact h
  | case2 q rest hrest ih =>
    obtain rfl : p = q := by simpa using h
    exact List.mem_cons_self
  | case3 q rest r others hrest same ih =>
    rw [hrest] at ih
    rcases List.mem_cons.1 h with rfl | h
    · exact List.mem_cons_self
    · exact List.mem_cons_of_mem q (ih (List.mem_cons_of_mem r h))
  | case4 q rest r others hrest ne ih =>
    rw [hrest] at ih
    rcases List.mem_cons.1 h with rfl | h
    · exact List.mem_cons_self
    · exact List.mem_cons_of_mem q (ih h)

theorem exists_mem_dropRepeats {p : String} {ps : List String} (h : p ∈ ps) :
    ∃ q ∈ dropRepeats ps, isSame q p = true := by
  fun_induction dropRepeats ps with
  | case1 => simp at h
  | case2 q rest hrest ih =>
    rcases List.mem_cons.1 h with rfl | h
    · exact ⟨p, List.mem_cons_self, isSame_iff.2 rfl⟩
    · obtain ⟨r, hr, -⟩ := ih h
      simp [hrest] at hr
  | case3 q rest r others hrest same ih =>
    rw [hrest] at ih
    rcases List.mem_cons.1 h with rfl | h
    · exact ⟨p, List.mem_cons_self, isSame_iff.2 rfl⟩
    · obtain ⟨r', hr', hp⟩ := ih h
      rcases List.mem_cons.1 hr' with rfl | hr'
      · exact ⟨q, List.mem_cons_self, isSame_iff.2 ((isSame_iff.1 same).trans (isSame_iff.1 hp))⟩
      · exact ⟨r', List.mem_cons_of_mem q hr', hp⟩
  | case4 q rest r others hrest ne ih =>
    rw [hrest] at ih
    rcases List.mem_cons.1 h with rfl | h
    · exact ⟨p, List.mem_cons_self, isSame_iff.2 rfl⟩
    · obtain ⟨r', hr', hp⟩ := ih h
      exact ⟨r', List.mem_cons_of_mem q hr', hp⟩

theorem pairwise_dropRepeats {ps : List String} (sorted : ps.Pairwise fun a b => le a b = true) :
    (dropRepeats ps).Pairwise fun a b => le a b = true ∧ isSame a b = false := by
  fun_induction dropRepeats ps with
  | case1 => exact .nil
  | case2 => exact List.pairwise_singleton _ _
  | case3 q rest r others hrest same ih =>
    have hothers := List.pairwise_cons.1 (hrest ▸ ih sorted.of_cons)
    refine List.pairwise_cons.2 ⟨fun b hb => ?_, hothers.2⟩
    obtain ⟨hle, hne⟩ := hothers.1 b hb
    have hsame := isSame_iff.1 same
    refine ⟨le_of_isSame (isSame_iff.2 hsame.symm) hle, ?_⟩
    unfold isSame at hne ⊢
    rwa [hsame]
  | case4 q rest r others hrest ne ih =>
    have hothers := hrest ▸ ih sorted.of_cons
    have hr : r ∈ rest := mem_of_mem_dropRepeats (hrest ▸ List.mem_cons_self)
    have hqr := (List.pairwise_cons.1 sorted).1 r hr
    refine List.pairwise_cons.2 ⟨fun b hb => ?_, hothers⟩
    rcases List.mem_cons.1 hb with rfl | hb
    · exact ⟨hqr, by simpa using ne⟩
    -- If the first and a later path were the same, so would be all between them.
    · obtain ⟨hrb, -⟩ := (List.pairwise_cons.1 hothers).1 b hb
      refine ⟨le_trans hqr hrb, Bool.eq_false_iff.2 fun same => ne ?_⟩
      have hrq : le r q = true := by
        unfold le at hrb ⊢
        rwa [isSame_iff.1 same]
      exact isSame_of_le hqr hrq

end Path

end SchemaLint
