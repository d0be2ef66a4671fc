import Mathlib.Data.List.Infix
import Mathlib.Data.List.TakeWhile
import SchemaLint.Proofs.Text.Split

/-!
# What searching and trimming find

A search cuts a text around the first place of what is searched for.  Trimming takes the blanks off
both ends and nothing else.
-/

set_option autoImplicit false
set_option relaxedAutoImplicit false

namespace SchemaLint.Text

variable {mark cs before after : List Char}

theorem dropStart?_eq_some_iff {start rest : List Char} :
    dropStart? start cs = some rest ↔ cs = start ++ rest := by
  refine ⟨dropStart?_eq_some, ?_⟩
  rintro rfl
  induction start with
  | nil => simp [dropStart?]
  | cons p ps ih => simp [dropStart?, ih]

theorem cutAround?_append_of_notMem {c : Char} (h : c ∉ cs) (others tail : List Char) :
    cutAround? (c :: others) (cs ++ tail) =
      (cutAround? (c :: others) tail).map fun r => (cs ++ r.1, r.2) := by
  induction cs with
  | nil => simp
  | cons d cs ih =>
    obtain ⟨hd, hcs⟩ : ¬ c = d ∧ c ∉ cs := by simpa using h
    simp only [List.cons_append, cutAround?, dropStart?, hd, if_false, ih hcs, Option.map_map]
    rfl

theorem cutAround?_eq_some_iff (h : mark ≠ []) : cutAround? mark cs = some (before, after) ↔
    cs = before ++ (mark ++ after) ∧ ¬mark <:+: before ++ mark.dropLast := by
  have hlast : mark.dropLast ++ [mark.getLast h] = mark := List.dropLast_concat_getLast h
  have hlength : mark.dropLast.length < mark.length := by
    have := List.length_pos_iff.2 h
    rw [List.length_dropLast]
    omega
  have hfront : ∀ (c : Char) (b a : List Char), (∃ rest,
      dropStart? mark (c :: (b ++ (mark ++ a))) = some rest) ↔ mark <+: c :: (b ++ mark.dropLast) := by
    intro c b a
    simp only [dropStart?_eq_some_iff]
    have hwhole : c :: (b ++ (mark ++ a)) =
        c :: (b ++ mark.dropLast) ++ (mark.getLast h :: a) := by
      nth_rewrite 1 [← hlast]
      simp
    constructor
    · rintro ⟨rest, hrest⟩
      refine List.prefix_of_prefix_length_le ⟨rest, hrest.symm⟩ ⟨_, hwhole.symm⟩ ?_
      simp only [List.length_cons, List.length_append, List.length_dropLast]
      omega
    · rintro ⟨rest, hrest⟩
      exact ⟨rest ++ (mark.getLast h :: a), by rw [hwhole, ← hrest, List.append_assoc]⟩
  constructor
  · intro hcut
    fun_induction cutAround? mark cs generalizing before with
    | case1 hm => exact absurd (List.isEmpty_iff.1 hm) h
    | case2 => simp at hcut
    | case3 c cs rest hdrop =>
      obtain ⟨rfl, rfl⟩ : [] = before ∧ rest = after := by simpa using hcut
      have hstart : c :: cs = mark ++ rest := dropStart?_eq_some hdrop
      refine ⟨hstart, fun hinfix => ?_⟩
      have := hinfix.length_le
      rw [List.nil_append] at this
      omega
    | case4 c cs hdrop ih =>
      obtain ⟨⟨b, a⟩, hba, heq⟩ := Option.map_eq_some_iff.1 hcut
      obtain ⟨rfl, rfl⟩ : c :: b = before ∧ a = after := by simpa using heq
      obtain ⟨rfl, hfirst⟩ := ih hba
      refine ⟨rfl, fun hinfix => ?_⟩
      rcases List.infix_cons_iff.1 hinfix with hprefix | hinfix
      · obtain ⟨rest, hrest⟩ := (hfront c b a).2 hprefix
        rw [hdrop] at hrest
        cases hrest
      · exact hfirst hinfix
  · rintro ⟨rfl, hfirst⟩
    induction before with
    | nil =>
      obtain ⟨c, cs, rfl⟩ := List.exists_cons_of_ne_nil h
      have hdrop : dropStart? (c :: cs) (c :: cs ++ after) = some after :=
        dropStart?_eq_some_iff.2 rfl
      rw [List.nil_append, List.cons_append, cutAround?, ← List.cons_append, hdrop]
    | cons c before ih =>
      rw [List.cons_append, List.infix_cons_iff, not_or] at hfirst
      rw [List.cons_append, cutAround?, ih hfirst.2]
      cases hdrop : dropStart? mark (c :: (before ++ (mark ++ after))) with
      | none => rfl
      | some rest => exact absurd ((hfront c before after).1 ⟨rest, hdrop⟩) hfirst.1

theorem cutAround?_eq_none_iff (h : mark ≠ []) : cutAround? mark cs = none ↔ ¬mark <:+: cs := by
  constructor
  · intro hcut
    fun_induction cutAround? mark cs with
    | case1 hm => exact absurd (List.isEmpty_iff.1 hm) h
    | case2 => simpa using h
    | case3 => simp at hcut
    | case4 c cs hdrop ih =>
      rw [List.infix_cons_iff, not_or]
      refine ⟨?_, ih (Option.map_eq_none_iff.1 hcut)⟩
      rintro ⟨rest, hrest⟩
      cases hdrop.symm.trans (dropStart?_eq_some_iff.2 hrest.symm)
  · intro hnone
    cases hcut : cutAround? mark cs with
    | none => rfl
    | some found =>
      have hwhole := cutAround?_eq_some hcut
      exact absurd ⟨found.1, found.2, hwhole.symm⟩ hnone

theorem cutAround?_singleton_eq_some_iff {c : Char} :
    cutAround? [c] cs = some (before, after) ↔ cs = before ++ c :: after ∧ c ∉ before := by
  rw [cutAround?_eq_some_iff (List.cons_ne_nil c []), List.dropLast_singleton, List.append_nil,
    List.singleton_infix_iff, List.singleton_append]

/-! ## Trimming -/

theorem trimEnd_append_blank {trail : List Char} (blank : ∀ c ∈ trail, isBlank c = true)
    (cs : List Char) : trimEnd (cs ++ trail) = trimEnd cs := by
  unfold trimEnd
  rw [List.reverse_append, List.dropWhile_append_of_pos fun c hc => blank c (List.mem_reverse.1 hc)]

theorem trimEnd_of_solid (solid : ∀ c ∈ cs.getLast?, isBlank c = false) : trimEnd cs = cs := by
  unfold trimEnd
  rcases cs.eq_nil_or_concat with rfl | ⟨init, c, rfl⟩
  · rfl
  · have hc : isBlank c = false := solid c (by simp)
    simp [hc]

theorem trim_blank_append {lead : List Char} (blank : ∀ c ∈ lead, isBlank c = true)
    (cs : List Char) : trim (lead ++ cs) = trim cs := by
  unfold trim
  rw [List.dropWhile_append_of_pos blank]

theorem trim_append_blank {trail : List Char} (blank : ∀ c ∈ trail, isBlank c = true)
    (cs : List Char) : trim (cs ++ trail) = trim cs := by
  have htrim : ∀ cs, trim cs = trimEnd (cs.dropWhile isBlank) := fun _ => rfl
  rw [htrim, htrim, List.dropWhile_append]
  split
  · rename_i hnil
    rw [List.isEmpty_iff.1 hnil, List.dropWhile_eq_nil_iff.2 blank]
  · rw [trimEnd_append_blank blank]

theorem exists_trim (cs : List Char) : ∃ lead trail, cs = lead ++ trim cs ++ trail ∧
    (∀ c ∈ lead, isBlank c = true) ∧ ∀ c ∈ trail, isBlank c = true := by
  refine ⟨cs.takeWhile isBlank, ((cs.dropWhile isBlank).reverse.takeWhile isBlank).reverse, ?_,
    fun c hc => List.all_eq_true.1 List.all_takeWhile c hc,
    fun c hc => List.all_eq_true.1 List.all_takeWhile c (List.mem_reverse.1 hc)⟩
  unfold trim
  rw [List.append_assoc, ← List.reverse_append, List.takeWhile_append_dropWhile,
    List.reverse_reverse, List.takeWhile_append_dropWhile]

theorem solid_trim (cs : List Char) : ∀ c ∈ (trim cs).getLast?, isBlank c = false := by
  intro c hc
  unfold trim at hc
  rw [List.getLast?_reverse] at hc
  have hnot := List.head?_dropWhile_not isBlank (cs.dropWhile isBlank).reverse
  rw [hc] at hnot
  exact hnot

theorem trim_of_solid (solid : ∀ c ∈ cs.getLast?, isBlank c = false) :
    trim cs = cs.dropWhile isBlank := by
  refine trimEnd_of_solid fun c hc => solid c ?_
  obtain ⟨lead, hlead⟩ := cs.dropWhile_suffix isBlank
  rw [← hlead, List.getLast?_append, hc]
  rfl

theorem trim_dropReturn (line : List Char) : trim (dropReturn line) = trim line := by
  unfold dropReturn
  split
  · rename_i hreturn
    obtain ⟨init, rfl⟩ := List.getLast?_eq_some_iff.1 hreturn
    rw [List.dropLast_concat, trim_append_blank]
    intro c hc
    obtain rfl : c = '\r' := by simpa using hc
    decide
  · rfl

end SchemaLint.Text
