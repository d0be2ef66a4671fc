import SchemaLint.Proofs.Token.Scan

/-!
# Capitals and small letters

What a change of case does to a character, by the characters' numbers.  Only the letters of ASCII have
two cases; all other characters stay as they are.
-/

set_option autoImplicit false
set_option relaxedAutoImplicit false

namespace SchemaLint.Casing

open Scan (isUpper_iff isLower_iff isDigit_iff isAlpha_eq)

theorem toNat_toLower (c : Char) :
    c.toLower.toNat = if 65 ≤ c.toNat ∧ c.toNat ≤ 90 then c.toNat + 32 else c.toNat := by
  have hcase : c.val ≥ 'A'.val ∧ c.val ≤ 'Z'.val ↔ 65 ≤ c.toNat ∧ c.toNat ≤ 90 := by
    simp [UInt32.le_iff_toNat_le]
  unfold Char.toLower
  split
  · rename_i h
    have hshift : ('a'.val - 'A'.val).toNat = 32 := rfl
    have hrange := hcase.1 h
    rw [if_pos hrange, Char.toNat, UInt32.toNat_add, hshift]
    simp only [Char.toNat] at hrange ⊢
    omega
  · rename_i h
    rw [if_neg fun hrange => h (hcase.2 hrange)]

theorem toNat_toUpper (c : Char) :
    c.toUpper.toNat = if 97 ≤ c.toNat ∧ c.toNat ≤ 122 then c.toNat - 32 else c.toNat := by
  have hcase : 'a'.val ≤ c.val ∧ c.val ≤ 'z'.val ↔ 97 ≤ c.toNat ∧ c.toNat ≤ 122 := by
    simp [UInt32.le_iff_toNat_le]
  unfold Char.toUpper
  split
  · rename_i h
    have hshift : ('A'.val - 'a'.val).toNat = 2 ^ 32 - 32 := rfl
    have hrange := hcase.1 h
    rw [if_pos hrange, Char.toNat, UInt32.toNat_add, hshift]
    simp only [Char.toNat] at hrange ⊢
    omega
  · rename_i h
    rw [if_neg fun hrange => h (hcase.2 hrange)]

section Tests

variable (c : Char)

theorem isAlphanum_iff : c.isAlphanum = true ↔
    c.isUpper = true ∨ c.isLower = true ∨ c.isDigit = true := by
  rw [Char.isAlphanum, isAlpha_eq, Bool.or_eq_true, Bool.or_eq_true, or_assoc]

variable {c} in
theorem isLower_of_isUpper (h : c.isUpper = true) : c.isLower = false := by
  rw [isUpper_iff] at h
  rw [Bool.eq_false_iff, ne_eq, isLower_iff]
  omega

variable {c} in
theorem isUpper_of_isLower (h : c.isLower = true) : c.isUpper = false := by
  rw [isLower_iff] at h
  rw [Bool.eq_false_iff, ne_eq, isUpper_iff]
  omega

variable {c} in
theorem isDigit_of_isAlpha (h : c.isAlpha = true) : c.isDigit = false := by
  rw [isAlpha_eq, Bool.or_eq_true, isUpper_iff, isLower_iff] at h
  rw [Bool.eq_false_iff, ne_eq, isDigit_iff]
  omega

@[simp] theorem isUpper_toLower : c.toLower.isUpper = false := by
  rw [Bool.eq_false_iff, ne_eq, isUpper_iff, toNat_toLower]
  split <;> omega

@[simp] theorem isLower_toUpper : c.toUpper.isLower = false := by
  rw [Bool.eq_false_iff, ne_eq, isLower_iff, toNat_toUpper]
  split <;> omega

@[simp] theorem isLower_toLower : c.toLower.isLower = c.isAlpha := by
  rw [Bool.eq_iff_iff, isAlpha_eq, Bool.or_eq_true, isLower_iff, isLower_iff, isUpper_iff,
    toNat_toLower]
  split <;> omega

@[simp] theorem isUpper_toUpper : c.toUpper.isUpper = c.isAlpha := by
  rw [Bool.eq_iff_iff, isAlpha_eq, Bool.or_eq_true, isUpper_iff, isUpper_iff, isLower_iff,
    toNat_toUpper]
  split <;> omega

@[simp] theorem isDigit_toLower : c.toLower.isDigit = c.isDigit := by
  rw [Bool.eq_iff_iff, isDigit_iff, isDigit_iff, toNat_toLower]
  split <;> omega

@[simp] theorem isDigit_toUpper : c.toUpper.isDigit = c.isDigit := by
  rw [Bool.eq_iff_iff, isDigit_iff, isDigit_iff, toNat_toUpper]
  split <;> omega

@[simp] theorem isAlphanum_toLower : c.toLower.isAlphanum = c.isAlphanum := by
  rw [Char.isAlphanum, isAlpha_eq, isUpper_toLower, isLower_toLower, isDigit_toLower, Bool.false_or]
  rfl

@[simp] theorem isAlphanum_toUpper : c.toUpper.isAlphanum = c.isAlphanum := by
  rw [Char.isAlphanum, isAlpha_eq, isUpper_toUpper, isLower_toUpper, isDigit_toUpper, Bool.or_false]
  rfl

theorem toLower_eq_self_iff : c.toLower = c ↔ c.isUpper = false := by
  rw [← Char.toNat_inj, toNat_toLower, ← Bool.not_eq_true, isUpper_iff]
  split <;> omega

theorem toUpper_eq_self_iff : c.toUpper = c ↔ c.isLower = false := by
  rw [← Char.toNat_inj, toNat_toUpper, ← Bool.not_eq_true, isLower_iff]
  split <;> omega

@[simp] theorem toLower_toLower : c.toLower.toLower = c.toLower :=
  (toLower_eq_self_iff _).2 (isUpper_toLower c)

@[simp] theorem toUpper_toUpper : c.toUpper.toUpper = c.toUpper :=
  (toUpper_eq_self_iff _).2 (isLower_toUpper c)

@[simp] theorem toLower_toUpper : c.toUpper.toLower = c.toLower := by
  by_cases h : c.isLower = true
  · have hrange := isLower_iff.1 h
    rw [← Char.toNat_inj, toNat_toLower, toNat_toLower, toNat_toUpper, if_pos hrange,
      if_pos (by omega), if_neg (by omega)]
    omega
  · rw [(toUpper_eq_self_iff c).2 (by simpa using h)]

end Tests

end SchemaLint.Casing
