import SchemaLint.Text.Bytes

/-!
# Texts cut into parts

A text that is written as parts is cut between them, and cut at a place it is two parts.
-/

set_option autoImplicit false
set_option relaxedAutoImplicit false

namespace SchemaLint.Text

theorem afterByte?_append (as bs : List Char) :
    afterByte? (as ++ bs) (byteLength as) = some bs := by
  rw [← splitAtByte?_map_snd, splitAtByte?_append]
  rfl

theorem takeBytes_append (as bs : List Char) : takeBytes (as ++ bs) (byteLength as) = as :=
  (takeBytes_dropBytes_of_splitAtByte? (splitAtByte?_append as bs)).1

theorem dropBytes_append (as bs : List Char) : dropBytes (as ++ bs) (byteLength as) = bs :=
  (takeBytes_dropBytes_of_splitAtByte? (splitAtByte?_append as bs)).2

theorem slice?_append (as bs cs : List Char) :
    slice? (as ++ bs ++ cs) (byteLength as) (byteLength (as ++ bs)) = some bs := by
  have hle : byteLength as ≤ byteLength (as ++ bs) := by simp
  have hsub : byteLength (as ++ bs) - byteLength as = byteLength bs := by simp
  unfold slice?
  rw [if_pos hle, List.append_assoc, afterByte?_append, hsub]
  simp [splitAtByte?_append]

theorem byteLength_eq_zero {cs : List Char} : byteLength cs = 0 ↔ cs = [] := by
  cases cs with
  | nil => simp [byteLength]
  | cons c cs =>
    have := c.utf8Size_pos
    simp only [byteLength, reduceCtorEq, iff_false]
    omega

theorem isPlace_iff_exists_append {cs : List Char} {n : Nat} :
    isPlace cs n = true ↔ ∃ as bs, cs = as ++ bs ∧ byteLength as = n := by
  rw [isPlace_iff]
  constructor
  · rintro ⟨as, bs, hcut⟩
    obtain ⟨happ, hlength⟩ := append_of_splitAtByte? hcut
    exact ⟨as, bs, happ.symm, hlength⟩
  · rintro ⟨as, bs, rfl, rfl⟩
    exact ⟨as, bs, splitAtByte?_append as bs⟩

theorem exists_append_of_isPlace {as bs : List Char} {n : Nat}
    (place : isPlace (as ++ bs) n = true) (after : byteLength as ≤ n) :
    ∃ cs ds, bs = cs ++ ds ∧ byteLength as + byteLength cs = n := by
  obtain ⟨front, rest, happ, rfl⟩ := isPlace_iff_exists_append.1 place
  rcases List.append_eq_append_iff.1 happ with ⟨cs, rfl, rfl⟩ | ⟨cs, rfl, rfl⟩
  · exact ⟨cs, rest, rfl, by simp⟩
  · have hnil : cs = [] := by
      rw [byteLength_append] at after
      exact byteLength_eq_zero.1 (by omega)
    exact ⟨[], bs, rfl, by simp [hnil, byteLength]⟩

end SchemaLint.Text
