import SurfaceLanguage.Number.Binary64

/-!
# Comparison of numbers

Numbers that compare as equal are the same number, up to the sign of a zero, and no NaN.
Without its sign the zero has one form, so that comparison becomes equality.
-/
namespace SurfaceLanguage.Number.Binary64
variable {x y : Binary64}

/-- The zeros become the positive zero, and every other number stays as it is. -/
def dropZeroSign (x : Binary64) : Binary64 := if x.isZero then ⟨0⟩ else x

theorem dropZeroSign_eq_self (h : x.isZero = false) : x.dropZeroSign = x := by
  rw [dropZeroSign, h]
  rfl

theorem isZero_dropZeroSign (x : Binary64) : x.dropZeroSign.isZero = x.isZero := by
  cases h : x.isZero with
  | true =>
    rw [dropZeroSign, if_pos h]
    decide
  | false => rw [dropZeroSign_eq_self h, h]

theorem isNaN_of_isZero (h : x.isZero = true) : x.isNaN = false := by
  rw [isZero, Bool.and_eq_true, beq_iff_eq, beq_iff_eq] at h
  rw [isNaN, h.2]
  exact Bool.and_false _

theorem isNaN_dropZeroSign (x : Binary64) : x.dropZeroSign.isNaN = x.isNaN := by
  cases h : x.isZero with
  | true => rw [isNaN_of_isZero h, isNaN_of_isZero (x.isZero_dropZeroSign.trans h)]
  | false => rw [dropZeroSign_eq_self h]

theorem dropZeroSign_eq_iff :
    x.dropZeroSign = y.dropZeroSign ↔ x = y ∨ (x.isZero = true ∧ y.isZero = true) := by
  constructor
  · intro h
    have hzero : y.isZero = x.isZero := by
      rw [← isZero_dropZeroSign y, ← h, isZero_dropZeroSign]
    cases hx : x.isZero with
    | true => exact .inr ⟨rfl, hzero.trans hx⟩
    | false =>
      rw [dropZeroSign_eq_self hx, dropZeroSign_eq_self (hzero.trans hx)] at h
      exact .inl h
  · rintro (rfl | ⟨hx, hy⟩)
    · rfl
    · rw [dropZeroSign, dropZeroSign, hx, hy]
      rfl

theorem beq_iff : (x == y) = true ↔ x.dropZeroSign = y.dropZeroSign ∧ x.isNaN = false := by
  have hbits : x.bits = y.bits ↔ x = y := by
    cases x
    cases y
    simp
  rw [dropZeroSign_eq_iff]
  change x.equal y = true ↔ _
  simp only [equal, Bool.and_eq_true, Bool.or_eq_true, Bool.not_eq_true', beq_iff_eq, hbits]
  constructor
  · rintro ⟨⟨hx, -⟩, h⟩
    exact ⟨h, hx⟩
  · rintro ⟨h, hx⟩
    refine ⟨⟨hx, ?_⟩, h⟩
    rcases h with rfl | ⟨-, hy⟩
    · exact hx
    · exact isNaN_of_isZero hy

end SurfaceLanguage.Number.Binary64
