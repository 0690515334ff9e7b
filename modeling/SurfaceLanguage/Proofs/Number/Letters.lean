import SurfaceLanguage.Number.Written
import SurfaceLanguage.Proofs.Lexing.Brackets

/-!
# The characters of written numbers

A number is written with digits, signs, points and letters. All of them are inert,
whatever the number is. Its sign and its power of ten may become tokens of their own.
-/
namespace SurfaceLanguage.Number
open Lexing

theorem inert_toDigits (n : ℕ) : (Nat.toDigits 10 n).all isInert = true := by
  rw [List.all_eq_true]
  intro c hc
  exact isInert_of_digit (Nat.isDigit_of_mem_toDigits (by decide) (by decide) hc)

theorem inert_toString (n : ℤ) : (toString n).toList.all isInert = true := by
  rw [Int.toString_eq_repr, Int.repr_eq_if]
  split
  next => rw [Nat.toList_repr, inert_toDigits]
  next =>
    rw [String.toList_append, List.all_append, Nat.toList_repr, inert_toDigits]
    rfl

namespace Decimal

theorem inert_zeros (n : ℕ) : (zeros n).all isInert = true := by
  rw [List.all_eq_true]
  intro c hc
  rw [List.eq_of_mem_replicate hc]
  decide

theorem inert_digits (d : Decimal) : d.digits.all isInert = true := inert_toDigits d.coefficient

theorem inert_positional (d : Decimal) : d.positional.all isInert = true := by
  unfold positional
  split
  · rw [List.all_append, List.all_append, d.inert_digits, inert_zeros]
    rfl
  · have hpadded : (zeros ((-d.exponent).toNat + 1 - d.digits.length) ++ d.digits).all isInert =
        true := by
      rw [List.all_append, inert_zeros, d.inert_digits]
      rfl
    rw [List.all_eq_true] at hpadded ⊢
    intro c hc
    rcases List.mem_append.1 hc with hc | hc
    · exact hpadded c (List.mem_of_mem_take hc)
    · rcases List.mem_cons.1 hc with rfl | hc
      · rfl
      · exact hpadded c (List.mem_of_mem_drop hc)

theorem inert_scientific (d : Decimal) : d.scientific.all isInert = true := by
  have hdigits := d.inert_digits
  have hpower := inert_toString d.leadingPower
  unfold scientific
  rw [List.all_append, List.all_cons, hpower, Bool.and_true, Bool.and_eq_true]
  refine ⟨?_, rfl⟩
  split
  next first second rest heq =>
    have hpoint : isInert '.' = true := by decide
    rw [heq, List.all_cons] at hdigits
    rw [List.all_cons, List.all_cons, hpoint, Bool.true_and]
    exact hdigits
  next => exact hdigits

theorem inert_letters (d : Decimal) : d.letters.all isInert = true := by
  unfold letters
  split
  · exact d.inert_positional
  · exact d.inert_scientific

end Decimal

theorem inert_writtenInt (n : Int64) : (writtenInt n).toList.all isInert = true :=
  inert_toString n.toInt

theorem Binary64.inert_written (x : Binary64) : x.written.toList.all isInert = true := by
  have hmagnitude : (if x.isInfinite then "inf" else if x.isZero then "0.0"
      else String.ofList x.shortest.letters).toList.all isInert = true := by
    split
    · rfl
    · split
      · rfl
      · rw [String.toList_ofList, x.shortest.inert_letters]
  unfold written
  by_cases hnan : x.isNaN = true
  · rw [if_pos hnan]
    rfl
  · rw [if_neg hnan]
    by_cases hsign : x.isNegative = true
    · rw [if_pos hsign, String.toList_append, List.all_append, hmagnitude]
      rfl
    · rw [if_neg hsign]
      exact hmagnitude

end SurfaceLanguage.Number
