import Mathlib.Data.Nat.Notation
import Mathlib.Data.List.Basic

/-!
# Places in reports

Reports show a place as a line and a column in decimal with a colon between them.
No digit is a colon, so both numbers can be read off the text. What a report puts
around a place is told apart by a separator that stands nowhere on one of its sides.
-/
namespace SurfaceLanguage.Report

section Separators
variable {α : Type} {c : α} {a b r s : List α}

/-- A text is cut in one way at the first of its separators. -/
theorem eq_of_first_separator (ha : c ∉ a) (hb : c ∉ b) (h : a ++ c :: r = b ++ c :: s) :
    a = b ∧ r = s := by
  -- Where only one of the two fronts is left, it would begin with the separator.
  induction a generalizing b with
  | nil =>
    cases b with
    | nil => exact ⟨rfl, (List.cons.inj h).2⟩
    | cons e b => exact absurd (List.cons.inj h).1 (List.ne_of_not_mem_cons hb)
  | cons d a ih =>
    cases b with
    | nil => exact absurd (List.cons.inj h).1.symm (List.ne_of_not_mem_cons ha)
    | cons e b =>
      obtain ⟨hhead, htail⟩ := List.cons.inj h
      have hparts := ih (List.not_mem_of_not_mem_cons ha) (List.not_mem_of_not_mem_cons hb) htail
      exact ⟨by rw [hhead, hparts.1], hparts.2⟩

/-- A text is cut in one way at the last of its separators. -/
theorem eq_of_last_separator (hr : c ∉ r) (hs : c ∉ s) (h : a ++ c :: r = b ++ c :: s) :
    a = b ∧ r = s := by
  have hback : r.reverse ++ c :: a.reverse = s.reverse ++ c :: b.reverse := by
    simpa using congrArg List.reverse h
  have hparts := eq_of_first_separator (mt List.mem_reverse.1 hr) (mt List.mem_reverse.1 hs) hback
  exact ⟨List.reverse_inj.1 hparts.2, List.reverse_inj.1 hparts.1⟩

end Separators

theorem toDigits_inj {m n : ℕ} : Nat.toDigits 10 m = Nat.toDigits 10 n ↔ m = n := by
  refine ⟨fun h => ?_, congrArg _⟩
  calc
    m = Nat.ofDigitChars 10 (Nat.toDigits 10 m) 0 := Nat.ofDigitChars_ten_toDigits.symm
    _ = Nat.ofDigitChars 10 (Nat.toDigits 10 n) 0 := by rw [h]
    _ = n := Nat.ofDigitChars_ten_toDigits

theorem notMem_toDigits {c : Char} (h : c.isDigit = false) (n : ℕ) : c ∉ Nat.toDigits 10 n := by
  intro hc
  have hdigit := Nat.isDigit_of_mem_toDigits (by decide) (by decide) hc
  rw [h] at hdigit
  exact Bool.false_ne_true hdigit

/-- The characters of a line and a column. -/
def place (line column : ℕ) : List Char := Nat.toDigits 10 line ++ ':' :: Nat.toDigits 10 column

theorem toList_place (line column : ℕ) :
    (toString line ++ ":" ++ toString column).toList = place line column := by
  simp only [place, String.toList_append, Nat.toString_eq_repr, Nat.toList_repr]
  exact List.append_assoc _ _ _

theorem place_inj {line column line' column' : ℕ} :
    place line column = place line' column' ↔ line = line' ∧ column = column' := by
  constructor
  · intro h
    have hcolon := notMem_toDigits (c := ':') rfl
    have hparts := eq_of_first_separator (hcolon line) (hcolon line') h
    exact ⟨toDigits_inj.1 hparts.1, toDigits_inj.1 hparts.2⟩
  · rintro ⟨rfl, rfl⟩
    rfl

/-- A place is digits and a colon. -/
theorem notMem_place {c : Char} (hdigit : c.isDigit = false) (hcolon : c ≠ ':')
    (line column : ℕ) : c ∉ place line column := by
  simp only [place, List.mem_append, List.mem_cons, not_or]
  exact ⟨notMem_toDigits hdigit line, hcolon, notMem_toDigits hdigit column⟩

end SurfaceLanguage.Report
