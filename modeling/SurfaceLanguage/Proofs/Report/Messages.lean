import SurfaceLanguage.Message
import Mathlib.Data.List.Basic

/-!
# Messages and their templates

A template is worded up to its first placeholder in a way no other template of its
locale begins with. Filling keeps these words, so that a message shows the key it was
made from, whatever its arguments are.
-/
namespace SurfaceLanguage

/-- A character at which no placeholder begins stays. -/
theorem fillLetters_cons_of_not {c : Char} {rest : List Char}
    (h : ∀ tail, c = '{' → rest = '}' :: tail → False) (arguments : List String) :
    fillLetters (c :: rest) arguments = c :: fillLetters rest arguments := by
  cases arguments with
  | nil => simp only [fillLetters]
  | cons argument arguments => exact fillLetters.eq_3 _ c rest nofun fun tail _ _ _ => h tail

theorem fillLetters_cons {c : Char} (h : c ≠ '{') (rest : List Char) (arguments : List String) :
    fillLetters (c :: rest) arguments = c :: fillLetters rest arguments :=
  fillLetters_cons_of_not (fun _ hc => absurd hc h) arguments

/-- Filling leaves alone what has no opening brace. -/
theorem fillLetters_append_of_notMem {front : List Char} (h : '{' ∉ front) (rest : List Char)
    (arguments : List String) :
    fillLetters (front ++ rest) arguments = front ++ fillLetters rest arguments := by
  induction front with
  | nil => rfl
  | cons c front ih =>
    have hc : c ≠ '{' := (List.ne_of_not_mem_cons h).symm
    rw [List.cons_append, fillLetters_cons hc, ih (List.not_mem_of_not_mem_cons h),
      List.cons_append]

namespace MessageKey

/-- Asking for the identifier of a message finds its template. -/
theorem message_id (key : MessageKey) (locale : Locale) :
    message key.id locale = key.template locale := by
  cases key <;> rfl

/-- The words of a template in front of its first placeholder. -/
def opening (key : MessageKey) (locale : Locale) : List Char :=
  (key.template locale).toList.takeWhile (· != '{')

theorem brace_notMem_opening (key : MessageKey) (locale : Locale) : '{' ∉ key.opening locale := by
  intro h
  have hbrace := List.all_eq_true.1 List.all_takeWhile _ h
  exact absurd hbrace (by decide)

/-- A message begins with the words of its template. -/
theorem opening_prefix_fillLetters (key : MessageKey) (locale : Locale)
    (arguments : List String) :
    key.opening locale <+: fillLetters (key.template locale).toList arguments := by
  have hsplit : key.opening locale ++ (key.template locale).toList.dropWhile (· != '{') =
      (key.template locale).toList := List.takeWhile_append_dropWhile
  rw [← hsplit, fillLetters_append_of_notMem (key.brace_notMem_opening locale)]
  exact List.prefix_append _ _

/-- No template of a locale begins as another one does. -/
theorem opening_unique {key other : MessageKey} {locale : Locale}
    (h : key.opening locale <+: other.opening locale) : key = other := by
  revert h
  cases locale <;> cases key <;> cases other <;> decide

/-- A message shows the key it was made from. -/
theorem eq_of_fillLetters_eq {key other : MessageKey} {locale : Locale}
    {arguments others : List String}
    (h : fillLetters (key.template locale).toList arguments =
      fillLetters (other.template locale).toList others) : key = other := by
  have hkey := key.opening_prefix_fillLetters locale arguments
  have hother := other.opening_prefix_fillLetters locale others
  rw [← h] at hother
  rcases List.prefix_or_prefix_of_prefix hkey hother with hpre | hpre
  · exact opening_unique hpre
  · exact (opening_unique hpre).symm

end MessageKey
end SurfaceLanguage
