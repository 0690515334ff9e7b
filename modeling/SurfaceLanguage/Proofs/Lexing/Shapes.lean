import Mathlib.Data.List.TakeWhile
import SurfaceLanguage.Lexing.Cut

/-!
# Shapes as the lexer finds them

The grammar writes its characters and its symbols out. The lexer has tests for the
characters and a table for the symbols. The two agree, class by class and row by row,
so that a shape can be read in the terms of either.

What else is known of the table is settled by going through its rows, so a new row needs
no new proof as long as it keeps these facts: a text spells one symbol, spellings grow by
a character at a time, and a slash, a round or a square bracket begins none but itself.
-/
namespace SurfaceLanguage
namespace Symbol

/-- The table has the texts of the grammar in its rows, and no others. -/
theorem mem_texts_iff {text : List Char} {s : Symbol} :
    text ∈ s.texts ↔ (text, s) ∈ spellings := by
  have hrows : ∀ row ∈ spellings, row.1 ∈ row.2.texts := by decide
  have htexts : ∀ t ∈ s.texts, (t, s) ∈ spellings := by cases s <;> decide
  exact ⟨htexts text, hrows (text, s)⟩

theorem sign_unique {text : List Char} {s u : Symbol} (hs : (text, s) ∈ spellings)
    (hu : (text, u) ∈ spellings) : s = u := by
  have h : ∀ a ∈ spellings, ∀ b ∈ spellings, a.1 = b.1 → a.2 = b.2 := by decide
  exact h _ hs _ hu rfl

theorem exists_symbol_of_any {text : List Char} (h : spellings.any (·.1 == text) = true) :
    ∃ s, (text, s) ∈ spellings := by
  obtain ⟨⟨word, s⟩, hrow, hword⟩ := List.any_eq_true.1 h
  rw [← beq_iff_eq.1 hword]
  exact ⟨s, hrow⟩

theorem mem_signs_of_mem {c : Char} {text : List Char} {s : Symbol}
    (h : (c :: text, s) ∈ spellings) : c ∈ signs := by
  have hall : ∀ row ∈ spellings, row.1.head?.all signs.contains = true := by decide
  exact List.contains_iff_mem.1 (hall _ h)

/-- Every sign is a symbol by itself. -/
theorem exists_symbol_of_mem_signs {c : Char} (h : c ∈ signs) : ∃ s, ([c], s) ∈ spellings := by
  have hall : signs.all (fun d => spellings.any (·.1 == [d])) = true := by decide
  exact exists_symbol_of_any (List.all_eq_true.1 hall c h)

/-- The slash and the round and square brackets begin no spelling but their own. -/
theorem eq_nil_of_alone {c : Char} {text : List Char} {s : Symbol}
    (hc : c ∈ ['/', '(', ')', '[', ']']) (h : (c :: text, s) ∈ spellings) : text = [] := by
  have hall : ∀ row ∈ spellings, row.1.head?.any ['/', '(', ')', '[', ']'].contains = true →
      row.1.tail = [] := by decide
  exact hall _ h (List.contains_iff_mem.2 hc)

/-- A spelling grows from a shorter one by a character at a time. -/
theorem spelled_of_longer {text more : List Char} {d : Char} {s : Symbol} (hne : text ≠ [])
    (h : (text ++ d :: more, s) ∈ spellings) : ∃ u, (text ++ [d], u) ∈ spellings := by
  have hall : ∀ row ∈ spellings, ∀ n ∈ List.range row.1.length, n ≠ 0 →
      spellings.any (·.1 == row.1.take (n + 1)) = true := by decide
  have hlength : text.length ∈ List.range (text ++ d :: more).length := by simp
  have hspelled := hall _ h _ hlength (by simpa using hne)
  rw [List.take_length_add_append] at hspelled
  exact exists_symbol_of_any hspelled

/-- A spelling is read back from in front of a rest that spells nothing longer
with it. -/
theorem read?_append {text rest : List Char} {s : Symbol} (hrow : (text, s) ∈ spellings)
    (hrest : ∀ c ∈ rest.head?, ∀ u, (text ++ [c], u) ∉ spellings) :
    read? (text ++ rest) = some (text, s) := by
  cases hread : read? (text ++ rest) with
  | none =>
    have hnone := List.find?_eq_none.1 hread (text, s) hrow
    simp at hnone
  | some found =>
    obtain ⟨word, u⟩ := found
    obtain ⟨hword, hpre⟩ := read?_eq_some hread
    have hle := length_le_of_read? hread hrow (List.prefix_append text rest)
    obtain ⟨more, rfl⟩ := List.prefix_of_prefix_length_le (List.prefix_append text rest) hpre hle
    cases more with
    | nil =>
      rw [List.append_nil] at hword ⊢
      rw [sign_unique hword hrow]
    | cons d more =>
      -- The first character past `text` would already spell a longer symbol.
      obtain ⟨v, hv⟩ := spelled_of_longer (spelling_ne_nil hrow) hword
      obtain ⟨after, hafter⟩ := hpre
      rw [List.append_assoc, List.append_cancel_left_eq] at hafter
      exact absurd hv (hrest d (by rw [← hafter]; rfl) v)

end Symbol

namespace Lexing

section Classes
variable {c : Char}

theorem isBlank_iff : isBlank c = true ↔ IsBlank c := by
  simp [isBlank, IsBlank, or_assoc]

theorem isQuote_iff : isQuote c = true ↔ IsQuote c := by
  simp [isQuote, IsQuote]

theorem isDigit_iff : isDigit c = true ↔ IsDigit c := by
  simp [isDigit, Char.isDigit, IsDigit, Char.le_def]

theorem isUpper_iff : c.isUpper = true ↔ 'A' ≤ c ∧ c ≤ 'Z' := decide_eq_true_iff

theorem isLower_iff : c.isLower = true ↔ 'a' ≤ c ∧ c ≤ 'z' :=
  Bool.and_eq_true_iff.trans (and_congr decide_eq_true_iff decide_eq_true_iff)

theorem isWordStart_iff : isWordStart c = true ↔ IsLetter c := by
  calc
    isWordStart c = true ↔ (c.isUpper || c.isLower) = true ∨ (c == '_') = true :=
        Bool.or_eq_true_iff
    _ ↔ IsLetter c := by
        rw [Bool.or_eq_true_iff, isUpper_iff, isLower_iff, beq_iff_eq, or_assoc, IsLetter]

theorem isWordPart_iff : isWordPart c = true ↔ IsLetter c ∨ IsDigit c := by
  rw [← isWordStart_iff, ← isDigit_iff]
  simp [isWordPart, isWordStart, isDigit, Char.isAlphanum, or_right_comm]

theorem unclassed_iff : Unclassed c ↔
    isBlank c = false ∧ c ≠ '\n' ∧ isQuote c = false ∧ isDigit c = false ∧
      isWordStart c = false := by
  simp only [Unclassed, ← isBlank_iff, ← isQuote_iff, ← isDigit_iff, ← isWordStart_iff,
    Bool.not_eq_true]

theorem isWordPart_of_wordStart (h : isWordStart c = true) : isWordPart c = true :=
  isWordPart_iff.2 (.inl (isWordStart_iff.1 h))

theorem isDigit_of_isWordStart (h : isWordStart c = true) : isDigit c = false := by
  rw [← Bool.not_eq_true, isDigit_iff]
  intro hdigit
  have hnine : c.toNat ≤ 57 := hdigit.2
  rcases isWordStart_iff.1 h with hupper | hlower | rfl
  · have hge : 65 ≤ c.toNat := hupper.1
    omega
  · have hge : 97 ≤ c.toNat := hlower.1
    omega
  · exact absurd hnine (by decide)

/-- A class of characters that excludes the blanks, the line break and the quotes
starts nothing of theirs. -/
theorem plain_of_class {p : Char → Bool} (h : p c = true)
    (hclass : [' ', '\t', '\r', '\n', '"', '\''].any p = false) :
    isBlank c = false ∧ c ≠ '\n' ∧ isQuote c = false := by
  have hne : ∀ d ∈ [' ', '\t', '\r', '\n', '"', '\''], c ≠ d := by
    intro d hd hc
    subst hc
    exact List.any_eq_false.1 hclass c hd h
  simpa [isBlank, isQuote, and_assoc, and_left_comm] using hne

end Classes

section Texts
variable {text : List Char}

theorem isNumeral_iff : IsNumeral text ↔ text ≠ [] ∧ ∀ c ∈ text, isDigit c = true := by
  simp only [IsNumeral, isDigit_iff]

theorem IsNumeral.all_isDigit (h : IsNumeral text) : ∀ c ∈ text, isDigit c = true :=
  (isNumeral_iff.1 h).2

theorem isNumeral_takeWhile (h : text.takeWhile isDigit ≠ []) :
    IsNumeral (text.takeWhile isDigit) :=
  isNumeral_iff.2 ⟨h, fun _ hc => List.mem_takeWhile_imp hc⟩

theorem accepts_blank_iff : Shape.blank.Accepts text ↔ ∃ c, isBlank c = true ∧ text = [c] := by
  simp only [Shape.Accepts, isBlank_iff]

theorem accepts_string_iff : Shape.string.Accepts text ↔
    ∃ quote body, isQuote quote = true ∧ '"' ∉ body ∧ text = quote :: (body ++ ['"']) := by
  simp only [Shape.Accepts, isQuote_iff]

theorem accepts_word_iff : Shape.word.Accepts text ↔
    ∃ c rest, isWordStart c = true ∧ (∀ d ∈ rest, isWordPart d = true) ∧ text = c :: rest := by
  simp only [Shape.Accepts, isWordStart_iff, isWordPart_iff]

end Texts
end Lexing
end SurfaceLanguage
