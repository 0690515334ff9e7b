import SurfaceLanguage.Proofs.Report.Messages
import SurfaceLanguage.Proofs.Report.Place
import SurfaceLanguage.Lexing.Error

/-!
# Reports of lexical errors

An error is rendered as its place in square brackets and a message. The place has no
bracket, the message shows its key, and a character the lexer did not expect stands in
its message once, as it is. So the rendering shows all there is to an error.
-/
namespace SurfaceLanguage.Lexing
open Report

namespace LexCause

/-- The characters of the message about a cause. -/
def letters (cause : LexCause) (locale : Locale) : List Char :=
  fillLetters (cause.key.template locale).toList cause.arguments

theorem template_unexpectedCharacter (locale : Locale) :
    (MessageKey.unexpectedCharacter.template locale).toList =
      MessageKey.unexpectedCharacter.opening locale ++ ['{', '}', '\''] := by
  cases locale <;> rfl

/-- The unexpected character is inserted as it is, a brace or a quote like any other. -/
theorem letters_unexpectedCharacter (c : Char) (locale : Locale) :
    (unexpectedCharacter c).letters locale =
      MessageKey.unexpectedCharacter.opening locale ++ [c, '\''] := by
  have hbrace := MessageKey.unexpectedCharacter.brace_notMem_opening locale
  calc
    (unexpectedCharacter c).letters locale
      = fillLetters (MessageKey.unexpectedCharacter.opening locale ++ ['{', '}', '\''])
          [String.singleton c] := by rw [← template_unexpectedCharacter]; rfl
    _ = MessageKey.unexpectedCharacter.opening locale ++
          fillLetters ['{', '}', '\''] [String.singleton c] :=
        fillLetters_append_of_notMem hbrace _ _
    _ = MessageKey.unexpectedCharacter.opening locale ++ [c, '\''] := by simp [fillLetters]

theorem letters_inj {cause other : LexCause} {locale : Locale} :
    cause.letters locale = other.letters locale ↔ cause = other := by
  constructor
  · intro h
    -- Of one key are only causes that differ in the character, if at all.
    have hkey : cause.key = other.key := MessageKey.eq_of_fillLetters_eq h
    cases cause with
    | unexpectedCharacter c =>
      cases other with
      | unexpectedCharacter d =>
        rw [letters_unexpectedCharacter, letters_unexpectedCharacter] at h
        rw [(List.cons.inj (List.append_cancel_left h)).1]
      | unterminatedString | unterminatedComment => cases hkey
    | unterminatedString | unterminatedComment =>
      cases other <;> first | rfl | cases hkey
  · rintro rfl
    rfl

end LexCause

namespace LexError

/-- The identifier of the cause finds its template, and filling it gives the letters. -/
theorem toList_message (e : LexError) (locale : Locale) :
    (e.message locale).toList = e.cause.letters locale := by
  rw [message, formatMessage, MessageKey.message_id, fill, String.toList_ofList,
    LexCause.letters]

theorem toList_render (e : LexError) (locale : Locale) :
    (e.render locale).toList =
      '[' :: (place e.line e.column ++ ']' :: ' ' :: e.cause.letters locale) := by
  rw [← toList_place, ← toList_message]
  simp [render]

/-- Two errors read alike in a locale only when they are the same error. -/
theorem render_eq_iff (locale : Locale) (x y : LexError) :
    x.render locale = y.render locale ↔ x = y := by
  constructor
  · intro h
    have htexts := congrArg String.toList h
    rw [toList_render, toList_render] at htexts
    have hbracket : ∀ line column, ']' ∉ place line column := notMem_place rfl (by decide)
    obtain ⟨hplace, hbehind⟩ :=
      eq_of_first_separator (hbracket _ _) (hbracket _ _) (List.cons.inj htexts).2
    have hcause : x.cause = y.cause := LexCause.letters_inj.1 (List.cons.inj hbehind).2
    obtain ⟨hline, hcolumn⟩ := place_inj.1 hplace
    cases x
    cases y
    rw [LexError.mk.injEq]
    exact ⟨hcause, hline, hcolumn⟩
  · rintro rfl
    rfl

end LexError
end SurfaceLanguage.Lexing
