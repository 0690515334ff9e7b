import SurfaceLanguage.Message

/-!
# Lexical errors

A lexical error is a cause and the place where the reading stopped. Its text
depends on the locale, its meaning does not.
-/
namespace SurfaceLanguage.Lexing

inductive LexCause where
  | unterminatedString
  | unterminatedComment
  | unexpectedCharacter (c : Char)
deriving DecidableEq, Repr

structure LexError where
  cause : LexCause
  line : Nat
  column : Nat
deriving DecidableEq, Repr

namespace LexCause

def key : LexCause → MessageKey
  | .unterminatedString => .unterminatedString
  | .unterminatedComment => .unterminatedComment
  | .unexpectedCharacter _ => .unexpectedCharacter

/-- What the message quotes of the source. -/
def arguments : LexCause → List String
  | .unexpectedCharacter c => [String.singleton c]
  | _ => []

end LexCause

namespace LexError

def message (e : LexError) (locale : Locale) : String :=
  formatMessage e.cause.key.id locale e.cause.arguments

/-- The message with its place in front. -/
def render (e : LexError) (locale : Locale) : String :=
  "[" ++ toString e.line ++ ":" ++ toString e.column ++ "] " ++ e.message locale

/-- The rendering in the default locale. -/
def display (e : LexError) : String := e.render default

end LexError
end SurfaceLanguage.Lexing
