import SurfaceLanguage.Token.Basic

/-!
# The lexical grammar

A source is cut into consecutive pieces: white space, comments, and the texts of
tokens. A piece knows its shape and its characters; where it stands is known only
to the sequence it belongs to. White space and comments become no token.

Each shape is a set of texts, which is written out here in characters and without
reference to how a source is cut. A source is well cut when every piece is the longest
text of any shape that begins what is left, and no slash is left standing in front of
a star: together they open a comment, even one that never ends.
-/
namespace SurfaceLanguage

/-- The texts of a symbol. Two symbols have two of them, and two have none. -/
def Symbol.texts : Symbol → List (List Char)
  | .plus => [['+']]
  | .minus => [['-']]
  | .star => [['*']]
  | .slash => [['/']]
  | .percent => [['%']]
  | .andAnd => [['&', '&']]
  | .orOr => [['|', '|']]
  | .notBang => [['!'], ['!', '=']]
  | .equalEqual => [['=', '=']]
  | .colon => [[':']]
  | .greater => [['>']]
  | .less => [['<']]
  | .greaterEqual => [['>', '=']]
  | .lessEqual => [['<', '=']]
  | .minusMinus => [['-', '-']]
  | .plusPlus => [['+', '+']]
  | .dollar => [['$']]
  | .equal => [['=']]
  | .leftParen => [['(']]
  | .rightParen => [[')']]
  | .leftBrace => [['{']]
  | .rightBrace => [['}']]
  | .leftBracket => [['[']]
  | .rightBracket => [[']']]
  | .arrow => [['-', '>']]
  | .colonColon => [[':', ':']]
  | .question => [['?']]
  | .ellipsis => [['.', '.', '.']]
  | .bitAnd => [['&']]
  | .bitOr => [['|']]
  | .shiftLeft => [['<', '<']]
  | .shiftRight => [['>', '>']]
  | .comma => [[',']]
  | .dot => [['.'], ['.', '.']]
  | .semicolon => [[';']]
  | .fatArrow | .bitXor => []

/-- The characters that symbols begin with. -/
def Symbol.signs : List Char :=
  ['+', '-', '*', '/', '%', '=', '!', '&', '|', '>', '<', ':', '?', '.', ',', ';', '(', ')',
   '{', '}', '[', ']', '$']

namespace Lexing

/-- The line break stands apart from other white space because it moves the
position differently. -/
inductive Shape where
  | blank
  | lineBreak
  | lineComment
  | blockComment
  | string
  | number
  | word
  | symbol (sign : Symbol)
deriving DecidableEq, Repr

structure Piece where
  shape : Shape
  text : List Char
deriving DecidableEq, Repr

def IsBlank (c : Char) : Prop := c = ' ' ∨ c = '\t' ∨ c = '\r'

def IsQuote (c : Char) : Prop := c = '"' ∨ c = '\''

def IsDigit (c : Char) : Prop := '0' ≤ c ∧ c ≤ '9'

/-- A word begins with an ASCII letter or with an underscore. -/
def IsLetter (c : Char) : Prop := ('A' ≤ c ∧ c ≤ 'Z') ∨ ('a' ≤ c ∧ c ≤ 'z') ∨ c = '_'

/-- A character of none of the classes by which white space, strings, numbers and
words are known. -/
def Unclassed (c : Char) : Prop :=
  ¬ IsBlank c ∧ c ≠ '\n' ∧ ¬ IsQuote c ∧ ¬ IsDigit c ∧ ¬ IsLetter c

instance (c : Char) : Decidable (IsBlank c) := inferInstanceAs (Decidable (_ ∨ _))

instance (c : Char) : Decidable (IsQuote c) := inferInstanceAs (Decidable (_ ∨ _))

instance (c : Char) : Decidable (IsDigit c) := inferInstanceAs (Decidable (_ ∧ _))

instance (c : Char) : Decidable (IsLetter c) := inferInstanceAs (Decidable (_ ∨ _))

instance (c : Char) : Decidable (Unclassed c) := inferInstanceAs (Decidable (_ ∧ _))

/-- At least one digit and nothing else. -/
def IsNumeral (text : List Char) : Prop := text ≠ [] ∧ ∀ c ∈ text, IsDigit c

/-- A star with a slash behind it occurs nowhere but at the end. -/
def ClosesOnlyAtEnd (text : List Char) : Prop :=
  ∀ before after, text = before ++ '*' :: '/' :: after → after = []

/-- The texts of a shape. -/
def Shape.Accepts : Shape → List Char → Prop
  | .blank, text => ∃ c, IsBlank c ∧ text = [c]
  | .lineBreak, text => text = ['\n']
  | .lineComment, text => ∃ body, '\n' ∉ body ∧ text = '/' :: '/' :: body
  | .blockComment, text =>
      ∃ body, ClosesOnlyAtEnd (body ++ ['*', '/']) ∧ text = '/' :: '*' :: (body ++ ['*', '/'])
  | .string, text => ∃ quote body, IsQuote quote ∧ '"' ∉ body ∧ text = quote :: (body ++ ['"'])
  | .number, text =>
      IsNumeral text ∨
        ∃ whole places, IsNumeral whole ∧ IsNumeral places ∧ text = whole ++ '.' :: places
  | .word, text => ∃ c rest, IsLetter c ∧ (∀ d ∈ rest, IsLetter d ∨ IsDigit d) ∧ text = c :: rest
  | .symbol sign, text => text ∈ sign.texts

/-- The piece begins the text, and nothing longer that does is a piece. -/
structure Piece.IsLongest (p : Piece) (text : List Char) : Prop where
  accepts : p.shape.Accepts p.text
  begins : p.text <+: text
  longest : ∀ (shape : Shape) (other : List Char),
    shape.Accepts other → other <+: text → other.length ≤ p.text.length

/-- The pieces are well cut off the front of a text, and the rest is left. -/
inductive Cuts : List Char → List Piece → List Char → Prop
  | nil (rest : List Char) : Cuts rest [] rest
  | cons {p : Piece} {text rest : List Char} {pieces : List Piece} :
      p.IsLongest (p.text ++ text) → (p.text = ['/'] → text.head? ≠ some '*') →
      Cuts text pieces rest → Cuts (p.text ++ text) (p :: pieces) rest

theorem Cuts.append {text middle rest : List Char} {ps qs : List Piece}
    (first : Cuts text ps middle) (last : Cuts middle qs rest) : Cuts text (ps ++ qs) rest := by
  induction first with
  | nil _ => exact last
  | cons hlongest hslash _ ih => exact .cons hlongest hslash (ih last)

/-- Nothing is lost between the pieces. -/
theorem Cuts.flatMap_text {text rest : List Char} {pieces : List Piece}
    (h : Cuts text pieces rest) : pieces.flatMap (·.text) ++ rest = text := by
  induction h with
  | nil _ => rfl
  | cons _ _ _ ih => simp [ih]

end Lexing
end SurfaceLanguage
