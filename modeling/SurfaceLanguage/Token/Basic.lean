import SurfaceLanguage.Token.Keyword
import SurfaceLanguage.Token.Symbol

/-!
# Tokens

A token carries its kind, its text and a span. Its kind is the end of the input, a
name, a literal, a reserved word or a symbol; every kind has one name, and no two
kinds share it. Offsets count characters from the start of the source. Line and
column are those of the place just after the token, where a reader of the source
stands once the token has been read.
-/
namespace SurfaceLanguage

inductive TokenKind where
  | eof
  | identifier
  | number
  | string
  | keyword (word : Keyword)
  | symbol (sign : Symbol)
deriving DecidableEq, Repr

namespace TokenKind

def all : List TokenKind :=
  [.eof, .identifier, .number, .string] ++ Keyword.all.map .keyword ++ Symbol.all.map .symbol

def name : TokenKind → String
  | .eof => "EOF"
  | .identifier => "IDENTIFIER"
  | .number => "NUMBER_LITERAL"
  | .string => "STRING_LITERAL"
  | .keyword word => word.name
  | .symbol sign => sign.name

def isKeyword : TokenKind → Bool
  | .keyword _ => true
  | _ => false

/-- The kind of a reserved word's text. -/
def ofKeyword? (text : String) : Option TokenKind := (Keyword.ofString? text).map .keyword

/-- The kind of any word: its reserved meaning if it has one. -/
def ofWord (text : String) : TokenKind := (ofKeyword? text).getD .identifier

theorem ofWord_cases (text : String) :
    ofWord text = .identifier ∨ ∃ word, ofWord text = .keyword word := by
  unfold ofWord ofKeyword?
  cases Keyword.ofString? text with
  | none => exact .inl rfl
  | some word => exact .inr ⟨word, rfl⟩

end TokenKind

structure Span where
  start : Nat
  stop : Nat
  line : Nat
  column : Nat
deriving DecidableEq, Repr

structure Token where
  kind : TokenKind
  lexeme : String
  span : Span
deriving DecidableEq, Repr

namespace Token

def line (t : Token) : Nat := t.span.line

def column (t : Token) : Nat := t.span.column

def isEof (t : Token) : Bool := t.kind == .eof

def hasKind (t : Token) (kind : TokenKind) : Bool := t.kind == kind

/-- The form of a token in reports. The lexeme is not escaped. -/
def display (t : Token) : String :=
  t.kind.name ++ "('" ++ t.lexeme ++ "') at " ++ toString t.line ++ ":" ++ toString t.column

end Token
end SurfaceLanguage
