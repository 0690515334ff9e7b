import SurfaceLanguage.Lexing.Cut

/-!
# From source to tokens

`lex` cuts a source and gives each piece that becomes a token its kind and its place.
It either returns every token, closed by the single end-of-input token, or the first
error and no token at all.

A position counts the characters read, the lines, and the column within the
line. A line break inside a string or a comment leads to column one of the next
line. A line break between tokens leads to column zero, so that the first
character of that line ends in column one.
-/
namespace SurfaceLanguage.Lexing

structure Position where
  offset : Nat
  line : Nat
  column : Nat
deriving DecidableEq, Repr

namespace Position

def start : Position := ⟨0, 1, 1⟩

/-- The position after one more character of a text. -/
def next (p : Position) (c : Char) : Position :=
  if c = '\n' then ⟨p.offset + 1, p.line + 1, 1⟩ else ⟨p.offset + 1, p.line, p.column + 1⟩

/-- The position after a text that is read as a whole. -/
def past (p : Position) (text : List Char) : Position := text.foldl next p

/-- The position after a piece. -/
def after (p : Position) (piece : Piece) : Position :=
  match piece.shape with
  | .lineBreak => ⟨p.offset + 1, p.line + 1, 0⟩
  | _ => p.past piece.text

/-- The position after consecutive pieces. -/
def afterAll (p : Position) (pieces : List Piece) : Position := pieces.foldl after p

end Position

/-- The kind of token a piece becomes, if it becomes one. -/
def Piece.kind? (p : Piece) : Option TokenKind :=
  match p.shape with
  | .blank | .lineBreak | .lineComment | .blockComment => none
  | .string => some .string
  | .number => some .number
  | .word => some (.ofWord (String.ofList p.text))
  | .symbol sign => some (.symbol sign)

/-- The token of a kind for a text between two positions. -/
def tokenBetween (kind : TokenKind) (text : List Char) (p q : Position) : Token :=
  ⟨kind, String.ofList text, ⟨p.offset, q.offset, q.line, q.column⟩⟩

/-- The tokens of consecutive pieces, the first of which starts at `p`. -/
def placed (p : Position) : List Piece → List Token
  | [] => []
  | piece :: pieces =>
      let q := p.after piece
      match piece.kind? with
      | some kind => tokenBetween kind piece.text p q :: placed q pieces
      | none => placed q pieces

/-- The error of a fault whose text starts at `p`: it is reported where the
reading stopped. -/
def Fault.error (f : Fault) (p : Position) : LexError :=
  let q := p.past f.text
  ⟨f.cause, q.line, q.column⟩

/-- The answer for a source that was cut in this way. -/
def Cutting.tokens (c : Cutting) : Except LexError (List Token) :=
  let stop := Position.start.afterAll c.pieces
  match c.fault? with
  | none => .ok (placed .start c.pieces ++ [tokenBetween .eof [] stop stop])
  | some f => .error (f.error stop)

/-- All tokens of a source, or its first error. -/
def lex (source : String) : Except LexError (List Token) := (cutAll source.toList).tokens

end SurfaceLanguage.Lexing
