/-!
# Symbols

A symbol is a token that is neither a word nor a literal. Most have one
spelling; two pairs of spellings stand for one symbol each: `!` and `!=`, and
the dot, which two dots also spell. `fatArrow` and `bitXor` have a name and no
spelling, so no source produces them.

A text is read by the table `spellings`, whose rows run from long to short. The
first row that begins the text is therefore the longest that does.
-/
namespace SurfaceLanguage

/-- Grouped by use: arithmetic and comparison, assignment, brackets, arrows and
the like, bit operators, punctuation. -/
inductive Symbol where
  | plus | minus | star | slash | percent | andAnd | orOr | notBang | equalEqual | colon
  | greater | less | greaterEqual | lessEqual | minusMinus | plusPlus | dollar
  | equal
  | leftParen | rightParen | leftBrace | rightBrace | leftBracket | rightBracket
  | arrow | fatArrow | colonColon | question | ellipsis
  | bitAnd | bitOr | bitXor | shiftLeft | shiftRight
  | comma | dot | semicolon
deriving DecidableEq, Repr

namespace Symbol

def all : List Symbol :=
  [.plus, .minus, .star, .slash, .percent, .andAnd, .orOr, .notBang, .equalEqual, .colon,
   .greater, .less, .greaterEqual, .lessEqual, .minusMinus, .plusPlus, .dollar, .equal,
   .leftParen, .rightParen, .leftBrace, .rightBrace, .leftBracket, .rightBracket, .arrow,
   .fatArrow, .colonColon, .question, .ellipsis, .bitAnd, .bitOr, .bitXor, .shiftLeft,
   .shiftRight, .comma, .dot, .semicolon]

/-- The name used in reports. -/
def name : Symbol → String
  | .plus => "PLUS"
  | .minus => "MINUS"
  | .star => "STAR"
  | .slash => "SLASH"
  | .percent => "PERCENT"
  | .andAnd => "AND_AND"
  | .orOr => "OR_OR"
  | .notBang => "NOT_BANG"
  | .equalEqual => "EQUAL_EQUAL"
  | .colon => "COLON"
  | .greater => "GREATER"
  | .less => "LESS"
  | .greaterEqual => "GREATER_EQUAL"
  | .lessEqual => "LESS_EQUAL"
  | .minusMinus => "MINUS_MINUS"
  | .plusPlus => "PLUS_PLUS"
  | .dollar => "DOLLAR"
  | .equal => "EQUAL"
  | .leftParen => "LEFT_PAREN"
  | .rightParen => "RIGHT_PAREN"
  | .leftBrace => "LEFT_BRACE"
  | .rightBrace => "RIGHT_BRACE"
  | .leftBracket => "LEFT_BRACKET"
  | .rightBracket => "RIGHT_BRACKET"
  | .arrow => "ARROW"
  | .fatArrow => "FAT_ARROW"
  | .colonColon => "COLON_COLON"
  | .question => "QUESTION"
  | .ellipsis => "ELLIPSIS"
  | .bitAnd => "BIT_AND"
  | .bitOr => "BIT_OR"
  | .bitXor => "BIT_XOR"
  | .shiftLeft => "SHIFT_LEFT"
  | .shiftRight => "SHIFT_RIGHT"
  | .comma => "COMMA"
  | .dot => "DOT"
  | .semicolon => "SEMICOLON"

/-- Every spelling with its symbol, the longer spellings first. -/
def spellings : List (List Char × Symbol) :=
  [(['.', '.', '.'], .ellipsis),
   (['+', '+'], .plusPlus), (['-', '-'], .minusMinus), (['-', '>'], .arrow),
   (['=', '='], .equalEqual), (['!', '='], .notBang), (['&', '&'], .andAnd),
   (['|', '|'], .orOr), (['>', '='], .greaterEqual), (['>', '>'], .shiftRight),
   (['<', '='], .lessEqual), (['<', '<'], .shiftLeft), ([':', ':'], .colonColon),
   (['.', '.'], .dot),
   (['+'], .plus), (['-'], .minus), (['*'], .star), (['/'], .slash), (['%'], .percent),
   (['='], .equal), (['!'], .notBang), (['&'], .bitAnd), (['|'], .bitOr), (['>'], .greater),
   (['<'], .less), ([':'], .colon), (['?'], .question), (['.'], .dot), ([','], .comma),
   ([';'], .semicolon), (['('], .leftParen), ([')'], .rightParen), (['{'], .leftBrace),
   (['}'], .rightBrace), (['['], .leftBracket), ([']'], .rightBracket), (['$'], .dollar)]

/-- The longest spelling that begins a text, with its symbol. -/
def read? (text : List Char) : Option (List Char × Symbol) :=
  spellings.find? (·.1.isPrefixOf text)

theorem spellings_sorted : spellings.Pairwise (fun a b => b.1.length ≤ a.1.length) := by
  decide

theorem spelling_ne_nil {row : List Char × Symbol} (h : row ∈ spellings) : row.1 ≠ [] := by
  revert row
  decide

/-- What is read is a row of the table and begins the text. -/
theorem read?_eq_some {text word : List Char} {s : Symbol} (h : read? text = some (word, s)) :
    (word, s) ∈ spellings ∧ word <+: text :=
  ⟨List.mem_of_find?_eq_some h, by simpa using List.find?_some h⟩

/-- No spelling that begins the text is longer than the one read. -/
theorem length_le_of_read? {text word : List Char} {s : Symbol}
    (h : read? text = some (word, s)) {row : List Char × Symbol}
    (hrow : row ∈ spellings) (hpre : row.1 <+: text) : row.1.length ≤ word.length := by
  obtain ⟨_, before, after, hsplit, hnone⟩ := List.find?_eq_some_iff_append.1 h
  have hsorted := spellings_sorted
  rw [hsplit] at hrow hsorted
  rcases List.mem_append.1 hrow with hb | ha
  · have hfalse := hnone row hb
    rw [List.isPrefixOf_iff_prefix.2 hpre] at hfalse
    cases hfalse
  · rcases List.mem_cons.1 ha with rfl | ha
    · exact Nat.le_refl _
    · have := (List.pairwise_append.1 hsorted).2.1
      exact (List.pairwise_cons.1 this).1 row ha

end Symbol
end SurfaceLanguage
