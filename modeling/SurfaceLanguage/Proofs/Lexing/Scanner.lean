import Mathlib.Data.PFun
import SurfaceLanguage.Lexing.Lex

/-!
# A scanner with a cursor

The lexer once more, as a loop that moves a cursor over the source. Characters are read
by their index and texts by two of them. Nothing keeps a read within the source but the
scanner's own tests, and nothing but they ends a loop. The scanner is therefore a partial
function: with an index out of range it is undefined, and likewise if a loop never ends.
A run leaves a record of all cursors it reached, of the calls and the reads it made, and
of its steps.
-/
namespace SurfaceLanguage.Lexing

/-- The text being read is the one from `start` up to `offset`. -/
structure Cursor where
  start : Nat
  offset : Nat
  line : Nat
  column : Nat
deriving DecidableEq, Repr

def Cursor.forward (c : Cursor) : Cursor :=
  { c with offset := c.offset + 1, column := c.column + 1 }

/-- What is recorded: every cursor that is reached, the cursor of every call of `advance`
and of every slice, and every step with the cursors before and after it and whether it
succeeded. -/
inductive Event where
  | reached (cursor : Cursor)
  | advanced (cursor : Cursor)
  | sliced (cursor : Cursor)
  | stepped (before after : Cursor) (succeeded : Bool)
deriving DecidableEq, Repr

def Event.isStep : Event → Bool
  | .stepped .. => true
  | _ => false

/-- The latest event is the last. -/
structure Scanner where
  source : List Char
  cursor : Cursor
  events : List Event

namespace Scanner

def ofSource (source : List Char) : Scanner := ⟨source, ⟨0, 0, 1, 1⟩, [.reached ⟨0, 0, 1, 1⟩]⟩

def note (s : Scanner) (e : Event) : Scanner := { s with events := s.events ++ [e] }

def moveTo (s : Scanner) (c : Cursor) : Scanner :=
  { s with cursor := c, events := s.events ++ [.reached c] }

/-- How many steps were taken. -/
def steps (s : Scanner) : Nat := s.events.countP Event.isStep

end Scanner

/-- What the scanner does, where it is defined: it fails with an error, or has a result,
and leaves a state either way. -/
abbrev Scan := ExceptT LexError (StateT Scanner Part)

namespace Scan

/-- The character at an index. There is none out of range. -/
def charAt (index : Nat) : Scan Char := fun s =>
  Part.ofOption (s.source[index]?.map fun c => (.ok c, s))

def note (e : Event) : Scan Unit := fun s => .some (.ok (), s.note e)

def moveTo (c : Cursor) : Scan Unit := fun s => .some (.ok (), s.moveTo c)

def cursor : Scan Cursor := fun s => .some (.ok s.cursor, s)

def isAtEnd : Scan Bool := fun s => .some (.ok (s.source.length ≤ s.cursor.offset), s)

/-- The NUL character stands for the end, though a source may hold it too. -/
def peek : Scan Char := do
  if ← isAtEnd then return '\x00'
  else charAt (← cursor).offset

def peekNext : Scan (Option Char) := fun s => .some (.ok s.source[s.cursor.offset + 1]?, s)

def advance : Scan Char := do
  let here ← cursor
  note (.advanced here)
  let c ← charAt here.offset
  moveTo here.forward
  return c

def matchChar (expected : Char) : Scan Bool := do
  if ← isAtEnd then return false
  else
    let here ← cursor
    if (← charAt here.offset) = expected then
      moveTo here.forward
      return true
    else return false

/-- A line break leads to column zero of the next line. -/
def newLine : Scan Unit := do
  let here ← cursor
  moveTo { here with line := here.line + 1, column := 0 }

def lexeme : Scan String := fun s =>
  let here := s.cursor
  if here.start ≤ here.offset ∧ here.offset ≤ s.source.length then
    .some (.ok (String.ofList ((s.source.take here.offset).drop here.start)), s.note (.sliced here))
  else .none

def tokenHere (kind : TokenKind) : Scan Token := do
  let text ← lexeme
  let here ← cursor
  return ⟨kind, text, here.start, here.offset, here.line, here.column⟩

def failHere {α : Type} (cause : LexCause) : Scan α := do
  let here ← cursor
  throw ⟨cause, here.line, here.column⟩

/-- What a round of a loop leads to: the end of the loop, or the next round. -/
def afterRound {α β : Type} :
    Except LexError (β ⊕ α) × Scanner → (Except LexError β × Scanner) ⊕ (α × Scanner)
  | (.ok (.inl b), s) => .inl (.ok b, s)
  | (.ok (.inr a), s) => .inr (a, s)
  | (.error e, s) => .inl (.error e, s)

/-- Does round after round until one of them gives a result or fails. -/
def loop {α β : Type} (round : α → Scan (β ⊕ α)) (a : α) : Scan β := fun s =>
  PFun.fix (fun before => (round before.1 before.2).map afterRound) (a, s)

/-- Does round after round until one of them answers no or fails. -/
def repeatWhile (round : Scan Bool) : Scan Unit :=
  loop (fun _ => do if ← round then return .inr () else return .inl ()) ()

/-- Advances within a string or a comment. -/
def advanceInside : Scan Unit := do
  if (← peek) = '\n' then newLine
  discard advance

def skipLineComment : Scan Unit := repeatWhile do
  if ← isAtEnd then return false
  else if (← peek) = '\n' then return false
  else
    discard advance
    return true

def skipBlockComment : Scan Unit := repeatWhile do
  if ← isAtEnd then failHere .unterminatedComment
  else if (← peek) = '*' ∧ (← peekNext) = some '/' then
    discard advance
    discard advance
    return false
  else
    advanceInside
    return true

def scanString : Scan Unit := repeatWhile do
  if ← isAtEnd then failHere .unterminatedString
  else if (← peek) = '"' then
    discard advance
    return false
  else
    advanceInside
    return true

def advanceWhile (p : Char → Bool) : Scan Unit := repeatWhile do
  if p (← peek) then
    discard advance
    return true
  else return false

/-- A point is read only if a digit follows it. -/
def scanFraction : Scan Unit := do
  if (← peek) = '.' ∧ (← peekNext).any isDigit then
    discard advance
    advanceWhile isDigit

def scanNumber : Scan Unit := do
  advanceWhile isDigit
  scanFraction

def scanWord : Scan TokenKind := do
  advanceWhile isWordPart
  return .ofWord (← lexeme)

/-- The first of the options whose character comes next, or else what the sign is alone. -/
def scanOptions (alone : Symbol) : List (Char × Symbol) → Scan Symbol
  | [] => return alone
  | (c, longer) :: options => do
      if ← matchChar c then return longer
      else scanOptions alone options

/-- The signs, each with the characters that make a longer symbol of it and with the
symbol that it is alone. The slash and the dot are read apart. -/
def signTable : List (Char × List (Char × Symbol) × Symbol) :=
  [('+', [('+', .plusPlus)], .plus), ('-', [('-', .minusMinus), ('>', .arrow)], .minus),
   ('*', [], .star), ('%', [], .percent), ('=', [('=', .equalEqual)], .equal),
   ('!', [('=', .notBang)], .notBang), ('&', [('&', .andAnd)], .bitAnd),
   ('|', [('|', .orOr)], .bitOr), ('>', [('=', .greaterEqual), ('>', .shiftRight)], .greater),
   ('<', [('=', .lessEqual), ('<', .shiftLeft)], .less), (':', [(':', .colonColon)], .colon),
   ('?', [], .question), (',', [], .comma), (';', [], .semicolon), ('(', [], .leftParen),
   (')', [], .rightParen), ('{', [], .leftBrace), ('}', [], .rightBrace),
   ('[', [], .leftBracket), (']', [], .rightBracket), ('$', [], .dollar)]

/-- Two dots that no third follows are a dot. -/
def scanDots : Scan Symbol := do
  if ← matchChar '.' then
    if ← matchChar '.' then return .ellipsis
    else return .dot
  else return .dot

def scanSign (c : Char) : Scan Symbol :=
  if c = '.' then scanDots
  else
    match signTable.lookup c with
    | some (options, alone) => scanOptions alone options
    | none => failHere (.unexpectedCharacter c)

/-- After a slash: a comment, or the slash. -/
def scanSlash : Scan (Option Token) := do
  if ← matchChar '/' then
    skipLineComment
    return none
  else if ← matchChar '*' then
    skipBlockComment
    return none
  else return some (← tokenHere (.symbol .slash))

/-- The rest of a step whose first character was read. White space and comments give no
token. -/
def scanFrom (c : Char) : Scan (Option Token) := do
  if isBlank c then return none
  else if c = '\n' then
    newLine
    return none
  else if c = '/' then scanSlash
  else if isQuote c then
    scanString
    return some (← tokenHere .string)
  else if isDigit c then
    scanNumber
    return some (← tokenHere .number)
  else if isWordStart c then
    let kind ← scanWord
    return some (← tokenHere kind)
  else
    let sign ← scanSign c
    return some (← tokenHere (.symbol sign))

def scanToken : Scan (Option Token) := do
  scanFrom (← advance)

/-- Records a step, whatever comes of it. -/
def step : Scan (Option Token) := fun s =>
  (scanToken s).map fun (result, t) =>
    (result, t.note (.stepped s.cursor t.cursor (result matches .ok _)))

def beginToken : Scan Unit := do
  let here ← cursor
  moveTo { here with start := here.offset }

/-- A step, unless the source is at its end, with the tokens found so far. -/
def scanNext (tokens : List Token) : Scan (List Token ⊕ List Token) := do
  if ← isAtEnd then return .inl tokens
  else
    beginToken
    match ← step with
    | some token => return .inr (tokens ++ [token])
    | none => return .inr tokens

/-- Steps up to the end of the source. -/
def scanAll (tokens : List Token) : Scan (List Token) := loop scanNext tokens

def scanSource : Scan (List Token) := do
  let tokens ← scanAll []
  beginToken
  return tokens ++ [← tokenHere .eof]

end Scan

/-- The answer of the scanner for a source, and the state in which it ends. -/
def scan (source : String) : Part (Except LexError (List Token) × Scanner) :=
  Scan.scanSource (.ofSource source.toList)

end SurfaceLanguage.Lexing
