import SurfaceLanguage.Lexing.Error
import SurfaceLanguage.Lexing.Grammar

/-!
# Cutting a source into pieces

`cut` takes one piece off the front of a nonempty text, or finds that none can
be taken. It looks at most two characters past the piece it takes. The whole
source is cut from left to right, and the first fault ends the work.

Characters are told apart by ASCII tests. A character that meets none of them and
begins no symbol is legal only inside a comment or a string.
-/
namespace SurfaceLanguage.Lexing

/-- The white space that keeps to its line. -/
def isBlank (c : Char) : Bool := c == ' ' || c == '\t' || c == '\r'

/-- Either quote opens a string. -/
def isQuote (c : Char) : Bool := c == '"' || c == '\''

/-- The ASCII digits. -/
def isDigit (c : Char) : Bool := c.isDigit

/-- The ASCII letters and the underscore. -/
def isWordStart (c : Char) : Bool := c.isAlpha || c == '_'

/-- What may follow the start of a word: the same characters, and digits. -/
def isWordPart (c : Char) : Bool := c.isAlphanum || c == '_'

/-- A fault covers the characters that were read before it was noticed. -/
structure Fault where
  cause : LexCause
  text : List Char
deriving DecidableEq, Repr

/-- One step: a piece and what follows it, or a fault. -/
inductive Step where
  | piece (taken : Piece) (rest : List Char)
  | fault (found : Fault)
deriving DecidableEq, Repr

/-- Splits a text just after its first double quote. -/
def closeString : List Char → Option (List Char × List Char)
  | [] => none
  | '"' :: rest => some (['"'], rest)
  | c :: rest => (closeString rest).map fun (body, after) => (c :: body, after)

/-- Splits a text just after the first star with a slash behind it. Comments do
not nest. -/
def closeComment : List Char → Option (List Char × List Char)
  | [] => none
  | '*' :: '/' :: rest => some (['*', '/'], rest)
  | c :: rest => (closeComment rest).map fun (body, after) => (c :: body, after)

/-- The fraction at the front of a text: a point with at least one digit behind
it. Without one the fraction is empty, and a point stays where it is. -/
def fraction : List Char → List Char
  | '.' :: rest => if rest.takeWhile isDigit = [] then [] else '.' :: rest.takeWhile isDigit
  | _ => []

/-- The piece of a given shape that is the first `text.length` characters. -/
def Step.take (shape : Shape) (text whole : List Char) : Step :=
  .piece ⟨shape, text⟩ (whole.drop text.length)

/-- A string, after its opening quote. Only the double quote closes one. -/
def cutString (quote : Char) (rest : List Char) : Step :=
  match closeString rest with
  | some (body, after) => .piece ⟨.string, quote :: body⟩ after
  | none => .fault ⟨.unterminatedString, quote :: rest⟩

/-- A block comment, after its two opening characters. -/
def cutBlockComment (rest : List Char) : Step :=
  match closeComment rest with
  | some (body, after) => .piece ⟨.blockComment, '/' :: '*' :: body⟩ after
  | none => .fault ⟨.unterminatedComment, '/' :: '*' :: rest⟩

/-- A number at the front of a text that starts with a digit. -/
def cutNumber (text : List Char) : Step :=
  let whole := text.takeWhile isDigit
  .take .number (whole ++ fraction (text.drop whole.length)) text

/-- The longest symbol, for a character that starts nothing else. -/
def cutSymbol (c : Char) (rest : List Char) : Step :=
  match Symbol.read? (c :: rest) with
  | some (text, sign) => .take (.symbol sign) text (c :: rest)
  | none => .fault ⟨.unexpectedCharacter c, [c]⟩

/-- One piece off the front of a text, given as its first character and the
others. Comments come before the symbol they begin with. -/
def cut : Char → List Char → Step
  | '/', '/' :: rest =>
      .take .lineComment ('/' :: '/' :: rest.takeWhile (· != '\n')) ('/' :: '/' :: rest)
  | '/', '*' :: rest => cutBlockComment rest
  | c, rest =>
      if isBlank c then .piece ⟨.blank, [c]⟩ rest
      else if c = '\n' then .piece ⟨.lineBreak, [c]⟩ rest
      else if isQuote c then cutString c rest
      else if isDigit c then cutNumber (c :: rest)
      else if isWordStart c then .take .word (c :: rest.takeWhile isWordPart) (c :: rest)
      else cutSymbol c rest

theorem closeString_append {text body after : List Char}
    (h : closeString text = some (body, after)) : body ++ after = text := by
  fun_induction closeString text generalizing body after with
  | case1 => cases h
  | case2 rest => cases h; rfl
  | case3 c rest _ ih =>
    obtain ⟨⟨b, a⟩, hb, heq⟩ := Option.map_eq_some_iff.1 h
    cases heq
    simp [ih hb]

theorem closeComment_append {text body after : List Char}
    (h : closeComment text = some (body, after)) : body ++ after = text := by
  fun_induction closeComment text generalizing body after with
  | case1 => cases h
  | case2 rest => cases h; rfl
  | case3 c rest _ ih =>
    obtain ⟨⟨b, a⟩, hb, heq⟩ := Option.map_eq_some_iff.1 h
    cases heq
    simp [ih hb]

theorem fraction_prefix (text : List Char) : fraction text <+: text := by
  fun_cases fraction text
  · exact List.nil_prefix
  · exact List.cons_prefix_cons.2 ⟨rfl, List.takeWhile_prefix _⟩
  · exact List.nil_prefix

/-- A step that takes a piece takes it off the front and never takes nothing. -/
def Step.Splits (text : List Char) : Step → Prop
  | .piece taken rest => taken.text ≠ [] ∧ taken.text ++ rest = text
  | .fault _ => True

theorem Step.splits_take {shape : Shape} {text whole : List Char} (hne : text ≠ [])
    (hpre : text <+: whole) : (Step.take shape text whole).Splits whole :=
  ⟨hne, (List.prefix_iff_eq_append.1 hpre)⟩

theorem cutString_splits (c : Char) (rest : List Char) :
    (cutString c rest).Splits (c :: rest) := by
  unfold cutString
  split
  · next h => exact ⟨List.cons_ne_nil _ _, congrArg (c :: ·) (closeString_append h)⟩
  · trivial

theorem cutBlockComment_splits (rest : List Char) :
    (cutBlockComment rest).Splits ('/' :: '*' :: rest) := by
  unfold cutBlockComment
  split
  · next h =>
      exact ⟨List.cons_ne_nil _ _, congrArg (fun t => '/' :: '*' :: t) (closeComment_append h)⟩
  · trivial

theorem cutNumber_splits {c : Char} (rest : List Char) (h : isDigit c = true) :
    (cutNumber (c :: rest)).Splits (c :: rest) := by
  unfold cutNumber
  apply Step.splits_take
  · simp [h]
  · have hpre := List.takeWhile_prefix isDigit (l := c :: rest)
    obtain ⟨after, hafter⟩ := fraction_prefix
      ((c :: rest).drop ((c :: rest).takeWhile isDigit).length)
    refine ⟨after, ?_⟩
    rw [List.append_assoc, hafter]
    exact List.prefix_iff_eq_append.1 hpre

theorem cutSymbol_splits (c : Char) (rest : List Char) :
    (cutSymbol c rest).Splits (c :: rest) := by
  unfold cutSymbol
  split
  · next h =>
      obtain ⟨hrow, hpre⟩ := Symbol.read?_eq_some h
      exact Step.splits_take (Symbol.spelling_ne_nil hrow) hpre
  · trivial

theorem cut_splits (c : Char) (rest : List Char) : (cut c rest).Splits (c :: rest) := by
  fun_cases cut c rest
  · exact Step.splits_take (List.cons_ne_nil _ _) (by simp [List.takeWhile_prefix])
  · exact cutBlockComment_splits _
  · exact ⟨List.cons_ne_nil _ _, rfl⟩
  · exact ⟨List.cons_ne_nil _ _, rfl⟩
  · exact cutString_splits _ _
  · exact cutNumber_splits _ ‹_›
  · exact Step.splits_take (List.cons_ne_nil _ _) (by simp [List.takeWhile_prefix])
  · exact cutSymbol_splits _ _

/-- What follows a piece is shorter than what the piece was taken from. -/
theorem length_le_of_cut {c : Char} {text rest : List Char} {p : Piece}
    (h : cut c text = .piece p rest) : rest.length ≤ text.length := by
  have hsplits := cut_splits c text
  rw [h] at hsplits
  have hlength := congrArg List.length hsplits.2
  have hpos := List.length_pos_iff.2 hsplits.1
  simp only [List.length_append, List.length_cons] at hlength
  omega

/-- A whole source as pieces, up to the first fault. -/
structure Cutting where
  pieces : List Piece
  fault? : Option Fault
deriving DecidableEq, Repr

def Cutting.cons (p : Piece) (c : Cutting) : Cutting := ⟨p :: c.pieces, c.fault?⟩

/-- Cuts until nothing is left or a fault is found. -/
def cutAll : List Char → Cutting
  | [] => ⟨[], none⟩
  | c :: text =>
      match _ : cut c text with
      | .piece p rest => (cutAll rest).cons p
      | .fault found => ⟨[], some found⟩
termination_by text => text.length
decreasing_by
  have := length_le_of_cut ‹cut c text = _›
  simp only [List.length_cons]
  omega

end SurfaceLanguage.Lexing
