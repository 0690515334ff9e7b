import SurfaceLanguage.Proofs.Lexing.Positions
import SurfaceLanguage.Proofs.Token.Balance

/-!
# Pieces with and without round brackets

The characters of words and the signs are inert, apart from the slash and the round
brackets. None of them is white space, and none opens a string or a comment. A text of
inert characters therefore has no fault, and every piece of it becomes a token that is no
round bracket. A round bracket itself is a token wherever it stands outside strings and
comments.
-/
namespace SurfaceLanguage.Lexing

/-- A character of words, or a sign other than a slash and a round bracket. -/
def isInert (c : Char) : Bool :=
  isWordPart c || (Symbol.signs.contains c && c != '/' && c != '(' && c != ')')

/-- White space, the quotes, the slash and the round brackets. -/
def separators : List Char := [' ', '\t', '\r', '\n', '"', '\'', '/', '(', ')']

theorem not_inert {c : Char} (h : c ∈ separators) : isInert c = false := by
  have hnone : separators.any isInert = false := by decide
  rw [← Bool.not_eq_true]
  exact List.any_eq_false.1 hnone c h

theorem isInert_of_wordPart {c : Char} (h : isWordPart c = true) : isInert c = true := by
  rw [isInert, h, Bool.true_or]

theorem isInert_of_digit {c : Char} (h : isDigit c = true) : isInert c = true := by
  apply isInert_of_wordPart
  simp only [isDigit] at h
  simp only [isWordPart, Char.isAlphanum, h, Bool.or_true, Bool.true_or]

/-- A token other than a round bracket. -/
def Piece.IsInner (p : Piece) : Prop :=
  ∃ kind, p.kind? = some kind ∧ kind ≠ .symbol .leftParen ∧ kind ≠ .symbol .rightParen

theorem Piece.IsInner.ne_none {p : Piece} (h : p.IsInner) : p.kind? ≠ none := by
  obtain ⟨kind, hkind, -⟩ := h
  rw [hkind]
  exact Option.some_ne_none kind

/-- A symbol is a round bracket only if it is spelled as one. -/
theorem isInner_of_symbol {text : List Char} {s : Symbol} (hrow : (text, s) ∈ Symbol.spellings)
    (hopen : text ≠ ['(']) (hclose : text ≠ [')']) : (Piece.mk (.symbol s) text).IsInner := by
  have hrows : ∀ row ∈ Symbol.spellings,
      (row.2 = .leftParen → row.1 = ['(']) ∧ (row.2 = .rightParen → row.1 = [')']) := by decide
  refine ⟨.symbol s, rfl, ?_, ?_⟩
  · intro hs
    exact hopen ((hrows _ hrow).1 (TokenKind.symbol.inj hs))
  · intro hs
    exact hclose ((hrows _ hrow).2 (TokenKind.symbol.inj hs))

/-- Among inert characters nothing but tokens can be cut. -/
theorem isInner_of_inert {p : Piece} (h : p.shape.Accepts p.text)
    (hinert : ∀ c ∈ p.text, isInert c = true) : p.IsInner := by
  have habsent : ∀ c ∈ separators, c ∉ p.text := by
    intro c hc hmem
    have hfalse := hinert c hmem
    rw [not_inert hc] at hfalse
    cases hfalse
  obtain ⟨shape, text⟩ := p
  cases shape with
  | blank =>
    obtain ⟨c, hc, rfl⟩ := h
    refine absurd List.mem_cons_self (habsent c ?_)
    rcases hc with rfl | rfl | rfl <;> decide
  | lineBreak =>
    obtain rfl := h
    exact absurd List.mem_cons_self (habsent '\n' (by decide))
  | lineComment =>
    obtain ⟨body, -, rfl⟩ := h
    exact absurd List.mem_cons_self (habsent '/' (by decide))
  | blockComment =>
    obtain ⟨body, -, rfl⟩ := h
    exact absurd List.mem_cons_self (habsent '/' (by decide))
  | string =>
    obtain ⟨quote, body, hquote, -, rfl⟩ := h
    refine absurd List.mem_cons_self (habsent quote ?_)
    rcases hquote with rfl | rfl <;> decide
  | number => exact ⟨.number, rfl, TokenKind.noConfusion, TokenKind.noConfusion⟩
  | word =>
    rcases TokenKind.ofWord_cases (String.ofList text) with hword | ⟨k, hword⟩
    · exact ⟨.identifier, congrArg some hword, TokenKind.noConfusion, TokenKind.noConfusion⟩
    · exact ⟨.keyword k, congrArg some hword, TokenKind.noConfusion, TokenKind.noConfusion⟩
  | symbol s =>
    apply isInner_of_symbol (Symbol.mem_texts_iff.1 h)
    · intro htext
      apply habsent '(' (by decide)
      rw [htext]
      exact List.mem_cons_self
    · intro htext
      apply habsent ')' (by decide)
      rw [htext]
      exact List.mem_cons_self

/-- What can be blamed does not begin with an inert character. -/
theorem Blames.not_inert {cause : LexCause} {c : Char} {rest : List Char}
    (h : Blames cause (c :: rest)) : isInert c = false := by
  cases h with
  | unexpected hclass hsign =>
    obtain ⟨-, -, -, hdigit, hstart⟩ := unclassed_iff.1 hclass
    simp only [isDigit] at hdigit
    simp only [isWordStart, Bool.or_eq_false_iff] at hstart
    simp [isInert, isWordPart, Char.isAlphanum, hdigit, hstart, hsign]
  | openString hquote _ =>
    rcases hquote with rfl | rfl <;> decide
  | openComment _ => decide

theorem exists_cuts_of_inert {text : List Char} (h : ∀ c ∈ text, isInert c = true) :
    ∃ pieces, Cuts text pieces [] ∧ ∀ p ∈ pieces, p.IsInner := by
  obtain ⟨pieces, rest, hcuts, hrest⟩ := exists_cuts text
  rw [← hcuts.textOf_append] at h
  obtain ⟨hpieces, hleft⟩ := List.forall_mem_append.1 h
  have hnil : rest = [] := by
    rcases hrest with rfl | ⟨cause, hblames⟩
    · rfl
    · cases rest with
      | nil => rfl
      | cons c rest =>
        have hc := hleft c List.mem_cons_self
        rw [hblames.not_inert] at hc
        cases hc
  rw [hnil] at hcuts
  refine ⟨pieces, hcuts, ?_⟩
  intro p hp
  apply isInner_of_inert (hcuts.wellShaped p hp)
  intro c hc
  exact hpieces c (List.mem_flatMap.2 ⟨p, hp, hc⟩)

/-- The kinds of the tokens that consecutive pieces become. -/
def kindsOf (pieces : List Piece) : List TokenKind := pieces.filterMap Piece.kind?

theorem kindsOf_append (ps qs : List Piece) : kindsOf (ps ++ qs) = kindsOf ps ++ kindsOf qs :=
  List.filterMap_append

theorem map_kind_placed (p : Position) (pieces : List Piece) :
    (placed p pieces).map Token.kind = kindsOf pieces := by
  induction pieces generalizing p with
  | nil => rfl
  | cons piece pieces ih =>
    cases hkind : piece.kind? with
    | none =>
      rw [placed, hkind, kindsOf, List.filterMap_cons_none hkind]
      exact ih (p.after piece)
    | some kind =>
      rw [placed, hkind, kindsOf, List.filterMap_cons_some hkind, List.map_cons]
      exact congrArg (kind :: ·) (ih (p.after piece))

theorem map_kind_stream (pieces : List Piece) :
    (stream pieces).map Token.kind = kindsOf pieces ++ [.eof] := by
  rw [stream, streamFrom, List.map_append, map_kind_placed]
  rfl

theorem balanced_of_inner {pieces : List Piece} (h : ∀ p ∈ pieces, p.IsInner) :
    Balanced (kindsOf pieces) := by
  apply balanced_of_absent
  intro kind hkind
  obtain ⟨p, hp, hsome⟩ := List.mem_filterMap.1 hkind
  obtain ⟨inner, hinner, hopen, hclose⟩ := h p hp
  rw [hsome] at hinner
  rw [Option.some.inj hinner]
  exact ⟨hopen, hclose⟩

/-- No token continues with a closing bracket. -/
theorem grows_closeParen {p : Piece} (h : p.shape.Accepts p.text) (hkind : p.kind? ≠ none) :
    p.grows ')' = false := by
  have hne := text_ne_nil h
  obtain ⟨shape, text⟩ := p
  cases shape with
  | blank => exact absurd rfl hkind
  | lineBreak => exact absurd rfl hkind
  | lineComment => exact absurd rfl hkind
  | blockComment => exact absurd rfl hkind
  | string => rfl
  | number => rfl
  | word => rfl
  | symbol s =>
    have hrows : ∀ row ∈ Symbol.spellings, row.1.getLast? = some ')' → row.1.length = 1 := by
      decide
    simp only [Piece.grows, joins, Bool.or_eq_false_iff, List.any_eq_false, beq_iff_eq]
    refine ⟨?_, by simp⟩
    intro row hrow htext
    have hlength := hrows row hrow (by rw [htext, List.getLast?_concat])
    rw [htext, List.length_append, List.length_singleton] at hlength
    have hnil : text.length = 0 := by omega
    exact hne (List.length_eq_zero_iff.1 hnil)

/-- A round or a square bracket is a token of its own, whatever follows. -/
theorem fits_bracket {c : Char} {s : Symbol} (hc : c ∈ ['(', ')', '[', ']'])
    (hrow : ([c], s) ∈ Symbol.spellings) (rest : List Char) :
    Piece.Fits ⟨.symbol s, [c]⟩ rest := by
  have hslash : c ≠ '/' := by
    rintro rfl
    exact absurd hc (by decide)
  have honly : ∀ row ∈ Symbol.spellings, row.1.head? = some c → row.1.tail ∈ [[]] := by
    rintro ⟨text, u⟩ hmem hhead
    obtain ⟨tail, rfl⟩ := List.head?_eq_some_iff.1 hhead
    rw [List.mem_singleton]
    exact Symbol.eq_nil_of_alone (List.mem_cons_of_mem _ hc) hmem
  exact fits_symbol hrow fun d _ => joins_eq_false hslash honly (by simp)

def openPiece : Piece := ⟨.symbol .leftParen, ['(']⟩

def closePiece : Piece := ⟨.symbol .rightParen, [')']⟩

theorem fits_openPiece (rest : List Char) : openPiece.Fits rest :=
  fits_bracket (by decide) (by decide) rest

theorem fits_closePiece (rest : List Char) : closePiece.Fits rest :=
  fits_bracket (by decide) (by decide) rest

theorem kindsOf_group (inner : List Piece) :
    kindsOf (openPiece :: (inner ++ [closePiece])) =
      .symbol .leftParen :: (kindsOf inner ++ [.symbol .rightParen]) := by
  have htail := kindsOf_append inner [closePiece]
  exact congrArg (TokenKind.symbol .leftParen :: ·) htail

end SurfaceLanguage.Lexing
