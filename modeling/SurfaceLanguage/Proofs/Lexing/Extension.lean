import SurfaceLanguage.Proofs.Lexing.Exchange

/-!
# Sources that go on

A source that ends in an open string or in an open comment is not finished, and its
closing mark mends it. A source with an unexpected character is wrong, and whatever
follows leaves its error as it is. In both cases the pieces before the fault keep their
places, because no fault begins with a point and so none can become a fraction.
-/
namespace SurfaceLanguage.Lexing

theorem Blames.front_ne_point {cause : LexCause} {text : List Char} (h : Blames cause text) :
    ∃ c rest, text = c :: rest ∧ c ≠ '.' := by
  cases h with
  | @unexpected c rest _ hsign =>
    refine ⟨c, rest, rfl, ?_⟩
    intro hc
    rw [hc] at hsign
    exact hsign (by decide)
  | @openString quote rest hquote _ =>
    refine ⟨quote, rest, rfl, ?_⟩
    intro hc
    rw [hc] at hquote
    exact absurd hquote (by decide)
  | @openComment rest _ => exact ⟨'/', '*' :: rest, rfl, by decide⟩

/-- The pieces before a fault stay when the source goes on. -/
theorem Cuts.extend {text rest : List Char} {pieces : List Piece} {cause : LexCause}
    (h : Cuts text pieces rest) (hblames : Blames cause rest) (more : List Char) :
    Cuts (text ++ more) pieces (rest ++ more) := by
  obtain ⟨c, tail, rfl, hc⟩ := hblames.front_ne_point
  exact h.resume_append (resumes_append tail more hc)

theorem Blames.append_of_unexpected {c : Char} {rest : List Char}
    (h : Blames (.unexpectedCharacter c) rest) (more : List Char) :
    Blames (.unexpectedCharacter c) (rest ++ more) := by
  cases h with
  | unexpected hclass hsign => exact .unexpected hclass hsign

/-- An open string becomes a piece when a quote closes it. -/
theorem Blames.fits_string {rest : List Char} (h : Blames .unterminatedString rest) :
    Piece.Fits ⟨.string, rest ++ ['"']⟩ [] := by
  cases h with
  | openString hquote hopen =>
    exact ⟨⟨_, _, hquote, hopen, rfl⟩, Piece.stops_of_closed _ (by simp)⟩

/-- Behind a text without the closing mark the mark stands for the first time, even if the
text ends in a star. -/
theorem closesOnlyAtEnd_append {text : List Char} (h : ¬ ['*', '/'] <:+: text) :
    ClosesOnlyAtEnd (text ++ ['*', '/']) := by
  induction text with
  | nil => exact closesOnlyAtEnd_mark
  | cons c text ih =>
    have htext : ¬ ['*', '/'] <:+: text := fun hmark => h (List.infix_cons hmark)
    refine closesOnlyAtEnd_cons (ih htext) ?_
    rintro rfl hslash
    cases text with
    | nil => simp at hslash
    | cons d text =>
      obtain rfl : d = '/' := by simpa using hslash
      exact h ⟨[], text, rfl⟩

/-- An open comment becomes a piece when its mark closes it. -/
theorem Blames.fits_blockComment {rest : List Char} (h : Blames .unterminatedComment rest) :
    Piece.Fits ⟨.blockComment, rest ++ ['*', '/']⟩ [] := by
  cases h with
  | openComment hopen =>
    exact ⟨⟨_, closesOnlyAtEnd_append hopen, rfl⟩, Piece.stops_of_closed _ (by simp)⟩

/-- A fault that is closed by a mark becomes the last piece of the source. -/
theorem Cuts.close {text rest mark : List Char} {pieces : List Piece} {cause : LexCause}
    {shape : Shape} (h : Cuts text pieces rest) (hblames : Blames cause rest)
    (hfits : Piece.Fits ⟨shape, rest ++ mark⟩ []) :
    Cuts (text ++ mark) (pieces ++ [⟨shape, rest ++ mark⟩]) [] := by
  have hlast : Cuts (rest ++ mark) [⟨shape, rest ++ mark⟩] [] := by
    simpa using Cuts.cons_of_fits hfits (.nil [])
  exact (h.extend hblames mark).append hlast

/-- Where a source ends whose fault was closed by a mark: past the mark on the line of the
error. -/
theorem position_after_close (p : Position) {shape : Shape} (rest : List Char) {mark : List Char}
    (hshape : shape ≠ .lineBreak) (hmark : '\n' ∉ mark) :
    (p.after ⟨shape, rest ++ mark⟩).line = (p.past rest).line ∧
      (p.after ⟨shape, rest ++ mark⟩).column = (p.past rest).column + mark.length := by
  rw [Position.after_of_ne_lineBreak p hshape, Position.past_append]
  refine ⟨?_, Position.column_past _ hmark⟩
  rw [Position.line_past, List.count_eq_zero_of_not_mem hmark, Nat.add_zero]

/-- An unexpected character stays the error. -/
theorem lex_append_of_unexpected {source : String} {pieces : List Piece} {rest : List Char}
    {c : Char} (h : Cuts source.toList pieces rest) (hblames : Blames (.unexpectedCharacter c) rest)
    (more : String) :
    lex (source ++ more) = .error (errorAfter pieces (.unexpectedCharacter c) rest) := by
  have hcuts := h.extend hblames more.toList
  rw [← String.toList_append] at hcuts
  rw [lex_of_blames hcuts (hblames.append_of_unexpected more.toList)]
  cases hblames with
  | unexpected _ _ => rfl

/-- A quote makes the open string the last token. -/
theorem lex_append_quote {source : String} {pieces : List Piece} {rest : List Char}
    (h : Cuts source.toList pieces rest) (hblames : Blames .unterminatedString rest) :
    ∃ tokens string eof, lex (source ++ "\"") = .ok (tokens ++ [string, eof]) ∧
      string.kind = .string ∧ string.span.stop = source.length + 1 ∧
      string.line = (errorAfter pieces .unterminatedString rest).line ∧
      string.column = (errorAfter pieces .unterminatedString rest).column + 1 ∧
      eof.kind = .eof ∧ eof.line = (errorAfter pieces .unterminatedString rest).line ∧
      eof.column = (errorAfter pieces .unterminatedString rest).column + 1 := by
  have hcuts := h.close hblames hblames.fits_string
  rw [show ['"'] = "\"".toList from rfl, ← String.toList_append] at hcuts
  have hlex := lex_of_cuts hcuts
  rw [stream, streamFrom_append, streamFrom_of_token rfl] at hlex
  have hstring : Shape.string ≠ .lineBreak := by decide
  have hquote : '\n' ∉ ['"'] := by decide
  obtain ⟨hline, hcolumn⟩ :=
    position_after_close (Position.start.afterAll pieces) rest hstring hquote
  refine ⟨_, _, _, hlex, rfl, ?_, hline, hcolumn, rfl, hline, hcolumn⟩
  change ((Position.start.afterAll pieces).after ⟨.string, rest ++ ['"']⟩).offset = _
  rw [Position.offset_after _ hblames.fits_string.accepts,
    Position.offset_afterAll _ h.wellShaped, ← String.length_toList, ← h.textOf_append]
  simp [Position.start, Nat.add_assoc]

/-- The closing mark ends the source behind the open comment. -/
theorem lex_append_mark {source : String} {pieces : List Piece} {rest : List Char}
    (h : Cuts source.toList pieces rest) (hblames : Blames .unterminatedComment rest) :
    ∃ tokens eof, lex (source ++ "*/") = .ok (tokens ++ [eof]) ∧ eof.kind = .eof ∧
      eof.line = (errorAfter pieces .unterminatedComment rest).line ∧
      eof.column = (errorAfter pieces .unterminatedComment rest).column + 2 := by
  have hcuts := h.close hblames hblames.fits_blockComment
  rw [show ['*', '/'] = "*/".toList from rfl, ← String.toList_append] at hcuts
  have hlex := lex_of_cuts hcuts
  rw [stream, streamFrom_append, streamFrom_of_trivia rfl] at hlex
  have hcomment : Shape.blockComment ≠ .lineBreak := by decide
  have hmark : '\n' ∉ ['*', '/'] := by decide
  obtain ⟨hline, hcolumn⟩ :=
    position_after_close (Position.start.afterAll pieces) rest hcomment hmark
  exact ⟨_, _, hlex, rfl, hline, hcolumn⟩

/-- Errors under extension. An unexpected character stays the error whatever follows. A
quote closes an open string, which becomes the last token, and `*/` closes an open comment;
the end of the source is then where the error was, past the closing mark. So the sources
in error that some text can still mend are those without an unexpected character. -/
theorem error_under_extension (source : String) (e : LexError) (h : lex source = .error e) :
    (∀ c, e.cause = .unexpectedCharacter c → ∀ more, lex (source ++ more) = .error e) ∧
    (e.cause = .unterminatedString → ∃ tokens string eof,
      lex (source ++ "\"") = .ok (tokens ++ [string, eof]) ∧
        string.kind = .string ∧ string.span.stop = source.length + 1 ∧
        string.line = e.line ∧ string.column = e.column + 1 ∧
        eof.kind = .eof ∧ eof.line = e.line ∧ eof.column = e.column + 1) ∧
    (e.cause = .unterminatedComment → ∃ tokens eof,
      lex (source ++ "*/") = .ok (tokens ++ [eof]) ∧
        eof.kind = .eof ∧ eof.line = e.line ∧ eof.column = e.column + 2) ∧
    ((∃ more tokens, lex (source ++ more) = .ok tokens) ↔
      ∀ c, e.cause ≠ .unexpectedCharacter c) := by
  obtain ⟨pieces, cause, rest, hcuts, hblames, rfl⟩ := lex_eq_error_iff.1 h
  rw [cause_errorAfter]
  cases cause with
  | unexpectedCharacter c =>
    have hstays := lex_append_of_unexpected hcuts hblames
    refine ⟨fun _ _ => hstays, nofun, nofun, ?_⟩
    constructor
    · rintro ⟨more, tokens, hlex⟩
      rw [hstays more] at hlex
      cases hlex
    · intro hnone
      exact absurd rfl (hnone c)
  | unterminatedString =>
    have hclosed := lex_append_quote hcuts hblames
    refine ⟨nofun, fun _ => hclosed, nofun, fun _ => nofun, fun _ => ?_⟩
    obtain ⟨tokens, string, eof, hlex, -⟩ := hclosed
    exact ⟨_, _, hlex⟩
  | unterminatedComment =>
    have hclosed := lex_append_mark hcuts hblames
    refine ⟨nofun, nofun, fun _ => hclosed, fun _ => nofun, fun _ => ?_⟩
    obtain ⟨tokens, eof, hlex, -⟩ := hclosed
    exact ⟨_, _, hlex⟩

/-- An unexpected character stays, with whatever would be an error behind it. A quote
closes a string that runs over a line break. The closing mark does its work behind a star
and in front of the slash that an open comment began with. -/
theorem error_under_extension_of_three :
    lex "a\n@" = .error ⟨.unexpectedCharacter '@', 2, 1⟩ ∧
      lex ("a\n@" ++ "'") = .error ⟨.unexpectedCharacter '@', 2, 1⟩ ∧
    lex "x '\n" = .error ⟨.unterminatedString, 2, 1⟩ ∧
      (∃ tokens string eof, lex ("x '\n" ++ "\"") = .ok (tokens ++ [string, eof]) ∧
        string.kind = .string ∧ string.span.stop = "x '\n".length + 1 ∧ string.line = 2 ∧
        string.column = 2 ∧ eof.kind = .eof ∧ eof.line = 2 ∧ eof.column = 2) ∧
    lex "/*/ *" = .error ⟨.unterminatedComment, 1, 6⟩ ∧
      ∃ tokens eof, lex ("/*/ *" ++ "*/") = .ok (tokens ++ [eof]) ∧ eof.kind = .eof ∧
        eof.line = 1 ∧ eof.column = 8 := by
  have hcharacter : lex "a\n@" = .error ⟨.unexpectedCharacter '@', 2, 1⟩ := by
    with_unfolding_all rfl
  have hstring : lex "x '\n" = .error ⟨.unterminatedString, 2, 1⟩ := by with_unfolding_all rfl
  have hcomment : lex "/*/ *" = .error ⟨.unterminatedComment, 1, 6⟩ := by with_unfolding_all rfl
  exact ⟨hcharacter, (error_under_extension _ _ hcharacter).1 '@' rfl "'",
    hstring, (error_under_extension _ _ hstring).2.1 rfl,
    hcomment, (error_under_extension _ _ hcomment).2.2.1 rfl⟩

end SurfaceLanguage.Lexing
