import SurfaceLanguage.Proofs.Lexing.Continuation
import SurfaceLanguage.Proofs.Lexing.Exchange

/-!
# Lexing line by line

A source can be lexed in two parts that meet at a line break, because a line break ends
whatever piece stands before it. The second part is read as if it began a source of its
own, further down: its offsets and its lines move by what stands above, and so does its
first column, since a source starts in column one and a later line in column zero. Columns
of its later lines stay.
-/
namespace SurfaceLanguage.Lexing

/-- What a column becomes when its source is put below another: one less on the first line,
the same on every other. -/
def columnBelow (line column : Nat) : Nat := if line = 1 then column - 1 else column

/-- A place in a source, seen from one that has this many characters and lines above. -/
def Position.below (p : Position) (offset lines : Nat) : Position :=
  ⟨p.offset + offset, p.line + lines, columnBelow p.line p.column⟩

/-- A token of a source, seen from one that has this many characters and lines above. -/
def tokenBelow (offset lines : Nat) (t : Token) : Token :=
  ⟨t.kind, t.lexeme, ⟨t.span.start + offset, t.span.stop + offset, t.line + lines,
    columnBelow t.line t.column⟩⟩

def errorBelow (lines : Nat) (e : LexError) : LexError :=
  ⟨e.cause, e.line + lines, columnBelow e.line e.column⟩

/-- Below a line break a source is read on from column zero of the next line. -/
theorem Position.below_eq_beyond (p : Position) (offset lines : Nat) :
    p.below offset lines = p.beyond ⟨offset, lines + 1, 0⟩ := by
  simp only [below, beyond, columnBelow, mk.injEq]
  refine ⟨by omega, by omega, ?_⟩
  rw [Nat.zero_add]

theorem Position.afterAll_below {p : Position} (h : p.IsProper) (offset lines : Nat)
    (pieces : List Piece) :
    (p.below offset lines).afterAll pieces = (p.afterAll pieces).below offset lines := by
  rw [below_eq_beyond, below_eq_beyond, afterAll_beyond h]

theorem tokenBelow_eq_tokenBeyond (offset lines : Nat) :
    tokenBelow offset lines = tokenBeyond ⟨offset, lines + 1, 0⟩ := by
  funext t
  rw [tokenBeyond, ← Position.below_eq_beyond, Nat.add_comm offset]
  rfl

/-- The tokens of a source that is put below another. -/
theorem streamFrom_below (offset lines : Nat) (pieces : List Piece) :
    streamFrom (Position.start.below offset lines) pieces =
      (stream pieces).map (tokenBelow offset lines) := by
  rw [Position.below_eq_beyond, Position.start_beyond, streamFrom_eq_map_stream,
    tokenBelow_eq_tokenBeyond]

theorem error_below {p : Position} (h : p.IsProper) (offset lines : Nat) (f : Fault) :
    f.error (p.below offset lines) = errorBelow lines (f.error p) := by
  rw [Fault.error, Position.below_eq_beyond, Position.past_beyond h,
    ← Position.below_eq_beyond]
  rfl

/-- Behind a line break a source starts anew, below what was read. -/
theorem after_lineBreak_eq_below (p : Position) :
    p.after ⟨.lineBreak, ['\n']⟩ = Position.start.below (p.offset + 1) p.line := by
  rw [Position.after_lineBreak p rfl]
  simp [Position.start, Position.below, columnBelow, Nat.add_comm]

/-- The cutting of two sources with a line break between them. -/
theorem Cuts.lineBreak {a b : String} {rest : List Char} {ps qs : List Piece}
    (hps : Cuts a.toList ps []) (hqs : Cuts b.toList qs rest) :
    Cuts (a ++ "\n" ++ b).toList (ps ++ ⟨.lineBreak, ['\n']⟩ :: qs) rest := by
  have hfirst := hps.resume (resumes_lineBreak [] b.toList)
  have hbreak : Piece.Fits ⟨.lineBreak, ['\n']⟩ b.toList :=
    ⟨rfl, Piece.stops_of_closed _ (by simp)⟩
  have htext : textOf ps = a.toList := by simpa using hps.textOf_append
  have hboth := (htext ▸ hfirst).append (.cons_of_fits hbreak hqs)
  simpa using hboth

/-- Where the second of two sources starts. -/
theorem after_lineBreak_of_cuts {text : List Char} {pieces : List Piece} (h : Cuts text pieces []) :
    (Position.start.afterAll pieces).after ⟨.lineBreak, ['\n']⟩ =
      Position.start.below (text.length + 1) (Position.start.afterAll pieces).line := by
  have htext : textOf pieces = text := by simpa using h.textOf_append
  rw [after_lineBreak_eq_below, Position.offset_afterAll _ h.wellShaped, htext]
  simp [Position.start]

theorem proper_errorAfter (pieces : List Piece) (cause : LexCause) (rest : List Char) :
    Proper (errorAfter pieces cause rest).line (errorAfter pieces cause rest).column :=
  (Position.isProper_start.afterAll pieces).past (cause.blamed rest)

section Composed
variable {a b : String} {ps qs : List Piece}

theorem lex_of_cuts_lines (hps : Cuts a.toList ps []) (hqs : Cuts b.toList qs []) :
    lex (a ++ "\n" ++ b) = .ok (placed .start ps ++
      (stream qs).map (tokenBelow (a.length + 1) (Position.start.afterAll ps).line)) := by
  rw [lex_of_cuts (hps.lineBreak hqs), stream, streamFrom_append,
    streamFrom_of_trivia rfl, after_lineBreak_of_cuts hps,
    streamFrom_below, String.length_toList]

theorem lex_of_blames_lines {rest : List Char} {cause : LexCause} (hps : Cuts a.toList ps [])
    (hqs : Cuts b.toList qs rest) (hblames : Blames cause rest) :
    lex (a ++ "\n" ++ b) =
      .error (errorBelow (Position.start.afterAll ps).line (errorAfter qs cause rest)) := by
  rw [lex_of_blames (hps.lineBreak hqs) hblames, errorAfter,
    Position.afterAll_append, Position.afterAll_cons, after_lineBreak_of_cuts hps,
    Position.afterAll_below Position.isProper_start,
    error_below (Position.isProper_start.afterAll qs)]
  rfl

end Composed

/-- Line-wise composition. Where the first of two sources has no error, the second is read
behind a line break as it is read alone, but for its place: offsets move by the first text
and the line break, lines by the line the first text ends on, and the column by one on the
second source's first line, where it is never zero. -/
theorem lex_lines (a b : String) (ts : List Token) (eof : Token)
    (h : lex a = .ok (ts ++ [eof])) :
    (∀ us, lex b = .ok us →
      lex (a ++ "\n" ++ b) = .ok (ts ++ us.map (tokenBelow (a.length + 1) eof.line)) ∧
        ∀ u ∈ us, Proper u.line u.column) ∧
    ∀ e, lex b = .error e →
      lex (a ++ "\n" ++ b) = .error (errorBelow eof.line e) ∧ Proper e.line e.column := by
  obtain ⟨ps, hps, htokens⟩ := lex_eq_ok_iff.1 h
  obtain ⟨rfl, heof⟩ := List.append_inj' htokens rfl
  obtain rfl := List.singleton_inj.1 heof
  constructor
  · intro us hus
    obtain ⟨qs, hqs, rfl⟩ := lex_eq_ok_iff.1 hus
    exact ⟨lex_of_cuts_lines hps hqs, fun u hu => proper_of_mem_stream hu⟩
  · intro e he
    obtain ⟨qs, cause, rest, hqs, hblames, rfl⟩ := lex_eq_error_iff.1 he
    exact ⟨lex_of_blames_lines hps hqs hblames, proper_errorAfter qs cause rest⟩

/-- The line comment ends at the break, and the second line of the second source keeps its
column. Behind the same first source a string that is never closed is an error further down. -/
theorem lex_lines_behind_comment :
    lex "1//" = .ok ([⟨.number, "1", ⟨0, 1, 1, 2⟩⟩] ++ [⟨.eof, "", ⟨3, 3, 1, 4⟩⟩]) ∧
    (lex ("1//" ++ "\n" ++ "a\nb") = .ok ([⟨.number, "1", ⟨0, 1, 1, 2⟩⟩] ++
        [⟨.identifier, "a", ⟨4, 5, 2, 1⟩⟩, ⟨.identifier, "b", ⟨6, 7, 3, 1⟩⟩,
          ⟨.eof, "", ⟨7, 7, 3, 1⟩⟩]) ∧
      ∀ u ∈ [(⟨.identifier, "a", ⟨0, 1, 1, 2⟩⟩ : Token), ⟨.identifier, "b", ⟨2, 3, 2, 1⟩⟩,
        ⟨.eof, "", ⟨3, 3, 2, 1⟩⟩], Proper u.line u.column) ∧
    lex ("1//" ++ "\n" ++ "'") = .error ⟨.unterminatedString, 2, 1⟩ ∧ Proper 1 2 := by
  have hfirst : lex "1//" =
      .ok ([⟨.number, "1", ⟨0, 1, 1, 2⟩⟩] ++ [⟨.eof, "", ⟨3, 3, 1, 4⟩⟩]) := by
    with_unfolding_all rfl
  have hsecond : lex "a\nb" = .ok [⟨.identifier, "a", ⟨0, 1, 1, 2⟩⟩,
      ⟨.identifier, "b", ⟨2, 3, 2, 1⟩⟩, ⟨.eof, "", ⟨3, 3, 2, 1⟩⟩] := by with_unfolding_all rfl
  have herror : lex "'" = .error ⟨.unterminatedString, 1, 2⟩ := by with_unfolding_all rfl
  exact ⟨hfirst, (lex_lines _ _ _ _ hfirst).1 _ hsecond, (lex_lines _ _ _ _ hfirst).2 _ herror⟩

end SurfaceLanguage.Lexing
