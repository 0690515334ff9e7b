import SurfaceLanguage.Proofs.Lexing.Continuation
import SurfaceLanguage.Proofs.Lexing.Exchange

/-!
# Cutting a source where a token ends

A source can be cut in two at the end of any of its tokens, and each part is lexed on its
own: the first into the tokens up to there, the second into the tokens behind. The first
part keeps every place. The second is read from the start of a source, so its places are
counted from the end of that token.
-/
namespace SurfaceLanguage.Lexing

/-- A token as it stands in the source that begins where `t` ends. -/
def tokenSince (t u : Token) : Token where
  kind := u.kind
  lexeme := u.lexeme
  span :=
    { start := u.span.start - t.span.stop
      stop := u.span.stop - t.span.stop
      line := u.line - t.line + 1
      column := if u.line = t.line then u.column - t.column + 1 else u.column }

/-- A token has its place behind the end of another, so none of the differences between
their places is cut off at zero. -/
structure Follows (t u : Token) : Prop where
  start_le : t.span.stop ≤ u.span.start
  stop_le : t.span.stop ≤ u.span.stop
  line_le : t.line ≤ u.line
  column_le : u.line = t.line → t.column ≤ u.column

section Since
variable {kind : TokenKind} {text : List Char} {p base : Position} {u : Token}

/-- The line that a source is read on from is the first of what follows. -/
theorem line_tokenBeyond_eq_iff (h : Proper u.line u.column) :
    (tokenBeyond base u).line = base.line ↔ u.line = 1 := by
  have hline := h.line_pos
  change base.line + u.line - 1 = base.line ↔ u.line = 1
  omega

theorem column_tokenBeyond_first (h : u.line = 1) :
    (tokenBeyond base u).column = base.column + u.column - 1 := if_pos h

theorem column_tokenBeyond_later (h : u.line ≠ 1) : (tokenBeyond base u).column = u.column :=
  if_neg h

/-- Counting from the end of a token undoes reading on from there. -/
theorem tokenSince_tokenBeyond (h : Proper u.line u.column) :
    tokenSince (tokenBetween kind text p base) (tokenBeyond base u) = u := by
  have hfirst : (tokenBeyond base u).line = base.line ↔ u.line = 1 := line_tokenBeyond_eq_iff h
  have hcolumn : (if (tokenBeyond base u).line = base.line then
      (tokenBeyond base u).column - base.column + 1 else (tokenBeyond base u).column) =
        u.column := by
    by_cases hone : u.line = 1
    · have hpos := h.column_pos hone
      rw [if_pos (hfirst.2 hone), column_tokenBeyond_first hone]
      omega
    · rw [if_neg (fun hsame => hone (hfirst.1 hsame)), column_tokenBeyond_later hone]
  have hline : base.line + u.line - 1 - base.line + 1 = u.line := by
    have hpos := h.line_pos
    omega
  calc tokenSince (tokenBetween kind text p base) (tokenBeyond base u)
      = ⟨u.kind, u.lexeme, ⟨base.offset + u.span.start - base.offset,
          base.offset + u.span.stop - base.offset, base.line + u.line - 1 - base.line + 1,
          if (tokenBeyond base u).line = base.line then
            (tokenBeyond base u).column - base.column + 1
          else (tokenBeyond base u).column⟩⟩ := rfl
    _ = ⟨u.kind, u.lexeme, ⟨u.span.start, u.span.stop, u.line, u.column⟩⟩ := by
        rw [Nat.add_sub_cancel_left, Nat.add_sub_cancel_left, hline, hcolumn]
    _ = u := rfl

theorem follows_tokenBeyond (h : Proper u.line u.column) :
    Follows (tokenBetween kind text p base) (tokenBeyond base u) := by
  constructor
  · exact Nat.le_add_right _ _
  · exact Nat.le_add_right _ _
  · have hpos := h.line_pos
    change base.line ≤ base.line + u.line - 1
    omega
  · intro hsame
    have hone := (line_tokenBeyond_eq_iff h).1 hsame
    have hpos := h.column_pos hone
    rw [column_tokenBeyond_first hone]
    change base.column ≤ base.column + u.column - 1
    omega

end Since

/-- The two parts of a source that is cut behind some of its pieces. -/
theorem Cuts.split {source : String} {before rest : List Piece}
    (h : Cuts source.toList (before ++ rest) []) :
    Cuts (source.toList.take (textOf before).length) before [] ∧
      Cuts (source.toList.drop (textOf before).length) rest [] := by
  obtain ⟨middle, hfront, hback⟩ := h.of_append
  have htext := hfront.textOf_append
  rw [← htext, List.take_left, List.drop_left]
  have hclosed := hfront.resume (resumes_nil middle)
  rw [List.append_nil] at hclosed
  exact ⟨hclosed, hback⟩

/-- What is lexed from either part. -/
theorem lex_parts {source : String} {before rest : List Piece}
    (h : Cuts source.toList (before ++ rest) []) :
    lex (String.ofList (source.toList.take (Position.start.afterAll before).offset)) =
        .ok (stream before) ∧
      lex (String.ofList (source.toList.drop (Position.start.afterAll before).offset)) =
        .ok (stream rest) := by
  have hshaped : WellShaped before := (List.forall_mem_append.1 h.wellShaped).1
  have hoffset : (Position.start.afterAll before).offset = (textOf before).length := by
    rw [Position.offset_afterAll _ hshaped]
    exact Nat.zero_add _
  obtain ⟨hfront, hback⟩ := h.split
  rw [hoffset]
  constructor
  · apply lex_of_cuts
    rw [String.toList_ofList]
    exact hfront
  · apply lex_of_cuts
    rw [String.toList_ofList]
    exact hback

/-- The tokens of the first part are the old ones, with the end of the input where the last
of them ends. -/
theorem stream_concat {before : List Piece} {piece : Piece} {kind : TokenKind}
    (h : piece.kind? = some kind) :
    stream (before ++ [piece]) = placed .start before ++
      [tokenBetween kind piece.text (Position.start.afterAll before)
          (Position.start.afterAll (before ++ [piece])),
        tokenBetween .eof [] (Position.start.afterAll (before ++ [piece]))
          (Position.start.afterAll (before ++ [piece]))] := by
  rw [stream, streamFrom_append, streamFrom_of_token h, Position.afterAll_concat]
  rfl

/-- The tokens of the second part are those behind the cut, counted from there. -/
theorem map_tokenSince_streamFrom (kind : TokenKind) (text : List Char) (p base : Position)
    (pieces : List Piece) :
    (streamFrom base pieces).map (tokenSince (tokenBetween kind text p base)) = stream pieces ∧
      ∀ u ∈ streamFrom base pieces, Follows (tokenBetween kind text p base) u := by
  rw [streamFrom_eq_map_stream]
  constructor
  · have hback : ∀ u ∈ stream pieces,
        (tokenSince (tokenBetween kind text p base) ∘ tokenBeyond base) u = id u :=
      fun u hu => tokenSince_tokenBeyond (proper_of_mem_stream hu)
    rw [List.map_map, List.map_congr_left hback, List.map_id]
  · intro u hu
    obtain ⟨v, hv, rfl⟩ := List.mem_map.1 hu
    exact follows_tokenBeyond (proper_of_mem_stream hv)

/-- A source that is cut at the end of one of its tokens falls into two sources. The tokens
of the first are those up to there, the end of the input behind them. The tokens of the
second are the others, counted from there. -/
theorem lex_cut_at_token_end (source : String) (ts us : List Token) (t eof : Token)
    (h : lex source = .ok (ts ++ t :: us ++ [eof])) :
    lex (String.ofList (source.toList.take t.span.stop)) =
        .ok (ts ++ [t, ⟨.eof, "", ⟨t.span.stop, t.span.stop, t.line, t.column⟩⟩]) ∧
      lex (String.ofList (source.toList.drop t.span.stop)) =
        .ok ((us ++ [eof]).map (tokenSince t)) ∧
      ∀ u ∈ us ++ [eof], Follows t u := by
  obtain ⟨pieces, hcuts, htokens⟩ := lex_eq_ok_iff.1 h
  obtain ⟨hplaced, heof⟩ := List.append_inj' htokens rfl
  obtain ⟨before, piece, rest, kind, rfl, hkind, rfl, rfl, rfl⟩ :=
    exists_pieces_of_placed hplaced.symm
  have hrest : placed (Position.start.afterAll (before ++ [piece])) rest ++ [eof] =
      streamFrom (Position.start.afterAll (before ++ [piece])) rest := by
    rw [heof, streamFrom, ← Position.afterAll_append, ← List.append_cons]
  rw [List.append_cons] at hcuts
  obtain ⟨hfront, hback⟩ := lex_parts hcuts
  obtain ⟨hsince, hfollows⟩ := map_tokenSince_streamFrom kind piece.text
    (Position.start.afterAll before) (Position.start.afterAll (before ++ [piece])) rest
  rw [hrest, hsince]
  rw [stream_concat hkind] at hfront
  exact ⟨hfront, hback, hfollows⟩

/-- The cut stands behind a string that runs over a line break, in the middle of a line. What
follows on that line is counted from the cut, and the line below it keeps its columns. -/
theorem lex_cut_at_token_end_of_string :
    lex "12..\n'a\nb\"c\nd" = .ok ([⟨.number, "12", ⟨0, 2, 1, 3⟩⟩, ⟨.symbol .dot, "..", ⟨2, 4, 1, 5⟩⟩] ++
        ⟨.string, "'a\nb\"", ⟨5, 10, 3, 3⟩⟩ ::
          [⟨.identifier, "c", ⟨10, 11, 3, 4⟩⟩, ⟨.identifier, "d", ⟨12, 13, 4, 1⟩⟩] ++
        [⟨.eof, "", ⟨13, 13, 4, 1⟩⟩]) ∧
      lex (String.ofList ("12..\n'a\nb\"c\nd".toList.take 10)) =
        .ok [⟨.number, "12", ⟨0, 2, 1, 3⟩⟩, ⟨.symbol .dot, "..", ⟨2, 4, 1, 5⟩⟩,
          ⟨.string, "'a\nb\"", ⟨5, 10, 3, 3⟩⟩, ⟨.eof, "", ⟨10, 10, 3, 3⟩⟩] ∧
      lex (String.ofList ("12..\n'a\nb\"c\nd".toList.drop 10)) =
        .ok [⟨.identifier, "c", ⟨0, 1, 1, 2⟩⟩, ⟨.identifier, "d", ⟨2, 3, 2, 1⟩⟩,
          ⟨.eof, "", ⟨3, 3, 2, 1⟩⟩] := by
  have hlex : lex "12..\n'a\nb\"c\nd" =
      .ok ([⟨.number, "12", ⟨0, 2, 1, 3⟩⟩, ⟨.symbol .dot, "..", ⟨2, 4, 1, 5⟩⟩] ++
        ⟨.string, "'a\nb\"", ⟨5, 10, 3, 3⟩⟩ ::
          [⟨.identifier, "c", ⟨10, 11, 3, 4⟩⟩, ⟨.identifier, "d", ⟨12, 13, 4, 1⟩⟩] ++
        [⟨.eof, "", ⟨13, 13, 4, 1⟩⟩]) := by with_unfolding_all rfl
  have hparts := lex_cut_at_token_end _ _ _ _ _ hlex
  exact ⟨hlex, hparts.1, hparts.2.1⟩

end SurfaceLanguage.Lexing
