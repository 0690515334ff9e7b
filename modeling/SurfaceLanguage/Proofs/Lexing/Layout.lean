import SurfaceLanguage.Proofs.Lexing.Exchange
import SurfaceLanguage.Proofs.Lexing.Rows

/-!
# Layout

The white space and the comments of a source can be exchanged for others without a
change to its tokens. Every gap between two tokens may stay as it is, or become any
closed trivia that starts with white space. In front of the first token any closed
trivia will do, and behind the last one nothing is needed.

The rows of a source are laid out anew from its end: what stands behind a token looks
alike before and after the exchange, so the token stays where it is.
-/
namespace SurfaceLanguage.Lexing

/-- White space and comments, with a line break behind each line comment. -/
inductive ClosedTrivia : List Char → Prop
  | nil : ClosedTrivia []
  | space {c : Char} {rest : List Char} : isSpace c = true → ClosedTrivia rest →
      ClosedTrivia (c :: rest)
  | lineComment {body rest : List Char} : '\n' ∉ body → ClosedTrivia rest →
      ClosedTrivia ('/' :: '/' :: (body ++ '\n' :: rest))
  | blockComment {inner rest : List Char} : ClosesOnlyAtEnd (inner ++ ['*', '/']) →
      ClosedTrivia rest → ClosedTrivia ('/' :: '*' :: (inner ++ '*' :: '/' :: rest))

/-- A gap behind a token may stay, or give way to trivia that keeps its distance. -/
def MayReplace (old new : List Char) : Prop :=
  new = old ∨ ClosedTrivia new ∧ ∃ c ∈ new.head?, isSpace c = true

/-- The layouts of the gaps behind the first token. -/
inductive Respaced : List (List Char) → List (List Char) → Prop
  | nil : Respaced [] []
  | dropped (old : List Char) : Respaced [old] [[]]
  | cons {old new : List Char} {olds news : List (List Char)} : MayReplace old new →
      Respaced olds news → Respaced (old :: olds) (new :: news)

/-- The layouts that all gaps of a source may be exchanged for. -/
inductive Relayout : List (List Char) → List (List Char) → Prop
  | mk {old new : List Char} {olds news : List (List Char)} : new = old ∨ ClosedTrivia new →
      Respaced olds news → Relayout (old :: olds) (new :: news)

theorem ClosedTrivia.exists_cuts {gap : List Char} (h : ClosedTrivia gap) (rest : List Char) :
    ∃ pieces, Cuts (gap ++ rest) pieces rest ∧ textOf pieces = gap ∧ IsTrivia pieces := by
  induction h with
  | nil => exact ⟨[], .nil rest, rfl, nofun⟩
  | @space c tail hc _ ih =>
    obtain ⟨pieces, hcuts, rfl, htrivia⟩ := ih
    rcases Bool.or_eq_true_iff.1 hc with hblank | hbreak
    · have hfits : Piece.Fits ⟨.blank, [c]⟩ (textOf pieces ++ rest) :=
        ⟨accepts_blank_iff.2 ⟨c, hblank, rfl⟩, Piece.stops_of_closed _ (by simp)⟩
      refine ⟨⟨.blank, [c]⟩ :: pieces, .cons_of_fits hfits hcuts, rfl, ?_⟩
      exact List.forall_mem_cons.2 ⟨rfl, htrivia⟩
    · obtain rfl : c = '\n' := beq_iff_eq.1 hbreak
      have hfits : Piece.Fits ⟨.lineBreak, ['\n']⟩ (textOf pieces ++ rest) :=
        ⟨rfl, Piece.stops_of_closed _ (by simp)⟩
      refine ⟨⟨.lineBreak, ['\n']⟩ :: pieces, .cons_of_fits hfits hcuts, rfl, ?_⟩
      exact List.forall_mem_cons.2 ⟨rfl, htrivia⟩
  | @lineComment body tail hbody _ ih =>
    obtain ⟨pieces, hcuts, rfl, htrivia⟩ := ih
    have hbreak : Piece.Fits ⟨.lineBreak, ['\n']⟩ (textOf pieces ++ rest) :=
      ⟨rfl, Piece.stops_of_closed _ (by simp)⟩
    have hcomment : Piece.Fits ⟨.lineComment, '/' :: '/' :: body⟩
        ('\n' :: (textOf pieces ++ rest)) := by
      refine ⟨⟨body, hbody, rfl⟩, Piece.stops_of_grows (by simp) ?_⟩
      intro c hc
      obtain rfl : '\n' = c := Option.some.inj hc
      rfl
    have hboth := Cuts.cons_of_fits hcomment (.cons_of_fits hbreak hcuts)
    refine ⟨_, by simpa using hboth, by simp, ?_⟩
    exact List.forall_mem_cons.2 ⟨rfl, List.forall_mem_cons.2 ⟨rfl, htrivia⟩⟩
  | @blockComment inner tail hinner _ ih =>
    obtain ⟨pieces, hcuts, rfl, htrivia⟩ := ih
    have hfits : Piece.Fits ⟨.blockComment, '/' :: '*' :: (inner ++ ['*', '/'])⟩
        (textOf pieces ++ rest) := ⟨⟨inner, hinner, rfl⟩, Piece.stops_of_closed _ (by simp)⟩
    refine ⟨_, by simpa using Cuts.cons_of_fits hfits hcuts, by simp, ?_⟩
    exact List.forall_mem_cons.2 ⟨rfl, htrivia⟩

/-- New rows have these gaps, say the same as the old ones, and are cut as they are put together. -/
structure Relaid (rows : List Row) (layout : List (List Char)) (news : List Row)
    (last : List Piece) : Prop where
  last_trivia : IsTrivia last
  cuts : Cuts (textOf (assemble news last)) (assemble news last) []
  gaps_eq : gapTexts news last = layout
  said_eq : news.map (·.said) = rows.map (·.said)

/-- Rows that look alike may be given a new row in front, with any gap that is the
old one or closed. -/
theorem Relaid.cons {row : Row} {rows news : List Row} {last newLast : List Piece}
    {gap : List Char} {layout : List (List Char)} (h : Relaid rows layout news newLast)
    (halike : Alike (textOf (assemble rows last)) (textOf (assemble news newLast)))
    (hcuts : Cuts (textOf (assemble (row :: rows) last)) (assemble (row :: rows) last) [])
    (hgap : gap = textOf row.gap ∨ ClosedTrivia gap) :
    ∃ new, Relaid (row :: rows) (gap :: layout) (new :: news) newLast := by
  obtain ⟨hold, hfits, -⟩ := hcuts.of_row
  have hkind : row.token.kind? ≠ none := by
    rw [row.token_kind]
    exact Option.some_ne_none row.kind
  have htoken := hfits.of_alike hkind halike
  obtain ⟨pieces, hpieces, htext, htrivia⟩ : ∃ pieces,
      Cuts (gap ++ (row.token.text ++ textOf (assemble news newLast))) pieces
        (row.token.text ++ textOf (assemble news newLast)) ∧
        textOf pieces = gap ∧ IsTrivia pieces := by
    rcases hgap with rfl | hclosed
    · exact ⟨row.gap, hold.exchange (text_ne_nil hfits.accepts) row.gap_trivia, rfl,
        row.gap_trivia⟩
    · exact hclosed.exists_cuts _
  refine ⟨{ row with gap := pieces, gap_trivia := htrivia }, h.last_trivia, ?_, ?_, ?_⟩
  · have hboth := hpieces.append (.cons_of_fits htoken h.cuts)
    rw [← htext] at hboth
    simpa [assemble] using hboth
  · rw [gapTexts, htext, h.gaps_eq]
  · exact congrArg (row.said :: ·) h.said_eq

theorem textOf_relaid_cons {row new : Row} {rows news : List Row} {last : List Piece}
    {gap : List Char} {layout : List (List Char)}
    (h : Relaid (row :: rows) (gap :: layout) (new :: news) last) :
    textOf (assemble (new :: news) last) =
      gap ++ (row.token.text ++ textOf (assemble news last)) := by
  have hgap : textOf new.gap = gap := (List.cons.inj h.gaps_eq).1
  have hsaid : new.said = row.said := (List.cons.inj h.said_eq).1
  have htoken : new.token.text = row.token.text := (Prod.mk.inj hsaid).2
  simp [assemble, hgap, htoken]

theorem alike_of_mayReplace {old new rest : List Char} {after : List Char}
    (h : MayReplace old new) (hrest : Alike rest after) : Alike (old ++ rest) (new ++ after) := by
  rcases h with rfl | ⟨-, c, hc, hspace⟩
  · exact hrest.append_left _
  · obtain ⟨tail, rfl⟩ := List.head?_eq_some_iff.1 hc
    exact .of_space _ hspace

/-- The gaps behind the first token, from the end of the source to its start. -/
theorem exists_relaid {rows : List Row} {last : List Piece} {layout : List (List Char)}
    (hlast : IsTrivia last)
    (hcuts : Cuts (textOf (assemble rows last)) (assemble rows last) [])
    (hlayout : Respaced (gapTexts rows last) layout) :
    ∃ news newLast, Relaid rows layout news newLast ∧
      Alike (textOf (assemble rows last)) (textOf (assemble news newLast)) := by
  induction rows generalizing layout with
  | nil =>
    cases hlayout with
    | dropped _ => exact ⟨[], [], ⟨nofun, .nil [], rfl, rfl⟩, .nil _⟩
    | @cons _ new _ _ hreplace htail =>
      cases htail
      obtain ⟨pieces, hpieces, htext, htrivia⟩ : ∃ pieces,
          Cuts new pieces [] ∧ textOf pieces = new ∧ IsTrivia pieces := by
        rcases hreplace with rfl | ⟨hclosed, -⟩
        · exact ⟨last, hcuts, rfl, hlast⟩
        · simpa using hclosed.exists_cuts []
      have halike := alike_of_mayReplace hreplace (.refl [])
      rw [List.append_nil, List.append_nil, ← htext] at halike
      exact ⟨[], pieces, ⟨htrivia, htext ▸ hpieces, by rw [gapTexts, htext], rfl⟩, halike⟩
  | cons row rows ih =>
    rw [gapTexts] at hlayout
    generalize hrest : gapTexts rows last = rest at hlayout
    cases hlayout with
    | dropped _ => exact absurd hrest (gapTexts_ne_nil rows last)
    | cons hreplace htail =>
      obtain ⟨news, newLast, hrelaid, halike⟩ := ih hcuts.of_row.2.2 (hrest ▸ htail)
      have hgap := hreplace.imp_right And.left
      obtain ⟨new, hnew⟩ := hrelaid.cons halike hcuts hgap
      refine ⟨new :: news, newLast, hnew, ?_⟩
      rw [textOf_relaid_cons hnew, assemble, textOf_append, textOf_cons]
      exact alike_of_mayReplace hreplace (halike.append_left row.token.text)

/-- All gaps of a source. -/
theorem exists_relayout {rows : List Row} {last : List Piece} {layout : List (List Char)}
    (hlast : IsTrivia last)
    (hcuts : Cuts (textOf (assemble rows last)) (assemble rows last) [])
    (hlayout : Relayout (gapTexts rows last) layout) :
    ∃ news newLast, Relaid rows layout news newLast := by
  cases rows with
  | nil =>
    cases hlayout with
    | @mk _ new _ _ hgap htail =>
      cases htail
      rcases hgap with rfl | hclosed
      · exact ⟨[], last, hlast, hcuts, rfl, rfl⟩
      · obtain ⟨pieces, hpieces, rfl, htrivia⟩ := hclosed.exists_cuts []
        rw [List.append_nil] at hpieces
        exact ⟨[], pieces, htrivia, hpieces, rfl, rfl⟩
  | cons row rows =>
    cases hlayout with
    | mk hgap htail =>
      obtain ⟨news, newLast, hrelaid, halike⟩ := exists_relaid hlast hcuts.of_row.2.2 htail
      obtain ⟨new, hnew⟩ := hrelaid.cons halike hcuts hgap
      exact ⟨new :: news, newLast, hnew⟩

theorem respaced_singleSpaces (tokens : List Token) {olds : List (List Char)}
    (h : olds.length = tokens.length + 1) : Respaced olds (singleSpaces tokens) := by
  induction tokens generalizing olds with
  | nil =>
    obtain ⟨old, rfl⟩ := List.length_eq_one_iff.1 h
    exact .dropped old
  | cons t tokens ih =>
    cases olds with
    | nil => exact absurd h (by simp)
    | cons old olds =>
      have hspace : MayReplace old [' '] := .inr ⟨.space rfl .nil, ' ', rfl, rfl⟩
      exact .cons hspace (ih (Nat.succ.inj h))

theorem relayout_joinedLayout (tokens : List Token) {olds : List (List Char)}
    (h : olds.length = tokens.length + 1) : Relayout olds (joinedLayout tokens) := by
  cases olds with
  | nil => exact absurd h (by simp)
  | cons old olds =>
    cases tokens with
    | nil =>
      obtain rfl := List.length_eq_zero_iff.1 (Nat.succ.inj h)
      exact .mk (.inr .nil) .nil
    | cons t tokens => exact .mk (.inr .nil) (respaced_singleSpaces tokens (Nat.succ.inj h))

theorem Relaid.lex_eq {rows news : List Row} {layout : List (List Char)} {last : List Piece}
    (h : Relaid rows layout news last) {tokens : List Token}
    (htokens : tokens.map content = contents (rows.map (·.said))) :
    ∃ relaid, lex (String.ofList (weave layout tokens)) = .ok relaid ∧
      relaid.map content = tokens.map content ∧
      relaid.map (·.span.start) = starts 0 layout tokens := by
  rw [← h.said_eq] at htokens
  have hweave := weave_gapTexts news last htokens
  rw [h.gaps_eq] at hweave
  have hstarts := starts_gapTexts news h.last_trivia htokens h.cuts.wellShaped .start
  rw [h.gaps_eq] at hstarts
  refine ⟨stream (assemble news last), ?_, ?_, hstarts⟩
  · refine lex_of_cuts ?_
    rw [String.toList_ofList, hweave]
    exact h.cuts
  · rw [htokens]
    exact map_content_streamFrom news h.last_trivia .start

/-- Tokens with their gaps are a source again. With any other layout of the gaps, they
are lexed into the same kinds and texts, each where its text now begins. So they are
when they are joined by single spaces. -/
theorem lex_relaid (source : String) (tokens : List Token) (h : lex source = .ok tokens) :
    (tokens.map content).getLast? = some (.eof, "") ∧
    weave (gaps source.toList 0 tokens) tokens = source.toList ∧
    (∀ layout, Relayout (gaps source.toList 0 tokens) layout →
      ∃ relaid, lex (String.ofList (weave layout tokens)) = .ok relaid ∧
        relaid.map content = tokens.map content ∧
        relaid.map (·.span.start) = starts 0 layout tokens) ∧
    ∃ relaid, lex (" ".intercalate (tokens.dropLast.map (·.lexeme))) = .ok relaid ∧
      relaid.map content = tokens.map content := by
  obtain ⟨rows, last, hlast, hcuts, htext, hcontents, hgaps⟩ := exists_rows_of_lex h
  obtain ⟨words, stop, rfl, hstop⟩ := exists_words_of_contents hcontents
  have hrelaid : ∀ layout, Relayout (gaps source.toList 0 (words ++ [stop])) layout →
      ∃ relaid, lex (String.ofList (weave layout (words ++ [stop]))) = .ok relaid ∧
        relaid.map content = (words ++ [stop]).map content ∧
        relaid.map (·.span.start) = starts 0 layout (words ++ [stop]) := by
    intro layout hlayout
    rw [hgaps] at hlayout
    obtain ⟨news, newLast, hnews⟩ := exists_relayout hlast hcuts hlayout
    exact hnews.lex_eq hcontents
  refine ⟨?_, ?_, hrelaid, ?_⟩
  · rw [hcontents, contents, List.getLast?_concat]
  · rw [hgaps, weave_gapTexts rows last hcontents, htext]
  · have hlength : (gaps source.toList 0 (words ++ [stop])).length = words.length + 1 := by
      rw [length_gaps, List.length_append, List.length_singleton]
    obtain ⟨relaid, hlex, hsame, -⟩ := hrelaid _ (relayout_joinedLayout words hlength)
    rw [weave_joinedLayout words (Prod.mk.inj hstop).2, String.ofList_toList] at hlex
    rw [List.dropLast_concat]
    exact ⟨relaid, hlex, hsame⟩

/-- A line comment comes in front, and a block comment where the slash cannot reach it. -/
theorem lex_relaid_of_division :
    ∃ tokens, lex "a/ b" = .ok tokens ∧
      ∃ relaid, lex "//q\na/\t/**/b" = .ok relaid ∧
        relaid.map content = tokens.map content ∧
        relaid.map (·.span.start) = [4, 5, 11, 12] := by
  have htokens : lex "a/ b" = .ok [⟨.identifier, "a", ⟨0, 1, 1, 2⟩⟩,
      ⟨.symbol .slash, "/", ⟨1, 2, 1, 3⟩⟩, ⟨.identifier, "b", ⟨3, 4, 1, 5⟩⟩,
      ⟨.eof, "", ⟨4, 4, 1, 5⟩⟩] := by with_unfolding_all rfl
  have hbody : '\n' ∉ ['q'] := by decide
  have hinner : ClosesOnlyAtEnd ([] ++ ['*', '/']) := closesOnlyAtEnd_mark
  have hlayout : Relayout [[], [], [' '], []]
      [['/', '/', 'q', '\n'], [], ['\t', '/', '*', '*', '/'], []] :=
    .mk (.inr (.lineComment hbody .nil)) (.cons (.inl rfl)
      (.cons (.inr ⟨.space rfl (.blockComment hinner .nil), '\t', rfl, rfl⟩)
        (.cons (.inl rfl) .nil)))
  obtain ⟨relaid, hlex, hsame, hstarts⟩ := (lex_relaid _ _ htokens).2.2.1 _ hlayout
  refine ⟨_, htokens, relaid, ?_, hsame, ?_⟩
  · simpa [weave] using hlex
  · rw [hstarts]
    simp [starts]

end SurfaceLanguage.Lexing
