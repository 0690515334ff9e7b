import SurfaceLanguage.Proofs.Lexing.Positions

/-!
# Rows of a source

A row is a token with the gap before it. Every source is a sequence of rows and the
trivia behind the last one. The gaps can be read off the spans of the tokens, and
gaps and lexemes together give back the text and the offsets.
-/
namespace SurfaceLanguage.Lexing

/-- The texts before each token, from an offset on. The end of the input is a token
too, so the text behind the last one is among them. -/
def gaps (source : List Char) (reached : Nat) : List Token → List (List Char)
  | [] => []
  | t :: tokens => (source.take t.span.start).drop reached :: gaps source t.span.stop tokens

/-- The text that has these gaps before the tokens. -/
def weave : List (List Char) → List Token → List Char
  | gap :: layout, t :: tokens => gap ++ (t.lexeme.toList ++ weave layout tokens)
  | _, _ => []

/-- How much of such a text stands before each token. -/
def starts (reached : Nat) : List (List Char) → List Token → List Nat
  | gap :: layout, t :: tokens =>
      (reached + gap.length) ::
        starts (reached + gap.length + t.lexeme.toList.length) layout tokens
  | _, _ => []

/-- What a token says, wherever it stands. -/
def content (t : Token) : TokenKind × String := (t.kind, t.lexeme)

def IsTrivia (pieces : List Piece) : Prop := ∀ q ∈ pieces, q.kind? = none

/-- A token's piece and its kind, with the pieces of the gap before it. -/
structure Row where
  gap : List Piece
  token : Piece
  kind : TokenKind
  gap_trivia : IsTrivia gap
  token_kind : token.kind? = some kind

/-- What remains of a row when its gap is left out. -/
def Row.said (row : Row) : TokenKind × List Char := (row.kind, row.token.text)

def assemble : List Row → List Piece → List Piece
  | [], last => last
  | row :: rows, last => row.gap ++ row.token :: assemble rows last

theorem exists_assemble (pieces : List Piece) :
    ∃ rows last, pieces = assemble rows last ∧ IsTrivia last := by
  induction pieces with
  | nil => exact ⟨[], [], rfl, nofun⟩
  | cons piece pieces ih =>
    obtain ⟨rows, last, rfl, hlast⟩ := ih
    cases hkind : piece.kind? with
    | some kind => exact ⟨⟨[], piece, kind, nofun, hkind⟩ :: rows, last, rfl, hlast⟩
    | none =>
      cases rows with
      | nil => exact ⟨[], piece :: last, rfl, List.forall_mem_cons.2 ⟨hkind, hlast⟩⟩
      | cons row rows =>
        have htrivia : IsTrivia (piece :: row.gap) :=
          List.forall_mem_cons.2 ⟨hkind, row.gap_trivia⟩
        exact ⟨{ row with gap := piece :: row.gap, gap_trivia := htrivia } :: rows, last, rfl,
          hlast⟩

def gapTexts : List Row → List Piece → List (List Char)
  | [], last => [textOf last]
  | row :: rows, last => textOf row.gap :: gapTexts rows last

theorem gapTexts_ne_nil (rows : List Row) (last : List Piece) : gapTexts rows last ≠ [] := by
  cases rows <;> exact List.cons_ne_nil _ _

theorem Cuts.of_row {row : Row} {rows : List Row} {last : List Piece}
    (h : Cuts (textOf (assemble (row :: rows) last)) (assemble (row :: rows) last) []) :
    Cuts (textOf row.gap ++ (row.token.text ++ textOf (assemble rows last))) row.gap
        (row.token.text ++ textOf (assemble rows last)) ∧
      row.token.Fits (textOf (assemble rows last)) ∧
      Cuts (textOf (assemble rows last)) (assemble rows last) [] := by
  obtain ⟨middle, hgap, hrest⟩ := h.of_append
  obtain ⟨after, rfl, hfits, hcuts⟩ := hrest.of_cons
  have hafter : textOf (assemble rows last) = after := by
    have htext := hcuts.textOf_append
    rwa [List.append_nil] at htext
  rw [hafter]
  refine ⟨?_, hfits, hafter ▸ hcuts⟩
  simpa [assemble, hafter] using hgap

theorem streamFrom_trivia_append {gap : List Piece} (h : IsTrivia gap) (p : Position)
    (pieces : List Piece) : streamFrom p (gap ++ pieces) = streamFrom (p.afterAll gap) pieces := by
  induction gap generalizing p with
  | nil => rfl
  | cons q gap ih =>
    have hgap : IsTrivia gap := fun r hr => h r (List.mem_cons_of_mem q hr)
    rw [List.cons_append, streamFrom_of_trivia (h q List.mem_cons_self), ih hgap]
    rfl

theorem streamFrom_last {last : List Piece} (h : IsTrivia last) (p : Position) :
    streamFrom p last = [tokenBetween .eof [] (p.afterAll last) (p.afterAll last)] := by
  have hstream := streamFrom_trivia_append h p []
  rwa [List.append_nil] at hstream

theorem streamFrom_row (row : Row) (p : Position) (pieces : List Piece) :
    streamFrom p (row.gap ++ row.token :: pieces) =
      tokenBetween row.kind row.token.text (p.afterAll row.gap)
          ((p.afterAll row.gap).after row.token) ::
        streamFrom ((p.afterAll row.gap).after row.token) pieces := by
  rw [streamFrom_trivia_append row.gap_trivia, streamFrom_of_token row.token_kind]

/-- The contents of the tokens with these kinds and texts, the end of the input last. -/
def contents (said : List (TokenKind × List Char)) : List (TokenKind × String) :=
  said.map (fun (kind, text) => (kind, String.ofList text)) ++ [(.eof, "")]

theorem map_content_streamFrom (rows : List Row) {last : List Piece} (hlast : IsTrivia last)
    (p : Position) :
    (streamFrom p (assemble rows last)).map content = contents (rows.map (·.said)) := by
  induction rows generalizing p with
  | nil =>
    rw [assemble, streamFrom_last hlast]
    rfl
  | cons row rows ih =>
    rw [assemble, streamFrom_row, List.map_cons, ih]
    rfl

theorem exists_stop_of_contents {tokens : List Token} (h : tokens.map content = contents []) :
    ∃ stop, tokens = [stop] ∧ stop.lexeme = "" := by
  obtain ⟨stop, rest, rfl, hstop, hrest⟩ := List.map_eq_cons_iff.1 h
  rw [List.map_eq_nil_iff] at hrest
  subst hrest
  exact ⟨stop, rfl, (Prod.mk.inj hstop).2⟩

theorem exists_word_of_contents {row : Row} {rows : List Row} {tokens : List Token}
    (h : tokens.map content = contents ((row :: rows).map (·.said))) :
    ∃ word rest, tokens = word :: rest ∧ word.lexeme.toList = row.token.text ∧
      rest.map content = contents (rows.map (·.said)) := by
  obtain ⟨word, rest, rfl, hword, hrest⟩ := List.map_eq_cons_iff.1 h
  refine ⟨word, rest, rfl, ?_, hrest⟩
  have hlexeme : word.lexeme = String.ofList row.token.text := (Prod.mk.inj hword).2
  rw [hlexeme, String.toList_ofList]

/-- Rows are woven from their gaps and from tokens that say the same. -/
theorem weave_gapTexts (rows : List Row) (last : List Piece) {tokens : List Token}
    (h : tokens.map content = contents (rows.map (·.said))) :
    weave (gapTexts rows last) tokens = textOf (assemble rows last) := by
  induction rows generalizing tokens with
  | nil =>
    obtain ⟨stop, rfl, hstop⟩ := exists_stop_of_contents h
    simp [gapTexts, weave, assemble, hstop]
  | cons row rows ih =>
    obtain ⟨word, rest, rfl, hword, hrest⟩ := exists_word_of_contents h
    simp only [gapTexts, weave, assemble, textOf_append, textOf_cons]
    rw [hword, ih hrest]

theorem starts_gapTexts (rows : List Row) {last : List Piece} (hlast : IsTrivia last)
    {tokens : List Token} (h : tokens.map content = contents (rows.map (·.said)))
    (hshaped : WellShaped (assemble rows last)) (p : Position) :
    (streamFrom p (assemble rows last)).map (·.span.start) =
      starts p.offset (gapTexts rows last) tokens := by
  induction rows generalizing tokens p with
  | nil =>
    have hshaped : WellShaped last := hshaped
    obtain ⟨stop, rfl, -⟩ := exists_stop_of_contents h
    rw [assemble, streamFrom_last hlast, gapTexts, List.map_singleton]
    simp only [starts, tokenBetween]
    rw [Position.offset_afterAll p hshaped]
  | cons row rows ih =>
    obtain ⟨word, rest, rfl, hword, hrest⟩ := exists_word_of_contents h
    obtain ⟨hgap, hafter⟩ := List.forall_mem_append.1 hshaped
    obtain ⟨htoken, hrows⟩ := List.forall_mem_cons.1 hafter
    have hstart := Position.offset_afterAll p hgap
    have hstop := Position.offset_after (p.afterAll row.gap) htoken
    rw [assemble, streamFrom_row, List.map_cons, ih hrest hrows, gapTexts, starts, hword]
    rw [hstop, hstart]
    simp only [tokenBetween, hstart]

theorem take_drop_between (before gap after : List Char) :
    ((before ++ (gap ++ after)).take (before.length + gap.length)).drop before.length = gap := by
  rw [List.take_length_add_append, List.take_left, List.drop_left]

theorem gaps_streamFrom (rows : List Row) {last : List Piece} (hlast : IsTrivia last)
    (walked : List Char) {p : Position} (hp : p.offset = walked.length)
    (hshaped : WellShaped (assemble rows last)) :
    gaps (walked ++ textOf (assemble rows last)) walked.length
      (streamFrom p (assemble rows last)) = gapTexts rows last := by
  induction rows generalizing walked p with
  | nil =>
    have hshaped : WellShaped last := hshaped
    have hgap := take_drop_between walked (textOf last) []
    rw [List.append_nil] at hgap
    rw [assemble, streamFrom_last hlast, gaps, gaps, gapTexts]
    simp only [tokenBetween]
    rw [Position.offset_afterAll p hshaped, hp, hgap]
  | cons row rows ih =>
    obtain ⟨hgap, hrest⟩ := List.forall_mem_append.1 hshaped
    obtain ⟨htoken, hrows⟩ := List.forall_mem_cons.1 hrest
    have hstart : (p.afterAll row.gap).offset = walked.length + (textOf row.gap).length := by
      rw [Position.offset_afterAll p hgap, hp]
    have hstop : ((p.afterAll row.gap).after row.token).offset =
        (walked ++ (textOf row.gap ++ row.token.text)).length := by
      rw [Position.offset_after _ htoken, hstart, List.length_append, List.length_append]
      omega
    have htail := ih (walked ++ (textOf row.gap ++ row.token.text)) hstop hrows
    rw [assemble, streamFrom_row, gaps, gapTexts]
    simp only [tokenBetween, textOf_append, textOf_cons]
    rw [hstart, take_drop_between, hstop, ← htail]
    simp only [List.append_assoc]

/-- One space before each of these tokens, and nothing behind the last. -/
def singleSpaces : List Token → List (List Char)
  | [] => [[]]
  | _ :: tokens => [' '] :: singleSpaces tokens

/-- The layout of tokens joined by single spaces. -/
def joinedLayout : List Token → List (List Char)
  | [] => [[]]
  | _ :: tokens => [] :: singleSpaces tokens

theorem weave_singleSpaces (t : Token) (tokens : List Token) {stop : Token}
    (hstop : stop.lexeme = "") :
    t.lexeme.toList ++ weave (singleSpaces tokens) (tokens ++ [stop]) =
      (" ".intercalate ((t :: tokens).map (·.lexeme))).toList := by
  induction tokens generalizing t with
  | nil => simp [singleSpaces, weave, hstop]
  | cons next tokens ih =>
    have htail := ih next
    rw [List.map_cons] at htail
    rw [List.map_cons, List.map_cons, String.intercalate_cons_cons, String.toList_append, ← htail]
    simp [singleSpaces, weave]

theorem weave_joinedLayout (tokens : List Token) {stop : Token} (hstop : stop.lexeme = "") :
    weave (joinedLayout tokens) (tokens ++ [stop]) =
      (" ".intercalate (tokens.map (·.lexeme))).toList := by
  cases tokens with
  | nil => simp [joinedLayout, weave, hstop]
  | cons t tokens => exact weave_singleSpaces t tokens hstop

theorem length_gaps (source : List Char) (reached : Nat) (tokens : List Token) :
    (gaps source reached tokens).length = tokens.length := by
  induction tokens generalizing reached with
  | nil => rfl
  | cons t tokens ih => rw [gaps, List.length_cons, ih, List.length_cons]

theorem exists_words_of_contents {said : List (TokenKind × List Char)} {tokens : List Token}
    (h : tokens.map content = contents said) :
    ∃ words stop, tokens = words ++ [stop] ∧ content stop = (.eof, "") := by
  obtain ⟨words, ends, rfl, -, hends⟩ := List.map_eq_append_iff.1 h
  obtain ⟨stop, rest, rfl, hstop, hrest⟩ := List.map_eq_cons_iff.1 hends
  rw [List.map_eq_nil_iff] at hrest
  subst hrest
  exact ⟨words, stop, rfl, hstop⟩

/-- The pieces of a source as rows, with the gaps and the contents of its tokens. -/
theorem exists_rows_of_lex {source : String} {tokens : List Token}
    (h : lex source = .ok tokens) :
    ∃ rows last, IsTrivia last ∧
      Cuts (textOf (assemble rows last)) (assemble rows last) [] ∧
      textOf (assemble rows last) = source.toList ∧
      tokens.map content = contents (rows.map (·.said)) ∧
      gaps source.toList 0 tokens = gapTexts rows last := by
  obtain ⟨pieces, hcuts, rfl⟩ := lex_eq_ok_iff.1 h
  obtain ⟨rows, last, rfl, hlast⟩ := exists_assemble pieces
  have htext := hcuts.textOf_append
  rw [List.append_nil] at htext
  have hgaps := gaps_streamFrom rows hlast [] (p := .start) rfl hcuts.wellShaped
  rw [List.nil_append, htext] at hgaps
  exact ⟨rows, last, hlast, htext ▸ hcuts, htext, map_content_streamFrom rows hlast _, hgaps⟩

end SurfaceLanguage.Lexing
