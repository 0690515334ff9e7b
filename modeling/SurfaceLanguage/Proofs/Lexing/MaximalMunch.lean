import SurfaceLanguage.Proofs.Lexing.Positions

/-!
# The lexer reads the grammar

A reading is what the grammar alone says of a token: its kind, its text and where
in the source that text begins and ends. The pieces of a source determine its
readings without a word on how they are found. A source is lexed exactly when it can
be cut into longest pieces, and into which readings.

It is in error exactly when cutting it into longest pieces leads to a place that can
be blamed. There is at most one such place, so nothing behind it and no quote or
comment mark inside an earlier piece has a part in the answer.
-/
namespace SurfaceLanguage.Lexing

/-- A token without its line and its column. -/
structure Reading where
  kind : TokenKind
  lexeme : String
  start : Nat
  stop : Nat
deriving DecidableEq, Repr

def Reading.ofToken (t : Token) : Reading :=
  ⟨t.kind, t.lexeme, t.span.start, t.span.stop⟩

/-- White space and comments read as nothing. A word without a reserved meaning is a
name. -/
def Piece.reading? (p : Piece) (start : Nat) : Option Reading :=
  let reading (kind : TokenKind) : Option Reading :=
    some ⟨kind, String.ofList p.text, start, start + p.text.length⟩
  match p.shape with
  | .blank | .lineBreak | .lineComment | .blockComment => none
  | .string => reading .string
  | .number => reading .number
  | .word => reading ((TokenKind.ofKeyword? (String.ofList p.text)).getD .identifier)
  | .symbol sign => reading (.symbol sign)

/-- The readings of consecutive pieces from an offset on, and of the end behind
them. -/
def readings (start : Nat) : List Piece → List Reading
  | [] => [⟨.eof, "", start, start⟩]
  | p :: pieces => (p.reading? start).toList ++ readings (start + p.text.length) pieces

theorem reading?_eq (p : Piece) (start : Nat) :
    p.reading? start = p.kind?.map
      (fun kind => ⟨kind, String.ofList p.text, start, start + p.text.length⟩) := by
  unfold Piece.reading? Piece.kind?
  cases p.shape <;> rfl

theorem map_ofToken_streamFrom {pieces : List Piece} (h : WellShaped pieces) (p : Position) :
    (streamFrom p pieces).map Reading.ofToken = readings p.offset pieces := by
  induction pieces generalizing p with
  | nil => rfl
  | cons piece pieces ih =>
    have htail : WellShaped pieces := fun q hq => h q (List.mem_cons_of_mem piece hq)
    have hoffset := p.offset_after (h piece List.mem_cons_self)
    rw [readings, reading?_eq, ← hoffset, ← ih htail]
    cases hkind : piece.kind? with
    | none =>
      rw [streamFrom_of_trivia hkind]
      rfl
    | some kind =>
      rw [streamFrom_of_token hkind]
      rfl

/-- A source is lexed into these readings if and only if it can be cut into
consecutive pieces, each the longest where it stands, that have these readings. -/
theorem lex_reads_longest_pieces (source : String) (rs : List Reading) :
    (∃ tokens, lex source = .ok tokens ∧ tokens.map Reading.ofToken = rs) ↔
      ∃ pieces, Cuts source.toList pieces [] ∧ rs = readings 0 pieces := by
  constructor
  · intro h
    obtain ⟨tokens, hlex, rfl⟩ := h
    obtain ⟨pieces, hcuts, rfl⟩ := lex_eq_ok_iff.1 hlex
    exact ⟨pieces, hcuts, map_ofToken_streamFrom hcuts.wellShaped .start⟩
  · intro h
    obtain ⟨pieces, hcuts, rfl⟩ := h
    exact ⟨stream pieces, lex_of_cuts hcuts, map_ofToken_streamFrom hcuts.wellShaped .start⟩

/-- The error of a source is the one that the text behind its pieces can be blamed
for. A text can be blamed for one thing only, and a source in one place only. -/
theorem lex_blames_first (source : String) :
    (∀ cause, (∃ e, lex source = .error e ∧ e.cause = cause) ↔
      ∃ pieces rest, Cuts source.toList pieces rest ∧ Blames cause rest) ∧
    (∀ a b text, Blames a text → Blames b text → a = b) ∧
    ∀ ps xs a, Cuts source.toList ps xs → Blames a xs →
      ∀ qs ys b, Cuts source.toList qs ys → Blames b ys → ps = qs ∧ xs = ys ∧ a = b := by
  refine ⟨?_, fun a b text => Blames.unique, ?_⟩
  · intro cause
    constructor
    · intro h
      obtain ⟨e, hlex, rfl⟩ := h
      obtain ⟨pieces, cause, rest, hcuts, hblames, rfl⟩ := lex_eq_error_iff.1 hlex
      exact ⟨pieces, rest, hcuts, hblames⟩
    · intro h
      obtain ⟨pieces, rest, hcuts, hblames⟩ := h
      exact ⟨_, lex_of_blames hcuts hblames, rfl⟩
  · intro ps xs a hps ha qs ys b hqs hb
    obtain ⟨rfl, rfl⟩ := hps.unique (.inr ⟨a, ha⟩) hqs (.inr ⟨b, hb⟩)
    exact ⟨rfl, rfl, ha.unique hb⟩

/-- The mark behind the word is to blame, and not the string it stands before. -/
theorem lex_blames_first_of_two :
    Cuts "a@'b".toList [⟨.word, ['a']⟩] ['@', '\'', 'b'] ∧
      Blames (.unexpectedCharacter '@') ['@', '\'', 'b'] ∧
      ∃ e, lex "a@'b" = .error e ∧ e.cause = .unexpectedCharacter '@' := by
  have hword : Piece.Fits ⟨.word, ['a']⟩ ['@', '\'', 'b'] := by
    refine ⟨⟨'a', [], by decide, nofun, rfl⟩, Piece.stops_of_grows (by simp) ?_⟩
    intro c hc
    obtain rfl : '@' = c := Option.some.inj hc
    decide
  have hcuts : Cuts "a@'b".toList [⟨.word, ['a']⟩] ['@', '\'', 'b'] :=
    .cons_of_fits hword (.nil _)
  have hblames : Blames (.unexpectedCharacter '@') ['@', '\'', 'b'] :=
    .unexpected (by decide) (by decide)
  exact ⟨hcuts, hblames, ((lex_blames_first "a@'b").1 _).2 ⟨_, _, hcuts, hblames⟩⟩

end SurfaceLanguage.Lexing
