import Mathlib.Data.List.Induction
import SurfaceLanguage.Proofs.Lexing.Positions

/-!
# Lines and columns

The line of a position counts the line breaks before it. Its column depends on how
the last of them was read: between tokens it leads to column zero, inside a string
or a block comment to column one. Which of the two it was is a question about the
source and its cutting, and has one answer for every line break that was read.

The main statement gives line and column of every token and of the error, from the
source alone.
-/
namespace SurfaceLanguage.Lexing

/-- At this offset the pieces before have ended and a line break follows. -/
def TopLevelBreak (source : List Char) (offset : Nat) : Prop :=
  ∃ pieces rest, Cuts source pieces ('\n' :: rest) ∧ (textOf pieces).length = offset

/-- A text begins with a string or a block comment, which has this many characters.
One that is never closed takes the whole text. -/
inductive Encloses : List Char → Nat → Prop
  | closed {p : Piece} {rest : List Char} : p.shape = .string ∨ p.shape = .blockComment →
      p.shape.Accepts p.text → Encloses (p.text ++ rest) p.text.length
  | unclosed {cause : LexCause} {text : List Char} :
      cause = .unterminatedString ∨ cause = .unterminatedComment → Blames cause text →
      Encloses text text.length

/-- This offset lies in a string or in a block comment. -/
def Enclosed (source : List Char) (offset : Nat) : Prop :=
  ∃ pieces rest size, Cuts source pieces rest ∧ Encloses rest size ∧
    (textOf pieces).length ≤ offset ∧ offset < (textOf pieces).length + size

/-- The line and the column that belong to an offset of a source. -/
structure Counted (source : List Char) (offset line column : Nat) : Prop where
  within : offset ≤ source.length
  line_eq : line = 1 + (source.take offset).count '\n'
  column_of_first_line : '\n' ∉ source.take offset → column = offset + 1
  column_of_break : ∀ before between, source.take offset = before ++ '\n' :: between →
    '\n' ∉ between →
      (TopLevelBreak source before.length ∧ ¬ Enclosed source before.length ∧
        column = between.length) ∨
      (Enclosed source before.length ∧ ¬ TopLevelBreak source before.length ∧
        column = between.length + 1)

theorem piece_eq_of_encloses {p q : Piece} {xs ys : List Char} (hq : q.Fits ys)
    (hp : p.shape = .string ∨ p.shape = .blockComment) (haccepts : p.shape.Accepts p.text)
    (h : p.text ++ xs = q.text ++ ys) : p = q := by
  have hstops : p.Stops xs := by
    apply Piece.stops_of_closed
    rcases hp with hp | hp <;> rw [hp] <;> decide
  exact (Piece.Fits.unique ⟨haccepts, hstops⟩ hq h).1

/-- A piece that fits where an enclosure begins covers it. -/
theorem Encloses.eq_length {p : Piece} {text rest : List Char} {size : Nat}
    (h : Encloses text size) (hfits : p.Fits rest) (htext : text = p.text ++ rest) :
    size = p.text.length := by
  cases h with
  | closed hshape haccepts => rw [piece_eq_of_encloses hfits hshape haccepts htext]
  | unclosed _ hblames => exact absurd hfits (htext ▸ hblames).not_fits

theorem Encloses.head_ne_break {rest : List Char} {size : Nat} :
    ¬ Encloses ('\n' :: rest) size := by
  intro h
  have hbreak : Piece.Fits ⟨.lineBreak, ['\n']⟩ rest := ⟨rfl, Piece.stops_of_closed _ (by simp)⟩
  generalize htext : '\n' :: rest = text at h
  cases h with
  | closed hshape haccepts =>
    have hpiece := piece_eq_of_encloses hbreak hshape haccepts htext.symm
    rw [hpiece] at hshape
    simp at hshape
  | unclosed _ hblames =>
    rw [← htext] at hblames
    exact hblames.not_fits (p := ⟨.lineBreak, ['\n']⟩) hbreak

/-- No line break is read in both ways. -/
theorem TopLevelBreak.not_enclosed {source : List Char} {offset : Nat}
    (h : TopLevelBreak source offset) : ¬ Enclosed source offset := by
  intro henclosed
  obtain ⟨ps, xs, hps, hlength⟩ := h
  obtain ⟨qs, ys, size, hqs, hencloses, hle, hlt⟩ := henclosed
  rcases hqs.comparable hps with ⟨more, rfl, hmore⟩ | ⟨more, rfl, hmore⟩
  · cases more with
    | nil => exact Encloses.head_ne_break (hmore.of_nil ▸ hencloses)
    | cons p more =>
      -- The next piece is the enclosure, so the break would stand inside it.
      obtain ⟨after, htext, hfits, -⟩ := hmore.of_cons
      have hsize := hencloses.eq_length hfits htext
      simp only [textOf_append, textOf_cons, List.length_append] at hlength
      omega
  · cases more with
    | nil => exact Encloses.head_ne_break (hmore.of_nil ▸ hencloses)
    | cons p more =>
      obtain ⟨after, -, hfits, -⟩ := hmore.of_cons
      have hpos := List.length_pos_iff.2 (text_ne_nil hfits.accepts)
      simp only [textOf_append, textOf_cons, List.length_append] at hle
      omega

/-- Line breaks are found in three shapes only. -/
theorem shape_of_mem_break {p : Piece} (h : p.shape.Accepts p.text) (hmem : '\n' ∈ p.text) :
    p.shape = .lineBreak ∨ p.shape = .string ∨ p.shape = .blockComment := by
  obtain ⟨shape, text⟩ := p
  cases shape with
  | lineBreak => exact .inl rfl
  | string => exact .inr (.inl rfl)
  | blockComment => exact .inr (.inr rfl)
  | blank =>
    obtain ⟨c, hc, rfl⟩ := h
    rw [← List.mem_singleton.1 hmem] at hc
    exact absurd hc (by decide)
  | lineComment =>
    obtain ⟨body, hbody, rfl⟩ := h
    simp [hbody] at hmem
  | number =>
    rcases h with hwhole | ⟨whole, places, hwhole, hplaces, rfl⟩
    · exact absurd (hwhole.2 _ hmem) (by decide)
    · simp only [List.mem_append, List.mem_cons, Char.reduceEq, false_or] at hmem
      rcases hmem with hmem | hmem
      · exact absurd (hwhole.2 _ hmem) (by decide)
      · exact absurd (hplaces.2 _ hmem) (by decide)
  | word =>
    obtain ⟨c, part, hc, hpart, rfl⟩ := h
    rcases List.mem_cons.1 hmem with rfl | hmem
    · exact absurd hc (by decide)
    · exact absurd (hpart _ hmem) (by decide)
  | symbol s =>
    have hall : ∀ row ∈ Symbol.spellings, '\n' ∉ row.1 := by decide
    exact absurd hmem (hall _ (Symbol.mem_texts_iff.1 h))

/-- The last line break of a text stands in one place. -/
theorem last_break_unique {a b c d : List Char} (h : a ++ '\n' :: b = c ++ '\n' :: d)
    (hb : '\n' ∉ b) (hd : '\n' ∉ d) : a = c ∧ b = d := by
  rcases List.append_eq_append_iff.1 h with ⟨more, rfl, htail⟩ | ⟨more, rfl, htail⟩
  · cases more with
    | nil => simpa using htail
    | cons e more =>
      obtain ⟨-, rfl⟩ := List.cons.inj htail
      simp at hb
  · cases more with
    | nil => simpa using htail.symm
    | cons e more =>
      obtain ⟨-, rfl⟩ := List.cons.inj htail
      simp at hd

/-- What the column is after a text that was walked from the start of a source: the
invariant of the walk. -/
structure ColumnLaw (source walked : List Char) (column : Nat) : Prop where
  first_line : '\n' ∉ walked → column = walked.length + 1
  later_line : ∀ before between, walked = before ++ '\n' :: between → '\n' ∉ between →
    (TopLevelBreak source before.length ∧ column = between.length) ∨
    (Enclosed source before.length ∧ column = between.length + 1)

theorem columnLaw_start (source : List Char) : ColumnLaw source [] Position.start.column := by
  constructor
  · intro _
    rfl
  · intro before between hsplit
    simp at hsplit

section Walk
variable {source walked text : List Char} {p : Position}

/-- A text whose line breaks are all enclosed leads to column one after each, and
moves the column along if it has none. -/
theorem ColumnLaw.past (h : ColumnLaw source walked p.column)
    (henclosed : ∀ front back, text = front ++ '\n' :: back →
      Enclosed source (walked ++ front).length) :
    ColumnLaw source (walked ++ text) (p.past text).column := by
  constructor
  · intro hnone
    have hwalked : '\n' ∉ walked := fun hmem => hnone (List.mem_append_left text hmem)
    have htext : '\n' ∉ text := fun hmem => hnone (List.mem_append_right walked hmem)
    rw [Position.column_past p htext, h.first_line hwalked, List.length_append]
    omega
  · intro before between hsplit hbetween
    have hinside : ∀ front, before = walked ++ front → text = front ++ '\n' :: between →
        Enclosed source before.length ∧ (p.past text).column = between.length + 1 := by
      intro front hbefore htext
      refine ⟨hbefore ▸ henclosed front between htext, ?_⟩
      rw [htext, Position.column_past_break p front hbetween]
    rcases List.append_eq_append_iff.1 hsplit with ⟨front, hbefore, htext⟩ | ⟨more, hwalked, hrest⟩
    · exact .inr (hinside front hbefore htext)
    · cases more with
      | nil => exact .inr (hinside [] (by simpa using hwalked.symm) hrest.symm)
      | cons c more =>
        -- The last break was walked before, so the text has none.
        have hback : between = more ++ text := (List.cons.inj hrest).2
        obtain rfl : '\n' = c := (List.cons.inj hrest).1
        have hmore : '\n' ∉ more := fun hmem => hbetween (hback ▸ List.mem_append_left text hmem)
        have htext : '\n' ∉ text := fun hmem => hbetween (hback ▸ List.mem_append_right more hmem)
        rw [Position.column_past p htext, hback, List.length_append]
        rcases h.later_line before more hwalked hmore with ⟨hplace, hcolumn⟩ | ⟨hplace, hcolumn⟩
        · exact .inl ⟨hplace, by omega⟩
        · exact .inr ⟨hplace, by omega⟩

/-- A line break between tokens leads to column zero. -/
theorem columnLaw_lineBreak (h : TopLevelBreak source walked.length) :
    ColumnLaw source (walked ++ ['\n']) 0 := by
  constructor
  · intro hnone
    simp at hnone
  · intro before between hsplit hbetween
    obtain ⟨rfl, rfl⟩ := last_break_unique hsplit.symm hbetween List.not_mem_nil
    exact .inl ⟨h, rfl⟩

end Walk

/-- One piece keeps the law. -/
theorem ColumnLaw.after {source rest : List Char} {pieces : List Piece} {piece : Piece}
    {p : Position} (h : ColumnLaw source (textOf pieces) p.column)
    (hcuts : Cuts source pieces (piece.text ++ rest)) (haccepts : piece.shape.Accepts piece.text) :
    ColumnLaw source (textOf pieces ++ piece.text) (p.after piece).column := by
  by_cases hbreak : piece.shape = .lineBreak
  · rw [Position.text_of_lineBreak haccepts hbreak] at hcuts ⊢
    rw [Position.after_lineBreak p hbreak]
    exact columnLaw_lineBreak ⟨pieces, rest, hcuts, rfl⟩
  · rw [Position.after_of_ne_lineBreak p hbreak]
    apply h.past
    intro front back htext
    have hmem : '\n' ∈ piece.text := by rw [htext]; simp
    have hshape := (shape_of_mem_break haccepts hmem).resolve_left hbreak
    refine ⟨pieces, _, _, hcuts, .closed hshape haccepts, ?_, ?_⟩
    · simp
    · rw [htext]
      simp

/-- Every run of pieces from the start of a source keeps the law. -/
theorem columnLaw_afterAll {source rest : List Char} {pieces : List Piece}
    (h : Cuts source pieces rest) :
    ColumnLaw source (textOf pieces) (Position.start.afterAll pieces).column := by
  induction pieces using List.reverseRecOn generalizing rest with
  | nil => exact columnLaw_start source
  | append_singleton pieces piece ih =>
    obtain ⟨middle, hfirst, hlast⟩ := h.of_append
    obtain ⟨after, rfl, hfits, -⟩ := hlast.of_cons
    rw [Position.afterAll_concat, textOf_append, textOf_cons, textOf_nil, List.append_nil]
    exact (ih hfirst).after hfirst hfits.accepts

theorem Counted.of_walk {source walked rest : List Char} {line column : Nat}
    (hsource : walked ++ rest = source) (hline : line = 1 + walked.count '\n')
    (hcolumn : ColumnLaw source walked column) : Counted source walked.length line column := by
  have htake : source.take walked.length = walked := by rw [← hsource, List.take_left]
  refine ⟨?_, ?_, ?_, ?_⟩
  · rw [← hsource, List.length_append]
    omega
  · rw [htake, hline]
  · rw [htake]
    exact hcolumn.first_line
  · intro before between hsplit hbetween
    rw [htake] at hsplit
    rcases hcolumn.later_line before between hsplit hbetween with ⟨hplace, hc⟩ | ⟨hplace, hc⟩
    · exact .inl ⟨hplace, hplace.not_enclosed, hc⟩
    · exact .inr ⟨hplace, fun htop => htop.not_enclosed hplace, hc⟩

/-- The law at the end of a run of pieces. -/
theorem counted_afterAll {source rest : List Char} {pieces : List Piece}
    (h : Cuts source pieces rest) :
    Counted source (Position.start.afterAll pieces).offset (Position.start.afterAll pieces).line
      (Position.start.afterAll pieces).column := by
  rw [Position.offset_afterAll _ h.wellShaped, Position.line_afterAll _ h.wellShaped]
  have hcounted := Counted.of_walk h.textOf_append rfl (columnLaw_afterAll h)
  simpa [Position.start] using hcounted

theorem counted_of_mem_stream {source : List Char} {pieces : List Piece}
    (h : Cuts source pieces []) {t : Token} (ht : t ∈ stream pieces) :
    Counted source t.span.stop t.line t.column := by
  rcases List.mem_append.1 ht with ht | ht
  · obtain ⟨before, piece, rest, kind, rfl, -, rfl⟩ := mem_placed ht
    rw [List.append_cons] at h
    obtain ⟨middle, hfirst, -⟩ := h.of_append
    exact counted_afterAll hfirst
  · rw [List.mem_singleton.1 ht]
    exact counted_afterAll h

/-- The characters that are read before a fault is noticed keep the law. -/
theorem columnLaw_blamed {source rest : List Char} {pieces : List Piece} {cause : LexCause}
    (h : Cuts source pieces rest) (hblames : Blames cause rest) :
    ColumnLaw source (textOf pieces ++ cause.blamed rest)
      ((Position.start.afterAll pieces).past (cause.blamed rest)).column := by
  apply (columnLaw_afterAll h).past
  intro front back htext
  have hunclosed : cause = .unterminatedString ∨ cause = .unterminatedComment →
      cause.blamed rest = rest → Enclosed source (textOf pieces ++ front).length := by
    intro hcause hall
    refine ⟨pieces, rest, rest.length, h, .unclosed hcause hblames, by simp, ?_⟩
    rw [← hall, htext]
    simp
  cases hblames with
  | @unexpected c tail hclass _ =>
    have hbreak : '\n' ∈ [c] := by
      change [c] = _ at htext
      rw [htext]
      simp
    exact absurd (List.mem_singleton.1 hbreak).symm hclass.2.1
  | openString _ _ => exact hunclosed (.inl rfl) rfl
  | openComment _ => exact hunclosed (.inr rfl) rfl

theorem blamed_prefix {cause : LexCause} {text : List Char} (h : Blames cause text) :
    cause.blamed text <+: text := by
  cases h with
  | unexpected _ _ => exact List.take_prefix _ _
  | openString _ _ => exact List.prefix_rfl
  | openComment _ => exact List.prefix_rfl

theorem counted_errorAfter {source rest : List Char} {pieces : List Piece} {cause : LexCause}
    (h : Cuts source pieces rest) (hblames : Blames cause rest) :
    Counted source ((textOf pieces).length + (cause.blamed rest).length)
      (errorAfter pieces cause rest).line (errorAfter pieces cause rest).column := by
  obtain ⟨after, hafter⟩ := blamed_prefix hblames
  have hsource : (textOf pieces ++ cause.blamed rest) ++ after = source := by
    rw [List.append_assoc, hafter]
    exact h.textOf_append
  rw [← List.length_append]
  refine Counted.of_walk hsource ?_ (columnLaw_blamed h hblames)
  change ((Position.start.afterAll pieces).past (cause.blamed rest)).line = _
  rw [Position.line_past, Position.line_afterAll _ h.wellShaped, List.count_append]
  exact Nat.add_assoc _ _ _

/-- Line and column of every token are those of its end. Those of an error belong to
the place behind the unexpected character, or to the end of the source. -/
theorem positions_counted (source : String) :
    (∀ tokens, lex source = .ok tokens →
      ∀ t ∈ tokens, Counted source.toList t.span.stop t.line t.column) ∧
    ∀ e, lex source = .error e → ∃ pieces rest,
      Cuts source.toList pieces rest ∧ Blames e.cause rest ∧
        Counted source.toList
          (match e.cause with
            | .unexpectedCharacter _ => (textOf pieces).length + 1
            | _ => source.toList.length)
          e.line e.column := by
  constructor
  · intro tokens hlex t ht
    obtain ⟨pieces, hcuts, rfl⟩ := lex_eq_ok_iff.1 hlex
    exact counted_of_mem_stream hcuts ht
  · intro e hlex
    obtain ⟨pieces, cause, rest, hcuts, hblames, rfl⟩ := lex_eq_error_iff.1 hlex
    refine ⟨pieces, rest, hcuts, hblames, ?_⟩
    have hcounted := counted_errorAfter hcuts hblames
    have hlength : source.toList.length = (textOf pieces).length + rest.length := by
      rw [← hcuts.textOf_append, List.length_append]
    rw [cause_errorAfter]
    cases hblames with
    | unexpected _ _ => exact hcounted
    | openString _ _ => exact hlength ▸ hcounted
    | openComment _ => exact hlength ▸ hcounted

/-- A string that runs over a line break, a line break behind it, and a comment that
never closes. -/
theorem positions_counted_over_breaks :
    lex "'a\nb\"\nx/*\n" = .error ⟨.unterminatedComment, 4, 1⟩ ∧
      (∃ pieces rest, Cuts "'a\nb\"\nx/*\n".toList pieces rest ∧
        Blames .unterminatedComment rest ∧ Counted "'a\nb\"\nx/*\n".toList 10 4 1) ∧
      lex "'a\nb\"\nx" = .ok [⟨.string, "'a\nb\"", ⟨0, 5, 2, 3⟩⟩, ⟨.identifier, "x", ⟨6, 7, 3, 1⟩⟩,
        ⟨.eof, "", ⟨7, 7, 3, 1⟩⟩] ∧
      Counted "'a\nb\"\nx".toList 5 2 3 := by
  have herror : lex "'a\nb\"\nx/*\n" = .error ⟨.unterminatedComment, 4, 1⟩ := by with_unfolding_all rfl
  have htokens : lex "'a\nb\"\nx" = .ok [⟨.string, "'a\nb\"", ⟨0, 5, 2, 3⟩⟩,
      ⟨.identifier, "x", ⟨6, 7, 3, 1⟩⟩, ⟨.eof, "", ⟨7, 7, 3, 1⟩⟩] := by with_unfolding_all rfl
  exact ⟨herror, (positions_counted _).2 _ herror, htokens,
    (positions_counted _).1 _ htokens _ List.mem_cons_self⟩

end SurfaceLanguage.Lexing
