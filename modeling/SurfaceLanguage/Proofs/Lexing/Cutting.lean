import SurfaceLanguage.Lexing.Lex
import SurfaceLanguage.Proofs.Lexing.Blame

/-!
# Longest pieces and the cutting of a source

The longest match of the grammar and the fit of a piece are the same thing. From
this a source has at most one way to be cut, `cutAll` follows it as far as it
goes, and `lex` succeeds or fails with it. The two statements about `lex` at the
end are what the laws of the lexer are derived from.
-/
namespace SurfaceLanguage.Lexing

theorem IsNumeral.append_digit {text : List Char} {c : Char} (h : IsNumeral text)
    (hc : isDigit c = true) : IsNumeral (text ++ [c]) := by
  refine ⟨by simp, List.forall_mem_append.2 ⟨h.2, ?_⟩⟩
  exact List.forall_mem_singleton.2 (isDigit_iff.1 hc)

/-- A character that lengthens a piece does so within the grammar. -/
theorem exists_longer {p : Piece} {c : Char} (h : p.shape.Accepts p.text)
    (hgrows : p.grows c = true) (hslash : p.text = ['/'] → c ≠ '*') :
    ∃ shape : Shape, shape.Accepts (p.text ++ [c]) := by
  obtain ⟨shape, text⟩ := p
  cases shape with
  | blank => cases hgrows
  | lineBreak => cases hgrows
  | blockComment => cases hgrows
  | string => cases hgrows
  | lineComment =>
    obtain ⟨body, hbody, rfl⟩ := h
    refine ⟨.lineComment, body ++ [c], ?_, rfl⟩
    have hc : c ≠ '\n' := bne_iff_ne.1 hgrows
    simp [hbody, hc.symm]
  | number =>
    rcases h with hwhole | ⟨whole, places, hwhole, hplaces, rfl⟩
    · exact ⟨.number, .inl (hwhole.append_digit hgrows)⟩
    · exact ⟨.number, .inr ⟨whole, places ++ [c], hwhole, hplaces.append_digit hgrows, by simp⟩⟩
  | word =>
    obtain ⟨first, part, hfirst, hpart, rfl⟩ := h
    refine ⟨.word, first, part ++ [c], hfirst, List.forall_mem_append.2 ⟨hpart, ?_⟩, rfl⟩
    exact List.forall_mem_singleton.2 (isWordPart_iff.1 hgrows)
  | symbol s =>
    simp only [Piece.grows, joins, Bool.or_eq_true, Bool.and_eq_true, List.any_eq_true,
      beq_iff_eq] at hgrows
    rcases hgrows with ⟨row, hrow, htext⟩ | ⟨rfl, rfl | rfl⟩
    · exact ⟨.symbol row.2, htext ▸ Symbol.mem_texts_iff.2 hrow⟩
    · exact ⟨.lineComment, [], by simp, rfl⟩
    · exact absurd rfl (hslash rfl)

/-- A fraction behind a whole number makes a longer number of both. -/
theorem number_append_fraction {text rest : List Char} (h : Shape.number.Accepts text)
    (hpoint : '.' ∉ text) (hne : fraction rest ≠ []) :
    Shape.number.Accepts (text ++ fraction rest) := by
  have hwhole : IsNumeral text := by
    rcases h with hwhole | ⟨whole, places, -, -, rfl⟩
    · exact hwhole
    · simp at hpoint
  unfold fraction at hne ⊢
  split at hne
  · next tail =>
      have hplaces : tail.takeWhile isDigit ≠ [] := fun he => hne (by simp [he])
      rw [if_neg hplaces]
      exact .inr ⟨text, _, hwhole, isNumeral_takeWhile hplaces, rfl⟩
  · exact absurd rfl hne

theorem Piece.IsLongest.stops {p : Piece} {rest : List Char} (h : p.IsLongest (p.text ++ rest))
    (hslash : p.text = ['/'] → rest.head? ≠ some '*') : p.Stops rest := by
  constructor
  · intro c hc
    obtain ⟨tail, rfl⟩ : ∃ tail, rest = c :: tail := List.head?_eq_some_iff.1 hc
    rw [← Bool.not_eq_true]
    intro hgrows
    have hstar : p.text = ['/'] → c ≠ '*' := by
      intro he hc
      exact hslash he (by rw [hc]; rfl)
    obtain ⟨shape, hshape⟩ := exists_longer h.accepts hgrows hstar
    have hle := h.longest shape _ hshape ⟨tail, by simp⟩
    rw [List.length_append, List.length_singleton] at hle
    omega
  · intro hnumber hpoint
    by_contra hne
    have haccepts : Shape.number.Accepts p.text := hnumber ▸ h.accepts
    have hlonger := number_append_fraction haccepts hpoint hne
    have hfront : p.text ++ fraction rest <+: p.text ++ rest := by
      rw [List.prefix_append_right_inj]
      exact fraction_prefix rest
    have hle := h.longest _ _ hlonger hfront
    have hpos := List.length_pos_iff.2 hne
    rw [List.length_append] at hle
    omega

/-- A piece that stops at a rest stops at every front of it. -/
theorem Piece.Stops.of_front {p : Piece} {xs ys : List Char} (h : p.Stops ys) (hpre : xs <+: ys) :
    p.Stops xs := by
  obtain ⟨more, rfl⟩ := hpre
  constructor
  · intro c hc
    have hfront : c ∈ (xs ++ more).head? := by simp [Option.mem_def.1 hc]
    exact h.front c hfront
  · intro hnumber hpoint
    rw [fraction_eq_nil_iff]
    intro d tail hxs
    exact fraction_eq_nil_iff.1 (h.whole hnumber hpoint) d (tail ++ more) (by rw [hxs]; rfl)

theorem Piece.stops_nil (p : Piece) : p.Stops [] := ⟨nofun, fun _ _ => rfl⟩

theorem text_ne_nil {p : Piece} (h : p.shape.Accepts p.text) : p.text ≠ [] := by
  intro hnil
  have hstep := firstStep?_of_fits ⟨h, Piece.stops_nil p⟩
  rw [hnil] at hstep
  cases hstep

/-- A slash in front of a star is never a piece: the two open a comment. -/
theorem Piece.Fits.not_slash_star {p : Piece} {rest : List Char} (h : p.Fits rest)
    (hslash : p.text = ['/']) : rest.head? ≠ some '*' := by
  intro hstar
  obtain ⟨tail, rfl⟩ := List.head?_eq_some_iff.1 hstar
  have hstep := firstStep?_of_fits h
  rw [hslash] at hstep
  have hcut : cutBlockComment tail = .piece p ('*' :: tail) := Option.some.inj hstep
  unfold cutBlockComment at hcut
  split at hcut
  · injection hcut with hp
    rw [← hp] at hslash
    simp at hslash
  · cases hcut

/-- The longest match, decided at the border: an accepted text that is followed by
nothing that lengthens it is the longest of all. -/
theorem isLongest_iff_fits {p : Piece} {rest : List Char} :
    (p.IsLongest (p.text ++ rest) ∧ (p.text = ['/'] → rest.head? ≠ some '*')) ↔ p.Fits rest := by
  constructor
  · intro h
    exact ⟨h.1.accepts, h.1.stops h.2⟩
  · intro hfits
    refine ⟨⟨hfits.accepts, List.prefix_append p.text rest, ?_⟩, hfits.not_slash_star⟩
    intro shape other haccepts hother
    by_contra hlonger
    -- The longer text would begin with `p` and also be a first step of its own.
    obtain ⟨more, rfl⟩ := List.prefix_of_prefix_length_le (List.prefix_append p.text rest) hother
      (by omega)
    have hmore : more <+: rest := (List.prefix_append_right_inj p.text).1 hother
    have hshort := firstStep?_of_fits ⟨hfits.accepts, hfits.stops.of_front hmore⟩
    have hlong := firstStep?_of_fits (p := ⟨shape, p.text ++ more⟩) ⟨haccepts, Piece.stops_nil _⟩
    rw [List.append_nil, hshort] at hlong
    simp only [Option.some.injEq, Step.piece.injEq] at hlong
    simp [hlong.2] at hlonger

/-! A source has one way to be cut, piece by piece. -/

theorem Cuts.cons_of_fits {p : Piece} {text rest : List Char} {pieces : List Piece}
    (h : p.Fits text) (hcuts : Cuts text pieces rest) : Cuts (p.text ++ text) (p :: pieces) rest :=
  .cons (isLongest_iff_fits.2 h).1 (isLongest_iff_fits.2 h).2 hcuts

theorem Cuts.of_nil {text rest : List Char} (h : Cuts text [] rest) : text = rest := by
  cases h
  rfl

theorem Cuts.of_cons {p : Piece} {text rest : List Char} {pieces : List Piece}
    (h : Cuts text (p :: pieces) rest) :
    ∃ after, text = p.text ++ after ∧ p.Fits after ∧ Cuts after pieces rest := by
  cases h with
  | @cons _ after _ _ hlongest hslash hcuts =>
    exact ⟨after, rfl, isLongest_iff_fits.1 ⟨hlongest, hslash⟩, hcuts⟩

theorem Cuts.of_append {text rest : List Char} {ps qs : List Piece}
    (h : Cuts text (ps ++ qs) rest) :
    ∃ middle, Cuts text ps middle ∧ Cuts middle qs rest := by
  induction ps generalizing text with
  | nil => exact ⟨text, .nil text, h⟩
  | cons p ps ih =>
    obtain ⟨after, rfl, hfits, hcuts⟩ := Cuts.of_cons h
    obtain ⟨middle, hfirst, hlast⟩ := ih hcuts
    exact ⟨middle, .cons_of_fits hfits hfirst, hlast⟩

theorem Piece.Fits.unique {p q : Piece} {xs ys : List Char} (hp : p.Fits xs) (hq : q.Fits ys)
    (h : p.text ++ xs = q.text ++ ys) : p = q ∧ xs = ys := by
  have hstep := (firstStep?_of_fits hp).symm.trans (h ▸ firstStep?_of_fits hq)
  simpa using hstep

/-- Of two cuttings of a text, one goes on where the other ends. -/
theorem Cuts.comparable {text xs ys : List Char} {ps qs : List Piece} (hps : Cuts text ps xs)
    (hqs : Cuts text qs ys) :
    (∃ more, qs = ps ++ more ∧ Cuts xs more ys) ∨ (∃ more, ps = qs ++ more ∧ Cuts ys more xs) := by
  induction ps generalizing text qs with
  | nil =>
    cases hps
    exact .inl ⟨qs, rfl, hqs⟩
  | cons p ps ih =>
    cases qs with
    | nil =>
      cases hqs
      exact .inr ⟨p :: ps, rfl, hps⟩
    | cons q qs =>
      obtain ⟨after, rfl, hp, hps⟩ := Cuts.of_cons hps
      obtain ⟨after', htext, hq, hqs⟩ := Cuts.of_cons hqs
      obtain ⟨rfl, rfl⟩ := hp.unique hq htext
      rcases ih hps hqs with ⟨more, rfl, hmore⟩ | ⟨more, rfl, hmore⟩
      · exact .inl ⟨more, rfl, hmore⟩
      · exact .inr ⟨more, rfl, hmore⟩

/-- Nothing can be cut where something can be blamed, nor at the end. -/
theorem Cuts.eq_nil_of_stuck {text rest : List Char} {pieces : List Piece}
    (h : Cuts text pieces rest) (hstuck : text = [] ∨ ∃ cause, Blames cause text) :
    pieces = [] ∧ rest = text := by
  cases pieces with
  | nil =>
    cases h
    exact ⟨rfl, rfl⟩
  | cons p pieces =>
    obtain ⟨after, rfl, hfits, -⟩ := Cuts.of_cons h
    rcases hstuck with hnil | ⟨cause, hblames⟩
    · exact absurd (List.append_eq_nil_iff.1 hnil).1 (text_ne_nil hfits.accepts)
    · exact absurd hfits hblames.not_fits

/-- The cuttings that can go no further are one and the same. -/
theorem Cuts.unique {text xs ys : List Char} {ps qs : List Piece} (hps : Cuts text ps xs)
    (hxs : xs = [] ∨ ∃ cause, Blames cause xs) (hqs : Cuts text qs ys)
    (hys : ys = [] ∨ ∃ cause, Blames cause ys) : ps = qs ∧ xs = ys := by
  rcases hps.comparable hqs with ⟨more, rfl, hmore⟩ | ⟨more, rfl, hmore⟩
  · obtain ⟨rfl, rfl⟩ := hmore.eq_nil_of_stuck hxs
    exact ⟨(List.append_nil ps).symm, rfl⟩
  · obtain ⟨rfl, rfl⟩ := hmore.eq_nil_of_stuck hys
    exact ⟨List.append_nil qs, rfl⟩

theorem cutAll_of_fits {p : Piece} {rest : List Char} (h : p.Fits rest) :
    cutAll (p.text ++ rest) = (cutAll rest).cons p := by
  have hstep := firstStep?_of_fits h
  cases htext : p.text ++ rest with
  | nil =>
    rw [htext] at hstep
    cases hstep
  | cons c tail =>
    rw [htext] at hstep
    have hcut : cut c tail = .piece p rest := Option.some.inj hstep
    rw [cutAll]
    split
    · next hpiece =>
        rw [hcut] at hpiece
        cases hpiece
        rfl
    · next hfault =>
        rw [hcut] at hfault
        cases hfault

theorem cutAll_of_blames {cause : LexCause} {text : List Char} (h : Blames cause text) :
    cutAll text = ⟨[], some ⟨cause, cause.blamed text⟩⟩ := by
  have hstep := firstStep?_of_blames h
  cases text with
  | nil => cases hstep
  | cons c tail =>
    have hcut : cut c tail = .fault ⟨cause, cause.blamed (c :: tail)⟩ := Option.some.inj hstep
    rw [cutAll]
    split
    · next hpiece =>
        rw [hcut] at hpiece
        cases hpiece
    · next hfault =>
        rw [hcut] at hfault
        cases hfault
        rfl

theorem cutAll_of_cuts {text rest : List Char} {pieces : List Piece} (h : Cuts text pieces rest) :
    cutAll text = ⟨pieces ++ (cutAll rest).pieces, (cutAll rest).fault?⟩ := by
  induction h with
  | nil rest => rfl
  | cons hlongest hslash _ ih =>
    rw [cutAll_of_fits (isLongest_iff_fits.1 ⟨hlongest, hslash⟩), ih]
    rfl

/-- Every text is cut up to its end or up to something that can be blamed. -/
theorem exists_cuts (text : List Char) :
    ∃ pieces rest, Cuts text pieces rest ∧ (rest = [] ∨ ∃ cause, Blames cause rest) := by
  fun_induction cutAll text with
  | case1 => exact ⟨[], [], .nil [], .inl rfl⟩
  | case2 c text p rest hcut ih =>
    obtain ⟨pieces, last, hcuts, hlast⟩ := ih
    have hstep : firstStep? (c :: text) = some (.piece p rest) := congrArg some hcut
    obtain ⟨hfits, htext⟩ := firstStep?_eq_piece_iff.1 hstep
    rw [htext]
    exact ⟨p :: pieces, last, .cons_of_fits hfits hcuts, hlast⟩
  | case3 c text found hcut =>
    have hstep : firstStep? (c :: text) = some (.fault found) := congrArg some hcut
    exact ⟨[], c :: text, .nil _, .inr ⟨found.cause, (firstStep?_eq_fault_iff.1 hstep).1⟩⟩

/-- The tokens of consecutive pieces from a position on, closed by the end of the
input. -/
def streamFrom (p : Position) (pieces : List Piece) : List Token :=
  placed p pieces ++ [tokenBetween .eof [] (p.afterAll pieces) (p.afterAll pieces)]

theorem streamFrom_of_trivia {piece : Piece} (h : piece.kind? = none) (p : Position)
    (pieces : List Piece) : streamFrom p (piece :: pieces) = streamFrom (p.after piece) pieces := by
  rw [streamFrom, placed, h]
  rfl

theorem streamFrom_of_token {piece : Piece} {kind : TokenKind} (h : piece.kind? = some kind)
    (p : Position) (pieces : List Piece) :
    streamFrom p (piece :: pieces) =
      tokenBetween kind piece.text p (p.after piece) :: streamFrom (p.after piece) pieces := by
  rw [streamFrom, placed, h]
  rfl

theorem placed_append (p : Position) (ps qs : List Piece) :
    placed p (ps ++ qs) = placed p ps ++ placed (p.afterAll ps) qs := by
  induction ps generalizing p with
  | nil => rfl
  | cons piece ps ih =>
    rw [List.cons_append, placed, placed]
    cases piece.kind? with
    | none => exact ih _
    | some kind => exact congrArg _ (ih _)

theorem streamFrom_append (p : Position) (ps qs : List Piece) :
    streamFrom p (ps ++ qs) = placed p ps ++ streamFrom (p.afterAll ps) qs := by
  have hall : p.afterAll (ps ++ qs) = (p.afterAll ps).afterAll qs := List.foldl_append
  rw [streamFrom, streamFrom, placed_append, hall, List.append_assoc]

/-- The tokens of a source that was cut into these pieces. -/
def stream (pieces : List Piece) : List Token := streamFrom .start pieces

/-- The error of a source that was cut into these pieces and can be blamed for the
rest. -/
def errorAfter (pieces : List Piece) (cause : LexCause) (rest : List Char) : LexError :=
  Fault.error ⟨cause, cause.blamed rest⟩ (Position.start.afterAll pieces)

@[simp] theorem cause_errorAfter (pieces : List Piece) (cause : LexCause) (rest : List Char) :
    (errorAfter pieces cause rest).cause = cause := rfl

theorem lex_of_cuts {source : String} {pieces : List Piece} (h : Cuts source.toList pieces []) :
    lex source = .ok (stream pieces) := by
  rw [lex, cutAll_of_cuts h, cutAll]
  simp [Cutting.tokens, stream, streamFrom]

theorem lex_of_blames {source : String} {pieces : List Piece} {rest : List Char} {cause : LexCause}
    (h : Cuts source.toList pieces rest) (hblames : Blames cause rest) :
    lex source = .error (errorAfter pieces cause rest) := by
  rw [lex, cutAll_of_cuts h, cutAll_of_blames hblames]
  simp [Cutting.tokens, errorAfter]

theorem lex_eq_ok_iff {source : String} {tokens : List Token} :
    lex source = .ok tokens ↔ ∃ pieces, Cuts source.toList pieces [] ∧ tokens = stream pieces := by
  constructor
  · intro h
    obtain ⟨pieces, rest, hcuts, rfl | ⟨cause, hblames⟩⟩ := exists_cuts source.toList
    · rw [lex_of_cuts hcuts] at h
      exact ⟨pieces, hcuts, (Except.ok.inj h).symm⟩
    · rw [lex_of_blames hcuts hblames] at h
      cases h
  · intro h
    obtain ⟨pieces, hcuts, rfl⟩ := h
    exact lex_of_cuts hcuts

theorem lex_eq_error_iff {source : String} {e : LexError} :
    lex source = .error e ↔ ∃ pieces cause rest, Cuts source.toList pieces rest ∧
      Blames cause rest ∧ e = errorAfter pieces cause rest := by
  constructor
  · intro h
    obtain ⟨pieces, rest, hcuts, rfl | ⟨cause, hblames⟩⟩ := exists_cuts source.toList
    · rw [lex_of_cuts hcuts] at h
      cases h
    · rw [lex_of_blames hcuts hblames] at h
      exact ⟨pieces, cause, rest, hcuts, hblames, (Except.error.inj h).symm⟩
  · intro h
    obtain ⟨pieces, cause, rest, hcuts, hblames, rfl⟩ := h
    exact lex_of_blames hcuts hblames

end SurfaceLanguage.Lexing
