import SurfaceLanguage.Proofs.Lexing.Closing
import SurfaceLanguage.Proofs.Lexing.Shapes

/-!
# Where a piece stops

A piece fits in front of a rest when its text is of its shape and nothing of the
rest could lengthen it. Only the first character of the rest matters, with one
exception: a whole number is lengthened by a point only if a digit follows. This
turns the longest match, a statement about every text of every shape, into a look
at no more than two characters.

The main statements are that `cut` takes a piece exactly when it fits, with
whatever follows it as the rest.
-/
namespace SurfaceLanguage.Lexing

/-- The characters which a symbol's text may not be followed by: those that spell
a longer symbol, and those that turn a slash into the start of a comment. -/
def joins (text : List Char) (c : Char) : Bool :=
  Symbol.spellings.any (·.1 == text ++ [c]) || (text == ['/'] && (c == '/' || c == '*'))

/-- Behind a sign nothing is spelled but what the rows say. -/
theorem spells_nothing {c d : Char} {more : List Char} {tails : List (List Char)}
    (honly : ∀ row ∈ Symbol.spellings, row.1.head? = some c → row.1.tail ∈ tails)
    (hd : more ++ [d] ∉ tails) : Symbol.spellings.any (·.1 == c :: more ++ [d]) = false := by
  rw [← Bool.not_eq_true]
  intro hany
  obtain ⟨sign, hrow⟩ := Symbol.exists_symbol_of_any hany
  exact hd (honly _ hrow rfl)

/-- Only a slash can join what it spells nothing with. -/
theorem joins_eq_false {c d : Char} {more : List Char} {tails : List (List Char)} (hc : c ≠ '/')
    (honly : ∀ row ∈ Symbol.spellings, row.1.head? = some c → row.1.tail ∈ tails)
    (hd : more ++ [d] ∉ tails) : joins (c :: more) d = false := by
  rw [joins, spells_nothing honly hd, Bool.false_or, Bool.and_eq_false_iff]
  exact .inl (by simp [hc])

/-- The characters that lengthen a piece when one of them follows it. -/
def Piece.grows (p : Piece) (c : Char) : Bool :=
  match p.shape with
  | .blank | .lineBreak | .blockComment | .string => false
  | .lineComment => c != '\n'
  | .number => isDigit c
  | .word => isWordPart c
  | .symbol _ => joins p.text c

/-- Nothing of the rest belongs to the piece. -/
structure Piece.Stops (p : Piece) (rest : List Char) : Prop where
  front : ∀ c ∈ rest.head?, p.grows c = false
  whole : p.shape = .number → '.' ∉ p.text → fraction rest = []

/-- Only a number looks further than to the next character. -/
theorem Piece.stops_of_grows {p : Piece} {rest : List Char} (hshape : p.shape ≠ .number)
    (h : ∀ c ∈ rest.head?, p.grows c = false) : p.Stops rest :=
  ⟨h, fun hnumber => absurd hnumber hshape⟩

/-- White space, strings and block comments have their own end, whatever follows. -/
theorem Piece.stops_of_closed {p : Piece} (rest : List Char)
    (h : p.shape ∈ [Shape.blank, .lineBreak, .blockComment, .string]) : p.Stops rest := by
  have hshape : p.shape ≠ .number := by
    intro hnumber
    rw [hnumber] at h
    exact absurd h (by decide)
  apply Piece.stops_of_grows hshape
  intro c _
  simp only [List.mem_cons, List.not_mem_nil, or_false] at h
  rcases h with h | h | h | h <;> simp only [Piece.grows, h]

structure Piece.Fits (p : Piece) (rest : List Char) : Prop where
  accepts : p.shape.Accepts p.text
  stops : p.Stops rest

theorem fits_symbol {sign : Symbol} {text rest : List Char} (hrow : (text, sign) ∈ Symbol.spellings)
    (hrest : ∀ d ∈ rest.head?, joins text d = false) : Piece.Fits ⟨.symbol sign, text⟩ rest :=
  ⟨Symbol.mem_texts_iff.2 hrow, Piece.stops_of_grows Shape.noConfusion hrest⟩

/-- The first step in a text, if there is one to take. -/
def firstStep? : List Char → Option Step
  | [] => none
  | c :: rest => some (cut c rest)

section Runs
variable {p : Char → Bool} {xs rest : List Char}

theorem takeWhile_append_of_stop (hxs : ∀ c ∈ xs, p c = true)
    (hrest : ∀ c ∈ rest.head?, p c = false) : (xs ++ rest).takeWhile p = xs := by
  rw [List.takeWhile_append_of_pos hxs]
  cases rest with
  | nil => simp
  | cons c rest => simp [hrest c rfl]

theorem head?_dropWhile_stop (p : Char → Bool) (xs : List Char) :
    ∀ c ∈ (xs.dropWhile p).head?, p c = false := by
  intro c hc
  have h := List.head?_dropWhile_not p xs
  rw [Option.mem_def.1 hc] at h
  exact h

end Runs

@[simp] theorem Step.take_append (shape : Shape) (text rest : List Char) :
    Step.take shape text (text ++ rest) = .piece ⟨shape, text⟩ rest := by
  simp [Step.take]

/-! The first character decides the branch, unless it begins a comment. -/

section Branches
variable {c : Char} {rest : List Char}

theorem cut_blank (h : isBlank c = true) : cut c rest = .piece ⟨.blank, [c]⟩ rest := by
  have hc : c ≠ '/' := by
    intro hc
    subst hc
    simp [isBlank] at h
  rw [cut.eq_3 _ _ (fun _ he _ => hc he) (fun _ he _ => hc he), if_pos h]

theorem cut_quote (h : isQuote c = true) : cut c rest = cutString c rest := by
  have hc : c = '"' ∨ c = '\'' := by simpa [isQuote] using h
  rcases hc with rfl | rfl <;> rfl

theorem cut_digit (h : isDigit c = true) : cut c rest = cutNumber (c :: rest) := by
  obtain ⟨hblank, hbreak, hquote⟩ := plain_of_class h (by decide)
  have hc : c ≠ '/' := by
    intro hc
    subst hc
    simp [isDigit] at h
  rw [cut.eq_3 _ _ (fun _ he _ => hc he) (fun _ he _ => hc he)]
  simp [hblank, hbreak, hquote, h]

theorem cut_wordStart (h : isWordStart c = true) :
    cut c rest = .take .word (c :: rest.takeWhile isWordPart) (c :: rest) := by
  obtain ⟨hblank, hbreak, hquote⟩ := plain_of_class h (by decide)
  have hc : c ≠ '/' := by
    intro hc
    subst hc
    simp [isWordStart] at h
  rw [cut.eq_3 _ _ (fun _ he _ => hc he) (fun _ he _ => hc he)]
  simp [hblank, hbreak, hquote, isDigit_of_isWordStart h, h]

theorem cut_unclassed (h : Unclassed c)
    (hcomment : c = '/' → ∀ d ∈ rest.head?, d ≠ '/' ∧ d ≠ '*') :
    cut c rest = cutSymbol c rest := by
  have hline : ∀ body, c = '/' → rest = '/' :: body → False := by
    intro body hc hrest
    subst hrest
    exact (hcomment hc '/' rfl).1 rfl
  have hblock : ∀ body, c = '/' → rest = '*' :: body → False := by
    intro body hc hrest
    subst hrest
    exact (hcomment hc '*' rfl).2 rfl
  obtain ⟨hblank, hbreak, hquote, hdigit, hword⟩ := unclassed_iff.1 h
  rw [cut.eq_3 _ _ hline hblock]
  simp [hblank, hbreak, hquote, hdigit, hword]

end Branches

theorem unclassed_of_mem_signs {c : Char} (h : c ∈ Symbol.signs) : Unclassed c := by
  have hall : Symbol.signs.all (fun d => Unclassed d) = true := by decide
  exact of_decide_eq_true (List.all_eq_true.1 hall c h)

theorem not_mem_spellings_of_joins {text : List Char} {c : Char} (h : joins text c = false)
    (s : Symbol) : (text ++ [c], s) ∉ Symbol.spellings := by
  intro hmem
  simp only [joins, Bool.or_eq_false_iff, List.any_eq_false] at h
  exact h.1 _ hmem (by simp)

/-! A text of a shape, in front of a rest that it stops at, is cut off as a piece. -/

section Taken
variable {rest : List Char}

theorem cut_lineComment {body : List Char} (hbody : '\n' ∉ body)
    (hrest : ∀ c ∈ rest.head?, (c != '\n') = false) :
    cut '/' ('/' :: (body ++ rest)) = .piece ⟨.lineComment, '/' :: '/' :: body⟩ rest := by
  have hall : ∀ c ∈ body, (c != '\n') = true := by
    intro c hc
    exact bne_iff_ne.2 (fun he => hbody (he ▸ hc))
  rw [cut.eq_1, takeWhile_append_of_stop hall hrest]
  exact Step.take_append .lineComment ('/' :: '/' :: body) rest

theorem cut_blockComment {inner : List Char} (h : ClosesOnlyAtEnd (inner ++ ['*', '/'])) :
    cut '/' ('*' :: (inner ++ '*' :: '/' :: rest)) =
      .piece ⟨.blockComment, '/' :: '*' :: (inner ++ ['*', '/'])⟩ rest := by
  rw [cut.eq_2, cutBlockComment, closeComment_append_close h]

theorem cut_string {quote : Char} {inner : List Char} (hquote : isQuote quote = true)
    (h : '"' ∉ inner) :
    cut quote (inner ++ '"' :: rest) = .piece ⟨.string, quote :: (inner ++ ['"'])⟩ rest := by
  rw [cut_quote hquote, cutString, closeString_append_quote h]

theorem cut_word {c : Char} {part : List Char} (hc : isWordStart c = true)
    (hpart : ∀ d ∈ part, isWordPart d = true) (hrest : ∀ d ∈ rest.head?, isWordPart d = false) :
    cut c (part ++ rest) = .piece ⟨.word, c :: part⟩ rest := by
  rw [cut_wordStart hc, takeWhile_append_of_stop hpart hrest]
  exact Step.take_append .word (c :: part) rest

theorem cut_symbol {c : Char} {text : List Char} {s : Symbol}
    (hrow : (c :: text, s) ∈ Symbol.spellings)
    (hrest : ∀ d ∈ rest.head?, joins (c :: text) d = false) :
    cut c (text ++ rest) = .piece ⟨.symbol s, c :: text⟩ rest := by
  have hcomment : c = '/' → ∀ d ∈ (text ++ rest).head?, d ≠ '/' ∧ d ≠ '*' := by
    intro hc d hd
    subst hc
    obtain rfl := Symbol.eq_nil_of_alone (by decide) hrow
    have hjoin := hrest d hd
    simp only [joins, Bool.or_eq_false_iff, BEq.rfl, Bool.true_and, beq_eq_false_iff_ne] at hjoin
    exact hjoin.2
  have hread : Symbol.read? (c :: (text ++ rest)) = some (c :: text, s) :=
    Symbol.read?_append hrow (fun d hd => not_mem_spellings_of_joins (hrest d hd))
  rw [cut_unclassed (unclassed_of_mem_signs (Symbol.mem_signs_of_mem hrow)) hcomment, cutSymbol,
    hread]
  exact Step.take_append (.symbol s) (c :: text) rest

theorem fraction_eq_nil_iff {text : List Char} :
    fraction text = [] ↔ ∀ d tail, text = '.' :: d :: tail → isDigit d = false := by
  unfold fraction
  split
  · next tail =>
      cases tail with
      | nil => simp
      | cons d tail => simp
  · next hpoint => simpa using fun d tail he => absurd he (hpoint _)

theorem fraction_point {places : List Char} (h : IsNumeral places)
    (hrest : ∀ c ∈ rest.head?, isDigit c = false) :
    fraction ('.' :: (places ++ rest)) = '.' :: places := by
  rw [fraction, takeWhile_append_of_stop h.all_isDigit hrest, if_neg h.1]

theorem cutNumber_whole {text : List Char} (h : IsNumeral text)
    (hrest : ∀ c ∈ rest.head?, isDigit c = false) (hwhole : fraction rest = []) :
    cutNumber (text ++ rest) = .piece ⟨.number, text⟩ rest := by
  rw [cutNumber, takeWhile_append_of_stop h.all_isDigit hrest, List.drop_left, hwhole,
    List.append_nil]
  exact Step.take_append .number text rest

theorem cutNumber_point {whole places : List Char} (hwhole : IsNumeral whole)
    (hplaces : IsNumeral places) (hrest : ∀ c ∈ rest.head?, isDigit c = false) :
    cutNumber (whole ++ '.' :: (places ++ rest)) =
      .piece ⟨.number, whole ++ '.' :: places⟩ rest := by
  have hpoint : ∀ c ∈ ('.' :: (places ++ rest)).head?, isDigit c = false := by
    intro c hc
    obtain rfl : '.' = c := Option.some.inj hc
    decide
  rw [cutNumber, takeWhile_append_of_stop hwhole.all_isDigit hpoint, List.drop_left,
    fraction_point hplaces hrest]
  simpa using Step.take_append .number (whole ++ '.' :: places) rest

end Taken

theorem firstStep?_number {text rest : List Char} (hnumber : Shape.number.Accepts text)
    (hstops : Piece.Stops ⟨.number, text⟩ rest) :
    firstStep? (text ++ rest) = some (.piece ⟨.number, text⟩ rest) := by
  have hfront : ∀ c ∈ rest.head?, isDigit c = false := hstops.front
  rcases hnumber with hwhole | ⟨whole, places, hwhole, hplaces, rfl⟩
  · have hpoint : '.' ∉ text := fun hmem => absurd (hwhole.all_isDigit _ hmem) (by decide)
    have hcut := cutNumber_whole hwhole hfront (hstops.whole rfl hpoint)
    obtain ⟨c, digits, rfl⟩ := List.exists_cons_of_ne_nil hwhole.1
    rw [← hcut]
    exact congrArg some (cut_digit (hwhole.all_isDigit c List.mem_cons_self))
  · have hcut := cutNumber_point hwhole hplaces hfront
    obtain ⟨c, digits, rfl⟩ := List.exists_cons_of_ne_nil hwhole.1
    rw [← hcut, List.append_assoc]
    exact congrArg some (cut_digit (hwhole.all_isDigit c List.mem_cons_self))

/-- A piece that fits is what the first step takes. -/
theorem firstStep?_of_fits {p : Piece} {rest : List Char} (h : p.Fits rest) :
    firstStep? (p.text ++ rest) = some (.piece p rest) := by
  obtain ⟨shape, text⟩ := p
  obtain ⟨haccepts, hstops⟩ := h
  cases shape with
  | blank =>
    obtain ⟨c, hc, rfl⟩ := accepts_blank_iff.1 haccepts
    exact congrArg some (cut_blank hc)
  | lineBreak =>
    obtain rfl := haccepts
    rfl
  | lineComment =>
    obtain ⟨body, hbody, rfl⟩ := haccepts
    exact congrArg some (cut_lineComment hbody hstops.front)
  | blockComment =>
    obtain ⟨inner, hinner, rfl⟩ := haccepts
    simpa [firstStep?] using cut_blockComment hinner
  | string =>
    obtain ⟨quote, inner, hquote, hinner, rfl⟩ := accepts_string_iff.1 haccepts
    simpa [firstStep?] using cut_string hquote hinner
  | number => exact firstStep?_number haccepts hstops
  | word =>
    obtain ⟨c, part, hc, hpart, rfl⟩ := accepts_word_iff.1 haccepts
    exact congrArg some (cut_word hc hpart hstops.front)
  | symbol s =>
    have hrow := Symbol.mem_texts_iff.1 haccepts
    obtain ⟨c, tail, rfl⟩ := List.exists_cons_of_ne_nil (Symbol.spelling_ne_nil hrow)
    exact congrArg some (cut_symbol hrow hstops.front)

/-- A step that takes a piece takes one that fits. -/
def Step.Fitting : Step → Prop
  | .piece taken rest => taken.Fits rest
  | .fault _ => True

theorem Step.fitting_take_run {shape : Shape} {p : Char → Bool} (front : List Char)
    {xs : List Char} (haccepts : shape.Accepts (front ++ xs.takeWhile p)) (hshape : shape ≠ .number)
    (hgrows : ∀ c, (Piece.mk shape (front ++ xs.takeWhile p)).grows c = p c) :
    (Step.take shape (front ++ xs.takeWhile p) (front ++ xs)).Fitting := by
  have hsplit : front ++ xs = (front ++ xs.takeWhile p) ++ xs.dropWhile p := by
    rw [List.append_assoc, List.takeWhile_append_dropWhile]
  rw [hsplit, Step.take_append]
  refine ⟨haccepts, Piece.stops_of_grows hshape ?_⟩
  intro c hc
  rw [hgrows]
  exact head?_dropWhile_stop p xs c hc

theorem cutString_fitting {quote : Char} (h : isQuote quote = true) (rest : List Char) :
    (cutString quote rest).Fitting := by
  unfold cutString
  split
  · next hclose =>
      obtain ⟨inner, hinner, rfl⟩ := body_of_closeString hclose
      exact ⟨accepts_string_iff.2 ⟨quote, inner, h, hinner, rfl⟩, Piece.stops_of_closed _ (by simp)⟩
  · trivial

theorem cutBlockComment_fitting (rest : List Char) : (cutBlockComment rest).Fitting := by
  unfold cutBlockComment
  split
  · next hclose =>
      obtain ⟨inner, hinner, rfl⟩ := body_of_closeComment hclose
      exact ⟨⟨inner, hinner, rfl⟩, Piece.stops_of_closed _ (by simp)⟩
  · trivial

theorem cutNumber_fitting {c : Char} (h : isDigit c = true) (rest : List Char) :
    (cutNumber (c :: rest)).Fitting := by
  have hsplit := List.takeWhile_append_dropWhile (p := isDigit) (l := c :: rest)
  have hstop := head?_dropWhile_stop isDigit (c :: rest)
  have hwhole : IsNumeral ((c :: rest).takeWhile isDigit) := isNumeral_takeWhile (by simp [h])
  have hdrop : ((c :: rest).takeWhile isDigit ++ (c :: rest).dropWhile isDigit).drop
      ((c :: rest).takeWhile isDigit).length = (c :: rest).dropWhile isDigit := List.drop_left
  rw [hsplit] at hdrop
  rw [cutNumber, hdrop]
  generalize (c :: rest).takeWhile isDigit = whole at *
  generalize (c :: rest).dropWhile isDigit = after at *
  rw [← hsplit]
  by_cases hfraction : fraction after = []
  · rw [hfraction, List.append_nil, Step.take_append]
    exact ⟨.inl hwhole, ⟨hstop, fun _ _ => hfraction⟩⟩
  · -- A fraction that is there has digits, up to where its own run of them stops.
    unfold fraction at hfraction ⊢
    split at hfraction
    · next tail =>
        have hplaces : tail.takeWhile isDigit ≠ [] := fun he => hfraction (by simp [he])
        have hnumeral := isNumeral_takeWhile hplaces
        have htext : whole ++ '.' :: tail =
            (whole ++ '.' :: tail.takeWhile isDigit) ++ tail.dropWhile isDigit := by
          simp
        rw [if_neg hplaces, htext, Step.take_append]
        refine ⟨.inr ⟨_, _, hwhole, hnumeral, rfl⟩, ⟨head?_dropWhile_stop isDigit tail, ?_⟩⟩
        intro _ hpoint
        simp at hpoint
    · exact absurd rfl hfraction

theorem cutSymbol_fitting {c : Char} {rest : List Char}
    (hline : ∀ body, c = '/' → rest = '/' :: body → False)
    (hblock : ∀ body, c = '/' → rest = '*' :: body → False) : (cutSymbol c rest).Fitting := by
  unfold cutSymbol
  split
  · next text sign hread =>
      obtain ⟨hrow, after, hafter⟩ := Symbol.read?_eq_some hread
      rw [← hafter, Step.take_append]
      refine fits_symbol hrow ?_
      intro d hd
      obtain ⟨tail, rfl⟩ : ∃ tail, after = d :: tail := List.head?_eq_some_iff.1 hd
      rw [← Bool.not_eq_true]
      intro hjoin
      simp only [joins, Bool.or_eq_true, Bool.and_eq_true, List.any_eq_true,
        beq_iff_eq] at hjoin
      rcases hjoin with ⟨row, hmem, hlonger⟩ | ⟨rfl, hd⟩
      · have hpre : row.1 <+: c :: rest := ⟨tail, by rw [hlonger, ← hafter]; simp⟩
        have hle := Symbol.length_le_of_read? hread hmem hpre
        rw [hlonger, List.length_append, List.length_singleton] at hle
        omega
      · obtain ⟨rfl, rfl⟩ := List.cons.inj hafter
        rcases hd with rfl | rfl
        · exact hline tail rfl rfl
        · exact hblock tail rfl rfl
  · trivial

theorem cut_fitting (c : Char) (rest : List Char) : (cut c rest).Fitting := by
  fun_cases cut c rest with
  | case1 rest =>
    refine Step.fitting_take_run ['/', '/'] ?_ (by decide) (fun _ => rfl)
    refine ⟨_, ?_, rfl⟩
    intro hmem
    simpa using List.mem_takeWhile_imp hmem
  | case2 rest => exact cutBlockComment_fitting rest
  | case3 _ _ hline hblock hblank =>
    exact ⟨accepts_blank_iff.2 ⟨c, hblank, rfl⟩, Piece.stops_of_closed _ (by simp)⟩
  | case4 => exact ⟨rfl, Piece.stops_of_closed _ (by simp)⟩
  | case5 _ _ hline hblock _ _ hquote => exact cutString_fitting hquote rest
  | case6 _ _ hline hblock _ _ _ hdigit => exact cutNumber_fitting hdigit rest
  | case7 _ _ hline hblock _ _ _ _ hword =>
    refine Step.fitting_take_run [c] ?_ (by decide) (fun _ => rfl)
    exact accepts_word_iff.2 ⟨c, _, hword, fun d hd => List.mem_takeWhile_imp hd, rfl⟩
  | case8 _ _ hline hblock => exact cutSymbol_fitting hline hblock

/-- The first step takes a piece exactly when that piece fits in front of what is
left over. -/
theorem firstStep?_eq_piece_iff {p : Piece} {text rest : List Char} :
    firstStep? text = some (.piece p rest) ↔ p.Fits rest ∧ text = p.text ++ rest := by
  constructor
  · intro h
    cases text with
    | nil => cases h
    | cons c tail =>
      have hcut : cut c tail = .piece p rest := Option.some.inj h
      have hfits := cut_fitting c tail
      have hsplits := cut_splits c tail
      rw [hcut] at hfits hsplits
      exact ⟨hfits, hsplits.2.symm⟩
  · intro h
    rw [h.2]
    exact firstStep?_of_fits h.1

end SurfaceLanguage.Lexing
