import SurfaceLanguage.Proofs.Lexing.Blame
import SurfaceLanguage.Proofs.Lexing.ScannerSigns

/-!
# A step of the scanner is a cut

A step reads one character and goes on as that character asks. Whatever it asks, the
step reads the text that `cut` takes off the front of the rest, and it ends with the
token of that piece or with the error of that fault.
-/
namespace SurfaceLanguage.Lexing

/-- The token of a piece that starts at a position, if it becomes one. -/
def Piece.tokenAt? (p : Piece) (q : Position) : Option Token :=
  p.kind?.map fun kind => tokenBetween kind p.text q (q.after p)

namespace Step

/-- What a step reads. -/
def text : Step → List Char
  | .piece taken _ => taken.text
  | .fault found => found.text

/-- Where a step that starts at a position stops. -/
def stop (p : Position) : Step → Position
  | .piece taken _ => p.after taken
  | .fault found => p.past found.text

/-- What comes of a step that starts at a position. -/
def answer (p : Position) : Step → Except LexError (Option Token)
  | .piece taken _ => .ok (taken.tokenAt? p)
  | .fault found => .error (found.error p)

end Step

namespace Scan
open Scanner

/-- The scan was begun at the first state and has come to the second. It goes on to do
what the cut says. -/
def Completes (x : Scan (Option Token)) (s t : Scanner) (found : Step) : Prop :=
  ∃ u, Ends x t (found.answer s.position) u ∧ s.Reads found.text u ∧
    u.position = found.stop s.position

section Completion
variable {s t u : Scanner} {p : Piece}

theorem Completes.bind {α : Type} {x : Scan α} {f : α → Scan (Option Token)} {a : α} {found : Step}
    (hx : Ends x t (.ok a) u) (h : Completes (f a) s u found) : Completes (x >>= f) s t found := by
  obtain ⟨v, hends, hreads, hposition⟩ := h
  exact ⟨v, hx.bind hends, hreads, hposition⟩

/-- White space and comments end without a token. -/
theorem completes_trivia (hread : s.Reads p.text t) (hposition : t.position = s.position.after p)
    (hkind : p.kind? = none) (rest : List Char) :
    Completes (pure none) s t (.piece p rest) := by
  have hnone : (Step.piece p rest).answer s.position = .ok none := by
    rw [Step.answer, Piece.tokenAt?, hkind]
    rfl
  refine ⟨t, ?_, hread, hposition⟩
  rw [hnone]
  exact ends_pure none t

theorem completes_token (hstart : s.cursor.start = s.cursor.offset) (hread : s.Passes p.text t)
    (hshape : p.shape ≠ .lineBreak) {kind : TokenKind} (hkind : p.kind? = some kind)
    (rest : List Char) :
    Completes (do return some (← tokenHere kind)) s t (.piece p rest) := by
  have hposition : t.position = s.position.after p := by
    rw [Position.after_of_ne_lineBreak _ hshape]
    exact hread.position
  obtain ⟨u, htoken, hpasses⟩ := tokenHere_ends hstart hread.toReads kind
  have hsome : (Step.piece p rest).answer s.position =
      .ok (some (tokenBetween kind p.text s.position t.position)) := by
    rw [Step.answer, Piece.tokenAt?, hkind, hposition]
    rfl
  refine ⟨u, ?_, ?_, hpasses.position.trans hposition⟩
  · rw [hsome]
    exact htoken.bind (ends_pure _ u)
  · have hreads := hread.toReads.trans hpasses.toReads
    rwa [List.append_nil] at hreads

/-- What fails behind a text that was read fails for the step. -/
theorem completes_fault {α : Type} {x : Scan α} {f : α → Scan (Option Token)} {cause : LexCause}
    {text : List Char} (hx : Ends x t (.error (errorAt cause u.position)) u)
    (hread : s.Passes text u) : Completes (x >>= f) s t (.fault ⟨cause, text⟩) := by
  refine ⟨u, ?_, hread.toReads, hread.position⟩
  have herror : (Step.fault ⟨cause, text⟩).answer s.position =
      .error (errorAt cause u.position) := by
    rw [hread.position]
    rfl
  rw [herror]
  exact hx.bind_error

end Completion

/-! One lemma for each sort of first character, which was read before. -/

section Branches
variable {s t : Scanner} {c : Char}

theorem completes_blank (hread : s.Passes [c] t) (hc : isBlank c = true) :
    Completes (scanFrom c) s t (cut c t.rest) := by
  rw [scanFrom, if_pos hc, cut_blank hc]
  exact completes_trivia (p := ⟨.blank, [c]⟩) hread.toReads hread.position rfl t.rest

theorem completes_lineBreak (hread : s.Reads ['\n'] t) (hcursor : t.cursor = s.cursor.forward) :
    Completes (scanFrom '\n') s t (cut '\n' t.rest) := by
  have hcut : cut '\n' t.rest = .piece ⟨.lineBreak, ['\n']⟩ t.rest := rfl
  obtain ⟨u, hline, hreads, hcursor'⟩ := newLine_reads hread.sound
  rw [scanFrom, if_neg (by decide), if_pos rfl, hcut]
  refine Completes.bind hline (completes_trivia (p := ⟨.lineBreak, ['\n']⟩)
    (hread.trans hreads) ?_ rfl t.rest)
  rw [position, hcursor', hcursor]
  rfl

theorem completes_lineComment {rest : List Char} (hread : s.Passes ['/', '/'] t)
    (hrest : t.rest = rest) :
    Completes (do skipLineComment; return none) s t (cut '/' ('/' :: rest)) := by
  obtain ⟨u, hskip, hpasses⟩ := skipLineComment_passes hread.sound
  have hcomment := hread.trans hpasses
  rw [hrest] at hcomment
  rw [cut.eq_1, Step.take]
  exact Completes.bind hskip (completes_trivia
    (p := ⟨.lineComment, '/' :: '/' :: rest.takeWhile (· != '\n')⟩)
    hcomment.toReads hcomment.position rfl _)

theorem completes_blockComment {rest : List Char} (hread : s.Passes ['/', '*'] t)
    (hrest : t.rest = rest) :
    Completes (do skipBlockComment; return none) s t (cut '/' ('*' :: rest)) := by
  have hsearch := skipBlockComment_searches hread.sound
  rw [cut.eq_2, cutBlockComment, ← hrest]
  cases hclose : closeComment t.rest with
  | none =>
    rw [hclose] at hsearch
    obtain ⟨u, hskip, hpasses⟩ := hsearch
    exact completes_fault hskip (hread.trans hpasses)
  | some found =>
    obtain ⟨body, after⟩ := found
    rw [hclose] at hsearch
    obtain ⟨u, hskip, hpasses⟩ := hsearch
    have hcomment := hread.trans hpasses
    exact Completes.bind hskip (completes_trivia (p := ⟨.blockComment, '/' :: '*' :: body⟩)
      hcomment.toReads hcomment.position rfl after)

/-- A slash is a symbol unless it opens a comment. -/
theorem completes_slash (hstart : s.cursor.start = s.cursor.offset) (hread : s.Passes ['/'] t) :
    Completes (scanFrom '/') s t (cut '/' t.rest) := by
  have hfrom : scanFrom '/' = scanSlash := rfl
  rw [hfrom, scanSlash]
  by_cases hline : t.rest.head? = some '/'
  · obtain ⟨rest, hrest⟩ := List.head?_eq_some_iff.1 hline
    obtain ⟨u, hmatch, hpasses⟩ := matchChar_hit hread.sound hrest (by decide)
    rw [hrest]
    exact Completes.bind hmatch
      (completes_lineComment (hread.trans hpasses) (hpasses.rest_of_cons hrest))
  · by_cases hblock : t.rest.head? = some '*'
    · obtain ⟨rest, hrest⟩ := List.head?_eq_some_iff.1 hblock
      obtain ⟨u, hmatch, hpasses⟩ := matchChar_hit hread.sound hrest (by decide)
      rw [hrest]
      exact Completes.bind (matchChar_miss hline) (Completes.bind hmatch
        (completes_blockComment (hread.trans hpasses) (hpasses.rest_of_cons hrest)))
    · have hjoins : ∀ d ∈ t.rest.head?, joins ['/'] d = false := by
        intro d hd
        have hnoline : d ≠ '/' := by
          rintro rfl
          exact hline hd
        have hnoblock : d ≠ '*' := by
          rintro rfl
          exact hblock hd
        have honly : ∀ row ∈ Symbol.spellings, row.1.head? = some '/' → row.1.tail ∈ [[]] := by
          decide
        have hspelled : Symbol.spellings.any (·.1 == ['/'] ++ [d]) = false :=
          spells_nothing honly (by simp)
        rw [joins, hspelled, Bool.false_or]
        simp [hnoline, hnoblock]
      have hcut : cut '/' ([] ++ t.rest) = .piece ⟨.symbol .slash, ['/']⟩ t.rest :=
        cut_symbol (by decide) hjoins
      rw [List.nil_append] at hcut
      rw [hcut]
      exact Completes.bind (matchChar_miss hline) (Completes.bind (matchChar_miss hblock)
        (completes_token (p := ⟨.symbol .slash, ['/']⟩) hstart hread Shape.noConfusion rfl t.rest))

theorem completes_string (hstart : s.cursor.start = s.cursor.offset) (hread : s.Passes [c] t)
    (hc : isQuote c = true) : Completes (scanFrom c) s t (cut c t.rest) := by
  have hfrom : scanFrom c = (do scanString; return some (← tokenHere .string)) := by
    have hquote : c = '"' ∨ c = '\'' := by simpa [isQuote] using hc
    rcases hquote with rfl | rfl <;> rfl
  have hsearch := scanString_searches hread.sound
  rw [hfrom, cut_quote hc, cutString]
  cases hclose : closeString t.rest with
  | none =>
    rw [hclose] at hsearch
    obtain ⟨u, hscan, hpasses⟩ := hsearch
    exact completes_fault hscan (hread.trans hpasses)
  | some found =>
    obtain ⟨body, after⟩ := found
    rw [hclose] at hsearch
    obtain ⟨u, hscan, hpasses⟩ := hsearch
    exact Completes.bind hscan (completes_token (p := ⟨.string, c :: body⟩) hstart
      (hread.trans hpasses) Shape.noConfusion rfl after)

theorem completes_number (hstart : s.cursor.start = s.cursor.offset) (hread : s.Passes [c] t)
    (hc : isDigit c = true) : Completes (scanFrom c) s t (cut c t.rest) := by
  obtain ⟨hblank, hbreak, hquote⟩ := plain_of_class hc (by decide)
  have hslash : c ≠ '/' := by
    rintro rfl
    exact absurd hc (by decide)
  have hfrom : scanFrom c = (do scanNumber; return some (← tokenHere .number)) := by
    simp [scanFrom, hblank, hbreak, hslash, hquote, hc]
  obtain ⟨u, hscan, hpasses⟩ := scanNumber_passes hread.sound
  have hnumber := hread.trans hpasses
  have htext : (c :: t.rest).takeWhile isDigit ++
      fraction ((c :: t.rest).drop ((c :: t.rest).takeWhile isDigit).length) =
      [c] ++ (t.rest.takeWhile isDigit ++
        fraction (t.rest.drop (t.rest.takeWhile isDigit).length)) := by
    rw [List.takeWhile_cons_of_pos hc]
    rfl
  rw [← htext] at hnumber
  rw [hfrom, cut_digit hc, cutNumber, Step.take]
  exact Completes.bind hscan (completes_token (p := ⟨.number, _⟩) hstart hnumber
    Shape.noConfusion rfl _)

theorem scanWord_ends (hstart : s.cursor.start = s.cursor.offset) (hread : s.Passes [c] t) :
    ∃ u, Ends scanWord t (.ok (.ofWord (String.ofList (c :: t.rest.takeWhile isWordPart)))) u ∧
      s.Passes (c :: t.rest.takeWhile isWordPart) u := by
  have hnul : isWordPart '\x00' = false := rfl
  obtain ⟨u, hloop, hpasses⟩ := advanceWhile_passes hnul rfl hread.sound
  have hword := hread.trans hpasses
  obtain ⟨v, hlexeme, hpasses', -⟩ := lexeme_ends hstart hword.toReads
  refine ⟨v, hloop.bind (hlexeme.bind (ends_pure _ v)), ?_⟩
  have hpassed := hword.trans hpasses'
  rwa [List.append_nil] at hpassed

theorem completes_word (hstart : s.cursor.start = s.cursor.offset) (hread : s.Passes [c] t)
    (hc : isWordStart c = true) : Completes (scanFrom c) s t (cut c t.rest) := by
  obtain ⟨hblank, hbreak, hquote⟩ := plain_of_class hc (by decide)
  have hslash : c ≠ '/' := by
    rintro rfl
    exact absurd hc (by decide)
  have hfrom : scanFrom c = (do let kind ← scanWord; return some (← tokenHere kind)) := by
    simp [scanFrom, hblank, hbreak, hslash, hquote, isDigit_of_isWordStart hc, hc]
  obtain ⟨u, hscan, hword⟩ := scanWord_ends hstart hread
  rw [hfrom, cut_wordStart hc, Step.take]
  exact Completes.bind hscan (completes_token
    (p := ⟨.word, c :: t.rest.takeWhile isWordPart⟩) hstart hword Shape.noConfusion rfl _)

theorem completes_sign (hstart : s.cursor.start = s.cursor.offset) (hread : s.Passes [c] t)
    (hc : Unclassed c) (hslash : c ≠ '/') : Completes (scanFrom c) s t (cut c t.rest) := by
  have hfrom : scanFrom c =
      (do let sign ← scanSign c; return some (← tokenHere (.symbol sign))) := by
    obtain ⟨hblank, hbreak, hquote, hdigit, hword⟩ := unclassed_iff.1 hc
    simp [scanFrom, hblank, hbreak, hslash, hquote, hdigit, hword]
  rw [hfrom]
  by_cases hsign : c ∈ Symbol.signs
  · obtain ⟨sign, more, u, hscan, hpasses, hfits⟩ := scanSign_readsSign hread hsign hslash
    have hrest : t.rest = more ++ u.rest :=
      (List.cons.inj (hread.rest.symm.trans hpasses.rest)).2
    have hcut : cut c (more ++ u.rest) = .piece ⟨.symbol sign, c :: more⟩ u.rest :=
      Option.some.inj (firstStep?_of_fits hfits)
    rw [hrest, hcut]
    exact Completes.bind hscan (completes_token (p := ⟨.symbol sign, c :: more⟩) hstart hpasses
      Shape.noConfusion rfl u.rest)
  · have hblames : Blames (.unexpectedCharacter c) (c :: t.rest) := .unexpected hc hsign
    have hcut : cut c t.rest = .fault ⟨.unexpectedCharacter c, [c]⟩ :=
      Option.some.inj (firstStep?_of_blames hblames)
    rw [hcut]
    exact completes_fault (scanSign_unexpected hsign) hread

end Branches

section Steps
variable {s t : Scanner} {c : Char} {text : List Char}

theorem scanFrom_completes (hstart : s.cursor.start = s.cursor.offset) (hread : s.Reads [c] t)
    (hcursor : t.cursor = s.cursor.forward) : Completes (scanFrom c) s t (cut c t.rest) := by
  by_cases hbreak : c = '\n'
  · subst hbreak
    exact completes_lineBreak hread hcursor
  · have hpasses := hread.passes hcursor hbreak
    by_cases hslash : c = '/'
    · subst hslash
      exact completes_slash hstart hpasses
    · cases hblank : isBlank c with
      | true => exact completes_blank hpasses hblank
      | false =>
        cases hquote : isQuote c with
        | true => exact completes_string hstart hpasses hquote
        | false =>
          cases hdigit : isDigit c with
          | true => exact completes_number hstart hpasses hdigit
          | false =>
            cases hword : isWordStart c with
            | true => exact completes_word hstart hpasses hword
            | false =>
              have hclass := unclassed_iff.2 ⟨hblank, hbreak, hquote, hdigit, hword⟩
              exact completes_sign hstart hpasses hclass hslash

theorem scanToken_completes (hs : s.Sound) (hstart : s.cursor.start = s.cursor.offset)
    (hrest : s.rest = c :: text) : Completes scanToken s s (cut c text) := by
  obtain ⟨t, hadvance, hreads, hcursor⟩ := advance_reads hs hrest
  have hscan := scanFrom_completes hstart hreads hcursor
  rw [hreads.rest_of_cons hrest] at hscan
  exact Completes.bind hadvance hscan

/-- A piece that was cut off is not empty, so a step that succeeds gets on. -/
theorem stepped_safe (hread : s.Reads (cut c text).text t) (length : Nat) :
    (Event.stepped s.cursor t.cursor ((cut c text).answer s.position matches .ok _)).IsSafe
      length := by
  intro hsucceeded
  have hsplits := cut_splits c text
  cases hcut : cut c text with
  | piece p rest =>
    rw [hcut] at hsplits hread
    have hpos := List.length_pos_iff.2 hsplits.1
    rw [hread.offset, Step.text]
    omega
  | fault found =>
    rw [hcut] at hsucceeded
    cases hsucceeded

/-- A step does what the cut says and is recorded once. -/
theorem step_ends (hs : s.Sound) (hstart : s.cursor.start = s.cursor.offset)
    (hrest : s.rest = c :: text) :
    ∃ t e, Ends step s ((cut c text).answer s.position) (t.note e) ∧
      s.Reads (cut c text).text t ∧ t.position = (cut c text).stop s.position ∧
      e.IsSafe t.source.length ∧ e.isStep = true := by
  obtain ⟨t, hends, hreads, hposition⟩ := scanToken_completes hs hstart hrest
  refine ⟨t, _, ?_, hreads, hposition, stepped_safe hreads _, rfl⟩
  have hrun : scanToken s = some ((cut c text).answer s.position, t) := hends
  rw [Ends, step, hrun]
  rfl

end Steps

end Scan
end SurfaceLanguage.Lexing
