import SurfaceLanguage.Proofs.Lexing.Boundary

/-!
# What a text can be blamed for

There are three reasons why nothing can be cut off the front of a text. They are
stated here without reference to how it is read: its first character begins no
piece, it opens a string that nothing closes, or it opens a comment that nothing
closes. A step finds a fault exactly when one of them holds, so no two of them hold
together.
-/
namespace SurfaceLanguage.Lexing

/-- A comment that never closes is blamed before the slash it begins with is taken
for a symbol. -/
inductive Blames : LexCause → List Char → Prop
  | unexpected {c : Char} {rest : List Char} : Unclassed c → c ∉ Symbol.signs →
      Blames (.unexpectedCharacter c) (c :: rest)
  | openString {quote : Char} {rest : List Char} : IsQuote quote → '"' ∉ rest →
      Blames .unterminatedString (quote :: rest)
  | openComment {rest : List Char} : ¬ ['*', '/'] <:+: rest →
      Blames .unterminatedComment ('/' :: '*' :: rest)

/-- How much of a text is read before it is found at fault: one character, or all
that is left in search of a closing mark. -/
def LexCause.blamed : LexCause → List Char → List Char
  | .unexpectedCharacter _, text => text.take 1
  | .unterminatedString, text => text
  | .unterminatedComment, text => text

theorem read?_eq_none_iff {c : Char} {rest : List Char} :
    Symbol.read? (c :: rest) = none ↔ c ∉ Symbol.signs := by
  constructor
  · intro hnone hc
    obtain ⟨s, hs⟩ := Symbol.exists_symbol_of_mem_signs hc
    have hrow := List.find?_eq_none.1 hnone ([c], s) hs
    simp at hrow
  · intro hc
    rw [Symbol.read?, List.find?_eq_none]
    intro row hrow hpre
    obtain ⟨word, s⟩ := row
    obtain ⟨d, tail, rfl⟩ := List.exists_cons_of_ne_nil (Symbol.spelling_ne_nil hrow)
    obtain ⟨rfl, -⟩ := List.cons_prefix_cons.1 (List.isPrefixOf_iff_prefix.1 hpre)
    exact hc (Symbol.mem_signs_of_mem hrow)

/-- Whatever can be blamed is a fault of the first step. -/
theorem firstStep?_of_blames {cause : LexCause} {text : List Char} (h : Blames cause text) :
    firstStep? text = some (.fault ⟨cause, cause.blamed text⟩) := by
  cases h with
  | @unexpected c rest hclass hsign =>
    have hcomment : c = '/' → ∀ d ∈ rest.head?, d ≠ '/' ∧ d ≠ '*' := by
      intro hc
      subst hc
      exact absurd (by decide) hsign
    rw [firstStep?, cut_unclassed hclass hcomment, cutSymbol, read?_eq_none_iff.2 hsign]
    rfl
  | openString hquote hopen =>
    rw [firstStep?, cut_quote (isQuote_iff.2 hquote), cutString, closeString_eq_none_iff.2 hopen]
    rfl
  | openComment hopen =>
    rw [firstStep?, cut.eq_2, cutBlockComment, closeComment_eq_none_iff.2 hopen]
    rfl

/-- A step that finds a fault has a reason, and has read as far as that reason asks. -/
def Step.Blaming (text : List Char) : Step → Prop
  | .piece _ _ => True
  | .fault found => Blames found.cause text ∧ found.text = found.cause.blamed text

theorem cutString_blaming {quote : Char} (h : isQuote quote = true) (rest : List Char) :
    (cutString quote rest).Blaming (quote :: rest) := by
  unfold cutString
  split
  · trivial
  · next hclose => exact ⟨.openString (isQuote_iff.1 h) (closeString_eq_none_iff.1 hclose), rfl⟩

theorem cutBlockComment_blaming (rest : List Char) :
    (cutBlockComment rest).Blaming ('/' :: '*' :: rest) := by
  unfold cutBlockComment
  split
  · trivial
  · next hclose => exact ⟨.openComment (closeComment_eq_none_iff.1 hclose), rfl⟩

theorem cutSymbol_blaming {c : Char} (h : Unclassed c) (rest : List Char) :
    (cutSymbol c rest).Blaming (c :: rest) := by
  unfold cutSymbol
  split
  · trivial
  · next hread => exact ⟨.unexpected h (read?_eq_none_iff.1 hread), rfl⟩

theorem cut_blaming (c : Char) (rest : List Char) : (cut c rest).Blaming (c :: rest) := by
  fun_cases cut c rest with
  | case1 rest => trivial
  | case2 rest => exact cutBlockComment_blaming rest
  | case3 => trivial
  | case4 => trivial
  | case5 _ _ _ _ _ _ hquote => exact cutString_blaming hquote rest
  | case6 => trivial
  | case7 => trivial
  | case8 _ _ _ _ hblank hbreak hquote hdigit hword =>
    have hclass : Unclassed c := unclassed_iff.2 ⟨by simpa using hblank, hbreak,
      by simpa using hquote, by simpa using hdigit, by simpa using hword⟩
    exact cutSymbol_blaming hclass rest

theorem firstStep?_eq_fault_iff {found : Fault} {text : List Char} :
    firstStep? text = some (.fault found) ↔
      Blames found.cause text ∧ found.text = found.cause.blamed text := by
  constructor
  · intro h
    cases text with
    | nil => cases h
    | cons c rest =>
      have hcut : cut c rest = .fault found := Option.some.inj h
      have hblaming := cut_blaming c rest
      rw [hcut] at hblaming
      exact hblaming
  · intro h
    rw [firstStep?_of_blames h.1, ← h.2]

theorem Blames.unique {a b : LexCause} {text : List Char} (ha : Blames a text)
    (hb : Blames b text) : a = b := by
  have h := (firstStep?_of_blames ha).symm.trans (firstStep?_of_blames hb)
  simp only [Option.some.injEq, Step.fault.injEq, Fault.mk.injEq] at h
  exact h.1

/-- Where something can be blamed, no piece fits. -/
theorem Blames.not_fits {cause : LexCause} {p : Piece} {rest : List Char}
    (h : Blames cause (p.text ++ rest)) : ¬ p.Fits rest := by
  intro hfits
  have hstep := (firstStep?_of_blames h).symm.trans (firstStep?_of_fits hfits)
  simp at hstep

end SurfaceLanguage.Lexing
