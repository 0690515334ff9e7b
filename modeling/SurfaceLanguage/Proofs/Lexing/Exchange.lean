import SurfaceLanguage.Proofs.Lexing.Positions

/-!
# Exchanging what follows a piece

A token keeps its place when the rest behind it is exchanged for one that looks
alike from where the token ends: it begins with white space, or with the same
character as before, and no fraction comes up that was not there. The relation is
kept under a common front, so it passes from the end of a source to its start.
-/
namespace SurfaceLanguage.Lexing

/-- The characters of white space, the line break included. -/
def isSpace (c : Char) : Bool := isBlank c || c == '\n'

/-- What no white space is in, one by one, it is not in at all. -/
theorem class_of_isSpace {p : Char → Bool} {c : Char}
    (h : [' ', '\t', '\r', '\n'].any p = false) (hc : isSpace c = true) : p c = false := by
  rw [← Bool.not_eq_true]
  apply List.any_eq_false.1 h
  simpa [isSpace, isBlank, or_assoc] using hc

/-- The new rest gives no token a continuation that the old one did not. -/
structure Alike (old new : List Char) : Prop where
  front : ∀ c ∈ new.head?, isSpace c = true ∨ c ∈ old.head?
  whole : fraction old = [] → fraction new = []

theorem Alike.refl (rest : List Char) : Alike rest rest := ⟨fun _ hc => .inr hc, id⟩

theorem Alike.nil (old : List Char) : Alike old [] := ⟨nofun, fun _ => rfl⟩

theorem fraction_of_front {c : Char} {rest : List Char} (h : c ≠ '.') :
    fraction (c :: rest) = [] := by
  rw [fraction_eq_nil_iff]
  intro d tail hsplit
  exact absurd (List.cons.inj hsplit).1 h

theorem Alike.of_space {c : Char} {rest : List Char} (old : List Char) (h : isSpace c = true) :
    Alike old (c :: rest) := by
  have hpoint : c ≠ '.' := by
    intro hc
    rw [hc] at h
    exact absurd h (by decide)
  constructor
  · intro d hd
    obtain rfl : c = d := Option.some.inj hd
    exact .inl h
  · intro _
    exact fraction_of_front hpoint

/-- A common front hides what is exchanged behind it, up to its last character. -/
theorem Alike.append_left {old new : List Char} (h : Alike old new) (front : List Char) :
    Alike (front ++ old) (front ++ new) := by
  cases front with
  | nil => exact h
  | cons c front =>
    refine ⟨fun _ hd => .inr hd, ?_⟩
    intro hold
    rw [fraction_eq_nil_iff] at hold ⊢
    intro d tail hsplit
    obtain ⟨rfl, hrest⟩ := List.cons.inj hsplit
    cases front with
    | cons e front =>
      obtain ⟨rfl, -⟩ := List.cons.inj hrest
      exact hold e (front ++ old) rfl
    | nil =>
      have hnew : new = d :: tail := hrest
      rcases h.front d (by rw [hnew]; rfl) with hspace | hsame
      · exact class_of_isSpace (by decide) hspace
      · obtain ⟨tail, rfl⟩ := List.head?_eq_some_iff.1 hsame
        exact hold d tail rfl

/-- No token continues with white space. -/
theorem grows_of_isSpace {p : Piece} {c : Char} (hkind : p.kind? ≠ none)
    (hc : isSpace c = true) : p.grows c = false := by
  obtain ⟨shape, text⟩ := p
  cases shape with
  | blank => exact absurd rfl hkind
  | lineBreak => exact absurd rfl hkind
  | lineComment => exact absurd rfl hkind
  | blockComment => exact absurd rfl hkind
  | string => rfl
  | number => exact class_of_isSpace (p := isDigit) (by decide) hc
  | word => exact class_of_isSpace (p := isWordPart) (by decide) hc
  | symbol s =>
    have hrows : ∀ row ∈ Symbol.spellings, row.1.any isSpace = false := by decide
    have hmarks : (c == '/' || c == '*') = false :=
      class_of_isSpace (p := fun d => d == '/' || d == '*') (by decide) hc
    simp only [Piece.grows, joins, Bool.or_eq_false_iff, List.any_eq_false, beq_iff_eq]
    refine ⟨?_, by rw [hmarks, Bool.and_false]⟩
    intro row hrow htext
    have hnone := hrows row hrow
    simp [htext, hc] at hnone

theorem Piece.Fits.of_alike {p : Piece} {old new : List Char} (h : p.Fits old)
    (hkind : p.kind? ≠ none) (halike : Alike old new) : p.Fits new := by
  refine ⟨h.accepts, ⟨?_, ?_⟩⟩
  · intro c hc
    rcases halike.front c hc with hspace | hsame
    · exact grows_of_isSpace hkind hspace
    · exact h.stops.front c hsame
  · intro hnumber hpoint
    exact halike.whole (h.stops.whole hnumber hpoint)

/-- What becomes no token asks for the next character only. -/
theorem Piece.Fits.of_head? {p : Piece} {old new : List Char} (h : p.Fits old)
    (hkind : p.kind? = none) (hhead : new.head? = old.head?) : p.Fits new := by
  refine ⟨h.accepts, ⟨?_, ?_⟩⟩
  · intro c hc
    exact h.stops.front c (hhead ▸ hc)
  · intro hnumber
    rw [Piece.kind?, hnumber] at hkind
    cases hkind

/-- White space and comments keep their places in front of a text that stays. -/
theorem Cuts.exchange {gap : List Piece} {front old new : List Char} (hne : front ≠ [])
    (hgap : ∀ q ∈ gap, q.kind? = none)
    (h : Cuts (textOf gap ++ (front ++ old)) gap (front ++ old)) :
    Cuts (textOf gap ++ (front ++ new)) gap (front ++ new) := by
  induction gap with
  | nil => exact .nil _
  | cons q gap ih =>
    obtain ⟨after, htext, hfits, hcuts⟩ := h.of_cons
    rw [textOf_cons, List.append_assoc, List.append_cancel_left_eq] at htext
    rw [← htext] at hfits hcuts
    have hkinds : ∀ r ∈ gap, r.kind? = none := fun r hr => hgap r (List.mem_cons_of_mem q hr)
    have hhead : (textOf gap ++ (front ++ new)).head? = (textOf gap ++ (front ++ old)).head? := by
      obtain ⟨c, front, rfl⟩ := List.exists_cons_of_ne_nil hne
      simp [List.head?_append]
    rw [textOf_cons, List.append_assoc]
    exact .cons_of_fits (hfits.of_head? (hgap q List.mem_cons_self) hhead) (ih hkinds hcuts)

/-! A token may be followed by any white space, a comment may not: a line comment goes on
over a blank. What stands behind a whole run of pieces is exchanged under a stricter
relation. -/

/-- The new rest begins with a line break or as the old one does, and with no fraction that
was not there. -/
structure Resumes (old new : List Char) : Prop where
  front : ∀ c ∈ new.head?, c = '\n' ∨ c ∈ old.head?
  whole : fraction old = [] → fraction new = []

theorem Resumes.alike {old new : List Char} (h : Resumes old new) : Alike old new := by
  refine ⟨?_, h.whole⟩
  intro c hc
  rcases h.front c hc with rfl | hsame
  · exact .inl rfl
  · exact .inr hsame

theorem Resumes.append_left {old new : List Char} (h : Resumes old new) (front : List Char) :
    Resumes (front ++ old) (front ++ new) := by
  cases front with
  | nil => exact h
  | cons c front => exact ⟨fun _ hd => .inr hd, (h.alike.append_left (c :: front)).whole⟩

theorem resumes_nil (old : List Char) : Resumes old [] := ⟨nofun, fun _ => rfl⟩

theorem resumes_lineBreak (old rest : List Char) : Resumes old ('\n' :: rest) := by
  constructor
  · intro c hc
    exact .inl (Option.some.inj hc).symm
  · intro _
    exact fraction_of_front (by decide)

/-- More text may come behind a rest, unless a fraction could begin there. -/
theorem resumes_append {c : Char} (rest more : List Char) (h : c ≠ '.') :
    Resumes (c :: rest) (c :: rest ++ more) :=
  ⟨fun _ hd => .inr hd, fun _ => fraction_of_front h⟩

/-- Two characters show whether a fraction begins. -/
theorem resumes_append_of_two {rest : List Char} (h : 2 ≤ rest.length) (more : List Char) :
    Resumes rest (rest ++ more) := by
  cases rest with
  | nil => simp at h
  | cons c tail =>
    cases tail with
    | nil => simp at h
    | cons d tail =>
      refine ⟨fun _ hc => .inr hc, ?_⟩
      intro hold
      rw [fraction_eq_nil_iff] at hold ⊢
      intro e after hsplit
      obtain ⟨rfl, htail⟩ := List.cons.inj hsplit
      obtain ⟨rfl, -⟩ := List.cons.inj htail
      exact hold d tail rfl

/-- No piece goes on over a line break. -/
theorem grows_lineBreak (p : Piece) : p.grows '\n' = false := by
  cases hkind : p.kind? with
  | some kind => exact grows_of_isSpace (by simp [hkind]) rfl
  | none =>
    obtain ⟨shape, text⟩ := p
    cases shape with
    | blank => rfl
    | lineBreak => rfl
    | lineComment => rfl
    | blockComment => rfl
    | string => cases hkind
    | number => cases hkind
    | word => cases hkind
    | symbol => cases hkind

theorem Piece.Fits.of_resumes {p : Piece} {old new : List Char} (h : p.Fits old)
    (hresumes : Resumes old new) : p.Fits new := by
  refine ⟨h.accepts, ⟨?_, ?_⟩⟩
  · intro c hc
    rcases hresumes.front c hc with rfl | hsame
    · exact grows_lineBreak p
    · exact h.stops.front c hsame
  · intro hnumber hpoint
    exact hresumes.whole (h.stops.whole hnumber hpoint)

/-- Pieces keep their places when the rest behind them is exchanged. -/
theorem Cuts.resume {text old new : List Char} {pieces : List Piece} (h : Cuts text pieces old)
    (hresumes : Resumes old new) : Cuts (textOf pieces ++ new) pieces new := by
  induction pieces generalizing text with
  | nil => exact .nil new
  | cons p pieces ih =>
    obtain ⟨after, -, hfits, hcuts⟩ := h.of_cons
    rw [← hcuts.textOf_append] at hfits
    rw [textOf_cons, List.append_assoc]
    exact .cons_of_fits (hfits.of_resumes (hresumes.append_left _)) (ih hcuts)

/-- Pieces keep their places when more text comes behind the rest. -/
theorem Cuts.resume_append {text rest more : List Char} {pieces : List Piece}
    (h : Cuts text pieces rest) (hresumes : Resumes rest (rest ++ more)) :
    Cuts (text ++ more) pieces (rest ++ more) := by
  have hcuts := h.resume hresumes
  rwa [← List.append_assoc, h.textOf_append] at hcuts

end SurfaceLanguage.Lexing
