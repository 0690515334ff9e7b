import SurfaceLanguage.Proofs.Lexing.Reads

/-!
# The loops of the scanner

A loop reads a text off the front of the rest, and the function that cuts a source says
which. The proofs go by induction on the rest. Two loops test for the end and fail there;
one stops before it; and one knows it only by the NUL, which is in none of the classes
of characters that it advances over.
-/
namespace SurfaceLanguage.Lexing
namespace Scan
open Scanner

section Rounds
variable {α β : Type} {s t u : Scanner} {round : α → Scan (β ⊕ α)} {a b : α}

theorem afterRound_ends {result : Except LexError (β ⊕ α)} (h : Ends (round a) s result t) :
    afterRound (result, t) ∈ (round a s).map afterRound := by
  rw [h]
  exact Part.mem_map afterRound (Part.mem_some _)

theorem loop_stop {result : β} (h : Ends (round a) s (.ok (.inl result)) t) :
    Ends (loop round a) s (.ok result) t :=
  Part.eq_some_iff.2 (PFun.fix_stop (afterRound_ends h))

theorem loop_error {e : LexError} (h : Ends (round a) s (.error e) t) :
    Ends (loop round a) s (.error e) t :=
  Part.eq_some_iff.2 (PFun.fix_stop (afterRound_ends h))

theorem loop_again {result : Except LexError β} (h : Ends (round a) s (.ok (.inr b)) t)
    (hloop : Ends (loop round b) t result u) : Ends (loop round a) s result u :=
  (PFun.fix_fwd_eq (afterRound_ends h)).trans hloop

end Rounds

section Repetition
variable {s t u : Scanner} {round : Scan Bool}

theorem repeatWhile_stop (h : Ends round s (.ok false) t) :
    Ends (repeatWhile round) s (.ok ()) t :=
  loop_stop (h.bind (ends_pure _ t))

theorem repeatWhile_error {e : LexError} (h : Ends round s (.error e) t) :
    Ends (repeatWhile round) s (.error e) t :=
  loop_error h.bind_error

theorem repeatWhile_again {result : Except LexError Unit} (h : Ends round s (.ok true) t)
    (hloop : Ends (repeatWhile round) t result u) : Ends (repeatWhile round) s result u :=
  loop_again (h.bind (ends_pure _ t)) hloop

end Repetition

section Loops
variable {s : Scanner}

/-- The class does not hold the NUL, by which the loop knows the end. -/
theorem advanceWhile_passes {p : Char → Bool} (hnul : p '\x00' = false) (hbreak : p '\n' = false)
    (hs : s.Sound) :
    ∃ t, Ends (advanceWhile p) s (.ok ()) t ∧ s.Passes (s.rest.takeWhile p) t := by
  generalize hrest : s.rest = text
  induction text generalizing s with
  | nil =>
    refine ⟨s, repeatWhile_stop ((peek_nil hrest).bind ?_), Passes.refl hs⟩
    rw [hnul]
    exact ends_pure false s
  | cons c text ih =>
    by_cases hc : p c = true
    · have hne : c ≠ '\n' := by
        rintro rfl
        rw [hbreak] at hc
        cases hc
      obtain ⟨t, hadvance, hpasses⟩ := advance_passes hs hrest hne
      obtain ⟨u, hloop, hpasses'⟩ := ih hpasses.sound (hpasses.rest_of_cons hrest)
      refine ⟨u, repeatWhile_again ((peek_cons hrest).bind ?_) hloop, ?_⟩
      · rw [if_pos hc]
        exact hadvance.discard.bind (ends_pure true t)
      · rw [List.takeWhile_cons_of_pos hc]
        exact hpasses.trans hpasses'
    · refine ⟨s, repeatWhile_stop ((peek_cons hrest).bind ?_), ?_⟩
      · rw [if_neg hc]
        exact ends_pure false s
      · rw [List.takeWhile_cons_of_neg hc]
        exact Passes.refl hs

theorem skipLineComment_passes (hs : s.Sound) :
    ∃ t, Ends skipLineComment s (.ok ()) t ∧ s.Passes (s.rest.takeWhile (· != '\n')) t := by
  generalize hrest : s.rest = text
  induction text generalizing s with
  | nil =>
    exact ⟨s, repeatWhile_stop ((isAtEnd_nil hrest).bind (ends_pure false s)), Passes.refl hs⟩
  | cons c text ih =>
    by_cases hc : c = '\n'
    · refine ⟨s, repeatWhile_stop ((isAtEnd_cons hrest).bind ((peek_cons hrest).bind ?_)), ?_⟩
      · rw [if_pos hc]
        exact ends_pure false s
      · rw [List.takeWhile_cons_of_neg (by simp [hc])]
        exact Passes.refl hs
    · obtain ⟨t, hadvance, hpasses⟩ := advance_passes hs hrest hc
      obtain ⟨u, hloop, hpasses'⟩ := ih hpasses.sound (hpasses.rest_of_cons hrest)
      refine ⟨u, repeatWhile_again
        ((isAtEnd_cons hrest).bind ((peek_cons hrest).bind ?_)) hloop, ?_⟩
      · rw [if_neg hc]
        exact hadvance.discard.bind (ends_pure true t)
      · rw [List.takeWhile_cons_of_pos (by simp [hc])]
        exact hpasses.trans hpasses'

/-- The error of a cause that is noticed at a position. -/
def errorAt (cause : LexCause) (p : Position) : LexError := ⟨cause, p.line, p.column⟩

theorem failHere_ends {α : Type} (cause : LexCause) (s : Scanner) :
    Ends (failHere cause : Scan α) s (.error (errorAt cause s.position)) s :=
  (ends_cursor s).bind (ends_throw _ s)

/-- The search for the end of a piece: either it is found and all in front of it is read
with it, or the rest is read to no avail. -/
def Searches (x : Scan Unit) (cause : LexCause) (s : Scanner)
    (found : Option (List Char × List Char)) : Prop :=
  match found with
  | some (body, _) => ∃ t, Ends x s (.ok ()) t ∧ s.Passes body t
  | none => ∃ t, Ends x s (.error (errorAt cause t.position)) t ∧ s.Passes s.rest t

/-- A search goes on behind a character that is not the end. -/
theorem Searches.cons {x : Scan Unit} {cause : LexCause} {t : Scanner} {c : Char}
    {found : Option (List Char × List Char)} (hpasses : s.Passes [c] t)
    (hends : ∀ result u, Ends x t result u → Ends x s result u) (h : Searches x cause t found) :
    Searches x cause s (found.map fun (body, after) => (c :: body, after)) := by
  cases found with
  | none =>
    obtain ⟨u, hloop, hpasses'⟩ := h
    refine ⟨u, hends _ _ hloop, ?_⟩
    rw [hpasses.rest]
    exact hpasses.trans hpasses'
  | some cut =>
    obtain ⟨u, hloop, hpasses'⟩ := h
    exact ⟨u, hends _ _ hloop, hpasses.trans hpasses'⟩

theorem searches_nil {x : Scan Unit} {cause : LexCause} (hs : s.Sound) (hrest : s.rest = [])
    (hends : Ends x s (.error (errorAt cause s.position)) s) : Searches x cause s none := by
  refine ⟨s, hends, ?_⟩
  rw [hrest]
  exact Passes.refl hs

theorem scanString_searches (hs : s.Sound) :
    Searches scanString .unterminatedString s (closeString s.rest) := by
  generalize hrest : s.rest = text
  fun_induction closeString text generalizing s with
  | case1 =>
    refine searches_nil hs hrest (repeatWhile_error ?_)
    exact (isAtEnd_nil hrest).bind (failHere_ends _ s)
  | case2 rest =>
    obtain ⟨t, hadvance, hpasses⟩ := advance_passes hs hrest (by decide)
    refine ⟨t, repeatWhile_stop ((isAtEnd_cons hrest).bind ((peek_cons hrest).bind ?_)), hpasses⟩
    exact hadvance.discard.bind (ends_pure false t)
  | case3 c rest hc ih =>
    obtain ⟨t, hinside, hpasses⟩ := advanceInside_passes hs hrest
    refine Searches.cons hpasses ?_ (ih hpasses.sound (hpasses.rest_of_cons hrest))
    intro result u hloop
    refine repeatWhile_again ((isAtEnd_cons hrest).bind ((peek_cons hrest).bind ?_)) hloop
    rw [if_neg hc]
    exact hinside.bind (ends_pure true t)

theorem skipBlockComment_searches (hs : s.Sound) :
    Searches skipBlockComment .unterminatedComment s (closeComment s.rest) := by
  generalize hrest : s.rest = text
  fun_induction closeComment text generalizing s with
  | case1 =>
    refine searches_nil hs hrest (repeatWhile_error ?_)
    exact (isAtEnd_nil hrest).bind (failHere_ends _ s)
  | case2 rest =>
    obtain ⟨t, hstar, hpasses⟩ := advance_passes hs hrest (by decide)
    obtain ⟨u, hslash, hpasses'⟩ :=
      advance_passes hpasses.sound (hpasses.rest_of_cons hrest) (by decide)
    refine ⟨u, repeatWhile_stop ((isAtEnd_cons hrest).bind
      ((peek_cons hrest).bind ((ends_peekNext s).bind ?_))), hpasses.trans hpasses'⟩
    rw [if_pos ⟨rfl, by rw [hrest]; rfl⟩]
    exact hstar.discard.bind (hslash.discard.bind (ends_pure false u))
  | case3 c rest hc ih =>
    obtain ⟨t, hinside, hpasses⟩ := advanceInside_passes hs hrest
    refine Searches.cons hpasses ?_ (ih hpasses.sound (hpasses.rest_of_cons hrest))
    intro result u hloop
    have hopen : ¬ (c = '*' ∧ s.rest.tail.head? = some '/') := by
      rintro ⟨hstar, hslash⟩
      rw [hrest] at hslash
      obtain ⟨after, hafter⟩ := List.head?_eq_some_iff.1 hslash
      exact hc after hstar hafter
    refine repeatWhile_again ((isAtEnd_cons hrest).bind
      ((peek_cons hrest).bind ((ends_peekNext s).bind ?_))) hloop
    rw [if_neg hopen]
    exact hinside.bind (ends_pure true t)

theorem scanFraction_passes (hs : s.Sound) :
    ∃ t, Ends scanFraction s (.ok ()) t ∧ s.Passes (fraction s.rest) t := by
  rw [scanFraction]
  generalize hrest : s.rest = text
  by_cases hpoint : ∃ d tail, text = '.' :: d :: tail ∧ isDigit d = true
  · obtain ⟨d, tail, rfl, hd⟩ := hpoint
    obtain ⟨t, hadvance, hpasses⟩ := advance_passes hs hrest (by decide)
    have hplaces : t.rest = d :: tail := hpasses.rest_of_cons hrest
    have hnul : isDigit '\x00' = false := rfl
    obtain ⟨u, hloop, hpasses'⟩ := advanceWhile_passes hnul rfl hpasses.sound
    refine ⟨u, ?_, ?_⟩
    · refine (peek_cons hrest).bind ((ends_peekNext s).bind ?_)
      rw [if_pos ⟨rfl, by rw [hrest]; exact hd⟩]
      exact hadvance.discard.bind hloop
    · have hne : (d :: tail).takeWhile isDigit ≠ [] := by simp [hd]
      rw [hplaces] at hpasses'
      rw [fraction, if_neg hne]
      exact hpasses.trans hpasses'
  · have hnone : fraction text = [] := by
      rw [fraction_eq_nil_iff]
      intro d tail htext
      rw [← Bool.not_eq_true]
      exact fun hd => hpoint ⟨d, tail, htext, hd⟩
    refine ⟨s, ?_, by rw [hnone]; exact Passes.refl hs⟩
    cases text with
    | nil =>
      refine (peek_nil hrest).bind ((ends_peekNext s).bind ?_)
      rw [if_neg fun h => absurd h.1 (by decide)]
      exact ends_pure () s
    | cons c tail =>
      have hstay : ¬ (c = '.' ∧ s.rest.tail.head?.any isDigit = true) := by
        rintro ⟨rfl, hdigit⟩
        rw [hrest] at hdigit
        cases tail with
        | nil => cases hdigit
        | cons d tail => exact hpoint ⟨d, tail, rfl, hdigit⟩
      refine (peek_cons hrest).bind ((ends_peekNext s).bind ?_)
      rw [if_neg hstay]
      exact ends_pure () s

theorem scanNumber_passes (hs : s.Sound) :
    ∃ t, Ends scanNumber s (.ok ()) t ∧
      s.Passes (s.rest.takeWhile isDigit ++
        fraction (s.rest.drop (s.rest.takeWhile isDigit).length)) t := by
  have hnul : isDigit '\x00' = false := rfl
  obtain ⟨t, hwhole, hpasses⟩ := advanceWhile_passes hnul rfl hs
  obtain ⟨u, hfraction, hpasses'⟩ := scanFraction_passes hpasses.sound
  have hrest : s.rest.drop (s.rest.takeWhile isDigit).length = t.rest := by
    have hdrop : (s.rest.takeWhile isDigit ++ t.rest).drop (s.rest.takeWhile isDigit).length =
        t.rest := List.drop_left
    rwa [← hpasses.rest] at hdrop
  rw [hrest]
  exact ⟨u, hwhole.bind hfraction, hpasses.trans hpasses'⟩

end Loops

end Scan
end SurfaceLanguage.Lexing
