import SurfaceLanguage.Lexing.Cut

/-!
# Where strings and block comments close

Both readers split a text at the first place that closes it. The statements here
are in terms of the text alone: what stands before the closing mark does not
contain one, and a reader gives up only on a text without any.
-/
namespace SurfaceLanguage.Lexing

theorem closeString_append_quote {inner : List Char} (h : '"' ∉ inner) (after : List Char) :
    closeString (inner ++ '"' :: after) = some (inner ++ ['"'], after) := by
  induction inner with
  | nil => rfl
  | cons c inner ih =>
    have hc : c ≠ '"' := fun he => h (by simp [he])
    have htail := ih (fun hmem => h (List.mem_cons_of_mem c hmem))
    rw [List.cons_append, closeString.eq_3 _ _ hc, htail]
    rfl

theorem body_of_closeString {text body after : List Char}
    (h : closeString text = some (body, after)) :
    ∃ inner, '"' ∉ inner ∧ body = inner ++ ['"'] := by
  fun_induction closeString text generalizing body after with
  | case1 => cases h
  | case2 rest => cases h; exact ⟨[], by simp, rfl⟩
  | case3 c rest hc ih =>
    obtain ⟨⟨b, a⟩, hb, heq⟩ := Option.map_eq_some_iff.1 h
    cases heq
    obtain ⟨inner, hinner, rfl⟩ := ih hb
    exact ⟨c :: inner, by simpa [Ne.symm hc] using hinner, rfl⟩

theorem closeString_eq_none_iff {text : List Char} : closeString text = none ↔ '"' ∉ text := by
  fun_induction closeString text with
  | case1 => simp
  | case2 rest => simp
  | case3 c rest hc ih =>
    have hne : '"' ≠ c := Ne.symm hc
    simp [ih, hne]

theorem closesOnlyAtEnd_mark : ClosesOnlyAtEnd ['*', '/'] := by
  intro before after hsplit
  have hlength := congrArg List.length hsplit
  simp only [List.length_append, List.length_cons, List.length_nil] at hlength
  exact List.length_eq_zero_iff.1 (by omega)

theorem closesOnlyAtEnd_cons {c : Char} {text : List Char} (htext : ClosesOnlyAtEnd text)
    (hfront : c = '*' → text.head? ≠ some '/') : ClosesOnlyAtEnd (c :: text) := by
  intro before after hsplit
  cases before with
  | nil =>
    obtain ⟨rfl, rfl⟩ := List.cons.inj hsplit
    exact absurd rfl (hfront rfl)
  | cons d before => exact htext before after (List.cons.inj hsplit).2

theorem ClosesOnlyAtEnd.of_cons {c : Char} {text : List Char} (h : ClosesOnlyAtEnd (c :: text)) :
    ClosesOnlyAtEnd text := by
  intro before after hsplit
  exact h (c :: before) after (by rw [hsplit]; rfl)

theorem closeComment_append_close {inner : List Char}
    (h : ClosesOnlyAtEnd (inner ++ ['*', '/'])) (after : List Char) :
    closeComment (inner ++ '*' :: '/' :: after) = some (inner ++ ['*', '/'], after) := by
  induction inner with
  | nil => rfl
  | cons c inner ih =>
    -- An earlier mark would have to be `c` and the front of `inner`.
    have hearly : ∀ rest, c = '*' → inner ++ '*' :: '/' :: after = '/' :: rest → False := by
      intro rest hc hrest
      subst hc
      cases inner with
      | nil => simp at hrest
      | cons d inner =>
        obtain ⟨rfl, -⟩ := List.cons.inj hrest
        have hend := h [] (inner ++ ['*', '/']) rfl
        simp at hend
    rw [List.cons_append, closeComment.eq_3 _ _ hearly, ih h.of_cons]
    rfl

theorem body_of_closeComment {text body after : List Char}
    (h : closeComment text = some (body, after)) :
    ∃ inner, ClosesOnlyAtEnd (inner ++ ['*', '/']) ∧ body = inner ++ ['*', '/'] := by
  fun_induction closeComment text generalizing body after with
  | case1 => cases h
  | case2 rest =>
    cases h
    exact ⟨[], closesOnlyAtEnd_mark, rfl⟩
  | case3 c rest hc ih =>
    obtain ⟨⟨b, a⟩, hb, heq⟩ := Option.map_eq_some_iff.1 h
    cases heq
    obtain ⟨inner, hinner, rfl⟩ := ih hb
    refine ⟨c :: inner, closesOnlyAtEnd_cons hinner ?_, rfl⟩
    intro hstar (hslash : (inner ++ ['*', '/']).head? = some '/')
    have hrest := closeComment_append hb
    cases hin : inner ++ ['*', '/'] with
    | nil => simp at hin
    | cons d tail =>
      rw [hin] at hslash hrest
      obtain rfl : d = '/' := by simpa using hslash
      exact hc _ hstar hrest.symm

theorem closeComment_eq_none_iff {text : List Char} :
    closeComment text = none ↔ ¬ ['*', '/'] <:+: text := by
  fun_induction closeComment text with
  | case1 => simp
  | case2 rest =>
    have hhere : ['*', '/'] <:+: '*' :: '/' :: rest := ⟨[], rest, rfl⟩
    simp only [reduceCtorEq, hhere, not_true_eq_false]
  | case3 c rest hc ih =>
    have hfront : ¬ ['*', '/'] <+: c :: rest := by
      intro hmark
      obtain ⟨after, hafter⟩ := hmark
      obtain ⟨rfl, rfl⟩ := List.cons.inj hafter
      exact hc after rfl rfl
    rw [Option.map_eq_none_iff, ih, List.infix_cons_iff]
    simp [hfront]

end SurfaceLanguage.Lexing
