import SurfaceLanguage.Proofs.Lexing.Exchange
import SurfaceLanguage.Proofs.Lexing.WordTables
import SurfaceLanguage.Proofs.Tree.Fields
import SurfaceLanguage.Proofs.Tree.Legible

/-!
# Printed words as tokens

A printed word is cut by the scanner into one token or into several: the colon behind a
name and the sign of a number are tokens of their own. What matters is that the word is
cut at its end and shows no round bracket. Behind a word stands a space, a closing bracket
or nothing, and neither lengthens a token.
-/
namespace SurfaceLanguage.Tree
open Form Lexing

/-- The texts that a source can spell. Reserved words are among the names here. -/
def TextField.isLexical : TextField → Bool
  | .name text => isWord text.toList
  | .operator text =>
      (Keyword.ofString? text).isSome ||
        (Symbol.all.any (·.texts.contains text.toList) && text != "(" && text != ")")
  | .string value => !value.toList.contains '"'

/-- At the end of a word, the text is cut into tokens none of which is a round bracket. -/
def IsSpelled (text : List Char) : Prop :=
  ∀ rest, EndsWord rest → ∃ pieces, Cuts (text ++ rest) pieces rest ∧ ∀ p ∈ pieces, p.IsInner

section Ends
variable {text rest : List Char}

theorem EndsWord.not_digit (h : EndsWord rest) : ∀ c ∈ rest.head?, isDigit c = false := by
  intro c hc
  rcases h c hc with rfl | rfl <;> decide

theorem fraction_append_of_endsWord (h : fraction text = []) (hrest : EndsWord rest) :
    fraction (text ++ rest) = [] := by
  rw [fraction_eq_nil_iff] at h ⊢
  intro d tail hsplit
  cases text with
  | nil =>
    obtain rfl : rest = '.' :: d :: tail := hsplit
    rcases hrest '.' rfl with hpoint | hpoint <;> exact absurd hpoint (by decide)
  | cons c text =>
    obtain ⟨rfl, htail⟩ := List.cons.inj hsplit
    cases text with
    | nil =>
      obtain rfl : rest = d :: tail := htail
      exact hrest.not_digit d rfl
    | cons e text =>
      obtain ⟨rfl, -⟩ := List.cons.inj htail
      exact h e text rfl

/-- A token that fits keeps fitting when a word ends somewhere behind it. -/
theorem fits_append_of_endsWord {p : Piece} (h : p.Fits text) (hkind : p.kind? ≠ none)
    (hrest : EndsWord rest) : p.Fits (text ++ rest) := by
  refine ⟨h.accepts, ⟨?_, ?_⟩⟩
  · intro c hc
    cases text with
    | nil =>
      rcases hrest c hc with rfl | rfl
      · exact grows_of_isSpace hkind rfl
      · exact grows_closeParen h.accepts hkind
    | cons d text => exact h.stops.front c hc
  · intro hnumber hpoint
    exact fraction_append_of_endsWord (h.stops.whole hnumber hpoint) hrest

theorem cuts_append_of_endsWord {pieces : List Piece} (h : Cuts text pieces [])
    (hinner : ∀ p ∈ pieces, p.IsInner) (hrest : EndsWord rest) :
    Cuts (text ++ rest) pieces rest := by
  induction pieces generalizing text with
  | nil =>
    rw [h.of_nil]
    exact .nil rest
  | cons p pieces ih =>
    obtain ⟨hp, hpieces⟩ := List.forall_mem_cons.1 hinner
    obtain ⟨after, rfl, hfits, hcuts⟩ := h.of_cons
    rw [List.append_assoc]
    exact .cons_of_fits (fits_append_of_endsWord hfits hp.ne_none hrest) (ih hcuts hpieces)

/-- It is enough to cut a text that stands alone. -/
theorem isSpelled_of_cuts {pieces : List Piece} (h : Cuts text pieces [])
    (hinner : ∀ p ∈ pieces, p.IsInner) : IsSpelled text := by
  intro rest hrest
  exact ⟨pieces, cuts_append_of_endsWord h hinner hrest, hinner⟩

theorem isSpelled_of_inert (h : text.all isInert = true) : IsSpelled text := by
  obtain ⟨pieces, hcuts, hinner⟩ := exists_cuts_of_inert (List.all_eq_true.1 h)
  exact isSpelled_of_cuts hcuts hinner

end Ends

/-- A text that is one token. -/
theorem isSpelled_of_token (p : Piece) (h : p.shape.Accepts p.text) (hinner : p.IsInner) :
    IsSpelled p.text := by
  have hcuts := Cuts.cons_of_fits ⟨h, Piece.stops_nil p⟩ (.nil [])
  rw [List.append_nil] at hcuts
  apply isSpelled_of_cuts hcuts
  intro q hq
  rw [List.mem_singleton.1 hq]
  exact hinner

theorem inert_of_isWord {text : List Char} (h : isWord text = true) : text.all isInert = true := by
  obtain ⟨c, rest, hc, hrest, rfl⟩ := accepts_word_iff.1 (isWord_iff.1 h)
  rw [List.all_cons, Bool.and_eq_true, List.all_eq_true]
  refine ⟨isInert_of_wordPart (isWordPart_of_wordStart hc), ?_⟩
  intro d hd
  exact isInert_of_wordPart (hrest d hd)

theorem isSpelled_operator {text : String} (h : (TextField.operator text).isLexical = true) :
    IsSpelled text.toList := by
  simp only [TextField.isLexical, Bool.or_eq_true, Bool.and_eq_true, bne_iff_ne] at h
  rcases h with hword | ⟨⟨hspelled, hopen⟩, hclose⟩
  · obtain ⟨k, hk⟩ := Option.isSome_iff_exists.1 hword
    exact isSpelled_of_inert (inert_of_isWord (isWord_of_ofString? hk))
  · obtain ⟨s, -, hcontains⟩ := List.any_eq_true.1 hspelled
    have htext : text.toList ∈ s.texts := List.contains_iff_mem.1 hcontains
    have hinner : (Piece.mk (.symbol s) text.toList).IsInner := by
      apply isInner_of_symbol (Symbol.mem_texts_iff.1 htext)
      · intro htext
        exact hopen (String.toList_inj.1 htext)
      · intro htext
        exact hclose (String.toList_inj.1 htext)
    exact isSpelled_of_token ⟨.symbol s, text.toList⟩ htext hinner

theorem isSpelled_string {value : String} (h : (TextField.string value).isLexical = true) :
    IsSpelled ("\"" ++ value ++ "\"").toList := by
  simp only [TextField.isLexical, Bool.not_eq_true', List.contains_eq_mem,
    decide_eq_false_iff_not] at h
  have haccepts : Shape.string.Accepts ("\"" ++ value ++ "\"").toList :=
    ⟨'"', value.toList, .inl rfl, h, by simp⟩
  have hinner : (Piece.mk .string ("\"" ++ value ++ "\"").toList).IsInner :=
    ⟨.string, rfl, TokenKind.noConfusion, TokenKind.noConfusion⟩
  exact isSpelled_of_token _ haccepts hinner

theorem Shows.isSpelled {text : String} {shown : List TextField} (h : Shows text shown)
    (hshown : shown.all TextField.isLexical = true) : IsSpelled text.toList := by
  rw [List.all_eq_true] at hshown
  cases h with
  | fixed hinert => exact isSpelled_of_inert hinert
  | name text => exact isSpelled_of_inert (inert_of_isWord (hshown _ List.mem_cons_self))
  | typed text =>
    apply isSpelled_of_inert
    rw [String.toList_append, List.all_append, inert_of_isWord (hshown _ List.mem_cons_self)]
    rfl
  | operator text => exact isSpelled_operator (hshown _ List.mem_cons_self)
  | string value => exact isSpelled_string (hshown _ List.mem_cons_self)

end SurfaceLanguage.Tree
