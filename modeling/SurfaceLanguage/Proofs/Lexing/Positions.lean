import Mathlib.Data.List.Count
import SurfaceLanguage.Proofs.Lexing.Cutting

/-!
# Positions as counts

A position is the result of a walk, but each of its parts can be read off the text
that was walked: the offset is its length, the line counts its line breaks, and the
column the characters behind the last of them. A line break between tokens differs
from one inside a piece in the column alone.
-/
namespace SurfaceLanguage.Lexing
namespace Position

theorem past_append (p : Position) (xs ys : List Char) :
    p.past (xs ++ ys) = (p.past xs).past ys := List.foldl_append

theorem past_cons (p : Position) (c : Char) (text : List Char) :
    p.past (c :: text) = (p.next c).past text := rfl

theorem offset_past (p : Position) (text : List Char) :
    (p.past text).offset = p.offset + text.length := by
  induction text generalizing p with
  | nil => rfl
  | cons c text ih =>
    have hnext : (p.next c).offset = p.offset + 1 := by
      unfold next
      split <;> rfl
    rw [past_cons, ih, hnext, List.length_cons]
    omega

theorem line_past (p : Position) (text : List Char) :
    (p.past text).line = p.line + text.count '\n' := by
  induction text generalizing p with
  | nil => rfl
  | cons c text ih =>
    rw [past_cons, ih, List.count_cons]
    unfold next
    by_cases hc : c = '\n'
    · simp [hc, Nat.add_comm, Nat.add_left_comm]
    · simp [hc]

theorem column_past (p : Position) {text : List Char} (h : '\n' ∉ text) :
    (p.past text).column = p.column + text.length := by
  induction text generalizing p with
  | nil => rfl
  | cons c text ih =>
    have hc : c ≠ '\n' := fun he => h (by simp [he])
    have htext : '\n' ∉ text := fun hmem => h (List.mem_cons_of_mem c hmem)
    rw [past_cons, ih _ htext, next, if_neg hc, List.length_cons]
    dsimp only
    omega

/-- A line break inside a text leads to column one. -/
theorem column_past_break (p : Position) (before : List Char) {between : List Char}
    (h : '\n' ∉ between) : (p.past (before ++ '\n' :: between)).column = between.length + 1 := by
  rw [past_append, past_cons, column_past _ h, next, if_pos rfl, Nat.add_comm]

theorem after_of_ne_lineBreak (p : Position) {piece : Piece} (h : piece.shape ≠ .lineBreak) :
    p.after piece = p.past piece.text := by
  unfold after
  split
  · next hbreak => exact absurd hbreak h
  · rfl

theorem after_lineBreak (p : Position) {piece : Piece} (h : piece.shape = .lineBreak) :
    p.after piece = ⟨p.offset + 1, p.line + 1, 0⟩ := by
  rw [after, h]

theorem text_of_lineBreak {piece : Piece} (h : piece.shape.Accepts piece.text)
    (hbreak : piece.shape = .lineBreak) : piece.text = ['\n'] := by
  rw [hbreak] at h
  exact h

theorem offset_after (p : Position) {piece : Piece} (h : piece.shape.Accepts piece.text) :
    (p.after piece).offset = p.offset + piece.text.length := by
  by_cases hbreak : piece.shape = .lineBreak
  · rw [after_lineBreak p hbreak, text_of_lineBreak h hbreak]
    rfl
  · rw [after_of_ne_lineBreak p hbreak, offset_past]

theorem line_after (p : Position) {piece : Piece} (h : piece.shape.Accepts piece.text) :
    (p.after piece).line = p.line + piece.text.count '\n' := by
  by_cases hbreak : piece.shape = .lineBreak
  · rw [after_lineBreak p hbreak, text_of_lineBreak h hbreak]
    rfl
  · rw [after_of_ne_lineBreak p hbreak, line_past]

theorem afterAll_cons (p : Position) (piece : Piece) (pieces : List Piece) :
    p.afterAll (piece :: pieces) = (p.after piece).afterAll pieces := rfl

theorem afterAll_append (p : Position) (ps qs : List Piece) :
    p.afterAll (ps ++ qs) = (p.afterAll ps).afterAll qs := List.foldl_append

theorem afterAll_concat (p : Position) (pieces : List Piece) (piece : Piece) :
    p.afterAll (pieces ++ [piece]) = (p.afterAll pieces).after piece := afterAll_append p pieces _

end Position

/-- The text that consecutive pieces cover. -/
def textOf (pieces : List Piece) : List Char := pieces.flatMap (·.text)

@[simp] theorem textOf_nil : textOf [] = [] := rfl

@[simp] theorem textOf_cons (p : Piece) (pieces : List Piece) :
    textOf (p :: pieces) = p.text ++ textOf pieces := List.flatMap_cons

@[simp] theorem textOf_append (ps qs : List Piece) : textOf (ps ++ qs) = textOf ps ++ textOf qs :=
  List.flatMap_append

/-- Every piece is a text of its shape. -/
def WellShaped (pieces : List Piece) : Prop := ∀ p ∈ pieces, p.shape.Accepts p.text

theorem Cuts.wellShaped {text rest : List Char} {pieces : List Piece} (h : Cuts text pieces rest) :
    WellShaped pieces := by
  induction h with
  | nil rest => exact nofun
  | cons hlongest _ _ ih =>
    intro q hq
    rcases List.mem_cons.1 hq with rfl | hq
    · exact hlongest.accepts
    · exact ih q hq

theorem Cuts.textOf_append {text rest : List Char} {pieces : List Piece}
    (h : Cuts text pieces rest) : textOf pieces ++ rest = text := h.flatMap_text

theorem Position.offset_afterAll (p : Position) {pieces : List Piece} (h : WellShaped pieces) :
    (p.afterAll pieces).offset = p.offset + (textOf pieces).length := by
  induction pieces generalizing p with
  | nil => rfl
  | cons piece pieces ih =>
    have htail : WellShaped pieces := fun q hq => h q (List.mem_cons_of_mem piece hq)
    rw [afterAll_cons, ih _ htail, offset_after p (h piece List.mem_cons_self), textOf_cons,
      List.length_append]
    omega

theorem Position.line_afterAll (p : Position) {pieces : List Piece} (h : WellShaped pieces) :
    (p.afterAll pieces).line = p.line + (textOf pieces).count '\n' := by
  induction pieces generalizing p with
  | nil => rfl
  | cons piece pieces ih =>
    have htail : WellShaped pieces := fun q hq => h q (List.mem_cons_of_mem piece hq)
    rw [afterAll_cons, ih _ htail, line_after p (h piece List.mem_cons_self), textOf_cons,
      List.count_append]
    omega

/-- Tokens are placed at the ends of runs of pieces, and those before and behind a token
come from the pieces before and behind its own. -/
theorem exists_pieces_of_placed {pieces : List Piece} {p : Position} {ts us : List Token}
    {t : Token} (h : placed p pieces = ts ++ t :: us) :
    ∃ before piece rest kind, pieces = before ++ piece :: rest ∧ piece.kind? = some kind ∧
      placed p before = ts ∧
      t = tokenBetween kind piece.text (p.afterAll before) (p.afterAll (before ++ [piece])) ∧
      placed (p.afterAll (before ++ [piece])) rest = us := by
  induction pieces generalizing p ts with
  | nil => simp [placed] at h
  | cons piece pieces ih =>
    rw [placed] at h
    cases hkind : piece.kind? with
    | none =>
      simp only [hkind] at h
      obtain ⟨before, last, rest, kind, rfl, hlast, hbefore, ht, hrest⟩ := ih h
      refine ⟨piece :: before, last, rest, kind, rfl, hlast, ?_, ht, hrest⟩
      rw [placed, hkind]
      exact hbefore
    | some kind =>
      simp only [hkind] at h
      cases ts with
      | nil =>
        obtain ⟨ht, hus⟩ := List.cons.inj h
        exact ⟨[], piece, pieces, kind, rfl, hkind, rfl, ht.symm, hus⟩
      | cons first ts =>
        obtain ⟨hfirst, htail⟩ := List.cons.inj h
        obtain ⟨before, last, rest, next, rfl, hlast, hbefore, ht, hrest⟩ := ih htail
        refine ⟨piece :: before, last, rest, next, rfl, hlast, ?_, ht, hrest⟩
        rw [placed, hkind, ← hfirst, ← hbefore]

theorem mem_placed {pieces : List Piece} {p : Position} {t : Token} (h : t ∈ placed p pieces) :
    ∃ before piece rest kind, pieces = before ++ piece :: rest ∧ piece.kind? = some kind ∧
      t = tokenBetween kind piece.text (p.afterAll before) (p.afterAll (before ++ [piece])) := by
  obtain ⟨ts, us, hsplit⟩ := List.append_of_mem h
  obtain ⟨before, piece, rest, kind, hpieces, hkind, -, ht, -⟩ := exists_pieces_of_placed hsplit
  exact ⟨before, piece, rest, kind, hpieces, hkind, ht⟩

end SurfaceLanguage.Lexing
