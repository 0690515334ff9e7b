import SurfaceLanguage.Proofs.Lexing.Positions

/-!
# Reading on

A text that is read on from a position has the tokens it would have as a source of its
own, elsewhere: their offsets and their lines count on from that position, and so do the
columns of the first line. Columns of later lines stay as they are. The reason is that
every step of the walk commutes with the change of place.
-/
namespace SurfaceLanguage.Lexing

/-- Lines count from one, and so do the columns of the first line. -/
structure Proper (line column : Nat) : Prop where
  line_pos : 1 ≤ line
  column_pos : line = 1 → 1 ≤ column

namespace Position

def IsProper (p : Position) : Prop := Proper p.line p.column

theorem isProper_start : start.IsProper := ⟨Nat.le_refl 1, fun _ => Nat.le_refl 1⟩

theorem IsProper.next {p : Position} (h : p.IsProper) (c : Char) : (p.next c).IsProper := by
  unfold Position.next
  split
  · exact ⟨Nat.le_add_left 1 _, fun _ => Nat.le_refl 1⟩
  · exact ⟨h.line_pos, fun _ => Nat.le_add_left 1 _⟩

theorem IsProper.past {p : Position} (h : p.IsProper) (text : List Char) :
    (p.past text).IsProper := by
  induction text generalizing p with
  | nil => exact h
  | cons c text ih => exact ih (h.next c)

theorem IsProper.after {p : Position} (h : p.IsProper) (piece : Piece) :
    (p.after piece).IsProper := by
  by_cases hbreak : piece.shape = .lineBreak
  · rw [after_lineBreak p hbreak]
    have hline := h.line_pos
    constructor
    · exact Nat.le_add_left 1 _
    · dsimp only
      omega
  · rw [after_of_ne_lineBreak p hbreak]
    exact h.past piece.text

theorem IsProper.afterAll {p : Position} (h : p.IsProper) (pieces : List Piece) :
    (p.afterAll pieces).IsProper := by
  induction pieces generalizing p with
  | nil => exact h
  | cons piece pieces ih => exact ih (h.after piece)

/-- A position of a source, when the source is read on from another position. -/
def beyond (p base : Position) : Position where
  offset := base.offset + p.offset
  line := base.line + p.line - 1
  column := if p.line = 1 then base.column + p.column - 1 else p.column

theorem start_beyond (base : Position) : start.beyond base = base := by
  simp [beyond, start]

theorem next_beyond {p : Position} (h : p.IsProper) (base : Position) (c : Char) :
    (p.beyond base).next c = (p.next c).beyond base := by
  have hline := h.line_pos
  have hcolumn := h.column_pos
  unfold next
  by_cases hc : c = '\n'
  · rw [if_pos hc, if_pos hc]
    simp only [beyond, mk.injEq]
    refine ⟨by omega, by omega, ?_⟩
    rw [if_neg (by omega)]
  · rw [if_neg hc, if_neg hc]
    simp only [beyond, mk.injEq]
    refine ⟨by omega, trivial, ?_⟩
    split
    · next hone =>
        have := hcolumn hone
        omega
    · rfl

theorem past_beyond {p : Position} (h : p.IsProper) (base : Position) (text : List Char) :
    (p.beyond base).past text = (p.past text).beyond base := by
  induction text generalizing p with
  | nil => rfl
  | cons c text ih => rw [past_cons, past_cons, next_beyond h, ih (h.next c)]

/-- A line break leads to a later line of either source, and to column zero of it. -/
theorem after_beyond {p : Position} (h : p.IsProper) (base : Position) (piece : Piece) :
    (p.beyond base).after piece = (p.after piece).beyond base := by
  by_cases hbreak : piece.shape = .lineBreak
  · have hline := h.line_pos
    rw [after_lineBreak _ hbreak, after_lineBreak _ hbreak]
    simp only [beyond, mk.injEq]
    refine ⟨by omega, by omega, ?_⟩
    rw [if_neg (by omega)]
  · rw [after_of_ne_lineBreak _ hbreak, after_of_ne_lineBreak _ hbreak, past_beyond h]

theorem afterAll_beyond {p : Position} (h : p.IsProper) (base : Position)
    (pieces : List Piece) :
    (p.beyond base).afterAll pieces = (p.afterAll pieces).beyond base := by
  induction pieces generalizing p with
  | nil => rfl
  | cons piece pieces ih => rw [afterAll_cons, afterAll_cons, after_beyond h, ih (h.after piece)]

end Position

/-- A token of a source, when the source is read on from a position. -/
def tokenBeyond (base : Position) (t : Token) : Token :=
  let stop := (⟨t.span.stop, t.line, t.column⟩ : Position).beyond base
  ⟨t.kind, t.lexeme, ⟨base.offset + t.span.start, stop.offset, stop.line, stop.column⟩⟩

theorem placed_beyond {p : Position} (h : p.IsProper) (base : Position) (pieces : List Piece) :
    placed (p.beyond base) pieces = (placed p pieces).map (tokenBeyond base) := by
  induction pieces generalizing p with
  | nil => rfl
  | cons piece pieces ih =>
    rw [placed, placed, Position.after_beyond h, ih (h.after piece)]
    cases piece.kind? with
    | none => rfl
    | some kind => rfl

/-- The tokens of a source that is read on from a position. -/
theorem streamFrom_eq_map_stream (base : Position) (pieces : List Piece) :
    streamFrom base pieces = (stream pieces).map (tokenBeyond base) := by
  have hplaced := placed_beyond Position.isProper_start base pieces
  have hstop := Position.afterAll_beyond Position.isProper_start base pieces
  rw [Position.start_beyond] at hplaced hstop
  rw [streamFrom, stream, streamFrom, List.map_append, hplaced, hstop]
  rfl

/-- Every token of a source has a proper place. -/
theorem proper_of_mem_placed {p : Position} (h : p.IsProper) {pieces : List Piece} {t : Token}
    (ht : t ∈ placed p pieces) : Proper t.line t.column := by
  induction pieces generalizing p with
  | nil => cases ht
  | cons piece pieces ih =>
    rw [placed] at ht
    cases hkind : piece.kind? with
    | none =>
      rw [hkind] at ht
      exact ih (h.after piece) ht
    | some kind =>
      rw [hkind] at ht
      rcases List.mem_cons.1 ht with rfl | hmem
      · exact h.after piece
      · exact ih (h.after piece) hmem

theorem proper_of_mem_stream {pieces : List Piece} {t : Token} (ht : t ∈ stream pieces) :
    Proper t.line t.column := by
  rcases List.mem_append.1 ht with hmem | hmem
  · exact proper_of_mem_placed Position.isProper_start hmem
  · rw [List.mem_singleton.1 hmem]
    exact Position.isProper_start.afterAll pieces

end SurfaceLanguage.Lexing
