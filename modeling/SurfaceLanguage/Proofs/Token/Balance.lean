import Mathlib.Data.List.Infix
import SurfaceLanguage.Token.Basic

/-!
# Balanced brackets

A row of tokens is balanced when its round brackets are: no front of it closes more of them
than it opens, and the whole closes all. Rows in a row stay balanced, and so does a row
inside brackets.
-/
namespace SurfaceLanguage

def openings (kinds : List TokenKind) : ℕ := kinds.count (.symbol .leftParen)

def closings (kinds : List TokenKind) : ℕ := kinds.count (.symbol .rightParen)

structure Balanced (kinds : List TokenKind) : Prop where
  never_below : ∀ front, front <+: kinds → closings front ≤ openings front
  level : closings kinds = openings kinds

/-- A row that opens with a bracket which the last token before the end closes. Between
the two no bracket is closed that was not opened there, so the first one stays open. -/
def Enclosed (kinds : List TokenKind) : Prop :=
  ∃ inner, kinds = .symbol .leftParen :: (inner ++ [.symbol .rightParen, .eof]) ∧ Balanced inner

theorem balanced_iff {kinds : List TokenKind} :
    Balanced kinds ↔
      (∀ front ∈ kinds.inits, closings front ≤ openings front) ∧
        closings kinds = openings kinds := by
  simp only [List.mem_inits]
  exact ⟨fun h => ⟨h.never_below, h.level⟩, fun h => ⟨h.1, h.2⟩⟩

instance (kinds : List TokenKind) : Decidable (Balanced kinds) :=
  decidable_of_iff _ balanced_iff.symm

/-- Equal totals are not enough. -/
example : ¬ Balanced [.symbol .rightParen, .symbol .leftParen] := by decide

theorem openings_append (kinds more : List TokenKind) :
    openings (kinds ++ more) = openings kinds + openings more := List.count_append

theorem closings_append (kinds more : List TokenKind) :
    closings (kinds ++ more) = closings kinds + closings more := List.count_append

theorem openings_cons (kind : TokenKind) (kinds : List TokenKind) :
    openings (kind :: kinds) = openings [kind] + openings kinds := openings_append [kind] kinds

theorem closings_cons (kind : TokenKind) (kinds : List TokenKind) :
    closings (kind :: kinds) = closings [kind] + closings kinds := closings_append [kind] kinds

/-- Where there are no round brackets, nothing is out of balance. -/
theorem balanced_of_absent {kinds : List TokenKind}
    (h : ∀ kind ∈ kinds, kind ≠ .symbol .leftParen ∧ kind ≠ .symbol .rightParen) :
    Balanced kinds := by
  have hopen : openings kinds = 0 :=
    List.count_eq_zero_of_not_mem fun hmem => (h _ hmem).1 rfl
  have hclose : closings kinds = 0 :=
    List.count_eq_zero_of_not_mem fun hmem => (h _ hmem).2 rfl
  constructor
  · intro front hfront
    have hle : closings front ≤ closings kinds := hfront.sublist.count_le _
    omega
  · rw [hopen, hclose]

theorem Balanced.append {kinds more : List TokenKind} (first : Balanced kinds)
    (last : Balanced more) : Balanced (kinds ++ more) := by
  have hfirst := first.level
  have hlast := last.level
  constructor
  · intro front hfront
    rcases List.prefix_or_prefix_of_prefix hfront (List.prefix_append kinds more) with
      hshort | ⟨rest, rfl⟩
    · exact first.never_below front hshort
    · have hle := last.never_below rest ((List.prefix_append_right_inj kinds).1 hfront)
      rw [closings_append, openings_append]
      omega
  · rw [closings_append, openings_append]
    omega

theorem Balanced.wrap {inner : List TokenKind} (h : Balanced inner) :
    Balanced (.symbol .leftParen :: (inner ++ [.symbol .rightParen])) := by
  have hlevel := h.level
  have hopen : openings [.symbol .leftParen] = 1 ∧ closings [.symbol .leftParen] = 0 := by decide
  have hclose : openings [.symbol .rightParen] = 0 ∧ closings [.symbol .rightParen] = 1 := by
    decide
  constructor
  · intro front hfront
    rcases List.prefix_cons_iff.1 hfront with rfl | ⟨rest, rfl, hrest⟩
    · exact Nat.le_refl _
    · rw [closings_cons, openings_cons]
      rcases List.prefix_concat_iff.1 hrest with rfl | hrest
      · rw [closings_append, openings_append]
        omega
      · have hle := h.never_below rest hrest
        omega
  · rw [closings_cons, openings_cons, closings_append, openings_append]
    omega

theorem Enclosed.balanced {kinds : List TokenKind} (h : Enclosed kinds) : Balanced kinds := by
  obtain ⟨inner, rfl, hinner⟩ := h
  have heof : Balanced [.eof] := by decide
  have hrow := hinner.wrap.append heof
  simpa using hrow

end SurfaceLanguage
