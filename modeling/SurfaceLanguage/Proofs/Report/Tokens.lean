import SurfaceLanguage.Proofs.Report.Place
import SurfaceLanguage.Token.Basic
import Mathlib.Data.List.Nodup

/-!
# Reports of tokens

A token is displayed as the name of its kind, its lexeme in brackets and quotes, and
its place. The lexeme is not escaped: it may hold brackets, quotes and whole places
of its own. But the name of a kind has no bracket and a place has no space, so that
the first bracket and the last space of a display are always its own, and the token
is read off from both ends.
-/
namespace SurfaceLanguage
open Report

theorem Symbol.mem_all (s : Symbol) : s ∈ all := by cases s <;> decide

namespace TokenKind

theorem mem_all (kind : TokenKind) : kind ∈ all := by
  cases kind with
  | keyword word =>
    exact List.mem_append_left _ (List.mem_append_right _ (List.mem_map_of_mem word.mem_all))
  | symbol sign => exact List.mem_append_right _ (List.mem_map_of_mem sign.mem_all)
  | eof | identifier | number | string =>
    exact List.mem_append_left _ (List.mem_append_left _ (by decide))

theorem nodup_names : (all.map name).Nodup := by decide +kernel

/-- A kind is known by its name. -/
theorem name_inj {kind other : TokenKind} : kind.name = other.name ↔ kind = other := by
  constructor
  · intro h
    exact List.inj_on_of_nodup_map nodup_names kind.mem_all other.mem_all h
  · rintro rfl
    rfl

theorem bracket_notMem_name (kind : TokenKind) : '(' ∉ kind.name.toList := by
  have hall : ∀ other ∈ all, '(' ∉ other.name.toList := by decide +kernel
  exact hall kind kind.mem_all

end TokenKind

namespace Token

/-- What a display shows between its first bracket and its last space. -/
def quotedLexeme (lexeme : String) : List Char :=
  '\'' :: (lexeme.toList ++ ['\'', ')', ' ', 'a', 't'])

theorem quotedLexeme_inj {lexeme other : String} :
    quotedLexeme lexeme = quotedLexeme other ↔ lexeme = other := by
  unfold quotedLexeme
  rw [List.cons_inj_right, List.append_left_inj, String.toList_inj]

theorem toList_display (t : Token) :
    t.display.toList =
      t.kind.name.toList ++ '(' :: (quotedLexeme t.lexeme ++ ' ' :: place t.line t.column) := by
  rw [← toList_place]
  simp [display, quotedLexeme]

/-- Displays agree exactly when everything agrees that they show. -/
theorem display_eq_iff (x y : Token) :
    x.display = y.display ↔
      x.kind = y.kind ∧ x.lexeme = y.lexeme ∧ x.line = y.line ∧ x.column = y.column := by
  constructor
  · intro h
    have htexts := congrArg String.toList h
    rw [toList_display, toList_display] at htexts
    obtain ⟨hname, hbehind⟩ :=
      eq_of_first_separator x.kind.bracket_notMem_name y.kind.bracket_notMem_name htexts
    -- Spaces of the lexeme stand in front of the one before the place, so it is the last.
    have hspace : ∀ line column, ' ' ∉ place line column := notMem_place rfl (by decide)
    obtain ⟨hlexeme, hplace⟩ := eq_of_last_separator (hspace _ _) (hspace _ _) hbehind
    have hkind := TokenKind.name_inj.1 (String.toList_inj.1 hname)
    exact ⟨hkind, quotedLexeme_inj.1 hlexeme, place_inj.1 hplace⟩
  · rintro ⟨hkind, hlexeme, hline, hcolumn⟩
    rw [display, display, hkind, hlexeme, hline, hcolumn]

end Token
end SurfaceLanguage
