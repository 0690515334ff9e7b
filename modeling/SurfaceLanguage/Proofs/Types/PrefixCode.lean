import Mathlib.Data.List.Basic
import SurfaceLanguage.Types

/-!
# Names of types as a prefix code

No name of a primitive begins the name of another, and none begins with the array
marker. So a type is known as soon as its name has been read, whatever stands behind
it. The reader here takes a name off the front of a text and hands back the rest. It
finds a type exactly where a name of that type stands.
-/
namespace SurfaceLanguage

namespace PrimitiveType

theorem mem_all (p : PrimitiveType) : p ∈ all := by cases p <;> decide

theorem eq_of_prefix_name {p q : PrimitiveType} (h : p.name.toList <+: q.name.toList) : p = q := by
  revert h
  cases p <;> cases q <;> decide

/-- The primitive whose name begins a text, with what stands behind the name. -/
def readFront? (text : List Char) : Option (PrimitiveType × List Char) :=
  (all.find? (·.name.toList.isPrefixOf text)).map fun p => (p, text.drop p.name.toList.length)

theorem readFront?_eq_some_iff {text rest : List Char} {p : PrimitiveType} :
    readFront? text = some (p, rest) ↔ text = p.name.toList ++ rest := by
  constructor
  · intro h
    obtain ⟨q, hfind, hparts⟩ := Option.map_eq_some_iff.1 h
    obtain ⟨rfl, rfl⟩ := Prod.mk.inj hparts
    have hpre : q.name.toList <+: text := by simpa using List.find?_some hfind
    exact (List.prefix_iff_eq_append.1 hpre).symm
  · rintro rfl
    have hpre : p.name.toList <+: p.name.toList ++ rest := List.prefix_append _ _
    rw [readFront?]
    cases hfind : all.find? (·.name.toList.isPrefixOf (p.name.toList ++ rest)) with
    | none =>
      have hnone := List.find?_eq_none.1 hfind p p.mem_all
      exact absurd (List.isPrefixOf_iff_prefix.2 hpre) hnone
    | some q =>
      have hother : q.name.toList <+: p.name.toList ++ rest := by simpa using List.find?_some hfind
      have hsame : q = p := by
        rcases List.prefix_or_prefix_of_prefix hother hpre with h | h
        · exact eq_of_prefix_name h
        · exact (eq_of_prefix_name h).symm
      rw [hsame, Option.map_some, List.drop_left]

end PrimitiveType

namespace Ty

/-- The type whose name begins a text, with what stands behind the name. -/
def readFront? : List Char → Option (Ty × List Char)
  | '[' :: ']' :: text =>
      (readFront? text).map fun (element, rest) => (.array element, rest)
  | text => (PrimitiveType.readFront? text).map fun (p, rest) => (.primitive p, rest)

theorem toList_name_array (element : Ty) :
    (Ty.array element).name.toList = '[' :: ']' :: element.name.toList := by
  rw [name, String.toList_append]
  rfl

theorem readFront?_primitive (p : PrimitiveType) (rest : List Char) :
    readFront? (p.name.toList ++ rest) = some (.primitive p, rest) := by
  have hmarker : ∀ text, p.name.toList ++ rest = '[' :: ']' :: text → False := by
    cases p <;> exact nofun
  rw [readFront?.eq_2 _ hmarker, PrimitiveType.readFront?_eq_some_iff.2 rfl]
  rfl

theorem readFront?_name (t : Ty) (rest : List Char) :
    readFront? (t.name.toList ++ rest) = some (t, rest) := by
  induction t with
  | primitive p => exact readFront?_primitive p rest
  | array element ih =>
    rw [toList_name_array, List.cons_append, List.cons_append, readFront?, ih]
    rfl

theorem eq_append_of_readFront? {text rest : List Char} {t : Ty}
    (h : readFront? text = some (t, rest)) : text = t.name.toList ++ rest := by
  fun_induction readFront? text generalizing t with
  | case1 text ih =>
    obtain ⟨⟨element, after⟩, hread, hparts⟩ := Option.map_eq_some_iff.1 h
    obtain ⟨rfl, rfl⟩ := Prod.mk.inj hparts
    rw [toList_name_array, List.cons_append, List.cons_append, ← ih hread]
  | case2 text =>
    obtain ⟨⟨p, after⟩, hread, hparts⟩ := Option.map_eq_some_iff.1 h
    obtain ⟨rfl, rfl⟩ := Prod.mk.inj hparts
    exact PrimitiveType.readFront?_eq_some_iff.1 hread

theorem name_append_inj {a b : Ty} {x y : String} :
    a.name ++ x = b.name ++ y ↔ a = b ∧ x = y := by
  constructor
  · intro h
    have htexts : a.name.toList ++ x.toList = b.name.toList ++ y.toList := by
      simpa using congrArg String.toList h
    have hread := readFront?_name a x.toList
    rw [htexts, readFront?_name b] at hread
    obtain ⟨rfl, hrest⟩ := Prod.mk.inj (Option.some.inj hread)
    exact ⟨rfl, (String.toList_inj.1 hrest).symm⟩
  · rintro ⟨rfl, rfl⟩
    rfl

/-- The names of types are a prefix code: two texts that begin with the names of types
agree only when both the types and what stands behind them do, two types of one name
are the same type, and reading from the front finds the type and the rest. -/
theorem names_prefix_code :
    (∀ (a b : Ty) (x y : String), a.name ++ x = b.name ++ y ↔ a = b ∧ x = y) ∧
    (∀ a b : Ty, a.name = b.name ↔ a = b) ∧
    ∀ (text rest : List Char) (t : Ty),
      readFront? text = some (t, rest) ↔ text = t.name.toList ++ rest := by
  refine ⟨fun a b x y => name_append_inj, ?_, ?_⟩
  · intro a b
    simpa using name_append_inj (a := a) (b := b) (x := "") (y := "")
  · intro text rest t
    constructor
    · exact eq_append_of_readFront?
    · rintro rfl
      exact readFront?_name t rest

end Ty
end SurfaceLanguage
