import SurfaceLanguage.Proofs.Tree.Fields
import SurfaceLanguage.Proofs.Tree.Legible

/-!
# Texts are printed as they are

The printer's own words are ASCII, its spaces and brackets too. The letters beyond ASCII in a
printed tree therefore come from the texts of the tree, and since each text is written down
once, they come in the order of the texts and as often as they stand there. The main
statement counts them.
-/
namespace SurfaceLanguage.Tree
open Form Lexing

/-- A character beyond ASCII. -/
def isForeign (c : Char) : Bool := 127 < c.toNat

theorem not_foreign_of_wordPart {c : Char} (h : isWordPart c = true) : isForeign c = false := by
  rw [isForeign, decide_eq_false_iff_not]
  rw [isWordPart, Bool.or_eq_true, beq_iff_eq] at h
  rcases h with h | rfl
  · change (decide ('A'.val ≤ c.val ∧ c.val ≤ 'Z'.val) ||
      (decide ('a'.val ≤ c.val) && decide (c.val ≤ 'z'.val)) ||
      (decide ('0'.val ≤ c.val) && decide (c.val ≤ '9'.val))) = true at h
    simp only [Bool.or_eq_true, Bool.and_eq_true, decide_eq_true_eq, UInt32.le_iff_toNat_le] at h
    have hnat : c.toNat = c.val.toNat := rfl
    have hupper : 'Z'.val.toNat = 90 := rfl
    have hlower : 'z'.val.toNat = 122 := rfl
    have hdigit : '9'.val.toNat = 57 := rfl
    omega
  · decide

theorem not_foreign_of_inert {c : Char} (h : isInert c = true) : isForeign c = false := by
  have hsigns : Symbol.signs.any isForeign = false := by decide
  simp only [isInert, Bool.or_eq_true, Bool.and_eq_true, List.contains_iff_mem] at h
  rcases h with h | h
  · exact not_foreign_of_wordPart h
  · exact Bool.eq_false_iff.2 (List.any_eq_false.1 hsigns c h.1.1.1)

/-- The letters of a text that are not ASCII, in their order. -/
def foreign (text : List Char) : List Char := text.filter isForeign

theorem foreign_append (text more : List Char) :
    foreign (text ++ more) = foreign text ++ foreign more := List.filter_append text more

theorem foreign_cons_of_not {c : Char} (h : isForeign c = false) (text : List Char) :
    foreign (c :: text) = foreign text := by
  rw [foreign, List.filter_cons, h]
  rfl

theorem foreign_of_inert {text : List Char} (h : text.all isInert = true) :
    foreign text = [] := by
  rw [List.all_eq_true] at h
  apply List.filter_eq_nil_iff.2
  intro c hc
  rw [not_foreign_of_inert (h c hc)]
  exact Bool.false_ne_true

theorem count_foreign {m : Char} (h : isForeign m = true) (text : List Char) :
    (foreign text).count m = text.count m := List.count_filter h

def TextField.text : TextField → String
  | .name text => text
  | .operator text => text
  | .string value => value

/-- The texts one after the other. -/
def textOfFields (fields : List TextField) : List Char := fields.flatMap (·.text.toList)

theorem textOfFields_append (fields others : List TextField) :
    textOfFields (fields ++ others) = textOfFields fields ++ textOfFields others :=
  List.flatMap_append

theorem textOfFields_singleton (f : TextField) : textOfFields [f] = f.text.toList :=
  List.append_nil _

/-- How often a character stands in the texts of a tree. -/
def occurrences (m : Char) : List TextField → Nat
  | [] => 0
  | f :: fields => f.text.toList.count m + occurrences m fields

theorem count_textOfFields (m : Char) (fields : List TextField) :
    (textOfFields fields).count m = occurrences m fields := by
  induction fields with
  | nil => rfl
  | cons f fields ih =>
    rw [← List.singleton_append, textOfFields_append, textOfFields_singleton, List.count_append,
      ih]
    rfl

section Rows
variable {text : String} {parts : List Form} {shown fields : List TextField}

/-- The marks around a text are ASCII. -/
theorem Shows.foreign_eq (h : Shows text shown) :
    foreign text.toList = foreign (textOfFields shown) := by
  cases h with
  | fixed htext => exact foreign_of_inert htext
  | name text => rw [textOfFields_singleton, TextField.text]
  | typed text =>
    rw [textOfFields_singleton, TextField.text, String.toList_append, foreign_append]
    exact List.append_nil _
  | operator text => rw [textOfFields_singleton, TextField.text]
  | string value =>
    rw [textOfFields_singleton, TextField.text, String.toList_append, String.toList_append,
      foreign_append, foreign_append]
    exact List.append_nil _

theorem foreign_further (parts : List Form) :
    foreign (further parts) = foreign (renderAll parts).toList := by
  cases parts with
  | nil => rfl
  | cons part parts => exact foreign_cons_of_not (by decide) _

theorem foreign_group (parts : List Form) :
    foreign (Form.group parts).render.toList = foreign (renderAll parts).toList := by
  rw [render_group, foreign_cons_of_not (by decide), foreign_append]
  exact List.append_nil _

/-- The letters beyond ASCII of a row are those of the texts it shows, in their order. -/
theorem Tells.foreign_eq (h : Tells parts fields) :
    foreign (renderAll parts).toList = foreign (textOfFields fields) := by
  induction h with
  | nil => rfl
  | word hshows _ ih =>
    rw [renderAll_cons, foreign_append, foreign_further, textOfFields_append, foreign_append,
      ← ih, ← hshows.foreign_eq, render]
  | group _ _ ihinner ih =>
    rw [renderAll_cons, foreign_append, foreign_further, textOfFields_append, foreign_append,
      ← ih, ← ihinner, foreign_group]

theorem Tells.count_eq (h : Tells parts fields) {m : Char} (hm : isForeign m = true) :
    (renderAll parts).toList.count m = occurrences m fields := by
  calc (renderAll parts).toList.count m
      = (foreign (renderAll parts).toList).count m := (count_foreign hm _).symm
    _ = (foreign (textOfFields fields)).count m := by rw [h.foreign_eq]
    _ = (textOfFields fields).count m := count_foreign hm _
    _ = occurrences m fields := count_textOfFields m fields

end Rows

/-- A character beyond ASCII stands in the text of a tree as often as in the names, the
operators and the strings of the tree, whatever these are. -/
theorem count_print {m : Char} (hm : 127 < m.toNat) :
    (∀ e : Expr, e.print.toList.count m = occurrences m e.fields) ∧
    (∀ s : Stmt, s.print.toList.count m = occurrences m s.fields) ∧
    (∀ c : SwitchCase, c.print.toList.count m = occurrences m c.fields) := by
  have hforeign : isForeign m = true := decide_eq_true hm
  refine ⟨?_, ?_, ?_⟩
  · intro e
    exact e.tells.count_eq hforeign
  · intro s
    exact s.tells.count_eq hforeign
  · intro c
    exact c.tells.count_eq hforeign

/-- A loop without a condition and a handler without a block, with texts that a source
cannot spell. -/
def retryForever : Stmt :=
  .forStmt none none (some (.expression (.postUnary (.identifier "zähler") "±ä")))
    [.tryStmt [.throwStmt (.stringLit "(\"ä ä\")")] (some "_ä:") none none]

theorem count_print_of_retryForever :
    127 < 'ä'.toNat ∧
    retryForever.print =
      "(for _ _ (; (postfix ±ä zähler)) (block (try (block (throw \"(\"ä ä\")\")) (catch _ä:))))" ∧
    retryForever.print.toList.count 'ä' = 5 ∧
    (Expr.variable "ä" (some (.array (.primitive .int)))).print.toList.count 'ä' = 1 ∧
    (SwitchCase.mk (.identifier "ä") [.lambda ["ä", "b"] .thisRef] []).print.toList.count 'ä' = 2 :=
  ⟨by decide, rfl, (count_print (by decide)).2.1 retryForever, (count_print (by decide)).1 _,
    (count_print (by decide)).2.2 _⟩

end SurfaceLanguage.Tree
