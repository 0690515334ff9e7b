import SurfaceLanguage.Proofs.Tree.ReadStmt

/-!
# Unique readability

The text of a plain tree determines its normal tree, and nothing more: two plain
trees print alike exactly when their normal trees are the same.
-/
namespace SurfaceLanguage.Tree

theorem Expr.print_normal (e : Expr) : e.normal.print = e.print :=
  congrArg Form.renderAll e.forms_normal

theorem Stmt.print_normal (s : Stmt) : s.normal.print = s.print :=
  congrArg Form.render s.form_normal

theorem Expr.normal_eq_of_forms {a b : Expr} (ha : a.isPlain = true) (hb : b.isPlain = true)
    (h : a.forms = b.forms) : a.normal = b.normal := by
  have hread : [Part.expr a.normal] = [Part.expr b.normal] := by
    rw [← (a.reads ha).alone, ← (b.reads hb).alone, h]
  exact Part.expr.inj (List.cons.inj hread).1

theorem Stmt.normal_eq_of_form {a b : Stmt} (ha : a.isPlain = true) (hb : b.isPlain = true)
    (h : a.form = b.form) : a.normal = b.normal := by
  have hread : Part.stmt a.normal :: readParts [] = Part.stmt b.normal :: readParts [] := by
    rw [← a.reads ha, ← b.reads hb, h]
  exact Part.stmt.inj (List.cons.inj hread).1

/-- Plain trees print alike exactly when they have one normal tree. -/
theorem print_eq_iff_normal_eq :
    (∀ a b : Stmt, a.isPlain = true → b.isPlain = true →
      (a.print = b.print ↔ a.normal = b.normal)) ∧
    (∀ a b : Expr, a.isPlain = true → b.isPlain = true →
      (a.print = b.print ↔ a.normal = b.normal)) := by
  refine ⟨fun a b ha hb => ⟨fun h => ?_, fun h => ?_⟩, fun a b ha hb => ⟨fun h => ?_, fun h => ?_⟩⟩
  · exact Stmt.normal_eq_of_form ha hb (Stmt.form_eq_of_print ha hb h)
  · rw [← a.print_normal, ← b.print_normal, h]
  · exact Expr.normal_eq_of_forms ha hb (Expr.forms_eq_of_print ha hb h)
  · rw [← a.print_normal, ← b.print_normal, h]

/-- A function whose loop waits on a condition and throws a text with brackets. -/
def waitUntil (condition : Expr) : Stmt :=
  .functionDecl .privateAccess false true "wait" [⟨"n", .array (.primitive .int)⟩] none
    [.forStmt none (some condition) (some (.expression (.postUnary (.identifier "n") "--")))
      [.throwStmt (.stringLit ") (block")]]

/-- A call of a lambda whose parameter is the word that opens an array. -/
def callOfLambda (argument : Expr) : Expr :=
  .call (.grouping (.lambda ["array"] (.variable "x" (some (.primitive .any))))) [argument]

theorem print_eq_iff_normal_eq_of_condition :
    (waitUntil (.logical (.variable "a" none) "and" (.identifier "_"))).isPlain = true ∧
    (waitUntil (.binary (.identifier "a") "and" (.variable "_" none))).isPlain = true ∧
    (waitUntil (.logical (.variable "a" none) "and" (.identifier "_"))).print =
      (waitUntil (.binary (.identifier "a") "and" (.variable "_" none))).print ∧
    (callOfLambda (.unary "-" (.intLit 5))).isPlain = true ∧
    (callOfLambda (.intLit (-5))).isPlain = true ∧
    (callOfLambda (.unary "-" (.intLit 5))).print ≠ (callOfLambda (.intLit (-5))).print :=
  ⟨by decide, by decide, (print_eq_iff_normal_eq.1 _ _ (by decide) (by decide)).2 rfl,
    by decide, by decide, fun h => nomatch
      (print_eq_iff_normal_eq.2 _ _ (by decide) (by decide)).1 h⟩

end SurfaceLanguage.Tree
