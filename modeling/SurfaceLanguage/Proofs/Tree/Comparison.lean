import SurfaceLanguage.Proofs.Number.Comparison
import SurfaceLanguage.Proofs.Tree.Floats
import SurfaceLanguage.Tree.Equality

/-!
# Comparison of trees

Two trees compare as equal exactly when they are one tree once the zeros have lost their signs,
and no number of theirs is a NaN. The proof goes by pairs of forms: trees of one form are
compared part by part, and trees of two forms are neither equal nor one tree.
-/
namespace SurfaceLanguage.Tree
open Number Binary64

/-- None of the numbers is a NaN. -/
def Numeric (xs : List Binary64) : Prop := ∀ x ∈ xs, x.isNaN = false

theorem numeric_nil : Numeric [] := nofun

theorem numeric_singleton {x : Binary64} : Numeric [x] ↔ x.isNaN = false :=
  List.forall_mem_singleton

theorem numeric_append {xs ys : List Binary64} :
    Numeric (xs ++ ys) ↔ Numeric xs ∧ Numeric ys := List.forall_mem_append

mutual

theorem Expr.equal_iff (a b : Expr) : a.equal b = true ↔
    a.mapFloats dropZeroSign = b.mapFloats dropZeroSign ∧ Numeric a.floats := by
  cases a <;> cases b
  case intLit.intLit | stringLit.stringLit | boolLit.boolLit | variable.variable
      | identifier.identifier | thisRef.thisRef =>
    simp only [Expr.equal, Expr.mapFloats, Expr.floats, Bool.and_eq_true, beq_iff_eq, numeric_nil]
    grind
  case floatLit.floatLit =>
    simp only [Expr.equal, Expr.mapFloats, Expr.floats, beq_iff, numeric_singleton]
    grind
  case array.array as bs | newObject.newObject _ as _ bs =>
    simp only [Expr.equal, Expr.mapFloats, Expr.floats, Bool.and_eq_true, beq_iff_eq,
      Expr.equalLists_iff as bs]
    grind
  case grouping.grouping a b | superRef.superRef a b | assign.assign _ a _ b
      | lambda.lambda _ a _ b | unary.unary _ a _ b | instanceOf.instanceOf a _ b _
      | postUnary.postUnary a _ b _ | member.member a _ b _ =>
    simp only [Expr.equal, Expr.mapFloats, Expr.floats, Bool.and_eq_true, beq_iff_eq,
      Expr.equal_iff a b]
    grind
  case binary.binary a _ c b _ d | logical.logical a _ c b _ d =>
    simp only [Expr.equal, Expr.mapFloats, Expr.floats, Bool.and_eq_true, beq_iff_eq,
      Expr.equal_iff a b, Expr.equal_iff c d, numeric_append]
    grind
  case call.call a as b bs =>
    simp only [Expr.equal, Expr.mapFloats, Expr.floats, Bool.and_eq_true,
      Expr.equal_iff a b, Expr.equalLists_iff as bs, numeric_append]
    grind
  -- What is left are pairs of two forms.
  all_goals exact iff_of_false Bool.false_ne_true (by rintro ⟨⟨⟩, -⟩)

theorem Expr.equalLists_iff : ∀ as bs : List Expr, Expr.equalLists as bs = true ↔
    Expr.mapAllFloats dropZeroSign as = Expr.mapAllFloats dropZeroSign bs ∧
      Numeric (Expr.allFloats as)
  | [], [] => iff_of_true rfl ⟨rfl, numeric_nil⟩
  | [], _ :: _ | _ :: _, [] => iff_of_false nofun fun h => nomatch h.1
  | a :: as, b :: bs => by
      simp only [Expr.equalLists, Expr.mapAllFloats, Expr.allFloats, Bool.and_eq_true,
        Expr.equal_iff a b, Expr.equalLists_iff as bs, numeric_append]
      grind

end

theorem Expr.equalOptions_iff : ∀ a b : Option Expr, Expr.equalOptions a b = true ↔
    a.map (Expr.mapFloats dropZeroSign) = b.map (Expr.mapFloats dropZeroSign) ∧
      Numeric (Expr.optionalFloats a)
  | none, none => iff_of_true rfl ⟨rfl, numeric_nil⟩
  | none, some _ | some _, none => iff_of_false nofun fun h => nomatch h.1
  | some a, some b => by
      simp only [Expr.equalOptions, Expr.optionalFloats, Option.map_some, Option.some.injEq,
        Expr.equal_iff a b]

mutual

theorem Stmt.equal_iff (s t : Stmt) : s.equal t = true ↔
    s.mapFloats dropZeroSign = t.mapFloats dropZeroSign ∧ Numeric s.floats := by
  cases s <;> cases t
  case breakStmt.breakStmt | continueStmt.continueStmt | importDecl.importDecl
      | exportDecl.exportDecl | enumDecl.enumDecl | dataDecl.dataDecl =>
    simp only [Stmt.equal, Stmt.mapFloats, Stmt.floats, Bool.and_eq_true, beq_iff_eq, numeric_nil]
    grind
  case expression.expression a b | throwStmt.throwStmt a b =>
    simp only [Stmt.equal, Stmt.mapFloats, Stmt.floats, Expr.equal_iff a b]
    grind
  case returnStmt.returnStmt a b | valDecl.valDecl _ _ _ a _ _ _ b
      | letDecl.letDecl _ _ _ a _ _ _ b | globalDecl.globalDecl _ _ a _ _ b =>
    simp only [Stmt.equal, Stmt.mapFloats, Stmt.floats, Bool.and_eq_true, beq_iff_eq,
      Expr.equalOptions_iff a b]
    grind
  case block.block ss ts | classDecl.classDecl _ _ _ ss _ _ _ ts
      | constructorDecl.constructorDecl _ ss _ ts | interfaceDecl.interfaceDecl _ _ ss _ _ ts
      | structDecl.structDecl _ _ ss _ _ ts
      | functionDecl.functionDecl _ _ _ _ _ _ ss _ _ _ _ _ _ ts =>
    simp only [Stmt.equal, Stmt.mapFloats, Stmt.floats, Bool.and_eq_true, beq_iff_eq,
      Stmt.equalLists_iff ss ts]
    grind
  case tryStmt.tryStmt ss _ hs fs ts _ is gs =>
    simp only [Stmt.equal, Stmt.mapFloats, Stmt.floats, Bool.and_eq_true, beq_iff_eq,
      Stmt.equalLists_iff ss ts, Stmt.equalBlocks_iff hs is, Stmt.equalBlocks_iff fs gs,
      numeric_append]
    grind
  case ifStmt.ifStmt a ss s b ts t =>
    simp only [Stmt.equal, Stmt.mapFloats, Stmt.floats, Bool.and_eq_true, Expr.equal_iff a b,
      Stmt.equalLists_iff ss ts, Stmt.equalOptions_iff s t, numeric_append]
    grind
  case whileStmt.whileStmt a ss b ts =>
    simp only [Stmt.equal, Stmt.mapFloats, Stmt.floats, Bool.and_eq_true, Expr.equal_iff a b,
      Stmt.equalLists_iff ss ts, numeric_append]
    grind
  case forStmt.forStmt i a s ss j b t ts =>
    simp only [Stmt.equal, Stmt.mapFloats, Stmt.floats, Bool.and_eq_true,
      Stmt.equalOptions_iff i j, Expr.equalOptions_iff a b, Stmt.equalOptions_iff s t,
      Stmt.equalLists_iff ss ts, numeric_append]
    grind
  case switchStmt.switchStmt a cs ds b es fs =>
    simp only [Stmt.equal, Stmt.mapFloats, Stmt.floats, Bool.and_eq_true, Expr.equal_iff a b,
      SwitchCase.equalLists_iff cs es, Stmt.equalBlocks_iff ds fs, numeric_append]
    grind
  -- What is left are pairs of two forms.
  all_goals exact iff_of_false Bool.false_ne_true (by rintro ⟨⟨⟩, -⟩)

theorem Stmt.equalLists_iff : ∀ ss ts : List Stmt, Stmt.equalLists ss ts = true ↔
    Stmt.mapAllFloats dropZeroSign ss = Stmt.mapAllFloats dropZeroSign ts ∧
      Numeric (Stmt.allFloats ss)
  | [], [] => iff_of_true rfl ⟨rfl, numeric_nil⟩
  | [], _ :: _ | _ :: _, [] => iff_of_false nofun fun h => nomatch h.1
  | s :: ss, t :: ts => by
      simp only [Stmt.equalLists, Stmt.mapAllFloats, Stmt.allFloats, Bool.and_eq_true,
        Stmt.equal_iff s t, Stmt.equalLists_iff ss ts, numeric_append]
      grind

theorem Stmt.equalOptions_iff : ∀ s t : Option Stmt, Stmt.equalOptions s t = true ↔
    Stmt.mapOptionalFloats dropZeroSign s = Stmt.mapOptionalFloats dropZeroSign t ∧
      Numeric (Stmt.optionalFloats s)
  | none, none => iff_of_true rfl ⟨rfl, numeric_nil⟩
  | none, some _ | some _, none => iff_of_false nofun fun h => nomatch h.1
  | some s, some t => by
      simp only [Stmt.equalOptions, Stmt.mapOptionalFloats, Stmt.optionalFloats,
        Option.some.injEq, Stmt.equal_iff s t]

theorem Stmt.equalBlocks_iff : ∀ ss ts : Option (List Stmt), Stmt.equalBlocks ss ts = true ↔
    Stmt.mapBlockFloats dropZeroSign ss = Stmt.mapBlockFloats dropZeroSign ts ∧
      Numeric (Stmt.blockFloats ss)
  | none, none => iff_of_true rfl ⟨rfl, numeric_nil⟩
  | none, some _ | some _, none => iff_of_false nofun fun h => nomatch h.1
  | some ss, some ts => by
      simp only [Stmt.equalBlocks, Stmt.mapBlockFloats, Stmt.blockFloats, Option.some.injEq,
        Stmt.equalLists_iff ss ts]

theorem SwitchCase.equal_iff : ∀ c d : SwitchCase, c.equal d = true ↔
    c.mapFloats dropZeroSign = d.mapFloats dropZeroSign ∧ Numeric c.floats
  | .mk a as ss, .mk b bs ts => by
      simp only [SwitchCase.equal, SwitchCase.mapFloats, SwitchCase.floats, Bool.and_eq_true,
        Expr.equal_iff a b, Expr.equalLists_iff as bs, Stmt.equalLists_iff ss ts, numeric_append]
      grind

theorem SwitchCase.equalLists_iff : ∀ cs ds : List SwitchCase,
    SwitchCase.equalLists cs ds = true ↔
      SwitchCase.mapAllFloats dropZeroSign cs = SwitchCase.mapAllFloats dropZeroSign ds ∧
        Numeric (SwitchCase.allFloats cs)
  | [], [] => iff_of_true rfl ⟨rfl, numeric_nil⟩
  | [], _ :: _ | _ :: _, [] => iff_of_false nofun fun h => nomatch h.1
  | c :: cs, d :: ds => by
      simp only [SwitchCase.equalLists, SwitchCase.mapAllFloats, SwitchCase.allFloats,
        Bool.and_eq_true, SwitchCase.equal_iff c d, SwitchCase.equalLists_iff cs ds,
        numeric_append]
      grind

end

end SurfaceLanguage.Tree
