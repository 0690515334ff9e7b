import SurfaceLanguage.Proofs.Tree.Reading

/-!
# Expressions are read back

The forms of a plain expression are read as its normal form, whatever forms stand
behind them. First come the readers on single words and groups, and on rows of
parts of one sort.
-/
namespace SurfaceLanguage.Tree
open Form

/-! ## One form after another -/

section Rows
variable {text name tag : String} {forms rest : List Form} {part : Part}

theorem readParts_group : readParts (.group forms :: rest) = readGroup forms :: readParts rest :=
  rfl

theorem readParts_word (h : typedName? text = none) :
    readParts (.word text :: rest) = .expr (leaf text) :: readParts rest := by
  cases rest with
  | nil => rfl
  | cons next rest =>
    cases next with
    | group parts => rfl
    | word ty => simp only [readParts, h]

theorem readParts_typedName (h : isName name = true) : ∀ declared : Option Ty,
    readParts (typedName name declared ++ rest) =
      .expr (Expr.variable name declared).normal :: readParts rest
  | none => by
      rw [typedName, List.singleton_append, readParts_word (typedName?_name h), leaf_name h]
      rfl
  | some ty => by
      simp only [typedName, List.cons_append, List.nil_append, readParts, typedName?_colon h,
        readTy_name]
      rfl

theorem readParts_name (h : isName name = true) :
    readParts (.word name :: rest) = .expr (.identifier name) :: readParts rest :=
  readParts_typedName h none

theorem readParts_ty (ty : Ty) :
    readParts (.word ty.name :: rest) = .expr (.identifier ty.name) :: readParts rest := by
  rw [readParts_word (typedName?_ty ty), leaf_ty]

theorem readGroup_tagged (hmark : mark? tag = none) (hoperator : isOperator tag = false) :
    readGroup (.word tag :: forms) = readTagged tag forms (readParts forms) := by
  simp only [readGroup, hmark, hoperator, Bool.false_eq_true, if_false]

theorem mark?_operator (h : isOperator tag = true) : mark? tag = none := by
  have hmarks : ∀ row ∈ marks, isOperator row.1 = false := by decide
  refine List.lookup_eq_none_iff.2 fun row hrow => bne_iff_ne.2 ?_
  rintro rfl
  rw [hmarks row hrow] at h
  cases h

theorem readGroup_operator (h : isOperator tag = true) :
    readGroup (.word tag :: forms) = operation tag (exprsOf (readParts forms)) := by
  simp only [readGroup, mark?_operator h, h, if_true]

theorem readParts_tagged (hmark : mark? tag = none) (hoperator : isOperator tag = false)
    (hpart : readTagged tag forms (readParts forms) = part) :
    readParts (tagged tag forms :: rest) = part :: readParts rest := by
  rw [tagged, readParts_group, readGroup_tagged hmark hoperator, hpart]

end Rows

/-! ## What the readers see in a row of parts -/

/-- A search goes past parts of another sort. -/
theorem findSome?_skip {α β : Type} {sort : α → Part} {sees : Part → Option β}
    (h : ∀ a, sees (sort a) = none) (as : List α) (parts : List Part) :
    (as.map sort ++ parts).findSome? sees = parts.findSome? sees := by
  have hnone : (as.map sort).findSome? sees = none := by
    simp only [List.findSome?_eq_none_iff, List.mem_map]
    rintro _ ⟨a, -, rfl⟩
    exact h a
  rw [List.findSome?_append, hnone, Option.none_or]

section Sorts
variable (exprs : List Expr) (statements : List Stmt) (cases : List SwitchCase)
  (parts : List Part)

@[simp] theorem exprsOf_nil : exprsOf [] = [] := rfl

@[simp] theorem exprsOf_expr (e : Expr) : exprsOf (.expr e :: parts) = e :: exprsOf parts := rfl

@[simp] theorem exprsOf_stmt (s : Stmt) : exprsOf (.stmt s :: parts) = exprsOf parts := rfl

@[simp] theorem exprsOf_exprs : exprsOf (exprs.map .expr ++ parts) = exprs ++ exprsOf parts := by
  simp [exprsOf, List.filterMap_map, Function.comp_def, Part.expr?]

@[simp] theorem exprsOf_map_expr : exprsOf (exprs.map .expr) = exprs := by
  simpa using exprsOf_exprs exprs []

@[simp] theorem exprsOf_statements : exprsOf (statements.map .stmt) = [] := by
  simp [exprsOf, List.filterMap_map, Function.comp_def, Part.expr?]

@[simp] theorem exprsOf_cases : exprsOf (cases.map .switchCase ++ parts) = exprsOf parts := by
  simp [exprsOf, List.filterMap_map, Function.comp_def, Part.expr?]

@[simp] theorem stmtsOf_expr (e : Expr) : stmtsOf (.expr e :: parts) = stmtsOf parts := rfl

@[simp] theorem stmtsOf_statements : stmtsOf (statements.map .stmt) = statements := by
  simp [stmtsOf, List.filterMap_map, Function.comp_def, Part.stmt?]

@[simp] theorem casesOf_expr (e : Expr) : casesOf (.expr e :: parts) = casesOf parts := rfl

@[simp] theorem casesOf_cases :
    casesOf (cases.map .switchCase ++ parts) = cases ++ casesOf parts := by
  simp [casesOf, List.filterMap_map, Function.comp_def, Part.switchCase?]

@[simp] theorem fallback_expr (e : Expr) :
    (Part.expr e :: parts).findSome? Part.fallback? = parts.findSome? Part.fallback? := rfl

@[simp] theorem fallback_cases :
    (cases.map Part.switchCase ++ parts).findSome? Part.fallback? =
      parts.findSome? Part.fallback? :=
  findSome?_skip (fun _ => rfl) cases parts

@[simp] theorem bodyOf_expr (e : Expr) : bodyOf (.expr e :: parts) = bodyOf parts := rfl

@[simp] theorem bodyOf_block : bodyOf (.stmt (.block statements) :: parts) = statements := rfl

@[simp] theorem bodyOf_exprs : bodyOf (exprs.map .expr ++ parts) = bodyOf parts :=
  congrArg (Option.getD · []) (findSome?_skip (fun _ => rfl) exprs parts)

end Sorts

/-! ## Expressions -/

/-- The forms are read as the normal tree and nothing else. -/
def Expr.Reads (e : Expr) : Prop :=
  ∀ rest, readParts (e.forms ++ rest) = .expr e.normal :: readParts rest

def Expr.AllRead (exprs : List Expr) : Prop :=
  ∀ rest, readParts (Expr.allForms exprs ++ rest) =
    (Expr.allNormal exprs).map .expr ++ readParts rest

theorem Expr.Reads.alone {e : Expr} (h : e.Reads) : readParts e.forms = [.expr e.normal] := by
  simpa [readParts] using h []

theorem Expr.AllRead.alone {exprs : List Expr} (h : Expr.AllRead exprs) :
    readParts (Expr.allForms exprs) = (Expr.allNormal exprs).map .expr := by
  simpa [readParts] using h []

theorem Expr.reads_of_tagged {e : Expr} {tag : String} {forms : List Form}
    (hforms : e.forms = [tagged tag forms]) (hmark : mark? tag = none)
    (hoperator : isOperator tag = false)
    (hpart : readTagged tag forms (readParts forms) = .expr e.normal) : e.Reads := by
  intro rest
  rw [hforms]
  exact readParts_tagged hmark hoperator hpart

theorem Expr.reads_of_operator {e : Expr} {tag : String} {forms : List Form}
    (hforms : e.forms = [tagged tag forms]) (htag : isOperator tag = true)
    (hpart : operation tag (exprsOf (readParts forms)) = .expr e.normal) : e.Reads := by
  intro rest
  rw [hforms, ← hpart, ← readGroup_operator htag]
  rfl

mutual

theorem Expr.reads : ∀ e : Expr, e.isPlain = true → e.Reads
  | .intLit value, _ => fun rest => by
      rw [Expr.forms, List.singleton_append, readParts_word (typedName?_int value), leaf_int]
      rfl
  | .stringLit value, h => fun rest => by
      have hstart : ("\"" ++ value ++ "\"").toList = '"' :: (value.toList ++ ['"']) := by simp
      rw [Expr.forms, List.singleton_append, readParts_word (typedName?_of_start hstart rfl),
        leaf_string]
      rfl
  | .boolLit true, _ | .boolLit false, _ | .thisRef, _ => fun _ => readParts_word rfl
  | .array elements, h => by
      have helements := Expr.allRead elements h
      refine Expr.reads_of_tagged rfl rfl rfl ?_
      rw [helements.alone, readTagged, exprsOf_map_expr]
      rfl
  | .assign name value, h => by
      rw [Expr.isPlain, Bool.and_eq_true] at h
      refine Expr.reads_of_tagged rfl rfl rfl ?_
      rw [readParts_name h.1, (value.reads h.2).alone]
      rfl
  | .binary left operator right, h | .logical left operator right, h => by
      simp only [Expr.isPlain, Bool.and_eq_true] at h
      refine Expr.reads_of_operator rfl h.1.2 ?_
      rw [left.reads h.1.1, (right.reads h.2).alone]
      rfl
  | .call callee arguments, h => by
      rw [Expr.isPlain, Bool.and_eq_true] at h
      refine Expr.reads_of_tagged rfl rfl rfl ?_
      rw [callee.reads h.1, (Expr.allRead arguments h.2).alone, readTagged, exprsOf_expr,
        exprsOf_map_expr]
      rfl
  | .grouping inner, h => by
      refine Expr.reads_of_tagged rfl rfl rfl ?_
      rw [(inner.reads h).alone]
      rfl
  | .instanceOf object ty, h => by
      refine Expr.reads_of_tagged rfl rfl rfl ?_
      rw [object.reads h, readParts_ty]
      exact congrArg (fun ty => Part.expr (.instanceOf object.normal ty)) (readTy_name ty)
  | .lambda params body, h => by
      rw [Expr.isPlain, Bool.and_eq_true] at h
      refine Expr.reads_of_tagged rfl rfl rfl ?_
      rw [readParts_group, (body.reads h.2).alone]
      exact congrArg (fun names => Part.expr (.lambda names body.normal)) (namesOf_words params)
  | .newObject className arguments, h => by
      rw [Expr.isPlain, Bool.and_eq_true] at h
      refine Expr.reads_of_tagged rfl rfl rfl ?_
      rw [readParts_name h.1, (Expr.allRead arguments h.2).alone, readTagged, exprsOf_expr,
        exprsOf_map_expr]
      rfl
  | .postUnary operand operator, h => by
      rw [Expr.isPlain, Bool.and_eq_true] at h
      refine Expr.reads_of_tagged rfl rfl rfl ?_
      rw [readParts_word (typedName?_operator h.2), (operand.reads h.1).alone]
      rfl
  | .superRef method, h => by
      refine Expr.reads_of_tagged rfl rfl rfl ?_
      rw [(method.reads h).alone]
      rfl
  | .unary operator right, h => by
      rw [Expr.isPlain, Bool.and_eq_true] at h
      refine Expr.reads_of_operator rfl h.1 ?_
      rw [(right.reads h.2).alone]
      rfl
  | .variable _ declared, h => fun _ => readParts_typedName h declared
  | .member object property, h => by
      rw [Expr.isPlain, Bool.and_eq_true] at h
      refine Expr.reads_of_tagged rfl rfl rfl ?_
      rw [object.reads h.1, readParts_name h.2]
      rfl
  | .identifier _, h => fun _ => readParts_name h

theorem Expr.allRead : ∀ exprs : List Expr, Expr.allPlain exprs = true → Expr.AllRead exprs
  | [], _ => fun _ => rfl
  | e :: exprs, h => fun rest => by
      rw [Expr.allPlain, Bool.and_eq_true] at h
      rw [Expr.allForms, List.append_assoc, e.reads h.1, Expr.allRead exprs h.2]
      rfl

end

end SurfaceLanguage.Tree
