import SurfaceLanguage.Proofs.Tree.ReadExpr

/-!
# Statements are read back

The form of a plain statement is read as its normal form, whatever forms stand
behind it. There is one lemma for each form of statement, which takes the parts of
the statement as read; the induction only puts the lemmas together.
-/
namespace SurfaceLanguage.Tree
open Form

/-! ## Statements in a row -/

def Stmt.Reads (s : Stmt) : Prop :=
  ∀ rest, readParts (s.form :: rest) = .stmt s.normal :: readParts rest

def Stmt.AllRead (statements : List Stmt) : Prop :=
  ∀ rest, readParts (Stmt.allForms statements ++ rest) =
    (Stmt.allNormal statements).map .stmt ++ readParts rest

def SwitchCase.Reads (c : SwitchCase) : Prop :=
  ∀ rest, readParts (c.form :: rest) = .switchCase c.normal :: readParts rest

def SwitchCase.AllRead (cases : List SwitchCase) : Prop :=
  ∀ rest, readParts (SwitchCase.allForms cases ++ rest) =
    (SwitchCase.allNormal cases).map .switchCase ++ readParts rest

theorem Stmt.AllRead.alone {statements : List Stmt} (h : Stmt.AllRead statements) :
    readParts (Stmt.allForms statements) = (Stmt.allNormal statements).map .stmt := by
  simpa [readParts] using h []

theorem Stmt.reads_of_group {s : Stmt} {forms : List Form} (hform : s.form = .group forms)
    (hpart : readGroup forms = .stmt s.normal) : s.Reads := by
  intro rest
  rw [hform, readParts_group, hpart]

theorem Stmt.reads_of_tagged {s : Stmt} {tag : String} {forms : List Form}
    (hform : s.form = tagged tag forms) (hmark : mark? tag = none)
    (hoperator : isOperator tag = false)
    (hpart : readTagged tag forms (readParts forms) = .stmt s.normal) : s.Reads :=
  Stmt.reads_of_group hform ((readGroup_tagged hmark hoperator).trans hpart)

section Blocks
variable {body : List Stmt} {rest : List Form}

theorem Stmt.AllRead.block (h : Stmt.AllRead body) :
    readParts (blockForm (Stmt.allForms body) :: rest) =
      .stmt (.block (Stmt.allNormal body)) :: readParts rest := by
  refine readParts_tagged rfl rfl ?_
  rw [h.alone, readTagged, stmtsOf_statements]

/-- The last clause of a statement, a block under a word of its own. -/
theorem readParts_clause {tag : String} (sort : List Stmt → Part) (hmark : mark? tag = none)
    (hoperator : isOperator tag = false)
    (hsort : ∀ forms body, readTagged tag forms [.stmt (.block body)] = sort body)
    {value : Option (List Stmt)} (h : ∀ body ∈ value, Stmt.AllRead body) :
    readParts ((Stmt.optionalBlock value).map (tagged tag [·])) =
      ((Stmt.blockNormal value).map sort).toList := by
  cases value with
  | none => rfl
  | some body =>
    refine readParts_tagged hmark hoperator ?_
    rw [(h body rfl).block]
    exact hsort _ _

end Blocks

/-- What a `try` has between its body and its last clause. -/
def catchParts (caught : Option String) (handler : Option (List Stmt)) : List Part :=
  if caught.isNone && handler.isNone then [] else [.handler caught handler]

theorem readParts_catch {caught : Option String} {handler : Option (List Stmt)}
    (hcaught : caught.toList.all isName = true) (hhandler : ∀ body ∈ handler, Stmt.AllRead body)
    (rest : List Form) :
    readParts (catchForms (words caught.toList ++ Stmt.optionalBlock handler) ++ rest) =
      catchParts caught (Stmt.blockNormal handler) ++ readParts rest := by
  cases caught with
  | none =>
    cases handler with
    | none => rfl
    | some body =>
      refine readParts_tagged rfl rfl ?_
      rw [show words (none : Option String).toList = [] from rfl, List.nil_append,
        Stmt.optionalBlock, (hhandler body rfl).block]
      rfl
  | some name =>
    have hname : isName name = true := by simpa using hcaught
    cases handler with
    | none =>
      refine readParts_tagged rfl rfl ?_
      rw [show words (some name).toList ++ Stmt.optionalBlock none = [.word name] from rfl,
        readParts_name hname]
      rfl
    | some body =>
      refine readParts_tagged rfl rfl ?_
      rw [show words (some name).toList ++ Stmt.optionalBlock (some body) =
          [.word name, blockForm (Stmt.allForms body)] from rfl,
        readParts_name hname, (hhandler body rfl).block]
      rfl

theorem Stmt.reads_try {body : List Stmt} {caught : Option String}
    {handler final : Option (List Stmt)} (hbody : Stmt.AllRead body)
    (hcaught : caught.toList.all isName = true) (hhandler : ∀ body ∈ handler, Stmt.AllRead body)
    (hfinal : ∀ body ∈ final, Stmt.AllRead body) :
    (Stmt.tryStmt body caught handler final).Reads := by
  refine Stmt.reads_of_tagged rfl rfl rfl ?_
  rw [hbody.block, readParts_catch hcaught hhandler,
    readParts_clause .final rfl rfl (fun _ _ => rfl) hfinal]
  -- Which of the three clauses are there decides how many parts there are to search.
  rw [Stmt.normal]
  cases caught <;> cases Stmt.blockNormal handler <;> cases Stmt.blockNormal final <;> rfl

theorem Stmt.reads_if {condition : Expr} {body : List Stmt} {otherwise : Option Stmt}
    (hcondition : condition.Reads) (hbody : Stmt.AllRead body)
    (hotherwise : ∀ s ∈ otherwise, s.Reads) :
    (Stmt.ifStmt condition body otherwise).Reads := by
  refine Stmt.reads_of_tagged rfl rfl rfl ?_
  rw [hcondition, hbody.block]
  cases otherwise with
  | none => rfl
  | some s =>
    have helse : readParts [tagged "else" [s.form]] = [.otherwise s.normal] :=
      readParts_tagged rfl rfl (by rw [hotherwise s rfl]; rfl)
    rw [Stmt.optionalForm, List.map_singleton, helse]
    rfl

theorem Stmt.reads_while {condition : Expr} {body : List Stmt} (hcondition : condition.Reads)
    (hbody : Stmt.AllRead body) : (Stmt.whileStmt condition body).Reads := by
  refine Stmt.reads_of_tagged rfl rfl rfl ?_
  rw [hcondition, hbody.block]
  rfl

theorem Stmt.reads_switch {scrutinee : Expr} {cases : List SwitchCase}
    {otherwise : Option (List Stmt)} (hscrutinee : scrutinee.Reads)
    (hcases : SwitchCase.AllRead cases) (hotherwise : ∀ body ∈ otherwise, Stmt.AllRead body) :
    (Stmt.switchStmt scrutinee cases otherwise).Reads := by
  have hexprs : ∀ value : Option (List Stmt), exprsOf (value.map .fallback).toList = [] := by
    rintro (_ | _) <;> rfl
  have hnocases : ∀ value : Option (List Stmt), casesOf (value.map .fallback).toList = [] := by
    rintro (_ | _) <;> rfl
  have hfallback : ∀ value : Option (List Stmt),
      (value.map Part.fallback).toList.findSome? Part.fallback? = value := by
    rintro (_ | _) <;> rfl
  refine Stmt.reads_of_tagged rfl rfl rfl ?_
  rw [List.append_assoc, hscrutinee, hcases,
    readParts_clause .fallback rfl rfl (fun _ _ => rfl) hotherwise]
  simp only [readTagged, exprsOf_expr, exprsOf_cases, casesOf_expr, casesOf_cases, fallback_expr,
    fallback_cases, hexprs, hnocases, hfallback, List.append_nil]
  rfl

theorem SwitchCase.reads_mk {first : Expr} {others : List Expr} {body : List Stmt}
    (hfirst : first.Reads) (hothers : Expr.AllRead others) (hbody : Stmt.AllRead body) :
    (SwitchCase.mk first others body).Reads := by
  intro rest
  refine readParts_tagged rfl rfl ?_
  rw [List.append_assoc, hfirst, hothers, hbody.block]
  simp only [readTagged, exprsOf_expr, exprsOf_exprs, bodyOf_expr, bodyOf_exprs, bodyOf_block]
  simp [headed, SwitchCase.normal, readParts]

/-! ## The clauses of a `for` -/

theorem Expr.isUnderscore_normal : ∀ e : Expr, e.normal.isUnderscore = e.isUnderscore
  | .variable _ none | .variable _ (some _) | .identifier _ | .intLit _ | .floatLit _
  | .stringLit _ | .boolLit _ | .array _ | .assign .. | .binary .. | .call .. | .grouping _
  | .instanceOf .. | .lambda .. | .logical .. | .newObject .. | .postUnary .. | .superRef _
  | .thisRef | .unary .. | .member .. => rfl

/-- The underscore is read as a name. -/
def absent : Part := .expr (.identifier "_")

theorem readParts_optionalStmt {value : Option Stmt} (h : ∀ s ∈ value, s.Reads)
    (rest : List Form) : readParts (orUnderscore (Stmt.optionalForm value) ++ rest) =
      ((Stmt.optionalNormal value).elim absent .stmt) :: readParts rest := by
  cases value with
  | none => exact readParts_word rfl
  | some s => exact h s rfl rest

theorem readParts_optionalExpr {value : Option Expr} (h : ∀ e ∈ value, e.Reads)
    (rest : List Form) : readParts (orUnderscore (Expr.optionalForms value) ++ rest) =
      ((value.map Expr.normal).elim absent .expr) :: readParts rest := by
  cases value with
  | none => exact readParts_word rfl
  | some e =>
    -- No forms would be read as no parts.
    have hne : e.forms ≠ [] := by
      intro hnil
      have halone := (h e rfl).alone
      rw [hnil] at halone
      cases halone
    have hforms : orUnderscore (Expr.optionalForms (some e)) = e.forms := by
      simp [orUnderscore, Expr.optionalForms, hne]
    rw [hforms, h e rfl]
    rfl

theorem stmt?_elim (value : Option Stmt) : (value.elim absent .stmt).stmt? = value := by
  cases value <;> rfl

theorem conditionOf_elim {value : Option Expr} (h : value.any Expr.isUnderscore = false) :
    conditionOf [(value.map Expr.normal).elim absent .expr] = value.map Expr.normal := by
  cases value with
  | none => rfl
  | some e =>
    have he : e.normal.isUnderscore = false := e.isUnderscore_normal.trans h
    simp [conditionOf, exprsOf, Part.expr?, he]

theorem Stmt.reads_for {init post : Option Stmt} {condition : Option Expr} {body : List Stmt}
    (hinit : ∀ s ∈ init, s.Reads) (hcondition : ∀ e ∈ condition, e.Reads)
    (hname : condition.any Expr.isUnderscore = false) (hpost : ∀ s ∈ post, s.Reads)
    (hbody : Stmt.AllRead body) : (Stmt.forStmt init condition post body).Reads := by
  refine Stmt.reads_of_tagged rfl rfl rfl ?_
  rw [List.append_assoc, List.append_assoc, readParts_optionalStmt hinit,
    readParts_optionalExpr hcondition, readParts_optionalStmt hpost, hbody.block]
  simp only [readTagged, readParts, loop, stmt?_elim, conditionOf_elim hname, bodyOf_block,
    Stmt.normal]

/-! ## Declarations -/

theorem readGroup_mark {text : String} {mark : Mark} {forms : List Form}
    (h : mark? text = some mark) :
    readGroup (.word text :: forms) = (readGroup forms).marked mark := by
  simp only [readGroup, h]

/-- A visibility in front of a declaration that is read without one. -/
theorem readGroup_visibility (build : Visibility → Stmt) {forms : List Form}
    (hbuild : ∀ v, (build .unspecified).marked (.seen v) = build v)
    (h : readGroup forms = .stmt (build .unspecified)) (visibility : Visibility) :
    readGroup (visibilityWords visibility ++ forms) = .stmt (build visibility) := by
  have hmarked : ∀ {text v}, mark? text = some (.seen v) →
      readGroup (.word text :: forms) = .stmt (build v) := by
    intro text v hmark
    rw [readGroup_mark hmark, h, ← hbuild v]
    rfl
  cases visibility with
  | unspecified => exact h
  | publicAccess => exact hmarked rfl
  | protectedAccess => exact hmarked rfl
  | privateAccess => exact hmarked rfl

theorem readGroup_flag (build : Bool → Stmt) {text : String} {mark : Mark} {forms : List Form}
    (hmark : mark? text = some mark) (hbuild : (build false).marked mark = build true)
    (h : readGroup forms = .stmt (build false)) (isSet : Bool) :
    readGroup (flagWord isSet text ++ forms) = .stmt (build isSet) := by
  cases isSet with
  | false => exact h
  | true =>
    rw [flagWord, if_pos rfl, List.singleton_append, readGroup_mark hmark, h, ← hbuild]
    rfl

/-- A declaration that opens with its visibility and its word. -/
theorem Stmt.reads_of_declaration {s : Stmt} (build : Visibility → Stmt)
    {visibility : Visibility} {tag : String} {forms : List Form}
    (hform : s.form = .group (visibilityWords visibility ++ .word tag :: forms))
    (hnormal : s.normal = build visibility)
    (hbuild : ∀ v, (build .unspecified).marked (.seen v) = build v)
    (hmark : mark? tag = none) (hoperator : isOperator tag = false)
    (hpart : readTagged tag forms (readParts forms) = .stmt (build .unspecified)) : s.Reads := by
  refine Stmt.reads_of_group hform ?_
  rw [hnormal]
  exact readGroup_visibility build hbuild ((readGroup_tagged hmark hoperator).trans hpart)
    visibility

theorem binding_reads {name : String} {declared : Option Ty} {value : Option Expr}
    (hname : isName name = true) (hvalue : ∀ e ∈ value, e.Reads)
    (build : String → Option Ty → Option Expr → Stmt) :
    binding build (exprsOf (readParts (bindingForms name declared value))) =
      .stmt (build name declared (value.map Expr.normal)) := by
  cases value with
  | none =>
    rw [bindingForms, readParts_typedName hname]
    cases declared <;> rfl
  | some e =>
    have hsign : readParts (.word "=" :: e.forms) = [.expr (.identifier "="), .expr e.normal] := by
      rw [readParts_word rfl, (hvalue e rfl).alone]
      rfl
    rw [bindingForms, readParts_typedName hname, hsign]
    cases declared <;> rfl

theorem Stmt.reads_function {visibility : Visibility} {isOverride isAsync : Bool}
    {name : String} {params : List Param} {result : Option Ty} {body : List Stmt}
    (hparams : params.all Param.isPlain = true) (hname : isName name = true)
    (hbody : Stmt.AllRead body) :
    (Stmt.functionDecl visibility isOverride isAsync name params result body).Reads := by
  have hresult : ∀ rest,
      bodyOf (readParts (resultForms result ++ rest)) = bodyOf (readParts rest) := by
    intro rest
    cases result with
    | none => rfl
    | some ty =>
      rw [show resultForms (some ty) ++ rest = .word "->" :: .word ty.name :: rest from rfl,
        readParts_word rfl, readParts_ty]
      rfl
  refine Stmt.reads_of_group rfl ?_
  simp only [List.append_assoc]
  -- Three marks may stand in front, and each is put on what is read behind it.
  refine readGroup_visibility
    (.functionDecl · isOverride isAsync name params result (Stmt.allNormal body))
    (fun _ => rfl) ?_ visibility
  refine readGroup_flag
    (.functionDecl .unspecified · isAsync name params result (Stmt.allNormal body))
    rfl rfl ?_ isOverride
  refine readGroup_flag
    (.functionDecl .unspecified false · name params result (Stmt.allNormal body))
    rfl rfl ?_ isAsync
  rw [readGroup_tagged rfl rfl, readParts_name hname, readParts_group]
  simp only [readTagged, List.drop_succ_cons, List.drop_zero, paramsOf_paramForms hparams,
    resultOf_resultForms, hresult, hbody.block, bodyOf_block]

theorem Stmt.reads_class {visibility : Visibility} {name : String} {superclass : Option String}
    {members : List Stmt} (hname : isName name = true)
    (hsuperclass : superclass.toList.all isName = true) (hmembers : Stmt.AllRead members) :
    (Stmt.classDecl visibility name superclass members).Reads := by
  refine Stmt.reads_of_declaration (.classDecl · name superclass (Stmt.allNormal members))
    rfl rfl (fun _ => rfl) rfl rfl ?_
  rw [readParts_name hname]
  cases superclass with
  | none =>
    rw [extendsForms, List.nil_append, hmembers.alone]
    simp only [readTagged, exprsOf_expr, exprsOf_statements, stmtsOf_expr, stmtsOf_statements]
    rfl
  | some super =>
    have hsuper : isName super = true := by simpa using hsuperclass
    rw [show extendsForms (some super) ++ Stmt.allForms members =
        .word "extends" :: .word super :: Stmt.allForms members from rfl,
      readParts_word rfl, readParts_name hsuper, hmembers.alone]
    simp only [readTagged, exprsOf_expr, exprsOf_statements, stmtsOf_expr, stmtsOf_statements]
    rfl

theorem Stmt.reads_constructor {params : List Param} {body : List Stmt}
    (hparams : params.all Param.isPlain = true) (hbody : Stmt.AllRead body) :
    (Stmt.constructorDecl params body).Reads := by
  refine Stmt.reads_of_tagged rfl rfl rfl ?_
  rw [readParts_group, hbody.block]
  simp only [readTagged, paramsOf_paramForms hparams, List.tail_cons, bodyOf_block]
  rfl

/-- A name and the members behind it. -/
theorem named_members (build : String → List Stmt → Stmt) {name : String} {members : List Stmt}
    (hname : isName name = true) (hmembers : Stmt.AllRead members) {parts : List Part}
    (hparts : readParts (.word name :: Stmt.allForms members) = parts) :
    named (fun name _ => .stmt (build name (stmtsOf parts))) (exprsOf parts) =
      .stmt (build name (Stmt.allNormal members)) := by
  rw [← hparts, readParts_name hname, hmembers.alone]
  simp only [exprsOf_expr, stmtsOf_expr, stmtsOf_statements]
  rfl

theorem Stmt.reads_single {s : Stmt} {tag : String} {e : Expr}
    (hform : s.form = tagged tag e.forms) (hmark : mark? tag = none)
    (hoperator : isOperator tag = false) (he : e.Reads)
    (hpart : ∀ forms, readTagged tag forms [.expr e.normal] = .stmt s.normal) : s.Reads := by
  refine Stmt.reads_of_tagged hform hmark hoperator ?_
  rw [he.alone, hpart]

theorem Stmt.reads_return {value : Option Expr} (h : ∀ e ∈ value, e.Reads) :
    (Stmt.returnStmt value).Reads := by
  refine Stmt.reads_of_tagged rfl rfl rfl ?_
  cases value with
  | none => rfl
  | some e =>
    rw [Expr.optionalForms, (h e rfl).alone]
    rfl

/-! ## All plain statements -/

theorem Expr.optionalReads {value : Option Expr} (h : Expr.optionalPlain value = true) :
    ∀ e ∈ value, e.Reads := by
  rintro e ⟨⟩
  exact e.reads h

mutual

theorem Stmt.reads : ∀ s : Stmt, s.isPlain = true → s.Reads
  | .block statements, h => fun _ => (Stmt.allRead statements h).block
  | .breakStmt, _ | .continueStmt, _ => Stmt.reads_of_tagged rfl rfl rfl rfl
  | .expression inner, h => Stmt.reads_single rfl rfl rfl (inner.reads h) fun _ => rfl
  | .returnStmt _, h => Stmt.reads_return (Expr.optionalReads h)
  | .throwStmt value, h => Stmt.reads_single rfl rfl rfl (value.reads h) fun _ => rfl
  | .tryStmt body _ handler final, h => by
      simp only [Stmt.isPlain, Bool.and_eq_true] at h
      exact Stmt.reads_try (Stmt.allRead body h.1.1.1) h.1.1.2 (Stmt.blockReads handler h.1.2)
        (Stmt.blockReads final h.2)
  | .ifStmt condition body otherwise, h => by
      simp only [Stmt.isPlain, Bool.and_eq_true] at h
      exact Stmt.reads_if (condition.reads h.1.1) (Stmt.allRead body h.1.2)
        (Stmt.optionalReads otherwise h.2)
  | .whileStmt condition body, h => by
      rw [Stmt.isPlain, Bool.and_eq_true] at h
      exact Stmt.reads_while (condition.reads h.1) (Stmt.allRead body h.2)
  | .forStmt init _ post body, h => by
      simp only [Stmt.isPlain, Bool.and_eq_true, Bool.not_eq_true'] at h
      obtain ⟨⟨⟨⟨hinit, hcondition⟩, hname⟩, hpost⟩, hbody⟩ := h
      exact Stmt.reads_for (Stmt.optionalReads init hinit) (Expr.optionalReads hcondition) hname
        (Stmt.optionalReads post hpost) (Stmt.allRead body hbody)
  | .switchStmt scrutinee cases otherwise, h => by
      simp only [Stmt.isPlain, Bool.and_eq_true] at h
      exact Stmt.reads_switch (scrutinee.reads h.1.1) (SwitchCase.allRead cases h.1.2)
        (Stmt.blockReads otherwise h.2)
  | .valDecl _ name declared value, h => by
      rw [Stmt.isPlain, Bool.and_eq_true] at h
      exact Stmt.reads_of_declaration (.valDecl · name declared (value.map Expr.normal)) rfl rfl
        (fun _ => rfl) rfl rfl (binding_reads h.1 (Expr.optionalReads h.2) _)
  | .letDecl _ name declared value, h => by
      rw [Stmt.isPlain, Bool.and_eq_true] at h
      exact Stmt.reads_of_declaration (.letDecl · name declared (value.map Expr.normal)) rfl rfl
        (fun _ => rfl) rfl rfl (binding_reads h.1 (Expr.optionalReads h.2) _)
  | .globalDecl _ _ _, h => by
      rw [Stmt.isPlain, Bool.and_eq_true] at h
      exact Stmt.reads_of_tagged rfl rfl rfl
        (binding_reads h.1 (Expr.optionalReads h.2) .globalDecl)
  | .functionDecl _ _ _ _ _ _ body, h => by
      simp only [Stmt.isPlain, Bool.and_eq_true] at h
      exact Stmt.reads_function h.1.2 h.1.1 (Stmt.allRead body h.2)
  | .classDecl _ _ _ members, h => by
      simp only [Stmt.isPlain, Bool.and_eq_true] at h
      exact Stmt.reads_class h.1.1 h.1.2 (Stmt.allRead members h.2)
  | .constructorDecl _ body, h => by
      rw [Stmt.isPlain, Bool.and_eq_true] at h
      exact Stmt.reads_constructor h.1 (Stmt.allRead body h.2)
  | .interfaceDecl _ name members, h => by
      rw [Stmt.isPlain, Bool.and_eq_true] at h
      exact Stmt.reads_of_declaration (.interfaceDecl · name (Stmt.allNormal members)) rfl rfl
        (fun _ => rfl) rfl rfl (named_members _ h.1 (Stmt.allRead members h.2) rfl)
  | .structDecl _ name members, h => by
      rw [Stmt.isPlain, Bool.and_eq_true] at h
      exact Stmt.reads_of_declaration (.structDecl · name (Stmt.allNormal members)) rfl rfl
        (fun _ => rfl) rfl rfl (named_members _ h.1 (Stmt.allRead members h.2) rfl)
  | .enumDecl _ name elements, _ =>
      Stmt.reads_of_declaration (.enumDecl · name elements) rfl rfl (fun _ => rfl) rfl rfl
        (congrArg (Part.stmt <| .enumDecl .unspecified name ·) (namesOf_words elements))
  | .dataDecl _ name fields, h => by
      rw [Stmt.isPlain, Bool.and_eq_true] at h
      exact Stmt.reads_of_declaration (.dataDecl · name fields) rfl rfl (fun _ => rfl) rfl rfl
        (congrArg (Part.stmt <| .dataDecl .unspecified name ·) (paramsOf_paramForms h.2))
  | .importDecl module, h =>
      Stmt.reads_single rfl rfl rfl (Expr.reads (.identifier module) h) fun _ => rfl
  | .exportDecl name, h =>
      Stmt.reads_single rfl rfl rfl (Expr.reads (.identifier name) h) fun _ => rfl

theorem Stmt.allRead : ∀ statements : List Stmt, Stmt.allPlain statements = true →
    Stmt.AllRead statements
  | [], _ => fun _ => rfl
  | s :: statements, h => fun rest => by
      rw [Stmt.allPlain, Bool.and_eq_true] at h
      rw [Stmt.allForms, List.cons_append, s.reads h.1, Stmt.allRead statements h.2]
      rfl

theorem Stmt.optionalReads : ∀ value : Option Stmt, Stmt.optionalPlain value = true →
    ∀ s ∈ value, s.Reads
  | none, _ => nofun
  | some s, h => by
      rintro _ ⟨⟩
      exact s.reads h

theorem Stmt.blockReads : ∀ value : Option (List Stmt), Stmt.blockPlain value = true →
    ∀ body ∈ value, Stmt.AllRead body
  | none, _ => nofun
  | some statements, h => by
      rintro _ ⟨⟩
      exact Stmt.allRead statements h

theorem SwitchCase.reads : ∀ c : SwitchCase, c.isPlain = true → c.Reads
  | .mk first others body, h => by
      simp only [SwitchCase.isPlain, Bool.and_eq_true] at h
      exact SwitchCase.reads_mk (first.reads h.1.1) (Expr.allRead others h.1.2)
        (Stmt.allRead body h.2)

theorem SwitchCase.allRead : ∀ cases : List SwitchCase, SwitchCase.allPlain cases = true →
    SwitchCase.AllRead cases
  | [], _ => fun _ => rfl
  | c :: cases, h => fun rest => by
      rw [SwitchCase.allPlain, Bool.and_eq_true] at h
      rw [SwitchCase.allForms, List.cons_append, c.reads h.1, SwitchCase.allRead cases h.2]
      rfl

end

end SurfaceLanguage.Tree
