import SurfaceLanguage.Tree.Basic

/-!
# Floating point literals of a tree

The numbers that a tree holds at any depth, and the tree with each of them replaced. What
replaces them moves the numbers of the tree, and a tree whose numbers stay as they are is
left as it is.
-/
namespace SurfaceLanguage.Tree
open Number

mutual

/-- The floating point literals of an expression, in the order in which it has them. -/
def Expr.floats : Expr → List Binary64
  | .intLit _ => []
  | .floatLit value => [value]
  | .stringLit _ => []
  | .boolLit _ => []
  | .array elements => Expr.allFloats elements
  | .assign _ value => value.floats
  | .binary left _ right => left.floats ++ right.floats
  | .call callee arguments => callee.floats ++ Expr.allFloats arguments
  | .grouping inner => inner.floats
  | .instanceOf object _ => object.floats
  | .lambda _ body => body.floats
  | .logical left _ right => left.floats ++ right.floats
  | .newObject _ arguments => Expr.allFloats arguments
  | .postUnary operand _ => operand.floats
  | .superRef method => method.floats
  | .thisRef => []
  | .unary _ right => right.floats
  | .variable _ _ => []
  | .member object _ => object.floats
  | .identifier _ => []

def Expr.allFloats : List Expr → List Binary64
  | [] => []
  | e :: exprs => e.floats ++ Expr.allFloats exprs

end

def Expr.optionalFloats : Option Expr → List Binary64
  | none => []
  | some e => e.floats

mutual

def Stmt.floats : Stmt → List Binary64
  | .block statements => Stmt.allFloats statements
  | .breakStmt => []
  | .continueStmt => []
  | .expression inner => inner.floats
  | .returnStmt value => Expr.optionalFloats value
  | .throwStmt value => value.floats
  | .tryStmt body _ handler final =>
      Stmt.allFloats body ++ (Stmt.blockFloats handler ++ Stmt.blockFloats final)
  | .ifStmt condition body otherwise =>
      condition.floats ++ (Stmt.allFloats body ++ Stmt.optionalFloats otherwise)
  | .whileStmt condition body => condition.floats ++ Stmt.allFloats body
  | .forStmt init condition post body =>
      Stmt.optionalFloats init ++ (Expr.optionalFloats condition ++
        (Stmt.optionalFloats post ++ Stmt.allFloats body))
  | .switchStmt scrutinee cases otherwise =>
      scrutinee.floats ++ (SwitchCase.allFloats cases ++ Stmt.blockFloats otherwise)
  | .valDecl _ _ _ value => Expr.optionalFloats value
  | .letDecl _ _ _ value => Expr.optionalFloats value
  | .globalDecl _ _ value => Expr.optionalFloats value
  | .functionDecl _ _ _ _ _ _ body => Stmt.allFloats body
  | .classDecl _ _ _ members => Stmt.allFloats members
  | .constructorDecl _ body => Stmt.allFloats body
  | .interfaceDecl _ _ members => Stmt.allFloats members
  | .structDecl _ _ members => Stmt.allFloats members
  | .enumDecl _ _ _ => []
  | .dataDecl _ _ _ => []
  | .importDecl _ => []
  | .exportDecl _ => []

def Stmt.allFloats : List Stmt → List Binary64
  | [] => []
  | s :: statements => s.floats ++ Stmt.allFloats statements

def Stmt.optionalFloats : Option Stmt → List Binary64
  | none => []
  | some s => s.floats

def Stmt.blockFloats : Option (List Stmt) → List Binary64
  | none => []
  | some statements => Stmt.allFloats statements

def SwitchCase.floats : SwitchCase → List Binary64
  | .mk first others body => first.floats ++ (Expr.allFloats others ++ Stmt.allFloats body)

def SwitchCase.allFloats : List SwitchCase → List Binary64
  | [] => []
  | c :: cases => c.floats ++ SwitchCase.allFloats cases

end

section Map
variable (f : Binary64 → Binary64)

mutual

/-- The expression with each floating point literal replaced. -/
def Expr.mapFloats : Expr → Expr
  | .intLit value => .intLit value
  | .floatLit value => .floatLit (f value)
  | .stringLit value => .stringLit value
  | .boolLit value => .boolLit value
  | .array elements => .array (Expr.mapAllFloats elements)
  | .assign name value => .assign name value.mapFloats
  | .binary left operator right => .binary left.mapFloats operator right.mapFloats
  | .call callee arguments => .call callee.mapFloats (Expr.mapAllFloats arguments)
  | .grouping inner => .grouping inner.mapFloats
  | .instanceOf object ty => .instanceOf object.mapFloats ty
  | .lambda params body => .lambda params body.mapFloats
  | .logical left operator right => .logical left.mapFloats operator right.mapFloats
  | .newObject className arguments => .newObject className (Expr.mapAllFloats arguments)
  | .postUnary operand operator => .postUnary operand.mapFloats operator
  | .superRef method => .superRef method.mapFloats
  | .thisRef => .thisRef
  | .unary operator right => .unary operator right.mapFloats
  | .variable name declared => .variable name declared
  | .member object property => .member object.mapFloats property
  | .identifier name => .identifier name

def Expr.mapAllFloats : List Expr → List Expr
  | [] => []
  | e :: exprs => e.mapFloats :: Expr.mapAllFloats exprs

end

mutual

def Stmt.mapFloats : Stmt → Stmt
  | .block statements => .block (Stmt.mapAllFloats statements)
  | .breakStmt => .breakStmt
  | .continueStmt => .continueStmt
  | .expression inner => .expression (inner.mapFloats f)
  | .returnStmt value => .returnStmt (value.map (Expr.mapFloats f))
  | .throwStmt value => .throwStmt (value.mapFloats f)
  | .tryStmt body caught handler final =>
      .tryStmt (Stmt.mapAllFloats body) caught (Stmt.mapBlockFloats handler)
        (Stmt.mapBlockFloats final)
  | .ifStmt condition body otherwise =>
      .ifStmt (condition.mapFloats f) (Stmt.mapAllFloats body)
        (Stmt.mapOptionalFloats otherwise)
  | .whileStmt condition body => .whileStmt (condition.mapFloats f) (Stmt.mapAllFloats body)
  | .forStmt init condition post body =>
      .forStmt (Stmt.mapOptionalFloats init) (condition.map (Expr.mapFloats f))
        (Stmt.mapOptionalFloats post) (Stmt.mapAllFloats body)
  | .switchStmt scrutinee cases otherwise =>
      .switchStmt (scrutinee.mapFloats f) (SwitchCase.mapAllFloats cases)
        (Stmt.mapBlockFloats otherwise)
  | .valDecl visibility name declared value =>
      .valDecl visibility name declared (value.map (Expr.mapFloats f))
  | .letDecl visibility name declared value =>
      .letDecl visibility name declared (value.map (Expr.mapFloats f))
  | .globalDecl name declared value => .globalDecl name declared (value.map (Expr.mapFloats f))
  | .functionDecl visibility isOverride isAsync name params result body =>
      .functionDecl visibility isOverride isAsync name params result (Stmt.mapAllFloats body)
  | .classDecl visibility name superclass members =>
      .classDecl visibility name superclass (Stmt.mapAllFloats members)
  | .constructorDecl params body => .constructorDecl params (Stmt.mapAllFloats body)
  | .interfaceDecl visibility name members =>
      .interfaceDecl visibility name (Stmt.mapAllFloats members)
  | .structDecl visibility name members =>
      .structDecl visibility name (Stmt.mapAllFloats members)
  | .enumDecl visibility name elements => .enumDecl visibility name elements
  | .dataDecl visibility name fields => .dataDecl visibility name fields
  | .importDecl module => .importDecl module
  | .exportDecl name => .exportDecl name

def Stmt.mapAllFloats : List Stmt → List Stmt
  | [] => []
  | s :: statements => s.mapFloats :: Stmt.mapAllFloats statements

def Stmt.mapOptionalFloats : Option Stmt → Option Stmt
  | none => none
  | some s => some s.mapFloats

def Stmt.mapBlockFloats : Option (List Stmt) → Option (List Stmt)
  | none => none
  | some statements => some (Stmt.mapAllFloats statements)

def SwitchCase.mapFloats : SwitchCase → SwitchCase
  | .mk first others body =>
      .mk (first.mapFloats f) (Expr.mapAllFloats f others) (Stmt.mapAllFloats body)

def SwitchCase.mapAllFloats : List SwitchCase → List SwitchCase
  | [] => []
  | c :: cases => c.mapFloats :: SwitchCase.mapAllFloats cases

end

mutual

theorem Expr.floats_mapFloats : ∀ e : Expr, (e.mapFloats f).floats = e.floats.map f
  | .intLit _ | .floatLit _ | .stringLit _ | .boolLit _ | .thisRef | .variable _ _
  | .identifier _ => rfl
  | .array exprs | .newObject _ exprs => Expr.floats_mapAllFloats exprs
  | .assign _ e | .grouping e | .instanceOf e _ | .lambda _ e | .postUnary e _ | .superRef e
  | .unary _ e | .member e _ => e.floats_mapFloats
  | .binary left _ right | .logical left _ right => by
      simp only [Expr.mapFloats, Expr.floats, List.map_append, left.floats_mapFloats,
        right.floats_mapFloats]
  | .call callee arguments => by
      simp only [Expr.mapFloats, Expr.floats, List.map_append, callee.floats_mapFloats,
        Expr.floats_mapAllFloats arguments]

theorem Expr.floats_mapAllFloats : ∀ exprs : List Expr,
    Expr.allFloats (Expr.mapAllFloats f exprs) = (Expr.allFloats exprs).map f
  | [] => rfl
  | e :: exprs => by
      simp only [Expr.mapAllFloats, Expr.allFloats, List.map_append, e.floats_mapFloats,
        Expr.floats_mapAllFloats exprs]

end

theorem Expr.floats_mapOptionalFloats (value : Option Expr) :
    Expr.optionalFloats (value.map (Expr.mapFloats f)) = (Expr.optionalFloats value).map f := by
  cases value with
  | none => rfl
  | some e => exact e.floats_mapFloats f

mutual

theorem Stmt.floats_mapFloats : ∀ s : Stmt, (s.mapFloats f).floats = s.floats.map f
  | .breakStmt | .continueStmt | .enumDecl .. | .dataDecl .. | .importDecl _ | .exportDecl _ => rfl
  | .block statements | .functionDecl _ _ _ _ _ _ statements | .classDecl _ _ _ statements
  | .constructorDecl _ statements | .interfaceDecl _ _ statements
  | .structDecl _ _ statements => Stmt.floats_mapAllFloats statements
  | .expression e | .throwStmt e => e.floats_mapFloats f
  | .returnStmt value | .valDecl _ _ _ value | .letDecl _ _ _ value | .globalDecl _ _ value =>
      Expr.floats_mapOptionalFloats f value
  | .tryStmt body _ handler final => by
      simp only [Stmt.mapFloats, Stmt.floats, List.map_append, Stmt.floats_mapAllFloats body,
        Stmt.floats_mapBlockFloats handler, Stmt.floats_mapBlockFloats final]
  | .ifStmt condition body otherwise => by
      simp only [Stmt.mapFloats, Stmt.floats, List.map_append, condition.floats_mapFloats,
        Stmt.floats_mapAllFloats body, Stmt.floats_mapOptionalFloats otherwise]
  | .whileStmt condition body => by
      simp only [Stmt.mapFloats, Stmt.floats, List.map_append, condition.floats_mapFloats,
        Stmt.floats_mapAllFloats body]
  | .forStmt init condition post body => by
      simp only [Stmt.mapFloats, Stmt.floats, List.map_append,
        Stmt.floats_mapOptionalFloats init, Expr.floats_mapOptionalFloats f condition,
        Stmt.floats_mapOptionalFloats post, Stmt.floats_mapAllFloats body]
  | .switchStmt scrutinee cases otherwise => by
      simp only [Stmt.mapFloats, Stmt.floats, List.map_append, scrutinee.floats_mapFloats,
        SwitchCase.floats_mapAllFloats cases, Stmt.floats_mapBlockFloats otherwise]

theorem Stmt.floats_mapAllFloats : ∀ statements : List Stmt,
    Stmt.allFloats (Stmt.mapAllFloats f statements) = (Stmt.allFloats statements).map f
  | [] => rfl
  | s :: statements => by
      simp only [Stmt.mapAllFloats, Stmt.allFloats, List.map_append, s.floats_mapFloats,
        Stmt.floats_mapAllFloats statements]

theorem Stmt.floats_mapOptionalFloats : ∀ value : Option Stmt,
    Stmt.optionalFloats (Stmt.mapOptionalFloats f value) = (Stmt.optionalFloats value).map f
  | none => rfl
  | some s => s.floats_mapFloats

theorem Stmt.floats_mapBlockFloats : ∀ value : Option (List Stmt),
    Stmt.blockFloats (Stmt.mapBlockFloats f value) = (Stmt.blockFloats value).map f
  | none => rfl
  | some statements => Stmt.floats_mapAllFloats statements

theorem SwitchCase.floats_mapFloats : ∀ c : SwitchCase, (c.mapFloats f).floats = c.floats.map f
  | .mk first others body => by
      simp only [SwitchCase.mapFloats, SwitchCase.floats, List.map_append,
        first.floats_mapFloats, Expr.floats_mapAllFloats f others, Stmt.floats_mapAllFloats body]

theorem SwitchCase.floats_mapAllFloats : ∀ cases : List SwitchCase,
    SwitchCase.allFloats (SwitchCase.mapAllFloats f cases) = (SwitchCase.allFloats cases).map f
  | [] => rfl
  | c :: cases => by
      simp only [SwitchCase.mapAllFloats, SwitchCase.allFloats, List.map_append,
        c.floats_mapFloats, SwitchCase.floats_mapAllFloats cases]

end

variable {f}

mutual

theorem Expr.mapFloats_eq_self : ∀ e : Expr, (∀ x ∈ e.floats, f x = x) → e.mapFloats f = e
  | .intLit _, _ | .stringLit _, _ | .boolLit _, _ | .thisRef, _ | .variable _ _, _
  | .identifier _, _ => rfl
  | .floatLit value, h => congrArg Expr.floatLit (h value List.mem_cons_self)
  | .array exprs, h | .newObject _ exprs, h => by
      simp only [Expr.mapFloats, Expr.mapAllFloats_eq_self exprs h]
  | .assign _ e, h | .grouping e, h | .instanceOf e _, h | .lambda _ e, h | .postUnary e _, h
  | .superRef e, h | .unary _ e, h | .member e _, h => by
      simp only [Expr.mapFloats, e.mapFloats_eq_self h]
  | .binary left _ right, h | .logical left _ right, h => by
      obtain ⟨hleft, hright⟩ := List.forall_mem_append.1 h
      simp only [Expr.mapFloats, left.mapFloats_eq_self hleft, right.mapFloats_eq_self hright]
  | .call callee arguments, h => by
      obtain ⟨hcallee, harguments⟩ := List.forall_mem_append.1 h
      simp only [Expr.mapFloats, callee.mapFloats_eq_self hcallee,
        Expr.mapAllFloats_eq_self arguments harguments]

theorem Expr.mapAllFloats_eq_self : ∀ exprs : List Expr,
    (∀ x ∈ Expr.allFloats exprs, f x = x) → Expr.mapAllFloats f exprs = exprs
  | [], _ => rfl
  | e :: exprs, h => by
      obtain ⟨he, hexprs⟩ := List.forall_mem_append.1 h
      simp only [Expr.mapAllFloats, e.mapFloats_eq_self he, Expr.mapAllFloats_eq_self exprs hexprs]

end

theorem Expr.mapOptionalFloats_eq_self {value : Option Expr}
    (h : ∀ x ∈ Expr.optionalFloats value, f x = x) : value.map (Expr.mapFloats f) = value := by
  cases value with
  | none => rfl
  | some e => exact congrArg some (e.mapFloats_eq_self h)

mutual

theorem Stmt.mapFloats_eq_self : ∀ s : Stmt, (∀ x ∈ s.floats, f x = x) → s.mapFloats f = s
  | .breakStmt, _ | .continueStmt, _ | .enumDecl .., _ | .dataDecl .., _ | .importDecl _, _
  | .exportDecl _, _ => rfl
  | .block statements, h | .functionDecl _ _ _ _ _ _ statements, h
  | .classDecl _ _ _ statements, h | .constructorDecl _ statements, h
  | .interfaceDecl _ _ statements, h | .structDecl _ _ statements, h => by
      simp only [Stmt.mapFloats, Stmt.mapAllFloats_eq_self statements h]
  | .expression e, h | .throwStmt e, h => by simp only [Stmt.mapFloats, e.mapFloats_eq_self h]
  | .returnStmt value, h | .valDecl _ _ _ value, h | .letDecl _ _ _ value, h
  | .globalDecl _ _ value, h => by
      simp only [Stmt.mapFloats, Expr.mapOptionalFloats_eq_self h]
  | .tryStmt body _ handler final, h => by
      obtain ⟨hbody, hclauses⟩ := List.forall_mem_append.1 h
      obtain ⟨hhandler, hfinal⟩ := List.forall_mem_append.1 hclauses
      simp only [Stmt.mapFloats, Stmt.mapAllFloats_eq_self body hbody,
        Stmt.mapBlockFloats_eq_self handler hhandler, Stmt.mapBlockFloats_eq_self final hfinal]
  | .ifStmt condition body otherwise, h => by
      obtain ⟨hcondition, hbranches⟩ := List.forall_mem_append.1 h
      obtain ⟨hbody, hotherwise⟩ := List.forall_mem_append.1 hbranches
      simp only [Stmt.mapFloats, condition.mapFloats_eq_self hcondition,
        Stmt.mapAllFloats_eq_self body hbody,
        Stmt.mapOptionalFloats_eq_self otherwise hotherwise]
  | .whileStmt condition body, h => by
      obtain ⟨hcondition, hbody⟩ := List.forall_mem_append.1 h
      simp only [Stmt.mapFloats, condition.mapFloats_eq_self hcondition,
        Stmt.mapAllFloats_eq_self body hbody]
  | .forStmt init condition post body, h => by
      obtain ⟨hinit, hfurther⟩ := List.forall_mem_append.1 h
      obtain ⟨hcondition, hlater⟩ := List.forall_mem_append.1 hfurther
      obtain ⟨hpost, hbody⟩ := List.forall_mem_append.1 hlater
      simp only [Stmt.mapFloats, Stmt.mapOptionalFloats_eq_self init hinit,
        Expr.mapOptionalFloats_eq_self hcondition, Stmt.mapOptionalFloats_eq_self post hpost,
        Stmt.mapAllFloats_eq_self body hbody]
  | .switchStmt scrutinee cases otherwise, h => by
      obtain ⟨hscrutinee, hbranches⟩ := List.forall_mem_append.1 h
      obtain ⟨hcases, hotherwise⟩ := List.forall_mem_append.1 hbranches
      simp only [Stmt.mapFloats, scrutinee.mapFloats_eq_self hscrutinee,
        SwitchCase.mapAllFloats_eq_self cases hcases,
        Stmt.mapBlockFloats_eq_self otherwise hotherwise]

theorem Stmt.mapAllFloats_eq_self : ∀ statements : List Stmt,
    (∀ x ∈ Stmt.allFloats statements, f x = x) → Stmt.mapAllFloats f statements = statements
  | [], _ => rfl
  | s :: statements, h => by
      obtain ⟨hs, hstatements⟩ := List.forall_mem_append.1 h
      simp only [Stmt.mapAllFloats, s.mapFloats_eq_self hs,
        Stmt.mapAllFloats_eq_self statements hstatements]

theorem Stmt.mapOptionalFloats_eq_self : ∀ value : Option Stmt,
    (∀ x ∈ Stmt.optionalFloats value, f x = x) → Stmt.mapOptionalFloats f value = value
  | none, _ => rfl
  | some s, h => by simp only [Stmt.mapOptionalFloats, s.mapFloats_eq_self h]

theorem Stmt.mapBlockFloats_eq_self : ∀ value : Option (List Stmt),
    (∀ x ∈ Stmt.blockFloats value, f x = x) → Stmt.mapBlockFloats f value = value
  | none, _ => rfl
  | some statements, h => by
      simp only [Stmt.mapBlockFloats, Stmt.mapAllFloats_eq_self statements h]

theorem SwitchCase.mapFloats_eq_self : ∀ c : SwitchCase,
    (∀ x ∈ c.floats, f x = x) → c.mapFloats f = c
  | .mk first others body, h => by
      obtain ⟨hfirst, hlater⟩ := List.forall_mem_append.1 h
      obtain ⟨hothers, hbody⟩ := List.forall_mem_append.1 hlater
      simp only [SwitchCase.mapFloats, first.mapFloats_eq_self hfirst,
        Expr.mapAllFloats_eq_self others hothers, Stmt.mapAllFloats_eq_self body hbody]

theorem SwitchCase.mapAllFloats_eq_self : ∀ cases : List SwitchCase,
    (∀ x ∈ SwitchCase.allFloats cases, f x = x) → SwitchCase.mapAllFloats f cases = cases
  | [], _ => rfl
  | c :: cases, h => by
      obtain ⟨hc, hcases⟩ := List.forall_mem_append.1 h
      simp only [SwitchCase.mapAllFloats, c.mapFloats_eq_self hc,
        SwitchCase.mapAllFloats_eq_self cases hcases]

end

end Map

end SurfaceLanguage.Tree
