import SurfaceLanguage.Lexing.Cut
import SurfaceLanguage.Token.Keyword
import SurfaceLanguage.Tree.Printer

/-!
# Plain trees and normal trees

A tree is plain when its names and operators are those that a source can spell,
its strings are without quotes and its numbers are integers. Its normal tree
forgets what the text does not tell: whether an operation is a logical one, and
whether a name without a type stands for a variable.
-/
namespace SurfaceLanguage.Tree
open Lexing

/-- A word of letters, digits and underscores that is not reserved. -/
def isName (text : String) : Bool :=
  match text.toList with
  | [] => false
  | c :: rest => isWordStart c && rest.all isWordPart && (Keyword.ofString? text).isNone

def operatorSigns : List Char := ['+', '-', '*', '/', '%', '&', '|', '!', '=', '<', '>', '?', ':']

def wordOperators : List String := ["and", "or", "not", "is", "in", "of"]

/-- The single equals sign is left out: it is the sign of assignments. -/
def isOperator (text : String) : Bool :=
  wordOperators.contains text ||
    (text != "" && text != "=" && text.toList.all operatorSigns.contains)

def Param.isPlain (p : Param) : Bool := isName p.name

/-- The name that a `for` prints in the place of an absent condition. -/
def Expr.isUnderscore : Expr → Bool
  | .identifier name => name == "_"
  | .variable name none => name == "_"
  | _ => false

mutual

def Expr.isPlain : Expr → Bool
  | .intLit _ => true
  | .floatLit _ => false
  | .stringLit value => !value.toList.contains '"'
  | .boolLit _ => true
  | .array elements => Expr.allPlain elements
  | .assign name value => isName name && value.isPlain
  | .binary left operator right => left.isPlain && isOperator operator && right.isPlain
  | .call callee arguments => callee.isPlain && Expr.allPlain arguments
  | .grouping inner => inner.isPlain
  | .instanceOf object _ => object.isPlain
  | .lambda params body => params.all isName && body.isPlain
  | .logical left operator right => left.isPlain && isOperator operator && right.isPlain
  | .newObject className arguments => isName className && Expr.allPlain arguments
  | .postUnary operand operator => operand.isPlain && isOperator operator
  | .superRef method => method.isPlain
  | .thisRef => true
  | .unary operator right => isOperator operator && right.isPlain
  | .variable name _ => isName name
  | .member object property => object.isPlain && isName property
  | .identifier name => isName name

def Expr.allPlain : List Expr → Bool
  | [] => true
  | e :: exprs => e.isPlain && Expr.allPlain exprs

end

def Expr.optionalPlain : Option Expr → Bool
  | none => true
  | some e => e.isPlain

mutual

def Stmt.isPlain : Stmt → Bool
  | .block statements => Stmt.allPlain statements
  | .breakStmt => true
  | .continueStmt => true
  | .expression inner => inner.isPlain
  | .returnStmt value => Expr.optionalPlain value
  | .throwStmt value => value.isPlain
  | .tryStmt body caught handler final =>
      Stmt.allPlain body && caught.toList.all isName && Stmt.blockPlain handler &&
        Stmt.blockPlain final
  | .ifStmt condition body otherwise =>
      condition.isPlain && Stmt.allPlain body && Stmt.optionalPlain otherwise
  | .whileStmt condition body => condition.isPlain && Stmt.allPlain body
  | .forStmt init condition post body =>
      Stmt.optionalPlain init && Expr.optionalPlain condition &&
        !condition.any Expr.isUnderscore && Stmt.optionalPlain post && Stmt.allPlain body
  | .switchStmt scrutinee cases otherwise =>
      scrutinee.isPlain && SwitchCase.allPlain cases && Stmt.blockPlain otherwise
  | .valDecl _ name _ value => isName name && Expr.optionalPlain value
  | .letDecl _ name _ value => isName name && Expr.optionalPlain value
  | .globalDecl name _ value => isName name && Expr.optionalPlain value
  | .functionDecl _ _ _ name params _ body =>
      isName name && params.all Param.isPlain && Stmt.allPlain body
  | .classDecl _ name superclass members =>
      isName name && superclass.toList.all isName && Stmt.allPlain members
  | .constructorDecl params body => params.all Param.isPlain && Stmt.allPlain body
  | .interfaceDecl _ name members => isName name && Stmt.allPlain members
  | .structDecl _ name members => isName name && Stmt.allPlain members
  | .enumDecl _ name elements => isName name && elements.all isName
  | .dataDecl _ name fields => isName name && fields.all Param.isPlain
  | .importDecl module => isName module
  | .exportDecl name => isName name

def Stmt.allPlain : List Stmt → Bool
  | [] => true
  | s :: statements => s.isPlain && Stmt.allPlain statements

def Stmt.optionalPlain : Option Stmt → Bool
  | none => true
  | some s => s.isPlain

def Stmt.blockPlain : Option (List Stmt) → Bool
  | none => true
  | some statements => Stmt.allPlain statements

def SwitchCase.isPlain : SwitchCase → Bool
  | .mk first others body => first.isPlain && Expr.allPlain others && Stmt.allPlain body

def SwitchCase.allPlain : List SwitchCase → Bool
  | [] => true
  | c :: cases => c.isPlain && SwitchCase.allPlain cases

end

mutual

def Expr.normal : Expr → Expr
  | .intLit value => .intLit value
  | .floatLit value => .floatLit value
  | .stringLit value => .stringLit value
  | .boolLit value => .boolLit value
  | .array elements => .array (Expr.allNormal elements)
  | .assign name value => .assign name value.normal
  | .binary left operator right => .binary left.normal operator right.normal
  | .call callee arguments => .call callee.normal (Expr.allNormal arguments)
  | .grouping inner => .grouping inner.normal
  | .instanceOf object ty => .instanceOf object.normal ty
  | .lambda params body => .lambda params body.normal
  | .logical left operator right => .binary left.normal operator right.normal
  | .newObject className arguments => .newObject className (Expr.allNormal arguments)
  | .postUnary operand operator => .postUnary operand.normal operator
  | .superRef method => .superRef method.normal
  | .thisRef => .thisRef
  | .unary operator right => .unary operator right.normal
  | .variable name (some ty) => .variable name (some ty)
  | .variable name none => .identifier name
  | .member object property => .member object.normal property
  | .identifier name => .identifier name

def Expr.allNormal : List Expr → List Expr
  | [] => []
  | e :: exprs => e.normal :: Expr.allNormal exprs

end

mutual

def Stmt.normal : Stmt → Stmt
  | .block statements => .block (Stmt.allNormal statements)
  | .breakStmt => .breakStmt
  | .continueStmt => .continueStmt
  | .expression inner => .expression inner.normal
  | .returnStmt value => .returnStmt (value.map Expr.normal)
  | .throwStmt value => .throwStmt value.normal
  | .tryStmt body caught handler final =>
      .tryStmt (Stmt.allNormal body) caught (Stmt.blockNormal handler) (Stmt.blockNormal final)
  | .ifStmt condition body otherwise =>
      .ifStmt condition.normal (Stmt.allNormal body) (Stmt.optionalNormal otherwise)
  | .whileStmt condition body => .whileStmt condition.normal (Stmt.allNormal body)
  | .forStmt init condition post body =>
      .forStmt (Stmt.optionalNormal init) (condition.map Expr.normal) (Stmt.optionalNormal post)
        (Stmt.allNormal body)
  | .switchStmt scrutinee cases otherwise =>
      .switchStmt scrutinee.normal (SwitchCase.allNormal cases) (Stmt.blockNormal otherwise)
  | .valDecl visibility name declared value =>
      .valDecl visibility name declared (value.map Expr.normal)
  | .letDecl visibility name declared value =>
      .letDecl visibility name declared (value.map Expr.normal)
  | .globalDecl name declared value => .globalDecl name declared (value.map Expr.normal)
  | .functionDecl visibility isOverride isAsync name params result body =>
      .functionDecl visibility isOverride isAsync name params result (Stmt.allNormal body)
  | .classDecl visibility name superclass members =>
      .classDecl visibility name superclass (Stmt.allNormal members)
  | .constructorDecl params body => .constructorDecl params (Stmt.allNormal body)
  | .interfaceDecl visibility name members =>
      .interfaceDecl visibility name (Stmt.allNormal members)
  | .structDecl visibility name members => .structDecl visibility name (Stmt.allNormal members)
  | .enumDecl visibility name elements => .enumDecl visibility name elements
  | .dataDecl visibility name fields => .dataDecl visibility name fields
  | .importDecl module => .importDecl module
  | .exportDecl name => .exportDecl name

def Stmt.allNormal : List Stmt → List Stmt
  | [] => []
  | s :: statements => s.normal :: Stmt.allNormal statements

def Stmt.optionalNormal : Option Stmt → Option Stmt
  | none => none
  | some s => some s.normal

def Stmt.blockNormal : Option (List Stmt) → Option (List Stmt)
  | none => none
  | some statements => some (Stmt.allNormal statements)

def SwitchCase.normal : SwitchCase → SwitchCase
  | .mk first others body =>
      .mk first.normal (Expr.allNormal others) (Stmt.allNormal body)

def SwitchCase.allNormal : List SwitchCase → List SwitchCase
  | [] => []
  | c :: cases => c.normal :: SwitchCase.allNormal cases

end

mutual

/-- What a tree forgets on its way to normal form is nothing that it prints. -/
theorem Expr.forms_normal : ∀ e : Expr, e.normal.forms = e.forms
  | .intLit _ | .floatLit _ | .stringLit _ | .boolLit _ | .thisRef | .identifier _
  | .variable _ none | .variable _ (some _) => rfl
  | .array elements => by simp only [normal, forms, Expr.allForms_allNormal elements]
  | .assign _ value => by simp only [normal, forms, value.forms_normal]
  | .binary left _ right => by simp only [normal, forms, left.forms_normal, right.forms_normal]
  | .logical left _ right => by simp only [normal, forms, left.forms_normal, right.forms_normal]
  | .call callee arguments => by
      simp only [normal, forms, callee.forms_normal, Expr.allForms_allNormal arguments]
  | .grouping inner => by simp only [normal, forms, inner.forms_normal]
  | .instanceOf object _ => by simp only [normal, forms, object.forms_normal]
  | .lambda _ body => by simp only [normal, forms, body.forms_normal]
  | .newObject _ arguments => by simp only [normal, forms, Expr.allForms_allNormal arguments]
  | .postUnary operand _ => by simp only [normal, forms, operand.forms_normal]
  | .superRef method => by simp only [normal, forms, method.forms_normal]
  | .unary _ right => by simp only [normal, forms, right.forms_normal]
  | .member object _ => by simp only [normal, forms, object.forms_normal]

theorem Expr.allForms_allNormal : ∀ exprs : List Expr,
    Expr.allForms (Expr.allNormal exprs) = Expr.allForms exprs
  | [] => rfl
  | e :: exprs => by
      simp only [Expr.allNormal, Expr.allForms, e.forms_normal, Expr.allForms_allNormal exprs]

end

theorem Expr.optionalForms_map_normal (value : Option Expr) :
    Expr.optionalForms (value.map Expr.normal) = Expr.optionalForms value := by
  cases value with
  | none => rfl
  | some e => exact e.forms_normal

theorem bindingForms_map_normal (name : String) (declared : Option Ty) (value : Option Expr) :
    bindingForms name declared (value.map Expr.normal) = bindingForms name declared value := by
  cases value with
  | none => rfl
  | some e => simp only [bindingForms, Option.map_some, e.forms_normal]

mutual

theorem Stmt.form_normal : ∀ s : Stmt, s.normal.form = s.form
  | .breakStmt | .continueStmt | .enumDecl .. | .dataDecl .. | .importDecl _ | .exportDecl _ => rfl
  | .block statements => by simp only [Stmt.normal, Stmt.form, Stmt.allForms_allNormal statements]
  | .expression inner => by simp only [Stmt.normal, Stmt.form, inner.forms_normal]
  | .returnStmt value => by simp only [Stmt.normal, Stmt.form, Expr.optionalForms_map_normal]
  | .throwStmt value => by simp only [Stmt.normal, Stmt.form, value.forms_normal]
  | .tryStmt body _ handler final => by
      simp only [Stmt.normal, Stmt.form, Stmt.allForms_allNormal body,
        Stmt.optionalBlock_blockNormal handler, Stmt.optionalBlock_blockNormal final]
  | .ifStmt condition body otherwise => by
      simp only [Stmt.normal, Stmt.form, condition.forms_normal, Stmt.allForms_allNormal body,
        Stmt.optionalForm_optionalNormal otherwise]
  | .whileStmt condition body => by
      simp only [Stmt.normal, Stmt.form, condition.forms_normal, Stmt.allForms_allNormal body]
  | .forStmt init _ post body => by
      simp only [Stmt.normal, Stmt.form, Stmt.optionalForm_optionalNormal init,
        Expr.optionalForms_map_normal, Stmt.optionalForm_optionalNormal post,
        Stmt.allForms_allNormal body]
  | .switchStmt scrutinee cases otherwise => by
      simp only [Stmt.normal, Stmt.form, scrutinee.forms_normal,
        SwitchCase.allForms_allNormal cases, Stmt.optionalBlock_blockNormal otherwise]
  | .valDecl .. | .letDecl .. | .globalDecl .. => by
      simp only [Stmt.normal, Stmt.form, bindingForms_map_normal]
  | .functionDecl _ _ _ _ _ _ body | .constructorDecl _ body => by
      simp only [Stmt.normal, Stmt.form, Stmt.allForms_allNormal body]
  | .classDecl _ _ _ members | .interfaceDecl _ _ members | .structDecl _ _ members => by
      simp only [Stmt.normal, Stmt.form, Stmt.allForms_allNormal members]

theorem Stmt.allForms_allNormal : ∀ statements : List Stmt,
    Stmt.allForms (Stmt.allNormal statements) = Stmt.allForms statements
  | [] => rfl
  | s :: statements => by
      simp only [Stmt.allNormal, Stmt.allForms, s.form_normal, Stmt.allForms_allNormal statements]

theorem Stmt.optionalForm_optionalNormal : ∀ value : Option Stmt,
    Stmt.optionalForm (Stmt.optionalNormal value) = Stmt.optionalForm value
  | none => rfl
  | some s => by simp only [Stmt.optionalNormal, Stmt.optionalForm, s.form_normal]

theorem Stmt.optionalBlock_blockNormal : ∀ value : Option (List Stmt),
    Stmt.optionalBlock (Stmt.blockNormal value) = Stmt.optionalBlock value
  | none => rfl
  | some statements => by
      simp only [Stmt.blockNormal, Stmt.optionalBlock, Stmt.allForms_allNormal statements]

theorem SwitchCase.form_normal : ∀ c : SwitchCase, c.normal.form = c.form
  | .mk first others body => by
      simp only [SwitchCase.normal, SwitchCase.form, first.forms_normal,
        Expr.allForms_allNormal others, Stmt.allForms_allNormal body]

theorem SwitchCase.allForms_allNormal : ∀ cases : List SwitchCase,
    SwitchCase.allForms (SwitchCase.allNormal cases) = SwitchCase.allForms cases
  | [] => rfl
  | c :: cases => by
      simp only [SwitchCase.allNormal, SwitchCase.allForms, c.form_normal,
        SwitchCase.allForms_allNormal cases]

end

end SurfaceLanguage.Tree
