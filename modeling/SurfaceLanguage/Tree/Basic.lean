import SurfaceLanguage.Number.Binary64
import SurfaceLanguage.Types
import SurfaceLanguage.Visibility

/-!
# Syntax trees

Expressions, statements and the cases of a switch. A block is a list of
statements. An empty text is a text, and an empty block a block: only `none`
says that a part is absent. Operators and names are arbitrary texts, because a
tree can be built by other means than by reading a source.
-/
namespace SurfaceLanguage.Tree
open SurfaceLanguage.Number

inductive Expr where
  | intLit (value : Int64)
  | floatLit (value : Binary64)
  | stringLit (value : String)
  | boolLit (value : Bool)
  | array (elements : List Expr)
  | assign (name : String) (value : Expr)
  | binary (left : Expr) (operator : String) (right : Expr)
  | call (callee : Expr) (arguments : List Expr)
  | grouping (inner : Expr)
  | instanceOf (object : Expr) (ty : Ty)
  | lambda (params : List String) (body : Expr)
  | logical (left : Expr) (operator : String) (right : Expr)
  | newObject (className : String) (arguments : List Expr)
  | postUnary (operand : Expr) (operator : String)
  | superRef (method : Expr)
  | thisRef
  | unary (operator : String) (right : Expr)
  | variable (name : String) (declared : Option Ty)
  | member (object : Expr) (property : String)
  | identifier (name : String)
deriving Repr

structure Param where
  name : String
  ty : Ty
deriving DecidableEq, Repr

mutual

inductive Stmt where
  | block (statements : List Stmt)
  | breakStmt
  | continueStmt
  | expression (inner : Expr)
  | returnStmt (value : Option Expr)
  | throwStmt (value : Expr)
  | tryStmt (body : List Stmt) (caught : Option String) (handler final : Option (List Stmt))
  | ifStmt (condition : Expr) (body : List Stmt) (otherwise : Option Stmt)
  | whileStmt (condition : Expr) (body : List Stmt)
  | forStmt (init : Option Stmt) (condition : Option Expr) (post : Option Stmt)
      (body : List Stmt)
  | switchStmt (scrutinee : Expr) (cases : List SwitchCase) (otherwise : Option (List Stmt))
  | valDecl (visibility : Visibility) (name : String) (declared : Option Ty)
      (value : Option Expr)
  | letDecl (visibility : Visibility) (name : String) (declared : Option Ty)
      (value : Option Expr)
  | globalDecl (name : String) (declared : Option Ty) (value : Option Expr)
  | functionDecl (visibility : Visibility) (isOverride isAsync : Bool) (name : String)
      (params : List Param) (result : Option Ty) (body : List Stmt)
  | classDecl (visibility : Visibility) (name : String) (superclass : Option String)
      (members : List Stmt)
  | constructorDecl (params : List Param) (body : List Stmt)
  | interfaceDecl (visibility : Visibility) (name : String) (members : List Stmt)
  | structDecl (visibility : Visibility) (name : String) (members : List Stmt)
  | enumDecl (visibility : Visibility) (name : String) (elements : List String)
  | dataDecl (visibility : Visibility) (name : String) (fields : List Param)
  | importDecl (module : String)
  | exportDecl (name : String)
deriving Repr

/-- A case has at least one expression, so the first stands apart. -/
inductive SwitchCase where
  | mk (first : Expr) (others : List Expr) (body : List Stmt)
deriving Repr

end

namespace SwitchCase

def exprs : SwitchCase → List Expr
  | .mk first others _ => first :: others

def body : SwitchCase → List Stmt
  | .mk _ _ body => body

/-- The case of a list of expressions. There is none for the empty list. -/
def ofExprs? (exprs : List Expr) (body : List Stmt) : Option SwitchCase :=
  match exprs with
  | [] => none
  | first :: others => some (.mk first others body)

def single (expr : Expr) (body : List Stmt) : SwitchCase := .mk expr [] body

end SwitchCase

namespace Stmt

/-- The name that a declaration introduces. Imports, exports and constructors
introduce none. -/
def declaredName? : Stmt → Option String
  | .valDecl _ name _ _ | .letDecl _ name _ _ | .globalDecl name _ _
  | .functionDecl _ _ _ name _ _ _ | .classDecl _ name _ _ | .interfaceDecl _ name _
  | .structDecl _ name _ | .enumDecl _ name _ | .dataDecl _ name _ => some name
  | _ => none

/-- The visibility of a declaration that can state one. -/
def visibility? : Stmt → Option Visibility
  | .valDecl visibility _ _ _ | .letDecl visibility _ _ _
  | .functionDecl visibility _ _ _ _ _ _ | .classDecl visibility _ _ _
  | .interfaceDecl visibility _ _ | .structDecl visibility _ _ | .enumDecl visibility _ _
  | .dataDecl visibility _ _ => some visibility
  | _ => none

end Stmt

/-- Any of the three sorts of node. -/
inductive Node where
  | expr (e : Expr)
  | stmt (s : Stmt)
  | switchCase (c : SwitchCase)

end SurfaceLanguage.Tree
