import SurfaceLanguage.Number.Written
import SurfaceLanguage.Tree.Basic

/-!
# Printing trees

The text of a tree is a form: a word, or a group of forms in round brackets with
a space between neighbours. Words are written as they are.

A node becomes a group that opens with its operator or with the word of its
form, and the parts follow in the order in which a source has them. An absent
part leaves no trace, except that each of the three clauses of a `for` keeps its
place by an underscore. Names, operators and the insides of strings are printed
as they are.
-/
namespace SurfaceLanguage.Tree

inductive Form where
  | word (text : String)
  | group (parts : List Form)
deriving Repr

namespace Form

mutual

def render : Form → String
  | .word text => text
  | .group parts => "(" ++ renderAll parts ++ ")"

/-- Forms in a row. -/
def renderAll : List Form → String
  | [] => ""
  | [part] => part.render
  | part :: next :: parts => part.render ++ " " ++ renderAll (next :: parts)

end

/-- A group that opens with a given word. -/
def tagged (tag : String) (parts : List Form) : Form := .group (.word tag :: parts)

end Form

open Form

def words (texts : List String) : List Form := texts.map .word

/-- A name and, behind a colon, its type if it has one. -/
def typedName (name : String) (declared : Option Ty) : List Form :=
  match declared with
  | some ty => [.word (name ++ ":"), .word ty.name]
  | none => [.word name]

/-- Parameters with their types, a comma behind each but the last. -/
def paramForms : List Param → List Form
  | [] => []
  | [p] => [.word (p.name ++ ":"), .word p.ty.name]
  | p :: q :: params =>
      .word (p.name ++ ":") :: .word (p.ty.name ++ ",") :: paramForms (q :: params)

def visibilityWords (visibility : Visibility) : List Form := words visibility.keyword?.toList

mutual

/-- One form, or two for a variable with a declared type. -/
def Expr.forms : Expr → List Form
  | .intLit value => [.word (Number.writtenInt value)]
  | .floatLit value => [.word value.written]
  | .stringLit value => [.word ("\"" ++ value ++ "\"")]
  | .boolLit value => [.word (if value then "true" else "false")]
  | .array elements => [tagged "array" (Expr.allForms elements)]
  | .assign name value => [tagged "=" (.word name :: value.forms)]
  | .binary left operator right => [tagged operator (left.forms ++ right.forms)]
  | .call callee arguments => [tagged "call" (callee.forms ++ Expr.allForms arguments)]
  | .grouping inner => [tagged "group" inner.forms]
  | .instanceOf object ty => [tagged "instanceof" (object.forms ++ [.word ty.name])]
  | .lambda params body => [tagged "lambda" (.group (words params) :: body.forms)]
  | .logical left operator right => [tagged operator (left.forms ++ right.forms)]
  | .newObject className arguments =>
      [tagged "new" (.word className :: Expr.allForms arguments)]
  | .postUnary operand operator => [tagged "postfix" (.word operator :: operand.forms)]
  | .superRef method => [tagged "super" method.forms]
  | .thisRef => [.word "this"]
  | .unary operator right => [tagged operator right.forms]
  | .variable name declared => typedName name declared
  | .member object property => [tagged "." (object.forms ++ [.word property])]
  | .identifier name => [.word name]

def Expr.allForms : List Expr → List Form
  | [] => []
  | e :: exprs => e.forms ++ Expr.allForms exprs

end

def Expr.optionalForms : Option Expr → List Form
  | none => []
  | some e => e.forms

/-- A declared name with its type and, behind an equals sign, its value. -/
def bindingForms (name : String) (declared : Option Ty) (value : Option Expr) : List Form :=
  typedName name declared ++
    match value with
    | some e => .word "=" :: e.forms
    | none => []

/-- A word that is there or not. -/
def flagWord (isSet : Bool) (text : String) : List Form := if isSet then [.word text] else []

def blockForm (statements : List Form) : Form := tagged "block" statements

/-- The parts of a clause, or the sign of its absence. -/
def orUnderscore (parts : List Form) : List Form :=
  if parts.isEmpty then [.word "_"] else parts

/-- What a handler binds and what it does, in a group unless there is neither. -/
def catchForms (parts : List Form) : List Form :=
  if parts.isEmpty then [] else [tagged "catch" parts]

def resultForms : Option Ty → List Form
  | none => []
  | some ty => words ["->", ty.name]

def extendsForms : Option String → List Form
  | none => []
  | some name => words ["extends", name]

mutual

def Stmt.form : Stmt → Form
  | .block statements => blockForm (Stmt.allForms statements)
  | .breakStmt => tagged "break" []
  | .continueStmt => tagged "continue" []
  | .expression inner => tagged ";" inner.forms
  | .returnStmt value => tagged "return" (Expr.optionalForms value)
  | .throwStmt value => tagged "throw" value.forms
  | .tryStmt body caught handler final =>
      tagged "try" (blockForm (Stmt.allForms body) ::
        (catchForms (words caught.toList ++ Stmt.optionalBlock handler) ++
          (Stmt.optionalBlock final).map (tagged "finally" [·])))
  | .ifStmt condition body otherwise =>
      tagged "if" (condition.forms ++ blockForm (Stmt.allForms body) ::
        (Stmt.optionalForm otherwise).map (tagged "else" [·]))
  | .whileStmt condition body =>
      tagged "while" (condition.forms ++ [blockForm (Stmt.allForms body)])
  | .forStmt init condition post body =>
      tagged "for" (orUnderscore (Stmt.optionalForm init) ++
        orUnderscore (Expr.optionalForms condition) ++
        orUnderscore (Stmt.optionalForm post) ++ [blockForm (Stmt.allForms body)])
  | .switchStmt scrutinee cases otherwise =>
      tagged "switch" (scrutinee.forms ++ SwitchCase.allForms cases ++
        (Stmt.optionalBlock otherwise).map (tagged "default" [·]))
  | .valDecl visibility name declared value =>
      .group (visibilityWords visibility ++ .word "val" :: bindingForms name declared value)
  | .letDecl visibility name declared value =>
      .group (visibilityWords visibility ++ .word "let" :: bindingForms name declared value)
  | .globalDecl name declared value => tagged "global" (bindingForms name declared value)
  | .functionDecl visibility isOverride isAsync name params result body =>
      .group (visibilityWords visibility ++ flagWord isOverride "override" ++
        flagWord isAsync "async" ++ .word "fun" :: .word name :: .group (paramForms params) ::
          (resultForms result ++ [blockForm (Stmt.allForms body)]))
  | .classDecl visibility name superclass members =>
      .group (visibilityWords visibility ++ .word "class" :: .word name ::
        (extendsForms superclass ++ Stmt.allForms members))
  | .constructorDecl params body =>
      tagged "constructor" [.group (paramForms params), blockForm (Stmt.allForms body)]
  | .interfaceDecl visibility name members =>
      .group (visibilityWords visibility ++ .word "interface" :: .word name ::
        Stmt.allForms members)
  | .structDecl visibility name members =>
      .group (visibilityWords visibility ++ .word "struct" :: .word name ::
        Stmt.allForms members)
  | .enumDecl visibility name elements =>
      .group (visibilityWords visibility ++ .word "enum" :: .word name :: words elements)
  | .dataDecl visibility name fields =>
      .group (visibilityWords visibility ++
        [.word "data", .word name, .group (paramForms fields)])
  | .importDecl module => tagged "import" [.word module]
  | .exportDecl name => tagged "export" [.word name]

def Stmt.allForms : List Stmt → List Form
  | [] => []
  | s :: statements => s.form :: Stmt.allForms statements

def Stmt.optionalForm : Option Stmt → List Form
  | none => []
  | some s => [s.form]

def Stmt.optionalBlock : Option (List Stmt) → List Form
  | none => []
  | some statements => [blockForm (Stmt.allForms statements)]

def SwitchCase.form : SwitchCase → Form
  | .mk first others body =>
      tagged "case" (first.forms ++ Expr.allForms others ++ [blockForm (Stmt.allForms body)])

def SwitchCase.allForms : List SwitchCase → List Form
  | [] => []
  | c :: cases => c.form :: SwitchCase.allForms cases

end

/-- The text of an expression. -/
def Expr.print (e : Expr) : String := renderAll e.forms

def Stmt.print (s : Stmt) : String := s.form.render

def SwitchCase.print (c : SwitchCase) : String := c.form.render

def Node.print : Node → String
  | .expr e => e.print
  | .stmt s => s.print
  | .switchCase c => c.print

end SurfaceLanguage.Tree
