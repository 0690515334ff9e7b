import SurfaceLanguage.Tree.Basic

/-!
# Labels of nodes

The label names the form of a node and nothing below it. Two forms never share a
label, not even those that print alike.
-/
namespace SurfaceLanguage.Tree

def Expr.label : Expr → String
  | .intLit .. => "int_literal"
  | .floatLit .. => "float_literal"
  | .stringLit .. => "string_literal"
  | .boolLit .. => "bool_literal"
  | .array .. => "array_literal"
  | .assign .. => "assign_expr"
  | .binary .. => "binary_expr"
  | .call .. => "call_expr"
  | .grouping .. => "grouping_expr"
  | .instanceOf .. => "instance_of_expr"
  | .lambda .. => "lambda_expr"
  | .logical .. => "logical_expr"
  | .newObject .. => "new_expr"
  | .postUnary .. => "postfix_unary_expr"
  | .superRef .. => "super_expr"
  | .thisRef => "this_expr"
  | .unary .. => "unary_expr"
  | .variable .. => "variable_expr"
  | .member .. => "member_expr"
  | .identifier .. => "identifier"

def Stmt.label : Stmt → String
  | .block .. => "block_stmt"
  | .breakStmt => "break_stmt"
  | .continueStmt => "continue_stmt"
  | .expression .. => "expression_stmt"
  | .returnStmt .. => "return_stmt"
  | .throwStmt .. => "throw_stmt"
  | .tryStmt .. => "try_stmt"
  | .ifStmt .. => "if_stmt"
  | .whileStmt .. => "while_stmt"
  | .forStmt .. => "for_stmt"
  | .switchStmt .. => "switch_stmt"
  | .valDecl .. => "val_stmt"
  | .letDecl .. => "let_stmt"
  | .globalDecl .. => "global_stmt"
  | .functionDecl .. => "function_stmt"
  | .classDecl .. => "class_stmt"
  | .constructorDecl .. => "constructor_stmt"
  | .interfaceDecl .. => "interface_stmt"
  | .structDecl .. => "struct_stmt"
  | .enumDecl .. => "enum_stmt"
  | .dataDecl .. => "data_stmt"
  | .importDecl .. => "import_stmt"
  | .exportDecl .. => "export_stmt"

def Node.label : Node → String
  | .expr e => e.label
  | .stmt s => s.label
  | .switchCase _ => "switch_case"

end SurfaceLanguage.Tree
