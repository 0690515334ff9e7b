import SurfaceLanguage.Tree.Basic

/-!
# Equality of trees

Two trees are equal when they have the same form and equal parts. Floating point
literals are compared as numbers: a tree that holds a NaN equals no tree, itself
included, and the two zeros are equal though they print differently.
-/
namespace SurfaceLanguage.Tree

mutual

def Expr.equal : Expr → Expr → Bool
  | .intLit m, .intLit n => m == n
  | .floatLit x, .floatLit y => x == y
  | .stringLit s, .stringLit t => s == t
  | .boolLit a, .boolLit b => a == b
  | .array as, .array bs => Expr.equalLists as bs
  | .assign m a, .assign n b => m == n && a.equal b
  | .binary a o b, .binary c p d => a.equal c && o == p && b.equal d
  | .call a as, .call b bs => a.equal b && Expr.equalLists as bs
  | .grouping a, .grouping b => a.equal b
  | .instanceOf a s, .instanceOf b t => a.equal b && s == t
  | .lambda ps a, .lambda qs b => ps == qs && a.equal b
  | .logical a o b, .logical c p d => a.equal c && o == p && b.equal d
  | .newObject m as, .newObject n bs => m == n && Expr.equalLists as bs
  | .postUnary a o, .postUnary b p => a.equal b && o == p
  | .superRef a, .superRef b => a.equal b
  | .thisRef, .thisRef => true
  | .unary o a, .unary p b => o == p && a.equal b
  | .variable m s, .variable n t => m == n && s == t
  | .member a m, .member b n => a.equal b && m == n
  | .identifier m, .identifier n => m == n
  | _, _ => false

def Expr.equalLists : List Expr → List Expr → Bool
  | [], [] => true
  | a :: as, b :: bs => a.equal b && Expr.equalLists as bs
  | _, _ => false

end

def Expr.equalOptions : Option Expr → Option Expr → Bool
  | none, none => true
  | some a, some b => a.equal b
  | _, _ => false

mutual

def Stmt.equal : Stmt → Stmt → Bool
  | .block as, .block bs => Stmt.equalLists as bs
  | .breakStmt, .breakStmt => true
  | .continueStmt, .continueStmt => true
  | .expression a, .expression b => a.equal b
  | .returnStmt a, .returnStmt b => Expr.equalOptions a b
  | .throwStmt a, .throwStmt b => a.equal b
  | .tryStmt as m hs fs, .tryStmt bs n is gs =>
      Stmt.equalLists as bs && m == n && Stmt.equalBlocks hs is && Stmt.equalBlocks fs gs
  | .ifStmt a as s, .ifStmt b bs t =>
      a.equal b && Stmt.equalLists as bs && Stmt.equalOptions s t
  | .whileStmt a as, .whileStmt b bs => a.equal b && Stmt.equalLists as bs
  | .forStmt i a s as, .forStmt j b t bs =>
      Stmt.equalOptions i j && Expr.equalOptions a b && Stmt.equalOptions s t &&
        Stmt.equalLists as bs
  | .switchStmt a cs ds, .switchStmt b es fs =>
      a.equal b && SwitchCase.equalLists cs es && Stmt.equalBlocks ds fs
  | .valDecl v m s a, .valDecl w n t b =>
      v == w && m == n && s == t && Expr.equalOptions a b
  | .letDecl v m s a, .letDecl w n t b =>
      v == w && m == n && s == t && Expr.equalOptions a b
  | .globalDecl m s a, .globalDecl n t b => m == n && s == t && Expr.equalOptions a b
  | .functionDecl v o y m ps s as, .functionDecl w p z n qs t bs =>
      v == w && o == p && y == z && m == n && ps == qs && s == t && Stmt.equalLists as bs
  | .classDecl v m s as, .classDecl w n t bs =>
      v == w && m == n && s == t && Stmt.equalLists as bs
  | .constructorDecl ps as, .constructorDecl qs bs => ps == qs && Stmt.equalLists as bs
  | .interfaceDecl v m as, .interfaceDecl w n bs =>
      v == w && m == n && Stmt.equalLists as bs
  | .structDecl v m as, .structDecl w n bs => v == w && m == n && Stmt.equalLists as bs
  | .enumDecl v m es, .enumDecl w n fs => v == w && m == n && es == fs
  | .dataDecl v m ps, .dataDecl w n qs => v == w && m == n && ps == qs
  | .importDecl m, .importDecl n => m == n
  | .exportDecl m, .exportDecl n => m == n
  | _, _ => false
termination_by structural s => s

def Stmt.equalLists : List Stmt → List Stmt → Bool
  | [], [] => true
  | a :: as, b :: bs => a.equal b && Stmt.equalLists as bs
  | _, _ => false
termination_by structural s => s

def Stmt.equalOptions : Option Stmt → Option Stmt → Bool
  | none, none => true
  | some a, some b => a.equal b
  | _, _ => false
termination_by structural s => s

def Stmt.equalBlocks : Option (List Stmt) → Option (List Stmt) → Bool
  | none, none => true
  | some as, some bs => Stmt.equalLists as bs
  | _, _ => false
termination_by structural s => s

def SwitchCase.equal : SwitchCase → SwitchCase → Bool
  | .mk a as ss, .mk b bs ts => a.equal b && Expr.equalLists as bs && Stmt.equalLists ss ts
termination_by structural s => s

def SwitchCase.equalLists : List SwitchCase → List SwitchCase → Bool
  | [], [] => true
  | a :: as, b :: bs => a.equal b && SwitchCase.equalLists as bs
  | _, _ => false
termination_by structural s => s

end

instance : BEq Expr := ⟨Expr.equal⟩
instance : BEq Stmt := ⟨Stmt.equal⟩
instance : BEq SwitchCase := ⟨SwitchCase.equal⟩

end SurfaceLanguage.Tree
