import SurfaceLanguage.Proofs.Number.Letters
import SurfaceLanguage.Tree.Printer

/-!
# Texts of a tree

The names, the operators and the strings of a tree are its text fields: they are arbitrary
texts, and a tree is printed by writing down each of them once among words of its own.
Every printed word shows one field, perhaps with a mark around it, or it shows none and is
inert. The relation `Tells` follows the printed forms from left to right, and the main
statement is that the forms of every tree tell the fields of the tree.
-/
namespace SurfaceLanguage.Tree
open Form Lexing

inductive TextField where
  | name (text : String)
  | operator (text : String)
  | string (value : String)
deriving DecidableEq, Repr

def nameFields (names : List String) : List TextField := names.map .name

def paramFields (params : List Param) : List TextField := params.map fun p => .name p.name

mutual

/-- The text fields of an expression, in the order in which they are printed. -/
def Expr.fields : Expr → List TextField
  | .intLit _ => []
  | .floatLit _ => []
  | .stringLit value => [.string value]
  | .boolLit _ => []
  | .array elements => Expr.allFields elements
  | .assign name value => .name name :: value.fields
  | .binary left operator right => .operator operator :: (left.fields ++ right.fields)
  | .call callee arguments => callee.fields ++ Expr.allFields arguments
  | .grouping inner => inner.fields
  | .instanceOf object _ => object.fields
  | .lambda params body => nameFields params ++ body.fields
  | .logical left operator right => .operator operator :: (left.fields ++ right.fields)
  | .newObject className arguments => .name className :: Expr.allFields arguments
  | .postUnary operand operator => .operator operator :: operand.fields
  | .superRef method => method.fields
  | .thisRef => []
  | .unary operator right => .operator operator :: right.fields
  | .variable name _ => [.name name]
  | .member object property => object.fields ++ [.name property]
  | .identifier name => [.name name]

def Expr.allFields : List Expr → List TextField
  | [] => []
  | e :: exprs => e.fields ++ Expr.allFields exprs

end

def Expr.optionalFields : Option Expr → List TextField
  | none => []
  | some e => e.fields

mutual

def Stmt.fields : Stmt → List TextField
  | .block statements => Stmt.allFields statements
  | .breakStmt => []
  | .continueStmt => []
  | .expression inner => inner.fields
  | .returnStmt value => Expr.optionalFields value
  | .throwStmt value => value.fields
  | .tryStmt body caught handler final =>
      Stmt.allFields body ++
        ((nameFields caught.toList ++ Stmt.blockFields handler) ++ Stmt.blockFields final)
  | .ifStmt condition body otherwise =>
      condition.fields ++ (Stmt.allFields body ++ Stmt.optionalFields otherwise)
  | .whileStmt condition body => condition.fields ++ Stmt.allFields body
  | .forStmt init condition post body =>
      Stmt.optionalFields init ++ Expr.optionalFields condition ++ Stmt.optionalFields post ++
        Stmt.allFields body
  | .switchStmt scrutinee cases otherwise =>
      scrutinee.fields ++ SwitchCase.allFields cases ++ Stmt.blockFields otherwise
  | .valDecl _ name _ value => .name name :: Expr.optionalFields value
  | .letDecl _ name _ value => .name name :: Expr.optionalFields value
  | .globalDecl name _ value => .name name :: Expr.optionalFields value
  | .functionDecl _ _ _ name params _ body =>
      .name name :: (paramFields params ++ Stmt.allFields body)
  | .classDecl _ name superclass members =>
      .name name :: (nameFields superclass.toList ++ Stmt.allFields members)
  | .constructorDecl params body => paramFields params ++ Stmt.allFields body
  | .interfaceDecl _ name members => .name name :: Stmt.allFields members
  | .structDecl _ name members => .name name :: Stmt.allFields members
  | .enumDecl _ name elements => .name name :: nameFields elements
  | .dataDecl _ name fields => .name name :: paramFields fields
  | .importDecl module => [.name module]
  | .exportDecl name => [.name name]

def Stmt.allFields : List Stmt → List TextField
  | [] => []
  | s :: statements => s.fields ++ Stmt.allFields statements

def Stmt.optionalFields : Option Stmt → List TextField
  | none => []
  | some s => s.fields

def Stmt.blockFields : Option (List Stmt) → List TextField
  | none => []
  | some statements => Stmt.allFields statements

def SwitchCase.fields : SwitchCase → List TextField
  | .mk first others body => first.fields ++ Expr.allFields others ++ Stmt.allFields body

def SwitchCase.allFields : List SwitchCase → List TextField
  | [] => []
  | c :: cases => c.fields ++ SwitchCase.allFields cases

end

/-- A word and the fields it shows. A name may have a colon behind it, and a string stands
in quotes. -/
inductive Shows : String → List TextField → Prop
  | fixed {text : String} : text.toList.all isInert = true → Shows text []
  | name (text : String) : Shows text [.name text]
  | typed (text : String) : Shows (text ++ ":") [.name text]
  | operator (text : String) : Shows text [.operator text]
  | string (value : String) : Shows ("\"" ++ value ++ "\"") [.string value]

/-- The words of a row of forms, from left to right, show these fields. -/
inductive Tells : List Form → List TextField → Prop
  | nil : Tells [] []
  | word {text : String} {shown fields : List TextField} {parts : List Form} :
      Shows text shown → Tells parts fields → Tells (.word text :: parts) (shown ++ fields)
  | group {inner parts : List Form} {deep fields : List TextField} :
      Tells inner deep → Tells parts fields → Tells (.group inner :: parts) (deep ++ fields)

theorem inert_ty : ∀ ty : Ty, ty.name.toList.all isInert = true
  | .primitive p => by cases p <;> rfl
  | .array element => by
      rw [Ty.name, String.toList_append, List.all_append, inert_ty element]
      rfl

section Rows
variable {tag text : String} {parts more blocks : List Form} {fields others : List TextField}

theorem Tells.append (first : Tells parts fields) (last : Tells more others) :
    Tells (parts ++ more) (fields ++ others) := by
  induction first with
  | nil => exact last
  | word hshows _ ih =>
    rw [List.append_assoc]
    exact .word hshows ih
  | group hinner _ _ ih =>
    rw [List.append_assoc]
    exact .group hinner ih

/-- A word that shows nothing. -/
theorem Tells.fixed (htext : text.toList.all isInert = true) (h : Tells parts fields) :
    Tells (.word text :: parts) fields := .word (.fixed htext) h

theorem Tells.name (text : String) (h : Tells parts fields) :
    Tells (.word text :: parts) (.name text :: fields) := .word (.name text) h

theorem Tells.tagged (htag : tag.toList.all isInert = true) (h : Tells parts fields)
    (hmore : Tells more others) : Tells (tagged tag parts :: more) (fields ++ others) :=
  .group (.fixed htag h) hmore

theorem Tells.single (h : Tells parts fields) : Tells [.group parts] fields := by
  have hrow := Tells.group h .nil
  rwa [List.append_nil] at hrow

/-- A row behind the fields of which nothing more is shown. -/
theorem Tells.append_fixed (first : Tells parts fields) (last : Tells more []) :
    Tells (parts ++ more) fields := by
  have hrow := first.append last
  rwa [List.append_nil] at hrow

/-- A group that opens with a word of its own. -/
theorem Tells.wrap (htag : tag.toList.all isInert = true) (h : Tells parts fields) :
    Tells [Form.tagged tag parts] fields := Tells.single (.fixed htag h)

theorem Tells.block (h : Tells parts fields) : Tells [blockForm parts] fields := .wrap rfl h

theorem Tells.operation (operator : String) (h : Tells parts fields) :
    Tells [Form.tagged operator parts] (.operator operator :: fields) :=
  Tells.single (.word (.operator operator) h)

theorem tells_names : ∀ names : List String, Tells (words names) (nameFields names)
  | [] => .nil
  | name :: names => (tells_names names).name name

theorem tells_typedName (name : String) : ∀ declared : Option Ty,
    Tells (typedName name declared) [.name name]
  | none => Tells.nil.name name
  | some ty => .word (.typed name) (.fixed (inert_ty ty) .nil)

theorem tells_paramForms : ∀ params : List Param, Tells (paramForms params) (paramFields params)
  | [] => .nil
  | [p] => .word (.typed p.name) (.fixed (inert_ty p.ty) .nil)
  | p :: q :: params => by
      have hcomma : (p.ty.name ++ ",").toList.all isInert = true := by
        rw [String.toList_append, List.all_append, inert_ty]
        rfl
      exact .word (.typed p.name) (.fixed hcomma (tells_paramForms (q :: params)))

theorem tells_visibility (visibility : Visibility) : Tells (visibilityWords visibility) [] := by
  cases visibility with
  | unspecified => exact .nil
  | publicAccess => exact .fixed rfl .nil
  | protectedAccess => exact .fixed rfl .nil
  | privateAccess => exact .fixed rfl .nil

theorem tells_flag (isSet : Bool) (text : String) (htext : text.toList.all isInert = true) :
    Tells (flagWord isSet text) [] := by
  cases isSet with
  | false => exact .nil
  | true => exact .fixed htext .nil

theorem tells_result : ∀ result : Option Ty, Tells (resultForms result) []
  | none => .nil
  | some ty => .fixed rfl (.fixed (inert_ty ty) .nil)

theorem tells_extends : ∀ superclass : Option String,
    Tells (extendsForms superclass) (nameFields superclass.toList)
  | none => .nil
  | some name => .fixed rfl (Tells.nil.name name)

theorem Tells.orUnderscore (h : Tells parts fields) : Tells (orUnderscore parts) fields := by
  cases h with
  | nil => exact .fixed rfl .nil
  | word hshows hparts => exact .word hshows hparts
  | group hinner hparts => exact .group hinner hparts

theorem Tells.catchForms (h : Tells parts fields) : Tells (catchForms parts) fields := by
  cases h with
  | nil => exact .nil
  | word hshows hparts => exact Tells.single (.fixed rfl (.word hshows hparts))
  | group hinner hparts => exact Tells.single (.fixed rfl (.group hinner hparts))

/-- Clauses that are a form each under a word of its own. -/
theorem Tells.clause (tag : String) (htag : tag.toList.all isInert = true)
    (h : Tells blocks fields) : Tells (blocks.map (Form.tagged tag [·])) fields := by
  induction h with
  | nil => exact .nil
  | word hshows _ ih =>
    have hword := Tells.word hshows .nil
    rw [List.append_nil] at hword
    exact .tagged htag hword ih
  | group hinner _ _ ih => exact .tagged htag hinner.single ih

end Rows

mutual

theorem Expr.tells : ∀ e : Expr, Tells e.forms e.fields
  | .intLit value => .fixed (Number.inert_writtenInt value) .nil
  | .floatLit value => .fixed value.inert_written .nil
  | .stringLit value => .word (.string value) .nil
  | .boolLit true | .boolLit false | .thisRef => .fixed rfl .nil
  | .array elements => .wrap rfl (Expr.allTells elements)
  | .assign name value => .wrap rfl (value.tells.name name)
  | .binary left operator right | .logical left operator right =>
      .operation operator (left.tells.append right.tells)
  | .call callee arguments => .wrap rfl (callee.tells.append (Expr.allTells arguments))
  | .grouping inner => .wrap rfl inner.tells
  | .instanceOf object ty => .wrap rfl (object.tells.append_fixed (.fixed (inert_ty ty) .nil))
  | .lambda params body => .wrap rfl (.group (tells_names params) body.tells)
  | .newObject className arguments => .wrap rfl ((Expr.allTells arguments).name className)
  | .postUnary operand operator => .wrap rfl (.word (.operator operator) operand.tells)
  | .superRef method => .wrap rfl method.tells
  | .unary operator right => .operation operator right.tells
  | .variable name declared => tells_typedName name declared
  | .member object property => .wrap rfl (object.tells.append (Tells.nil.name property))
  | .identifier name => Tells.nil.name name

theorem Expr.allTells : ∀ exprs : List Expr, Tells (Expr.allForms exprs) (Expr.allFields exprs)
  | [] => .nil
  | e :: exprs => e.tells.append (Expr.allTells exprs)

end

theorem Expr.optionalTells : ∀ value : Option Expr,
    Tells (Expr.optionalForms value) (Expr.optionalFields value)
  | none => .nil
  | some e => e.tells

theorem tells_binding (name : String) (declared : Option Ty) (value : Option Expr) :
    Tells (bindingForms name declared value) (.name name :: Expr.optionalFields value) := by
  apply (tells_typedName name declared).append
  cases value with
  | none => exact .nil
  | some e => exact .fixed rfl e.tells

/-- A declaration that opens with its visibility, its word and its name. -/
theorem tells_declaration (visibility : Visibility) {tag : String} (name : String)
    {parts : List Form} {fields : List TextField} (htag : tag.toList.all isInert = true)
    (h : Tells parts fields) :
    Tells [.group (visibilityWords visibility ++ .word tag :: .word name :: parts)]
      (.name name :: fields) :=
  Tells.single ((tells_visibility visibility).append (.fixed htag (h.name name)))

mutual

theorem Stmt.tells : ∀ s : Stmt, Tells [s.form] s.fields
  | .block statements => (Stmt.allTells statements).block
  | .breakStmt | .continueStmt => .wrap rfl .nil
  | .expression inner => .wrap rfl inner.tells
  | .returnStmt value => .wrap rfl (Expr.optionalTells value)
  | .throwStmt value => .wrap rfl value.tells
  | .tryStmt body caught handler final => by
      have hcaught := (tells_names caught.toList).append (Stmt.blockTells handler)
      have hclauses := hcaught.catchForms.append ((Stmt.blockTells final).clause "finally" rfl)
      exact .wrap rfl (.tagged rfl (Stmt.allTells body) hclauses)
  | .ifStmt condition body otherwise => by
      have hotherwise := (Stmt.optionalTells otherwise).clause "else" rfl
      exact .wrap rfl (condition.tells.append (.tagged rfl (Stmt.allTells body) hotherwise))
  | .whileStmt condition body => by
      have hbody := (Stmt.allTells body).block
      exact .wrap rfl (condition.tells.append hbody)
  | .forStmt init condition post body => by
      have hinit := (Stmt.optionalTells init).orUnderscore
      have hcondition := (Expr.optionalTells condition).orUnderscore
      have hpost := (Stmt.optionalTells post).orUnderscore
      have hbody := (Stmt.allTells body).block
      exact .wrap rfl (((hinit.append hcondition).append hpost).append hbody)
  | .switchStmt scrutinee cases otherwise => by
      have hcases := scrutinee.tells.append (SwitchCase.allTells cases)
      exact .wrap rfl (hcases.append ((Stmt.blockTells otherwise).clause "default" rfl))
  | .valDecl visibility name declared value | .letDecl visibility name declared value =>
      Tells.single ((tells_visibility visibility).append
        (.fixed rfl (tells_binding name declared value)))
  | .globalDecl name declared value => .wrap rfl (tells_binding name declared value)
  | .functionDecl visibility isOverride isAsync name params result body => by
      have hmarks := (tells_visibility visibility).append (tells_flag isOverride "override" rfl)
      have hflags := hmarks.append (tells_flag isAsync "async" rfl)
      have hbody := (tells_result result).append (Stmt.allTells body).block
      exact Tells.single (hflags.append
        (.fixed rfl ((Tells.group (tells_paramForms params) hbody).name name)))
  | .classDecl visibility name superclass members =>
      tells_declaration visibility name rfl
        ((tells_extends superclass).append (Stmt.allTells members))
  | .constructorDecl params body => by
      have hbody := (Stmt.allTells body).block
      exact .wrap rfl (.group (tells_paramForms params) hbody)
  | .interfaceDecl visibility name members | .structDecl visibility name members =>
      tells_declaration visibility name rfl (Stmt.allTells members)
  | .enumDecl visibility name elements =>
      tells_declaration visibility name rfl (tells_names elements)
  | .dataDecl visibility name fields =>
      tells_declaration visibility name rfl (tells_paramForms fields).single
  | .importDecl name | .exportDecl name => .wrap rfl (Tells.nil.name name)

theorem Stmt.allTells : ∀ statements : List Stmt,
    Tells (Stmt.allForms statements) (Stmt.allFields statements)
  | [] => .nil
  | s :: statements => s.tells.append (Stmt.allTells statements)

theorem Stmt.optionalTells : ∀ value : Option Stmt,
    Tells (Stmt.optionalForm value) (Stmt.optionalFields value)
  | none => .nil
  | some s => s.tells

theorem Stmt.blockTells : ∀ value : Option (List Stmt),
    Tells (Stmt.optionalBlock value) (Stmt.blockFields value)
  | none => .nil
  | some statements => (Stmt.allTells statements).block

theorem SwitchCase.tells : ∀ c : SwitchCase, Tells [c.form] c.fields
  | .mk first others body => by
      have hbody := (Stmt.allTells body).block
      exact .wrap rfl ((first.tells.append (Expr.allTells others)).append hbody)

theorem SwitchCase.allTells : ∀ cases : List SwitchCase,
    Tells (SwitchCase.allForms cases) (SwitchCase.allFields cases)
  | [] => .nil
  | c :: cases => c.tells.append (SwitchCase.allTells cases)

end

end SurfaceLanguage.Tree
