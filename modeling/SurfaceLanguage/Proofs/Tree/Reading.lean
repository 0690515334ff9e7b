import SurfaceLanguage.Proofs.Tree.PlainForms

/-!
# Reading forms

A reader from forms back to trees. It is total and makes no complaints: a form
that no tree prints is read as nothing, or as some tree. A word stands for a leaf,
two words for a variable with its type, and a group for the node that its first
word names, once the words that mark a declaration are taken off. The rows of
names in a group have no first word of their own, so the node that they belong to
looks at their forms, not at what they were read as.
-/
namespace SurfaceLanguage.Tree
open Form Lexing

/-- A node that a form stands for, or a clause of the node around it. -/
inductive Part where
  | expr (e : Expr)
  | stmt (s : Stmt)
  | switchCase (c : SwitchCase)
  | handler (caught : Option String) (body : Option (List Stmt))
  | final (body : List Stmt)
  | otherwise (s : Stmt)
  | fallback (body : List Stmt)
  | unread

namespace Part

def expr? : Part → Option Expr
  | .expr e => some e
  | _ => none

def stmt? : Part → Option Stmt
  | .stmt s => some s
  | _ => none

def block? : Part → Option (List Stmt)
  | .stmt (.block statements) => some statements
  | _ => none

def switchCase? : Part → Option SwitchCase
  | .switchCase c => some c
  | _ => none

def caught? : Part → Option String
  | .handler caught _ => caught
  | _ => none

def handler? : Part → Option (List Stmt)
  | .handler _ body => body
  | _ => none

def final? : Part → Option (List Stmt)
  | .final body => some body
  | _ => none

def otherwise? : Part → Option Stmt
  | .otherwise s => some s
  | _ => none

def fallback? : Part → Option (List Stmt)
  | .fallback body => some body
  | _ => none

end Part

def exprsOf (parts : List Part) : List Expr := parts.filterMap Part.expr?

def stmtsOf (parts : List Part) : List Stmt := parts.filterMap Part.stmt?

def casesOf (parts : List Part) : List SwitchCase := parts.filterMap Part.switchCase?

/-- The statements of the first block. -/
def bodyOf (parts : List Part) : List Stmt := (parts.findSome? Part.block?).getD []

/-! ## Words -/

/-- The word in front of the type of a variable or a parameter, without its colon. -/
def typedName? (text : String) : Option String :=
  match text.toList with
  | [] => none
  | c :: rest =>
      if isWordStart c && rest.getLast? == some ':' then some (String.ofList (c :: rest.dropLast))
      else none

def readTy : List Char → Ty
  | '[' :: ']' :: rest => .array (readTy rest)
  | letters => .primitive ((PrimitiveType.ofName? (String.ofList letters)).getD .any)

def readInt : List Char → Int
  | '-' :: digits => -Nat.ofDigitChars 10 digits 0
  | digits => Nat.ofDigitChars 10 digits 0

/-- The leaves that are words of the language. -/
def leafWords : List String := ["true", "false", "this"]

def leaf (text : String) : Expr :=
  match text.toList with
  | '"' :: rest => .stringLit (String.ofList rest.dropLast)
  | letters =>
      if letters.head?.any (fun c => c == '-' || isDigit c) then
        .intLit (Int64.ofInt (readInt letters))
      else if text == "true" then .boolLit true
      else if text == "false" then .boolLit false
      else if text == "this" then .thisRef
      else .identifier text

def namesOf : List Form → List String
  | .word text :: parts => text :: namesOf parts
  | _ => []

/-- Types keep the comma that stands behind them until here. -/
def paramsOf : List Form → List Param
  | .word name :: .word ty :: parts =>
      ⟨(typedName? name).getD "", readTy (ty.toList.filter (· != ','))⟩ :: paramsOf parts
  | _ => []

def resultOf : List Form → Option Ty
  | .word "->" :: .word ty :: _ => some (readTy ty.toList)
  | _ => none

/-! ## Marks of declarations -/

inductive Mark where
  | seen (visibility : Visibility)
  | overriding
  | asynchronous

def marks : List (String × Mark) :=
  [("public", .seen .publicAccess), ("protected", .seen .protectedAccess),
   ("private", .seen .privateAccess), ("override", .overriding), ("async", .asynchronous)]

def mark? (text : String) : Option Mark := marks.lookup text

def Stmt.marked : Mark → Stmt → Stmt
  | .seen v, .valDecl _ name declared value => .valDecl v name declared value
  | .seen v, .letDecl _ name declared value => .letDecl v name declared value
  | .seen v, .functionDecl _ isOverride isAsync name params result body =>
      .functionDecl v isOverride isAsync name params result body
  | .seen v, .classDecl _ name superclass members => .classDecl v name superclass members
  | .seen v, .interfaceDecl _ name members => .interfaceDecl v name members
  | .seen v, .structDecl _ name members => .structDecl v name members
  | .seen v, .enumDecl _ name elements => .enumDecl v name elements
  | .seen v, .dataDecl _ name fields => .dataDecl v name fields
  | .overriding, .functionDecl v _ isAsync name params result body =>
      .functionDecl v true isAsync name params result body
  | .asynchronous, .functionDecl v isOverride _ name params result body =>
      .functionDecl v isOverride true name params result body
  | _, s => s

def Part.marked (mark : Mark) : Part → Part
  | .stmt s => .stmt (s.marked mark)
  | part => part

/-! ## Groups -/

def single (build : Expr → Part) : List Expr → Part
  | [e] => build e
  | _ => .unread

def headed (build : Expr → List Expr → Part) : List Expr → Part
  | e :: exprs => build e exprs
  | [] => .unread

def named (build : String → List Expr → Part) : List Expr → Part
  | .identifier name :: exprs => build name exprs
  | _ => .unread

/-- An expression with a word behind it. -/
def trailed (build : Expr → String → Part) : List Expr → Part
  | [e, .identifier text] => build e text
  | _ => .unread

/-- A unary operation or a binary one, by the number of operands. -/
def operation (operator : String) : List Expr → Part
  | [right] => .expr (.unary operator right)
  | [left, right] => .expr (.binary left operator right)
  | _ => .unread

def caughtOf : List Expr → Option String
  | .identifier name :: _ => some name
  | _ => none

/-- The equals sign in front of a value has been read as a name. -/
def valueOf : List Expr → Option Expr
  | [_, value] => some value
  | _ => none

/-- So has the word in front of a superclass. -/
def superclassOf : List Expr → Option String
  | [_, .identifier name] => some name
  | _ => none

def binding (build : String → Option Ty → Option Expr → Stmt) : List Expr → Part
  | .identifier name :: exprs => .stmt (build name none (valueOf exprs))
  | .variable name declared :: exprs => .stmt (build name declared (valueOf exprs))
  | _ => .unread

/-- The condition of a `for`, where an underscore stands for none. -/
def conditionOf (parts : List Part) : Option Expr :=
  (exprsOf parts).head?.filter (!·.isUnderscore)

def loop : List Part → Part
  | [init, condition, post, body] =>
      .stmt (.forStmt init.stmt? (conditionOf [condition]) post.stmt? (bodyOf [body]))
  | _ => .unread

/-- A group by its first word, from the forms behind it and what they were read as. -/
def readTagged (tag : String) (forms : List Form) (parts : List Part) : Part :=
  match tag with
  | "array" => .expr (.array (exprsOf parts))
  | "=" => named (fun name => single fun value => .expr (.assign name value)) (exprsOf parts)
  | "call" => headed (fun callee arguments => .expr (.call callee arguments)) (exprsOf parts)
  | "group" => single (fun inner => .expr (.grouping inner)) (exprsOf parts)
  | "instanceof" =>
      trailed (fun object ty => .expr (.instanceOf object (readTy ty.toList))) (exprsOf parts)
  | "lambda" =>
      match forms with
      | .group names :: _ =>
          single (fun body => .expr (.lambda (namesOf names) body)) (exprsOf parts.tail)
      | _ => .unread
  | "new" => named (fun name arguments => .expr (.newObject name arguments)) (exprsOf parts)
  | "postfix" =>
      match forms with
      | .word operator :: _ =>
          single (fun operand => .expr (.postUnary operand operator)) (exprsOf parts.tail)
      | _ => .unread
  | "super" => single (fun method => .expr (.superRef method)) (exprsOf parts)
  | "." => trailed (fun object property => .expr (.member object property)) (exprsOf parts)
  | "block" => .stmt (.block (stmtsOf parts))
  | "break" => .stmt .breakStmt
  | "continue" => .stmt .continueStmt
  | ";" => single (fun inner => .stmt (.expression inner)) (exprsOf parts)
  | "return" => .stmt (.returnStmt (exprsOf parts).head?)
  | "throw" => single (fun value => .stmt (.throwStmt value)) (exprsOf parts)
  | "try" =>
      .stmt (.tryStmt (bodyOf parts) (parts.findSome? Part.caught?)
        (parts.findSome? Part.handler?) (parts.findSome? Part.final?))
  | "catch" => .handler (caughtOf (exprsOf parts)) (parts.findSome? Part.block?)
  | "finally" => .final (bodyOf parts)
  | "if" =>
      single (fun condition =>
        .stmt (.ifStmt condition (bodyOf parts) (parts.findSome? Part.otherwise?))) (exprsOf parts)
  | "else" => (stmtsOf parts).head?.elim .unread .otherwise
  | "while" =>
      single (fun condition => .stmt (.whileStmt condition (bodyOf parts))) (exprsOf parts)
  | "for" => loop parts
  | "switch" =>
      single (fun scrutinee =>
        .stmt (.switchStmt scrutinee (casesOf parts) (parts.findSome? Part.fallback?)))
        (exprsOf parts)
  | "case" =>
      headed (fun first others => .switchCase (.mk first others (bodyOf parts))) (exprsOf parts)
  | "default" => .fallback (bodyOf parts)
  | "val" => binding (.valDecl .unspecified) (exprsOf parts)
  | "let" => binding (.letDecl .unspecified) (exprsOf parts)
  | "global" => binding .globalDecl (exprsOf parts)
  | "fun" =>
      match forms with
      | .word name :: .group params :: result =>
          .stmt (.functionDecl .unspecified false false name (paramsOf params) (resultOf result)
            (bodyOf (parts.drop 2)))
      | _ => .unread
  | "class" =>
      named (fun name exprs =>
        .stmt (.classDecl .unspecified name (superclassOf exprs) (stmtsOf parts))) (exprsOf parts)
  | "constructor" =>
      match forms with
      | .group params :: _ => .stmt (.constructorDecl (paramsOf params) (bodyOf parts.tail))
      | _ => .unread
  | "interface" =>
      named (fun name _ => .stmt (.interfaceDecl .unspecified name (stmtsOf parts))) (exprsOf parts)
  | "struct" =>
      named (fun name _ => .stmt (.structDecl .unspecified name (stmtsOf parts))) (exprsOf parts)
  | "enum" =>
      match forms with
      | .word name :: elements => .stmt (.enumDecl .unspecified name (namesOf elements))
      | _ => .unread
  | "data" =>
      match forms with
      | [.word name, .group fields] => .stmt (.dataDecl .unspecified name (paramsOf fields))
      | _ => .unread
  | "import" => named (fun name _ => .stmt (.importDecl name)) (exprsOf parts)
  | "export" => named (fun name _ => .stmt (.exportDecl name)) (exprsOf parts)
  | _ => .unread

mutual

def readForm : Form → Part
  | .word text => .expr (leaf text)
  | .group forms => readGroup forms

def readGroup : List Form → Part
  | .word text :: forms =>
      match mark? text with
      | some mark => (readGroup forms).marked mark
      | none =>
          if isOperator text then operation text (exprsOf (readParts forms))
          else readTagged text forms (readParts forms)
  | _ => .unread

/-- The only place where two forms are read together is a name with its type. -/
def readParts : List Form → List Part
  | [] => []
  | .word text :: .word ty :: rest =>
      match typedName? text with
      | some name => .expr (.variable name (some (readTy ty.toList))) :: readParts rest
      | none => .expr (leaf text) :: readParts (.word ty :: rest)
  | f :: rest => readForm f :: readParts rest

end

/-! ## Reading single words -/

section Words
variable {text name : String} {rest : List Form}

theorem typedName?_colon (h : isName name = true) : typedName? (name ++ ":") = some name := by
  obtain ⟨c, rest, heq, hc, -, -⟩ := isName_letters h
  have hcolon : (name ++ ":").toList = c :: (rest ++ [':']) := by
    rw [String.toList_append, heq]
    rfl
  rw [typedName?, hcolon]
  simp only [hc, List.getLast?_concat, List.dropLast_concat, BEq.rfl, Bool.and_self, if_true]
  rw [← heq, String.ofList_toList]

theorem exists_first_digit (m : ℕ) :
    ∃ c tail, Nat.toDigits 10 m = c :: tail ∧ isDigit c = true := by
  obtain ⟨c, tail, heq⟩ := List.exists_cons_of_ne_nil (Nat.toDigits_ne_nil (n := m) (b := 10))
  have hmem : c ∈ Nat.toDigits 10 m := heq ▸ List.mem_cons_self
  exact ⟨c, tail, heq, Nat.isDigit_of_mem_toDigits (by decide) (by decide) hmem⟩

theorem typedName?_of_start {c : Char} {tail : List Char} (heq : text.toList = c :: tail)
    (hc : isWordStart c = false) : typedName? text = none := by
  simp only [typedName?, heq, hc, Bool.false_and, Bool.false_eq_true, if_false]

theorem typedName?_int (n : Int64) : typedName? (Number.writtenInt n) = none := by
  obtain ⟨m, ⟨-, heq⟩ | ⟨-, heq⟩⟩ := writtenInt_letters n
  · obtain ⟨c, tail, hdigits⟩ := exists_first_digit m
    refine typedName?_of_start (heq.trans hdigits.1) (Bool.eq_false_iff.2 fun hc => ?_)
    rw [isDigit_of_isWordStart hc] at hdigits
    cases hdigits.2
  · exact typedName?_of_start heq rfl

theorem typedName?_name (h : isName name = true) : typedName? name = none := by
  obtain ⟨c, rest, heq, -, hrest, -⟩ := isName_letters h
  have hlast : rest.getLast? ≠ some ':' := fun hlast =>
    absurd (hrest ':' (List.mem_of_getLast? hlast)) (by decide)
  simp only [typedName?, heq, Bool.and_eq_true, beq_iff_eq, hlast, and_false, if_false]

theorem typedName?_operator (h : isOperator text = true) : typedName? text = none := by
  simp only [isOperator, Bool.or_eq_true, Bool.and_eq_true, List.all_eq_true] at h
  rcases h with hword | ⟨⟨hne, -⟩, hsigns⟩
  · have hwords : ∀ word ∈ wordOperators, typedName? word = none := by decide
    exact hwords text (List.contains_iff_mem.1 hword)
  · cases heq : text.toList with
    | nil => rw [String.toList_eq_nil_iff.1 heq] at hne; cases hne
    | cons c tail =>
      have hall : operatorSigns.all (!isWordStart ·) = true := rfl
      have hc := hsigns c (by rw [heq]; exact List.mem_cons_self)
      have hstart := List.all_eq_true.1 hall c (List.contains_iff_mem.1 hc)
      exact typedName?_of_start heq (by simpa using hstart)

theorem typedName?_ty : ∀ ty : Ty, typedName? ty.name = none
  | .primitive p => by cases p <;> rfl
  | .array element => typedName?_of_start (String.toList_append) rfl

theorem leaf_of_start {c : Char} {tail : List Char} (heq : text.toList = c :: tail)
    (hquote : c ≠ '"') (hminus : c ≠ '-') (hdigit : isDigit c = false)
    (hword : text ∉ leafWords) : leaf text = .identifier text := by
  simp only [leafWords, List.mem_cons, List.not_mem_nil, or_false, not_or] at hword
  unfold leaf
  split
  next inner hinner =>
    rw [heq] at hinner
    exact absurd (List.cons.inj hinner).1 hquote
  next => simp [heq, hminus, hdigit, hword]

theorem leaf_name (h : isName name = true) : leaf name = .identifier name := by
  obtain ⟨c, rest, heq, hc, -, hkeyword⟩ := isName_letters h
  have hne : ∀ d, isWordStart d = false → c ≠ d := by
    rintro d hd rfl
    rw [hc] at hd
    cases hd
  refine leaf_of_start heq (hne '"' rfl) (hne '-' rfl) (isDigit_of_isWordStart hc) fun hmem => ?_
  have hreserved : ∀ word ∈ leafWords, Keyword.ofString? word ≠ none := by decide
  exact hreserved name hmem hkeyword

theorem leaf_ty : ∀ ty : Ty, leaf ty.name = .identifier ty.name
  | .primitive p => by cases p <;> rfl
  | .array element => by
      have heq : (Ty.array element).name.toList = '[' :: ']' :: element.name.toList :=
        String.toList_append
      refine leaf_of_start heq (by decide) (by decide) rfl fun hmem => ?_
      have hletters : ∀ word ∈ leafWords, word.toList.head? ≠ some '[' := by decide
      exact hletters _ hmem (by rw [heq]; rfl)

theorem leaf_string (value : String) : leaf ("\"" ++ value ++ "\"") = .stringLit value := by
  have heq : ("\"" ++ value ++ "\"").toList = '"' :: (value.toList ++ ['"']) := by simp
  rw [leaf, heq]
  simp

theorem readInt_digits {m : ℕ} {c : Char} {tail : List Char}
    (heq : Nat.toDigits 10 m = c :: tail) (hc : isDigit c = true) : readInt (c :: tail) = m := by
  have hminus : ∀ digits, c :: tail ≠ '-' :: digits := by
    rintro digits ⟨⟩
    cases hc
  rw [readInt.eq_2 _ hminus, ← heq, Nat.ofDigitChars_ten_toDigits]

theorem leaf_int (n : Int64) : leaf (Number.writtenInt n) = .intLit n := by
  obtain ⟨m, ⟨hn, heq⟩ | ⟨hn, heq⟩⟩ := writtenInt_letters n
  · obtain ⟨c, tail, hdigits, hc⟩ := exists_first_digit m
    rw [leaf, heq, hdigits]
    split
    next inner hinner =>
      obtain ⟨rfl, -⟩ := List.cons.inj hinner
      cases hc
    next =>
      rw [readInt_digits hdigits hc, ← hn, Int64.ofInt_toInt]
      simp [hc]
  · rw [leaf, heq]
    simp [readInt, ← hn, Int64.ofInt_toInt]

theorem readTy_name : ∀ ty : Ty, readTy ty.name.toList = ty
  | .primitive p => by cases p <;> rfl
  | .array element => by
      rw [Ty.name, String.toList_append]
      exact congrArg Ty.array (readTy_name element)

end Words

/-! ## Rows of names and types -/

theorem namesOf_words (names : List String) : namesOf (words names) = names := by
  induction names with
  | nil => rfl
  | cons name names ih => exact congrArg (name :: ·) ih

theorem filter_ty : ∀ ty : Ty, ty.name.toList.filter (· != ',') = ty.name.toList
  | .primitive p => by cases p <;> rfl
  | .array element => by
      rw [Ty.name, String.toList_append, List.filter_append, filter_ty element]
      rfl

theorem paramsOf_paramForms : ∀ {params : List Param}, params.all Param.isPlain = true →
    paramsOf (paramForms params) = params
  | [], _ => rfl
  | [p], h => by
      simp only [List.all_cons, List.all_nil, Bool.and_true] at h
      rw [paramForms, paramsOf, typedName?_colon h, filter_ty, readTy_name]
      rfl
  | p :: q :: params, h => by
      rw [List.all_cons, Bool.and_eq_true] at h
      rw [paramForms, paramsOf, paramsOf_paramForms h.2, typedName?_colon h.1,
        String.toList_append, List.filter_append, filter_ty]
      exact congrArg (fun ty => Param.mk p.name ty :: q :: params)
        ((congrArg readTy (List.append_nil _)).trans (readTy_name p.ty))

theorem resultOf_resultForms (result : Option Ty) (statements : List Form) :
    resultOf (resultForms result ++ [blockForm statements]) = result := by
  cases result with
  | none => rfl
  | some ty => exact congrArg some (readTy_name ty)

end SurfaceLanguage.Tree
