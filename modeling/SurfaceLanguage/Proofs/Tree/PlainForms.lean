import SurfaceLanguage.Proofs.Tree.Legible
import SurfaceLanguage.Proofs.Tree.Plain

/-!
# The forms of plain trees

Every word that a plain tree prints is bare, except the strings, which stand in
quotes. Hence its forms are legible, and two plain trees with one text have the
same forms.
-/
namespace SurfaceLanguage.Tree
open Form Lexing

def isBareWord (text : String) : Bool := text != "" && text.toList.all isBare

theorem isAtom_of_bareWord {text : String} (h : isBareWord text = true) :
    IsAtom text.toList := by
  simp only [isBareWord, Bool.and_eq_true, bne_iff_ne, List.all_eq_true] at h
  exact .bare (fun hnil => h.1 (String.toList_eq_nil_iff.1 hnil)) h.2

theorem isBareWord_append {text sign : String} (h : isBareWord text = true)
    (hsign : sign.toList.all isBare = true) : isBareWord (text ++ sign) = true := by
  simp only [isBareWord, Bool.and_eq_true, bne_iff_ne] at h ⊢
  refine ⟨fun hnil => h.1 (String.append_eq_empty_iff.1 hnil).1, ?_⟩
  rw [String.toList_append, List.all_append, h.2, hsign]
  rfl

theorem isBare_of_wordPart {c : Char} (h : isWordPart c = true) : isBare c = true := by
  have hne : ∀ d, isWordPart d = false → c ≠ d := by
    rintro d hd rfl
    rw [h] at hd
    cases hd
  simp only [isBare, Bool.and_eq_true, bne_iff_ne]
  exact ⟨⟨⟨hne ' ' rfl, hne '(' rfl⟩, hne ')' rfl⟩, hne '"' rfl⟩

theorem isName_letters {text : String} (h : isName text = true) :
    ∃ c rest, text.toList = c :: rest ∧ isWordStart c = true ∧
      (∀ d ∈ rest, isWordPart d = true) ∧ Keyword.ofString? text = none := by
  unfold isName at h
  split at h
  next => cases h
  next c rest heq =>
    simp only [Bool.and_eq_true, List.all_eq_true, Option.isNone_iff_eq_none] at h
    exact ⟨c, rest, heq, h.1.1, h.1.2, h.2⟩

theorem isBareWord_name {text : String} (h : isName text = true) : isBareWord text = true := by
  obtain ⟨c, rest, heq, hc, hrest, -⟩ := isName_letters h
  simp only [isBareWord, Bool.and_eq_true, bne_iff_ne, heq, List.all_cons, List.all_eq_true]
  refine ⟨?_, isBare_of_wordPart (isWordPart_of_wordStart hc), fun d hd =>
    isBare_of_wordPart (hrest d hd)⟩
  rintro rfl
  cases heq

theorem isBareWord_operator {text : String} (h : isOperator text = true) :
    isBareWord text = true := by
  simp only [isOperator, Bool.or_eq_true, Bool.and_eq_true] at h
  rcases h with hword | ⟨⟨hne, -⟩, hsigns⟩
  · have hwords : ∀ word ∈ wordOperators, isBareWord word = true := by decide
    exact hwords text (List.contains_iff_mem.1 hword)
  · have hall : operatorSigns.all isBare = true := rfl
    simp only [isBareWord, hne, Bool.true_and, List.all_eq_true] at hsigns hall ⊢
    exact fun c hc => hall c (List.contains_iff_mem.1 (hsigns c hc))

theorem isBareWord_ty : ∀ ty : Ty, isBareWord ty.name = true
  | .primitive p => by cases p <;> rfl
  | .array element => by
      have htail := isBareWord_ty element
      simp only [isBareWord, Bool.and_eq_true, bne_iff_ne] at htail ⊢
      refine ⟨fun hnil => htail.1 (String.append_eq_empty_iff.1 hnil).2, ?_⟩
      rw [Ty.name, String.toList_append, List.all_append, htail.2]
      rfl

theorem writtenInt_letters (n : Int64) : ∃ m : ℕ,
    (n.toInt = m ∧ (Number.writtenInt n).toList = Nat.toDigits 10 m) ∨
      (n.toInt = -m ∧ (Number.writtenInt n).toList = '-' :: Nat.toDigits 10 m) := by
  rw [Number.writtenInt, Int.toString_eq_repr, Int.repr_eq_if]
  split
  next hsign => exact ⟨n.toInt.toNat, .inl ⟨by omega, Nat.toList_repr⟩⟩
  next hsign =>
    exact ⟨(-n.toInt).toNat, .inr ⟨by omega, by rw [String.toList_append, Nat.toList_repr]; rfl⟩⟩

theorem isBare_of_digit {m : ℕ} {c : Char} (h : c ∈ Nat.toDigits 10 m) : isBare c = true := by
  apply isBare_of_wordPart
  simp [isWordPart, Char.isAlphanum, Nat.isDigit_of_mem_toDigits (by decide) (by decide) h]

theorem isAtom_int (n : Int64) : IsAtom (Number.writtenInt n).toList := by
  obtain ⟨m, ⟨-, heq⟩ | ⟨-, heq⟩⟩ := writtenInt_letters n
  · rw [heq]
    exact .bare Nat.toDigits_ne_nil fun c hc => isBare_of_digit hc
  · rw [heq]
    refine .bare (List.cons_ne_nil _ _) ?_
    rintro c (_ | ⟨_, hc⟩)
    · rfl
    · exact isBare_of_digit hc

theorem isAtom_string {value : String} (h : '"' ∉ value.toList) :
    IsAtom ("\"" ++ value ++ "\"").toList := by
  simpa using IsAtom.quoted h

section Rows
variable {tag : String} {parts : List Form}

theorem allLegible_append {fs gs : List Form} :
    AllLegible (fs ++ gs) ↔ AllLegible fs ∧ AllLegible gs := by
  induction fs with
  | nil => simp [AllLegible]
  | cons f fs ih => simp only [List.cons_append, AllLegible, ih, and_assoc]

theorem legible_word (h : isBareWord tag = true) : (Form.word tag).Legible :=
  isAtom_of_bareWord h

theorem allLegible_words {texts : List String} (h : ∀ text ∈ texts, isBareWord text = true) :
    AllLegible (words texts) := by
  induction texts with
  | nil => trivial
  | cons text texts ih =>
    exact ⟨legible_word (h text List.mem_cons_self), ih fun t ht => h t (List.mem_cons_of_mem _ ht)⟩

theorem legible_tagged (htag : isBareWord tag = true) (hparts : AllLegible parts) :
    (tagged tag parts).Legible :=
  ⟨legible_word htag, hparts⟩

end Rows

theorem allLegible_names {names : List String} (h : names.all isName = true) :
    AllLegible (words names) :=
  allLegible_words fun name hname => isBareWord_name (List.all_eq_true.1 h name hname)

theorem isBareWord_colon {name : String} (h : isName name = true) :
    isBareWord (name ++ ":") = true :=
  isBareWord_append (isBareWord_name h) rfl

theorem allLegible_typedName {name : String} (h : isName name = true) :
    ∀ declared : Option Ty, AllLegible (typedName name declared)
  | none => ⟨legible_word (isBareWord_name h), trivial⟩
  | some ty => ⟨legible_word (isBareWord_colon h), legible_word (isBareWord_ty ty), trivial⟩

theorem allLegible_paramForms : ∀ {params : List Param}, params.all Param.isPlain = true →
    AllLegible (paramForms params)
  | [], _ => trivial
  | [p], h => by
      simp only [List.all_cons, List.all_nil, Bool.and_true] at h
      exact allLegible_typedName h (some p.ty)
  | p :: q :: params, h => by
      rw [List.all_cons, Bool.and_eq_true] at h
      exact ⟨legible_word (isBareWord_colon h.1),
        legible_word (isBareWord_append (isBareWord_ty p.ty) rfl), allLegible_paramForms h.2⟩

theorem legible_params {params : List Param} (h : params.all Param.isPlain = true) :
    (Form.group (paramForms params)).Legible :=
  allLegible_paramForms h

theorem allLegible_visibility (visibility : Visibility) :
    AllLegible (visibilityWords visibility) := by
  cases visibility with
  | unspecified => trivial
  | publicAccess => exact ⟨legible_word rfl, trivial⟩
  | protectedAccess => exact ⟨legible_word rfl, trivial⟩
  | privateAccess => exact ⟨legible_word rfl, trivial⟩

theorem allLegible_flag (isSet : Bool) (text : String) (h : isBareWord text = true) :
    AllLegible (flagWord isSet text) := by
  cases isSet with
  | false => trivial
  | true => exact ⟨legible_word h, trivial⟩

theorem allLegible_orUnderscore {parts : List Form} (h : AllLegible parts) :
    AllLegible (orUnderscore parts) := by
  unfold orUnderscore
  split
  · exact ⟨legible_word rfl, trivial⟩
  · exact h

theorem allLegible_catch {parts : List Form} (h : AllLegible parts) :
    AllLegible (catchForms parts) := by
  unfold catchForms
  split
  · trivial
  · exact ⟨legible_tagged rfl h, trivial⟩

theorem allLegible_result : ∀ result : Option Ty, AllLegible (resultForms result)
  | none => trivial
  | some ty => ⟨legible_word rfl, legible_word (isBareWord_ty ty), trivial⟩

theorem allLegible_extends {superclass : Option String}
    (h : superclass.toList.all isName = true) : AllLegible (extendsForms superclass) := by
  cases superclass with
  | none => trivial
  | some name =>
    simp only [Option.toList_some, List.all_cons, List.all_nil, Bool.and_true] at h
    exact ⟨legible_word rfl, legible_word (isBareWord_name h), trivial⟩

/-- A clause that is a block under a word of its own. -/
theorem allLegible_clause {tag : String} (htag : isBareWord tag = true) {blocks : List Form}
    (h : AllLegible blocks) : AllLegible (blocks.map (tagged tag [·])) := by
  induction blocks with
  | nil => trivial
  | cons block blocks ih => exact ⟨legible_tagged htag ⟨h.1, trivial⟩, ih h.2⟩

mutual

theorem Expr.legible : ∀ e : Expr, e.isPlain = true → AllLegible e.forms
  | .intLit value, _ => ⟨isAtom_int value, trivial⟩
  | .stringLit value, h => by
      simp only [Expr.isPlain, Bool.not_eq_true', List.contains_eq_mem,
        decide_eq_false_iff_not] at h
      exact ⟨isAtom_string h, trivial⟩
  | .boolLit true, _ | .boolLit false, _ | .thisRef, _ => ⟨legible_word rfl, trivial⟩
  | .array elements, h => ⟨legible_tagged rfl (Expr.allLegible elements h), trivial⟩
  | .assign name value, h => by
      rw [Expr.isPlain, Bool.and_eq_true] at h
      exact ⟨legible_tagged rfl ⟨legible_word (isBareWord_name h.1), value.legible h.2⟩, trivial⟩
  | .binary left operator right, h | .logical left operator right, h => by
      simp only [Expr.isPlain, Bool.and_eq_true] at h
      exact ⟨legible_tagged (isBareWord_operator h.1.2)
        (allLegible_append.2 ⟨left.legible h.1.1, right.legible h.2⟩), trivial⟩
  | .call callee arguments, h => by
      rw [Expr.isPlain, Bool.and_eq_true] at h
      exact ⟨legible_tagged rfl
        (allLegible_append.2 ⟨callee.legible h.1, Expr.allLegible arguments h.2⟩), trivial⟩
  | .grouping inner, h => ⟨legible_tagged rfl (inner.legible h), trivial⟩
  | .instanceOf object ty, h => ⟨legible_tagged rfl
      (allLegible_append.2 ⟨object.legible h, legible_word (isBareWord_ty ty), trivial⟩), trivial⟩
  | .lambda params body, h => by
      rw [Expr.isPlain, Bool.and_eq_true] at h
      exact ⟨legible_tagged rfl ⟨allLegible_names h.1, body.legible h.2⟩, trivial⟩
  | .newObject className arguments, h => by
      rw [Expr.isPlain, Bool.and_eq_true] at h
      exact ⟨legible_tagged rfl
        ⟨legible_word (isBareWord_name h.1), Expr.allLegible arguments h.2⟩, trivial⟩
  | .postUnary operand operator, h => by
      rw [Expr.isPlain, Bool.and_eq_true] at h
      exact ⟨legible_tagged rfl
        ⟨legible_word (isBareWord_operator h.2), operand.legible h.1⟩, trivial⟩
  | .superRef method, h => ⟨legible_tagged rfl (method.legible h), trivial⟩
  | .unary operator right, h => by
      rw [Expr.isPlain, Bool.and_eq_true] at h
      exact ⟨legible_tagged (isBareWord_operator h.1) (right.legible h.2), trivial⟩
  | .variable _ declared, h => allLegible_typedName h declared
  | .member object property, h => by
      rw [Expr.isPlain, Bool.and_eq_true] at h
      exact ⟨legible_tagged rfl (allLegible_append.2
        ⟨object.legible h.1, legible_word (isBareWord_name h.2), trivial⟩), trivial⟩
  | .identifier _, h => ⟨legible_word (isBareWord_name h), trivial⟩

theorem Expr.allLegible : ∀ exprs : List Expr, Expr.allPlain exprs = true →
    AllLegible (Expr.allForms exprs)
  | [], _ => trivial
  | e :: exprs, h => by
      rw [Expr.allPlain, Bool.and_eq_true] at h
      exact allLegible_append.2 ⟨e.legible h.1, Expr.allLegible exprs h.2⟩

end

theorem Expr.optionalLegible {value : Option Expr} (h : Expr.optionalPlain value = true) :
    AllLegible (Expr.optionalForms value) := by
  cases value with
  | none => trivial
  | some e => exact e.legible h

theorem allLegible_binding {name : String} (declared : Option Ty) {value : Option Expr}
    (h : (isName name && Expr.optionalPlain value) = true) :
    AllLegible (bindingForms name declared value) := by
  rw [Bool.and_eq_true] at h
  refine allLegible_append.2 ⟨allLegible_typedName h.1 declared, ?_⟩
  cases value with
  | none => trivial
  | some e => exact ⟨legible_word rfl, e.legible h.2⟩

/-- A declaration that opens with its visibility, its word and its name. -/
theorem legible_declaration (visibility : Visibility) {tag name : String} {parts : List Form}
    (htag : isBareWord tag = true) (hname : isName name = true) (hparts : AllLegible parts) :
    (Form.group (visibilityWords visibility ++ .word tag :: .word name :: parts)).Legible :=
  allLegible_append.2 ⟨allLegible_visibility visibility, legible_word htag,
    legible_word (isBareWord_name hname), hparts⟩

mutual

theorem Stmt.legible : ∀ s : Stmt, s.isPlain = true → s.form.Legible
  | .block statements, h => legible_tagged rfl (Stmt.allLegible statements h)
  | .breakStmt, _ | .continueStmt, _ => legible_tagged rfl trivial
  | .expression inner, h => legible_tagged rfl (inner.legible h)
  | .returnStmt _, h => legible_tagged rfl (Expr.optionalLegible h)
  | .throwStmt value, h => legible_tagged rfl (value.legible h)
  | .tryStmt body caught handler final, h => by
      simp only [Stmt.isPlain, Bool.and_eq_true] at h
      obtain ⟨⟨⟨hbody, hcaught⟩, hhandler⟩, hfinal⟩ := h
      exact legible_tagged rfl ⟨legible_tagged rfl (Stmt.allLegible body hbody),
        allLegible_append.2 ⟨allLegible_catch (allLegible_append.2
          ⟨allLegible_names hcaught, Stmt.blockLegible handler hhandler⟩),
          allLegible_clause rfl (Stmt.blockLegible final hfinal)⟩⟩
  | .ifStmt condition body otherwise, h => by
      simp only [Stmt.isPlain, Bool.and_eq_true] at h
      obtain ⟨⟨hcondition, hbody⟩, hotherwise⟩ := h
      exact legible_tagged rfl (allLegible_append.2 ⟨condition.legible hcondition,
        legible_tagged rfl (Stmt.allLegible body hbody),
        allLegible_clause rfl (Stmt.optionalLegible otherwise hotherwise)⟩)
  | .whileStmt condition body, h => by
      rw [Stmt.isPlain, Bool.and_eq_true] at h
      exact legible_tagged rfl (allLegible_append.2 ⟨condition.legible h.1,
        legible_tagged rfl (Stmt.allLegible body h.2), trivial⟩)
  | .forStmt init condition post body, h => by
      simp only [Stmt.isPlain, Bool.and_eq_true] at h
      obtain ⟨⟨⟨⟨hinit, hcondition⟩, -⟩, hpost⟩, hbody⟩ := h
      have hclauses := allLegible_append.2
        ⟨allLegible_append.2 ⟨allLegible_orUnderscore (Stmt.optionalLegible init hinit),
          allLegible_orUnderscore (Expr.optionalLegible hcondition)⟩,
          allLegible_orUnderscore (Stmt.optionalLegible post hpost)⟩
      exact legible_tagged rfl (allLegible_append.2
        ⟨hclauses, legible_tagged rfl (Stmt.allLegible body hbody), trivial⟩)
  | .switchStmt scrutinee cases otherwise, h => by
      simp only [Stmt.isPlain, Bool.and_eq_true] at h
      obtain ⟨⟨hscrutinee, hcases⟩, hotherwise⟩ := h
      exact legible_tagged rfl (allLegible_append.2
        ⟨allLegible_append.2 ⟨scrutinee.legible hscrutinee, SwitchCase.allLegible cases hcases⟩,
          allLegible_clause rfl (Stmt.blockLegible otherwise hotherwise)⟩)
  | .valDecl visibility _ declared _, h | .letDecl visibility _ declared _, h =>
      allLegible_append.2
        ⟨allLegible_visibility visibility, legible_word rfl, allLegible_binding declared h⟩
  | .globalDecl _ declared _, h => legible_tagged rfl (allLegible_binding declared h)
  | .functionDecl visibility isOverride isAsync name params result body, h => by
      simp only [Stmt.isPlain, Bool.and_eq_true] at h
      obtain ⟨⟨hname, hparams⟩, hbody⟩ := h
      have hmarks := allLegible_append.2
        ⟨allLegible_append.2 ⟨allLegible_visibility visibility,
          allLegible_flag isOverride "override" rfl⟩, allLegible_flag isAsync "async" rfl⟩
      exact allLegible_append.2 ⟨hmarks, legible_word rfl, legible_word (isBareWord_name hname),
        legible_params hparams, allLegible_append.2 ⟨allLegible_result result,
          legible_tagged rfl (Stmt.allLegible body hbody), trivial⟩⟩
  | .classDecl visibility name superclass members, h => by
      simp only [Stmt.isPlain, Bool.and_eq_true] at h
      exact legible_declaration visibility rfl h.1.1 (allLegible_append.2
        ⟨allLegible_extends h.1.2, Stmt.allLegible members h.2⟩)
  | .constructorDecl params body, h => by
      rw [Stmt.isPlain, Bool.and_eq_true] at h
      exact legible_tagged rfl ⟨legible_params h.1,
        legible_tagged rfl (Stmt.allLegible body h.2), trivial⟩
  | .interfaceDecl visibility _ members, h | .structDecl visibility _ members, h => by
      rw [Stmt.isPlain, Bool.and_eq_true] at h
      exact legible_declaration visibility rfl h.1 (Stmt.allLegible members h.2)
  | .enumDecl visibility name elements, h => by
      rw [Stmt.isPlain, Bool.and_eq_true] at h
      exact legible_declaration visibility rfl h.1 (allLegible_names h.2)
  | .dataDecl visibility name fields, h => by
      rw [Stmt.isPlain, Bool.and_eq_true] at h
      exact legible_declaration visibility rfl h.1 ⟨legible_params h.2, trivial⟩
  | .importDecl _, h | .exportDecl _, h =>
      legible_tagged rfl ⟨legible_word (isBareWord_name h), trivial⟩

theorem Stmt.allLegible : ∀ statements : List Stmt, Stmt.allPlain statements = true →
    AllLegible (Stmt.allForms statements)
  | [], _ => trivial
  | s :: statements, h => by
      rw [Stmt.allPlain, Bool.and_eq_true] at h
      exact ⟨s.legible h.1, Stmt.allLegible statements h.2⟩

theorem Stmt.optionalLegible : ∀ value : Option Stmt, Stmt.optionalPlain value = true →
    AllLegible (Stmt.optionalForm value)
  | none, _ => trivial
  | some s, h => ⟨s.legible h, trivial⟩

theorem Stmt.blockLegible : ∀ value : Option (List Stmt), Stmt.blockPlain value = true →
    AllLegible (Stmt.optionalBlock value)
  | none, _ => trivial
  | some statements, h => ⟨legible_tagged rfl (Stmt.allLegible statements h), trivial⟩

theorem SwitchCase.legible : ∀ c : SwitchCase, c.isPlain = true → c.form.Legible
  | .mk first others body, h => by
      simp only [SwitchCase.isPlain, Bool.and_eq_true] at h
      obtain ⟨⟨hfirst, hothers⟩, hbody⟩ := h
      exact legible_tagged rfl (allLegible_append.2
        ⟨allLegible_append.2 ⟨first.legible hfirst, Expr.allLegible others hothers⟩,
          legible_tagged rfl (Stmt.allLegible body hbody), trivial⟩)

theorem SwitchCase.allLegible : ∀ cases : List SwitchCase, SwitchCase.allPlain cases = true →
    AllLegible (SwitchCase.allForms cases)
  | [], _ => trivial
  | c :: cases, h => by
      rw [SwitchCase.allPlain, Bool.and_eq_true] at h
      exact ⟨c.legible h.1, SwitchCase.allLegible cases h.2⟩

end

/-- A plain expression's text determines its forms. -/
theorem Expr.forms_eq_of_print {a b : Expr} (ha : a.isPlain = true) (hb : b.isPlain = true)
    (h : a.print = b.print) : a.forms = b.forms :=
  Form.renderAll_inj (a.legible ha) (b.legible hb) h

theorem Stmt.form_eq_of_print {a b : Stmt} (ha : a.isPlain = true) (hb : b.isPlain = true)
    (h : a.print = b.print) : a.form = b.form :=
  Form.render_inj (a.legible ha) (b.legible hb) h

end SurfaceLanguage.Tree
