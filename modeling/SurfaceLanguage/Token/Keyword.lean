/-!
# Reserved words

A reserved word is a word of the language that cannot serve as a name. Each has
one spelling, in lower case, by which a text is recognised, and one name, under
which diagnostics speak of it. The two tables are kept apart: the first belongs
to the lexical grammar, the second to the reports.
-/
namespace SurfaceLanguage

/-- Grouped by use: declarations, control flow, functions, literals, bindings,
word operators, exceptions, selection. -/
inductive Keyword where
  | classKw | interfaceKw | extendsKw | importKw | exportKw | enumKw | structKw | publicKw
  | protectedKw | privateKw | overrideKw | thisKw | newKw | superKw | constructorKw | dataKw
  | instanceofKw
  | ifKw | elseKw | elifKw | whileKw | forKw | breakKw | continueKw
  | asyncKw | awaitKw | funKw | returnKw
  | trueKw | falseKw | nilKw
  | letKw | valKw | globalKw
  | andKw | orKw | notKw | isKw | inKw | ofKw
  | tryKw | catchKw | finallyKw | throwKw
  | turnKw | caseKw | defaultKw
deriving DecidableEq, Repr

namespace Keyword

def all : List Keyword :=
  [.classKw, .interfaceKw, .extendsKw, .importKw, .exportKw, .enumKw, .structKw, .publicKw,
   .protectedKw, .privateKw, .overrideKw, .thisKw, .newKw, .superKw, .constructorKw, .dataKw,
   .instanceofKw, .ifKw, .elseKw, .elifKw, .whileKw, .forKw, .breakKw, .continueKw, .asyncKw,
   .awaitKw, .funKw, .returnKw, .trueKw, .falseKw, .nilKw, .letKw, .valKw, .globalKw, .andKw,
   .orKw, .notKw, .isKw, .inKw, .ofKw, .tryKw, .catchKw, .finallyKw, .throwKw, .turnKw,
   .caseKw, .defaultKw]

/-- The text of the word, exactly as a source writes it. -/
def spelling : Keyword → String
  | .classKw => "class"
  | .interfaceKw => "interface"
  | .extendsKw => "extends"
  | .importKw => "import"
  | .exportKw => "export"
  | .enumKw => "enum"
  | .structKw => "struct"
  | .publicKw => "public"
  | .protectedKw => "protected"
  | .privateKw => "private"
  | .overrideKw => "override"
  | .thisKw => "this"
  | .newKw => "new"
  | .superKw => "super"
  | .constructorKw => "constructor"
  | .dataKw => "data"
  | .instanceofKw => "instanceof"
  | .ifKw => "if"
  | .elseKw => "else"
  | .elifKw => "elif"
  | .whileKw => "while"
  | .forKw => "for"
  | .breakKw => "break"
  | .continueKw => "continue"
  | .asyncKw => "async"
  | .awaitKw => "await"
  | .funKw => "fun"
  | .returnKw => "return"
  | .trueKw => "true"
  | .falseKw => "false"
  | .nilKw => "nil"
  | .letKw => "let"
  | .valKw => "val"
  | .globalKw => "global"
  | .andKw => "and"
  | .orKw => "or"
  | .notKw => "not"
  | .isKw => "is"
  | .inKw => "in"
  | .ofKw => "of"
  | .tryKw => "try"
  | .catchKw => "catch"
  | .finallyKw => "finally"
  | .throwKw => "throw"
  | .turnKw => "turn"
  | .caseKw => "case"
  | .defaultKw => "default"

/-- The name used in reports. -/
def name : Keyword → String
  | .classKw => "CLASS"
  | .interfaceKw => "INTERFACE"
  | .extendsKw => "EXTENDS"
  | .importKw => "IMPORT"
  | .exportKw => "EXPORT"
  | .enumKw => "ENUM"
  | .structKw => "STRUCT"
  | .publicKw => "PUBLIC"
  | .protectedKw => "PROTECTED"
  | .privateKw => "PRIVATE"
  | .overrideKw => "OVERRIDE"
  | .thisKw => "THIS"
  | .newKw => "NEW"
  | .superKw => "SUPER"
  | .constructorKw => "CONSTRUCTOR"
  | .dataKw => "DATA"
  | .instanceofKw => "INSTANCEOF"
  | .ifKw => "IF"
  | .elseKw => "ELSE"
  | .elifKw => "ELIF"
  | .whileKw => "WHILE"
  | .forKw => "FOR"
  | .breakKw => "BREAK"
  | .continueKw => "CONTINUE"
  | .asyncKw => "ASYNC"
  | .awaitKw => "AWAIT"
  | .funKw => "FUN"
  | .returnKw => "RETURN"
  | .trueKw => "TRUE"
  | .falseKw => "FALSE"
  | .nilKw => "NIL"
  | .letKw => "LET"
  | .valKw => "VAL"
  | .globalKw => "GLOBAL"
  | .andKw => "AND"
  | .orKw => "OR"
  | .notKw => "NOT"
  | .isKw => "IS"
  | .inKw => "IN"
  | .ofKw => "OF"
  | .tryKw => "TRY"
  | .catchKw => "CATCH"
  | .finallyKw => "FINALLY"
  | .throwKw => "THROW"
  | .turnKw => "TURN"
  | .caseKw => "CASE"
  | .defaultKw => "DEFAULT"

/-- Looks a text up among the spellings. Case matters, and so does every letter. -/
def ofString? (text : String) : Option Keyword := all.find? (·.spelling == text)

theorem mem_all (k : Keyword) : k ∈ all := by cases k <;> decide

theorem ofString?_spelling (k : Keyword) : ofString? k.spelling = some k := by
  cases k <;> rfl

theorem spelling_of_ofString? {text : String} {k : Keyword} (h : ofString? text = some k) :
    k.spelling = text := by
  simpa using List.find?_some h

end Keyword
end SurfaceLanguage
