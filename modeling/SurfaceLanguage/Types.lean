/-!
# Types

A type is a primitive or an array of a type. It is written front to back: one
array marker for each level, then the name of the primitive.
-/
namespace SurfaceLanguage

inductive PrimitiveType where
  | int
  | string
  | float
  | bool
  | any
deriving DecidableEq, Repr

namespace PrimitiveType

def all : List PrimitiveType := [.int, .string, .float, .bool, .any]

def name : PrimitiveType → String
  | .int => "Int"
  | .string => "String"
  | .float => "Float"
  | .bool => "Bool"
  | .any => "Any"

def ofName? (text : String) : Option PrimitiveType := all.find? (·.name == text)

theorem ofName?_name (p : PrimitiveType) : ofName? p.name = some p := by cases p <;> rfl

theorem name_of_ofName? {text : String} {p : PrimitiveType} (h : ofName? text = some p) :
    p.name = text := by
  simpa using List.find?_some h

end PrimitiveType

inductive Ty where
  | primitive (p : PrimitiveType)
  | array (element : Ty)
deriving DecidableEq, Repr

namespace Ty

/-- Stands in front of the type of an array's elements. -/
def arrayMarker : String := "[]"

def name : Ty → String
  | .primitive p => p.name
  | .array element => arrayMarker ++ element.name

/-- The type of an array's elements. A primitive has none. -/
def element? : Ty → Option Ty
  | .primitive _ => none
  | .array element => some element

end Ty
end SurfaceLanguage
