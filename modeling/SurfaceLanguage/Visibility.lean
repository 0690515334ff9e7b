import SurfaceLanguage.Token.Basic

/-!
# Visibility

A declaration may say who sees it. Saying nothing is a choice of its own, and is
also how every text and every kind of token other than the three words is read.
-/
namespace SurfaceLanguage

inductive Visibility where
  | unspecified
  | publicAccess
  | protectedAccess
  | privateAccess
deriving DecidableEq, Repr

namespace Visibility

instance : Inhabited Visibility := ⟨.unspecified⟩

def ofKeyword : Keyword → Visibility
  | .publicKw => .publicAccess
  | .protectedKw => .protectedAccess
  | .privateKw => .privateAccess
  | _ => .unspecified

def ofTokenKind : TokenKind → Visibility
  | .keyword word => ofKeyword word
  | _ => .unspecified

def keyword? : Visibility → Option String
  | .unspecified => none
  | .publicAccess => some "public"
  | .protectedAccess => some "protected"
  | .privateAccess => some "private"

def all : List Visibility := [.unspecified, .publicAccess, .protectedAccess, .privateAccess]

/-- The visibility that a text spells. -/
def ofString (text : String) : Visibility :=
  (all.find? (·.keyword? == some text)).getD .unspecified

/-- The word, or `none` where nothing is said. -/
def display (v : Visibility) : String := v.keyword?.getD "none"

end Visibility
end SurfaceLanguage
