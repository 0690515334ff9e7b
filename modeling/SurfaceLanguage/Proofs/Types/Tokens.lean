import SurfaceLanguage.Proofs.Lexing.Brackets
import SurfaceLanguage.Proofs.Lexing.WordTables

/-!
# Names of types as tokens

The name of a type is a source. Each array marker is cut into its two brackets, for
neither of them goes on to a longer symbol, and the name of the primitive behind the
markers is a word of no reserved meaning. The tokens therefore show how deep the arrays
go and what they hold, and the type can be built from them again.
-/
namespace SurfaceLanguage

namespace Ty

/-- How many arrays stand around the primitive. -/
def depth : Ty → Nat
  | .primitive _ => 0
  | .array element => element.depth + 1

def innermost : Ty → PrimitiveType
  | .primitive p => p
  | .array element => element.innermost

/-- A primitive within a number of arrays. -/
def nested (p : PrimitiveType) : Nat → Ty
  | 0 => .primitive p
  | n + 1 => .array (nested p n)

theorem nested_innermost_depth (t : Ty) : nested t.innermost t.depth = t := by
  induction t with
  | primitive p => rfl
  | array element ih => exact congrArg Ty.array ih

end Ty

namespace Lexing

def openSquare : Piece := ⟨.symbol .leftBracket, ['[']⟩

def closeSquare : Piece := ⟨.symbol .rightBracket, [']']⟩

theorem fits_openSquare (rest : List Char) : openSquare.Fits rest :=
  fits_bracket (by decide) (by decide) rest

theorem fits_closeSquare (rest : List Char) : closeSquare.Fits rest :=
  fits_bracket (by decide) (by decide) rest

/-- The pieces of array markers in a row. -/
def markerPieces : Nat → List Piece
  | 0 => []
  | n + 1 => openSquare :: closeSquare :: markerPieces n

/-- The kinds of the tokens of array markers in a row. -/
def markerKinds (n : Nat) : List TokenKind :=
  (List.replicate n [.symbol .leftBracket, .symbol .rightBracket]).flatten

theorem markerKinds_succ (n : Nat) :
    markerKinds (n + 1) = .symbol .leftBracket :: .symbol .rightBracket :: markerKinds n := by
  rw [markerKinds, List.replicate_succ, List.flatten_cons]
  rfl

theorem count_markerKinds (n : Nat) : (markerKinds n).count (.symbol .leftBracket) = n := by
  induction n with
  | zero => rfl
  | succ n ih => simp [markerKinds_succ, ih]

theorem kindsOf_markerPieces (n : Nat) : kindsOf (markerPieces n) = markerKinds n := by
  induction n with
  | zero => rfl
  | succ n ih =>
    rw [markerKinds_succ, ← ih]
    rfl

theorem length_markerPieces (n : Nat) : (textOf (markerPieces n)).length = 2 * n := by
  induction n with
  | zero => rfl
  | succ n ih =>
    simp only [markerPieces, textOf_cons, List.length_append, ih, openSquare, closeSquare,
      List.length_singleton]
    omega

/-- The piece of the primitive at the end of a name. -/
def primitivePiece (p : PrimitiveType) : Piece := ⟨.word, p.name.toList⟩

theorem fits_primitivePiece (p : PrimitiveType) : (primitivePiece p).Fits [] :=
  ⟨isWord_iff.1 (isWord_of_ofName? p.ofName?_name), Piece.stops_nil _⟩

theorem kind?_primitivePiece (p : PrimitiveType) :
    (primitivePiece p).kind? = some .identifier := by
  rw [Piece.kind?, primitivePiece, String.ofList_toList, ofWord_of_ofName? p.ofName?_name]

theorem cuts_name (t : Ty) :
    Cuts t.name.toList (markerPieces t.depth ++ [primitivePiece t.innermost]) [] := by
  induction t with
  | primitive p =>
    have hcuts := Cuts.cons_of_fits (fits_primitivePiece p) (.nil [])
    rwa [List.append_nil] at hcuts
  | array element ih =>
    have hname : (Ty.array element).name.toList =
        openSquare.text ++ (closeSquare.text ++ element.name.toList) := by
      rw [Ty.name, String.toList_append]
      rfl
    rw [hname]
    exact .cons_of_fits (fits_openSquare _) (.cons_of_fits (fits_closeSquare _) ih)

/-- The name of a type is lexed into two brackets for each of its arrays, a name that
stands for its primitive, and the end right behind it. So the type is the primitive in
as many arrays as there are opening brackets. -/
theorem lex_type_name (t : Ty) :
    ∃ markers name eof, lex t.name = .ok (markers ++ [name, eof]) ∧
      markers.map Token.kind =
        (List.replicate t.depth [.symbol .leftBracket, .symbol .rightBracket]).flatten ∧
      name.kind = .identifier ∧ PrimitiveType.ofName? name.lexeme = some t.innermost ∧
      eof.kind = .eof ∧
      eof.span.start = 2 * t.depth + t.innermost.name.length ∧
      eof.span.stop = 2 * t.depth + t.innermost.name.length ∧
      Ty.nested t.innermost
        (((markers ++ [name, eof]).map Token.kind).count (.symbol .leftBracket)) = t := by
  have hcuts := cuts_name t
  have hlex := lex_of_cuts hcuts
  rw [stream, streamFrom_append, streamFrom_of_token (kind?_primitivePiece t.innermost)] at hlex
  have hkinds : (placed .start (markerPieces t.depth)).map Token.kind = markerKinds t.depth := by
    rw [map_kind_placed, kindsOf_markerPieces]
  have hstop : (Position.start.afterAll
      (markerPieces t.depth ++ [primitivePiece t.innermost])).offset =
        2 * t.depth + t.innermost.name.length := by
    rw [Position.offset_afterAll _ hcuts.wellShaped, textOf_append, List.length_append,
      length_markerPieces]
    simp [Position.start, primitivePiece, String.length_toList]
  rw [Position.afterAll_concat] at hstop
  refine ⟨_, _, _, hlex, hkinds, rfl, ?_, rfl, hstop, hstop, ?_⟩
  · have hlexeme : String.ofList t.innermost.name.toList = t.innermost.name := String.ofList_toList
    exact (congrArg PrimitiveType.ofName? hlexeme).trans t.innermost.ofName?_name
  · rw [List.map_append, hkinds, List.count_append, count_markerKinds]
    exact t.nested_innermost_depth

end Lexing
end SurfaceLanguage
