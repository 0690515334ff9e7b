import SurfaceLanguage.Proofs.Lexing.Positions
import SurfaceLanguage.Types
import SurfaceLanguage.Visibility

/-!
# Tables of words

Five tables speak of words: the spellings and the names of the reserved words, the
visibilities by text and by kind, and the names of the primitive types. The parts of a
program that hold a token ask some of them by its kind and some by its text. The main
statement is that both ways lead to the same answer for every token of every source. It
rests on the grammar: a text is of one shape only, so what is spelled like a word was read
as one.
-/
namespace SurfaceLanguage

/-- Reserved words are reported in capitals. -/
theorem Keyword.name_eq_toUpper (k : Keyword) : k.name = k.spelling.toUpper := by
  apply String.toList_inj.1
  rw [String.toUpper, String.toList_map]
  cases k <;> decide

/-- A visibility is read from the reserved word that a text spells, if it spells one. -/
theorem Visibility.ofString_eq (text : String) :
    Visibility.ofString text =
      ((Keyword.ofString? text).map Visibility.ofKeyword).getD .unspecified := by
  cases hkeyword : Keyword.ofString? text with
  | some k =>
    rw [← Keyword.spelling_of_ofString? hkeyword]
    cases k <;> rfl
  | none =>
    have hnone : all.find? (·.keyword? == some text) = none := by
      rw [List.find?_eq_none]
      intro v _ hv
      have hreserved : ∀ word ∈ v.keyword?, (Keyword.ofString? word).isSome = true := by
        cases v <;> decide
      have hsome := hreserved text (beq_iff_eq.1 hv)
      rw [hkeyword] at hsome
      cases hsome
    rw [Visibility.ofString, hnone]
    rfl

/-- Only a reserved word says who sees a declaration. -/
theorem Visibility.ofTokenKind_of_isKeyword {kind : TokenKind} (h : kind.isKeyword = false) :
    Visibility.ofTokenKind kind = .unspecified := by
  cases kind with
  | keyword => cases h
  | eof => rfl
  | identifier => rfl
  | number => rfl
  | string => rfl
  | symbol => rfl

namespace Lexing

/-- The words of the grammar, the reserved ones among them. -/
def isWord : List Char → Bool
  | [] => false
  | c :: rest => isWordStart c && rest.all isWordPart

theorem isWord_iff {text : List Char} : isWord text = true ↔ Shape.word.Accepts text := by
  rw [accepts_word_iff]
  constructor
  · intro h
    cases text with
    | nil => cases h
    | cons c rest =>
      rw [isWord, Bool.and_eq_true, List.all_eq_true] at h
      exact ⟨c, rest, h.1, h.2, rfl⟩
  · intro h
    obtain ⟨c, rest, hc, hrest, rfl⟩ := h
    rw [isWord, Bool.and_eq_true, List.all_eq_true]
    exact ⟨hc, hrest⟩

/-- The grammar is unambiguous. -/
theorem shape_unique {s u : Shape} {text : List Char} (hs : s.Accepts text)
    (hu : u.Accepts text) : s = u := by
  have hfirst : Piece.Fits ⟨s, text⟩ [] := ⟨hs, Piece.stops_nil _⟩
  have hsecond : Piece.Fits ⟨u, text⟩ [] := ⟨hu, Piece.stops_nil _⟩
  have hpiece := (hfirst.unique hsecond rfl).1
  exact (Piece.mk.inj hpiece).1

/-- What spells a word was read as one. -/
theorem shape_eq_word {p : Piece} (h : p.shape.Accepts p.text) (hword : isWord p.text = true) :
    p.shape = .word :=
  shape_unique h (isWord_iff.1 hword)

theorem isWord_of_ofString? {text : String} {k : Keyword} (h : Keyword.ofString? text = some k) :
    isWord text.toList = true := by
  rw [← Keyword.spelling_of_ofString? h]
  cases k <;> decide

theorem isWord_of_ofName? {text : String} {p : PrimitiveType}
    (h : PrimitiveType.ofName? text = some p) : isWord text.toList = true := by
  rw [← PrimitiveType.name_of_ofName? h]
  cases p <;> decide

/-- The names of primitive types are not reserved. -/
theorem ofWord_of_ofName? {text : String} {p : PrimitiveType}
    (h : PrimitiveType.ofName? text = some p) : TokenKind.ofWord text = .identifier := by
  rw [← PrimitiveType.name_of_ofName? h]
  cases p <;> decide

/-- A token and the piece it was read from, or the end of the input. -/
theorem origin_of_mem_stream {pieces : List Piece} (h : WellShaped pieces) {t : Token}
    (ht : t ∈ stream pieces) :
    (t.kind = .eof ∧ t.lexeme = "") ∨
      ∃ p : Piece, p.shape.Accepts p.text ∧ p.kind? = some t.kind ∧
        t.lexeme = String.ofList p.text := by
  rcases List.mem_append.1 ht with ht | ht
  · obtain ⟨before, p, rest, kind, rfl, hkind, rfl⟩ := mem_placed ht
    have hmem : p ∈ before ++ p :: rest := by simp
    exact .inr ⟨p, h p hmem, hkind, rfl⟩
  · rw [List.mem_singleton.1 ht]
    exact .inl ⟨rfl, rfl⟩

/-- Only words become reserved words. -/
theorem isKeyword_of_piece {p : Piece} (h : p.shape ≠ .word) {kind : TokenKind}
    (hkind : p.kind? = some kind) : kind.isKeyword = false := by
  unfold Piece.kind? at hkind
  cases hshape : p.shape with
  | word => exact absurd hshape h
  | string | number | symbol =>
    rw [hshape] at hkind
    rw [← Option.some.inj hkind]
    rfl
  | blank | lineBreak | lineComment | blockComment =>
    rw [hshape] at hkind
    cases hkind

/-- The lookup by text finds the kind of a piece if that kind is a reserved word, and
nothing otherwise. -/
theorem ofKeyword?_of_piece {p : Piece} (h : p.shape.Accepts p.text) {kind : TokenKind}
    (hkind : p.kind? = some kind) :
    TokenKind.ofKeyword? (String.ofList p.text) = if kind.isKeyword then some kind else none := by
  by_cases hshape : p.shape = .word
  · have hofWord : TokenKind.ofWord (String.ofList p.text) = kind := by
      simpa [Piece.kind?, hshape] using hkind
    rw [← hofWord, TokenKind.ofWord]
    cases hlookup : Keyword.ofString? (String.ofList p.text) with
    | none => simp [TokenKind.ofKeyword?, TokenKind.isKeyword, hlookup]
    | some k => simp [TokenKind.ofKeyword?, TokenKind.isKeyword, hlookup]
  · have hkeyword := isKeyword_of_piece hshape hkind
    have hlookup : Keyword.ofString? (String.ofList p.text) = none := by
      rw [Option.eq_none_iff_forall_ne_some]
      intro k hk
      have hword := isWord_of_ofString? hk
      rw [String.toList_ofList] at hword
      exact hshape (shape_eq_word h hword)
    simp [TokenKind.ofKeyword?, hkeyword, hlookup]

theorem ofKeyword?_of_mem_stream {pieces : List Piece} (h : WellShaped pieces) {t : Token}
    (ht : t ∈ stream pieces) :
    TokenKind.ofKeyword? t.lexeme = if t.kind.isKeyword then some t.kind else none := by
  rcases origin_of_mem_stream h ht with ⟨hkind, hlexeme⟩ | ⟨p, haccepts, hkind, hlexeme⟩
  · rw [hkind, hlexeme]
    rfl
  · rw [hlexeme]
    exact ofKeyword?_of_piece haccepts hkind

theorem kind_of_primitive {pieces : List Piece} (h : WellShaped pieces) {t : Token}
    (ht : t ∈ stream pieces) {p : PrimitiveType} (hname : PrimitiveType.ofName? t.lexeme = some p) :
    t.kind = .identifier := by
  rcases origin_of_mem_stream h ht with ⟨-, hlexeme⟩ | ⟨q, haccepts, hkind, hlexeme⟩
  · rw [hlexeme] at hname
    cases hname
  · rw [hlexeme] at hname
    have hword := isWord_of_ofName? hname
    rw [String.toList_ofList] at hword
    rw [Piece.kind?, shape_eq_word haccepts hword] at hkind
    rw [← Option.some.inj hkind]
    exact ofWord_of_ofName? hname

/-- A word alone is a source of one token. -/
theorem lex_word {word : String} (h : isWord word.toList = true) :
    ∃ t eof, lex word = .ok [t, eof] ∧ t.kind = .ofWord word ∧ t.lexeme = word ∧
      eof.kind = .eof := by
  have hfits : Piece.Fits ⟨.word, word.toList⟩ [] := ⟨isWord_iff.1 h, Piece.stops_nil _⟩
  have hcuts := Cuts.cons_of_fits hfits (.nil [])
  rw [List.append_nil] at hcuts
  have hlex := lex_of_cuts hcuts
  rw [stream, streamFrom_of_token rfl, String.ofList_toList] at hlex
  exact ⟨_, _, hlex, rfl, String.ofList_toList, rfl⟩

theorem ofWord_of_ofKeyword? {word : String} {kind : TokenKind}
    (h : TokenKind.ofKeyword? word = some kind) :
    isWord word.toList = true ∧ TokenKind.ofWord word = kind := by
  obtain ⟨k, hk, -⟩ := Option.map_eq_some_iff.1 h
  refine ⟨isWord_of_ofString? hk, ?_⟩
  rw [TokenKind.ofWord, h]
  rfl

/-- What a reserved word is called is its text in capitals. -/
theorem name_of_ofKeyword? {word : String} {kind : TokenKind}
    (h : TokenKind.ofKeyword? word = some kind) : kind.name = word.toUpper := by
  obtain ⟨k, hk, rfl⟩ := Option.map_eq_some_iff.1 h
  rw [TokenKind.name, Keyword.name_eq_toUpper, Keyword.spelling_of_ofString? hk]

theorem ofTokenKind_of_mem_stream {pieces : List Piece} (h : WellShaped pieces) {t : Token}
    (ht : t ∈ stream pieces) : Visibility.ofTokenKind t.kind = Visibility.ofString t.lexeme := by
  have hlookup := ofKeyword?_of_mem_stream h ht
  unfold TokenKind.ofKeyword? at hlookup
  rw [Visibility.ofString_eq]
  cases hflag : t.kind.isKeyword with
  | false =>
    rw [hflag, if_neg Bool.false_ne_true, Option.map_eq_none_iff] at hlookup
    rw [hlookup, Visibility.ofTokenKind_of_isKeyword hflag]
    rfl
  | true =>
    rw [hflag, if_pos rfl] at hlookup
    obtain ⟨k, hk, hkind⟩ := Option.map_eq_some_iff.1 hlookup
    rw [hk, ← hkind]
    rfl

/-- The tables of words agree on every token of every source, and every reserved word is
a source of one token, of the kind under which it is looked up. -/
theorem word_tables_agree :
    (∀ source tokens, lex source = .ok tokens → ∀ t ∈ tokens,
      (t.kind.isKeyword = true ↔ ∃ kind, TokenKind.ofKeyword? t.lexeme = some kind) ∧
      (∀ kind, TokenKind.ofKeyword? t.lexeme = some kind →
        kind = t.kind ∧ t.kind.name = t.lexeme.toUpper) ∧
      Visibility.ofTokenKind t.kind = Visibility.ofString t.lexeme ∧
      ∀ p, PrimitiveType.ofName? t.lexeme = some p → t.kind = .identifier) ∧
    ∀ word kind, TokenKind.ofKeyword? word = some kind →
      ∃ t eof, lex word = .ok [t, eof] ∧ t.kind = kind ∧ t.lexeme = word ∧ eof.kind = .eof := by
  constructor
  · intro source tokens hlex t ht
    obtain ⟨pieces, hcuts, rfl⟩ := lex_eq_ok_iff.1 hlex
    have hshaped := hcuts.wellShaped
    have hlookup := ofKeyword?_of_mem_stream hshaped ht
    refine ⟨?_, ?_, ofTokenKind_of_mem_stream hshaped ht,
      fun p hp => kind_of_primitive hshaped ht hp⟩
    · rw [hlookup]
      cases t.kind.isKeyword <;> simp
    · intro kind hkind
      have hsame : kind = t.kind := by
        rw [hlookup] at hkind
        split at hkind
        · exact (Option.some.inj hkind).symm
        · cases hkind
      rw [← hsame]
      exact ⟨rfl, name_of_ofKeyword? hkind⟩
  · intro word kind hkind
    obtain ⟨hword, hofWord⟩ := ofWord_of_ofKeyword? hkind
    rw [← hofWord]
    exact lex_word hword

/-- A reserved word in quotes is a string to every table. The same word without quotes is
found by all that know it, and the name of a type stays a name. -/
theorem word_tables_agree_on_private :
    lex "'private\" Int private" = .ok [⟨.string, "'private\"", ⟨0, 9, 1, 10⟩⟩,
        ⟨.identifier, "Int", ⟨10, 13, 1, 14⟩⟩, ⟨.keyword .privateKw, "private", ⟨14, 21, 1, 22⟩⟩,
        ⟨.eof, "", ⟨21, 21, 1, 22⟩⟩] ∧
      Visibility.ofTokenKind .string = Visibility.ofString "'private\"" ∧
      PrimitiveType.ofName? "Int" = some .int ∧
        (⟨.identifier, "Int", ⟨10, 13, 1, 14⟩⟩ : Token).kind = .identifier ∧
      TokenKind.ofKeyword? "private" = some (.keyword .privateKw) ∧
      (TokenKind.keyword .privateKw).name = "private".toUpper ∧
      Visibility.ofTokenKind (.keyword .privateKw) = Visibility.ofString "private" ∧
      ∃ t eof, lex "private" = .ok [t, eof] ∧ t.kind = .keyword .privateKw ∧
        t.lexeme = "private" ∧ eof.kind = .eof := by
  have hlex : lex "'private\" Int private" = .ok [⟨.string, "'private\"", ⟨0, 9, 1, 10⟩⟩,
      ⟨.identifier, "Int", ⟨10, 13, 1, 14⟩⟩, ⟨.keyword .privateKw, "private", ⟨14, 21, 1, 22⟩⟩,
      ⟨.eof, "", ⟨21, 21, 1, 22⟩⟩] := by with_unfolding_all rfl
  have hstring := word_tables_agree.1 _ _ hlex ⟨.string, "'private\"", ⟨0, 9, 1, 10⟩⟩ (by simp)
  have hname := word_tables_agree.1 _ _ hlex ⟨.identifier, "Int", ⟨10, 13, 1, 14⟩⟩ (by simp)
  have hreserved := word_tables_agree.1 _ _ hlex
    ⟨.keyword .privateKw, "private", ⟨14, 21, 1, 22⟩⟩ (by simp)
  exact ⟨hlex, hstring.2.2.1, rfl, hname.2.2.2 .int rfl, rfl, (hreserved.2.1 _ rfl).2,
    hreserved.2.2.1, word_tables_agree.2 "private" _ rfl⟩

end Lexing
end SurfaceLanguage
