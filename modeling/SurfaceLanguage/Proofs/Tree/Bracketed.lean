import SurfaceLanguage.Proofs.Tree.Spelled

/-!
# Printed trees are well bracketed

A tree whose texts a source can spell is printed as a source. The printer's words keep
their ends when they stand in a row, so the round brackets among the tokens are those of
the groups: what a string has inside stays inside. The main statement is that the text of
every such tree is lexed, that its brackets balance, and that the text of a statement or of
a case is one group.
-/
namespace SurfaceLanguage.Tree
open Form Lexing

theorem fits_blank (rest : List Char) : Piece.Fits ⟨.blank, [' ']⟩ rest :=
  ⟨⟨' ', .inl rfl, rfl⟩, Piece.stops_of_closed rest (by simp)⟩

/-- At the end of a group the text is cut into pieces with balanced brackets. -/
def IsBracketed (text : List Char) : Prop :=
  ∀ rest, EndsGroup rest →
    ∃ pieces, Cuts (text ++ rest) pieces rest ∧ Balanced (kindsOf pieces)

section Rows
variable {parts : List Form} {fields : List TextField}

/-- The space in front of the next form is no token. -/
theorem IsBracketed.further (h : IsBracketed (renderAll parts).toList) :
    IsBracketed (further parts) := by
  intro rest hrest
  cases parts with
  | nil => exact ⟨[], .nil rest, by decide⟩
  | cons part parts =>
    obtain ⟨pieces, hcuts, hbalanced⟩ := h rest hrest
    exact ⟨⟨.blank, [' ']⟩ :: pieces, .cons_of_fits (fits_blank _) hcuts, hbalanced⟩

/-- A group is cut into its brackets and what stands inside, whatever follows. -/
theorem IsBracketed.group (h : IsBracketed (renderAll parts).toList) (rest : List Char) :
    ∃ inner, Cuts ((Form.group parts).render.toList ++ rest)
        (openPiece :: (inner ++ [closePiece])) rest ∧ Balanced (kindsOf inner) := by
  obtain ⟨inner, hcuts, hbalanced⟩ := h (')' :: rest) (by rintro c ⟨⟩; rfl)
  have hclose : Cuts (')' :: rest) [closePiece] rest :=
    .cons_of_fits (fits_closePiece rest) (.nil rest)
  have htext : (Form.group parts).render.toList ++ rest =
      openPiece.text ++ ((renderAll parts).toList ++ ')' :: rest) := by
    simp [render_group, openPiece]
  rw [htext]
  exact ⟨inner, .cons_of_fits (fits_openPiece _) (hcuts.append hclose), hbalanced⟩

/-- Forms in a row are cut one after the other, from what stands behind them on. -/
theorem Tells.isBracketed (h : Tells parts fields)
    (hfields : fields.all TextField.isLexical = true) :
    IsBracketed (renderAll parts).toList := by
  induction h with
  | nil => exact fun rest _ => ⟨[], .nil rest, by decide⟩
  | @word text shown fields parts hshows _ ih =>
    rw [List.all_append, Bool.and_eq_true] at hfields
    intro rest hrest
    obtain ⟨later, hlater, hbalanced⟩ := (ih hfields.2).further rest hrest
    obtain ⟨first, hfirst, hinner⟩ :=
      hshows.isSpelled hfields.1 _ (endsWord_further hrest parts)
    refine ⟨first ++ later, ?_, ?_⟩
    · rw [renderAll_cons, render, List.append_assoc]
      exact hfirst.append hlater
    · rw [kindsOf_append]
      exact (balanced_of_inner hinner).append hbalanced
  | @group inside parts deep fields _ _ ihinside ih =>
    rw [List.all_append, Bool.and_eq_true] at hfields
    intro rest hrest
    obtain ⟨later, hlater, hbalanced⟩ := (ih hfields.2).further rest hrest
    obtain ⟨inner, hfirst, hinner⟩ := (ihinside hfields.1).group (further parts ++ rest)
    refine ⟨openPiece :: (inner ++ [closePiece]) ++ later, ?_, ?_⟩
    · rw [renderAll_cons, List.append_assoc]
      exact hfirst.append hlater
    · rw [kindsOf_append, kindsOf_group]
      exact hinner.wrap.append hbalanced

end Rows

theorem lex_of_bracketed {source : String} (h : IsBracketed source.toList) :
    ∃ tokens, lex source = .ok tokens ∧ Balanced (tokens.map Token.kind) := by
  obtain ⟨pieces, hcuts, hbalanced⟩ := h [] nofun
  rw [List.append_nil] at hcuts
  refine ⟨stream pieces, lex_of_cuts hcuts, ?_⟩
  rw [map_kind_stream]
  exact hbalanced.append (by decide)

/-- The text of a single group. -/
theorem lex_of_group {f : Form} {fields : List TextField} (hgroup : ∃ parts, f = .group parts)
    (h : Tells [f] fields) (hfields : fields.all TextField.isLexical = true) :
    ∃ tokens, lex f.render = .ok tokens ∧ Balanced (tokens.map Token.kind) ∧
      Enclosed (tokens.map Token.kind) := by
  obtain ⟨parts, rfl⟩ := hgroup
  cases h with
  | group hparts _ =>
    rw [List.all_append, Bool.and_eq_true] at hfields
    obtain ⟨inner, hcuts, hbalanced⟩ := (hparts.isBracketed hfields.1).group []
    rw [List.append_nil] at hcuts
    have henclosed : Enclosed ((stream (openPiece :: (inner ++ [closePiece]))).map Token.kind) := by
      refine ⟨kindsOf inner, ?_, hbalanced⟩
      rw [map_kind_stream, kindsOf_group]
      simp
    exact ⟨_, lex_of_cuts hcuts, henclosed.balanced, henclosed⟩

theorem Stmt.form_eq_group (s : Stmt) : ∃ parts, s.form = .group parts := by
  cases s <;> exact ⟨_, rfl⟩

theorem SwitchCase.form_eq_group (c : SwitchCase) : ∃ parts, c.form = .group parts := by
  cases c
  exact ⟨_, rfl⟩

/-- The text of a tree whose names, operators and strings a source can spell is lexed, and
the round brackets of its tokens balance. The text of a statement or of a case opens with a
bracket that is closed at its end and not before. -/
theorem print_well_bracketed :
    (∀ e : Expr, e.fields.all TextField.isLexical = true →
      ∃ tokens, lex e.print = .ok tokens ∧ Balanced (tokens.map Token.kind)) ∧
    (∀ s : Stmt, s.fields.all TextField.isLexical = true →
      ∃ tokens, lex s.print = .ok tokens ∧ Balanced (tokens.map Token.kind) ∧
        Enclosed (tokens.map Token.kind)) ∧
    (∀ c : SwitchCase, c.fields.all TextField.isLexical = true →
      ∃ tokens, lex c.print = .ok tokens ∧ Balanced (tokens.map Token.kind) ∧
        Enclosed (tokens.map Token.kind)) := by
  refine ⟨?_, ?_, ?_⟩
  · intro e he
    exact lex_of_bracketed (e.tells.isBracketed he)
  · intro s hs
    exact lex_of_group s.form_eq_group s.tells hs
  · intro c hc
    exact lex_of_group c.form_eq_group c.tells hc

/-- A division by a division, one of them behind its operand. -/
def divisionOfTwo : Expr :=
  .binary (.floatLit ⟨0xbee4f8b588e368f1⟩) "/" (.postUnary (.intLit (-5)) "/")

/-- A case with brackets, a line break and the start of a comment in a string, and a
reserved word for a name. -/
def openCase : SwitchCase :=
  .mk (.stringLit "(() \n /* ") [] [.throwStmt (.identifier "class")]

theorem print_well_bracketed_of_openCase :
    divisionOfTwo.print = "(/ -1e-5 (postfix / -5))" ∧
    (∃ tokens, lex divisionOfTwo.print = .ok tokens ∧ Balanced (tokens.map Token.kind)) ∧
    (Stmt.returnStmt (some divisionOfTwo)).print = "(return (/ -1e-5 (postfix / -5)))" ∧
    (∃ tokens, lex (Stmt.returnStmt (some divisionOfTwo)).print = .ok tokens ∧
      Balanced (tokens.map Token.kind) ∧ Enclosed (tokens.map Token.kind)) ∧
    openCase.print = "(case \"(() \n /* \" (block (throw class)))" ∧
    ∃ tokens, lex openCase.print = .ok tokens ∧ Balanced (tokens.map Token.kind) ∧
      Enclosed (tokens.map Token.kind) := by
  refine ⟨?_, ?_, ?_, ?_, ?_, ?_⟩
  · with_unfolding_all rfl
  · exact print_well_bracketed.1 divisionOfTwo (by decide)
  · with_unfolding_all rfl
  · exact print_well_bracketed.2.1 (.returnStmt (some divisionOfTwo)) (by decide)
  · with_unfolding_all rfl
  · exact print_well_bracketed.2.2 openCase (by decide)

end SurfaceLanguage.Tree
