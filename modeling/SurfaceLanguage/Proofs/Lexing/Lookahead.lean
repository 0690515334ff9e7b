import SurfaceLanguage.Proofs.Lexing.Exchange

/-!
# How far the lexer looks ahead

A piece is settled by the two characters behind it. Text that is appended to a source
therefore changes no token that ends two characters before its end, wherever the first part
was broken off: inside a number, a comment, a string or a symbol. The two runs are followed
side by side for as long as two characters are left of the first part.
-/
namespace SurfaceLanguage.Lexing

/-- A piece that has two characters behind it is taken from the longer text as well. -/
theorem Cuts.cons_of_append {piece : Piece} {after more : List Char} {qs : List Piece}
    (h : piece.Fits after) (hafter : 2 ≤ after.length)
    (hqs : Cuts (piece.text ++ after ++ more) qs []) :
    ∃ rest, qs = piece :: rest ∧ Cuts (after ++ more) rest [] := by
  have hfits : piece.Fits (after ++ more) := h.of_resumes (resumes_append_of_two hafter more)
  have hone : Cuts (piece.text ++ (after ++ more)) [piece] (after ++ more) :=
    .cons_of_fits hfits (.nil _)
  rw [List.append_assoc] at hqs
  rcases hone.comparable hqs with ⟨rest, hrest, hcuts⟩ | ⟨rest, hrest, hcuts⟩
  · exact ⟨rest, hrest, hcuts⟩
  · -- The longer text cannot have ended, since characters are left behind the piece.
    obtain ⟨-, hnil⟩ := hcuts.eq_nil_of_stuck (.inl rfl)
    have hlength := congrArg List.length hnil
    rw [List.length_append, List.length_nil] at hlength
    omega

/-- No token ends before the place from which it was read. -/
theorem offset_le_stop {pieces : List Piece} (h : WellShaped pieces) {p : Position} {t : Token}
    (ht : t ∈ placed p pieces) : p.offset ≤ t.span.stop := by
  obtain ⟨before, piece, rest, kind, rfl, -, rfl⟩ := mem_placed ht
  have hbefore : WellShaped (before ++ [piece]) := by
    rw [List.append_cons] at h
    exact (List.forall_mem_append.1 h).1
  change p.offset ≤ (p.afterAll (before ++ [piece])).offset
  rw [Position.offset_afterAll p hbefore]
  exact Nat.le_add_right _ _

/-- Nor before the first piece from there has ended. -/
theorem offset_after_le_stop {piece : Piece} {pieces : List Piece}
    (h : WellShaped (piece :: pieces)) {p : Position} {t : Token}
    (ht : t ∈ placed p (piece :: pieces)) : (p.after piece).offset ≤ t.span.stop := by
  have htail : WellShaped pieces := fun q hq => h q (List.mem_cons_of_mem piece hq)
  rw [placed] at ht
  cases hkind : piece.kind? with
  | none =>
    rw [hkind] at ht
    exact offset_le_stop htail ht
  | some kind =>
    rw [hkind] at ht
    rcases List.mem_cons.1 ht with rfl | ht
    · exact Nat.le_refl _
    · exact offset_le_stop htail ht

/-- The token is no end of the input and has two characters of the source behind it. -/
def isSettled (length : Nat) (t : Token) : Bool := !t.isEof && t.span.stop + 2 ≤ length

/-- No token is settled once fewer than two characters are left. -/
theorem filter_settled_eq_nil {piece : Piece} {pieces : List Piece}
    (h : WellShaped (piece :: pieces)) {p : Position} {length : Nat}
    (hlength : length < (p.after piece).offset + 2) :
    (placed p (piece :: pieces)).filter (isSettled length) = [] := by
  rw [List.filter_eq_nil_iff]
  intro t ht hsettled
  have hstop := offset_after_le_stop h ht
  have hwithin := (Bool.and_eq_true_iff.1 hsettled).2
  rw [decide_eq_true_eq] at hwithin
  omega

/-- The end of the input is not read from a piece. -/
theorem kind_ne_eof {piece : Piece} {kind : TokenKind} (h : piece.kind? = some kind) :
    kind ≠ .eof := by
  rintro rfl
  unfold Piece.kind? at h
  cases hshape : piece.shape with
  | word =>
    rw [hshape, Option.some.injEq] at h
    rcases TokenKind.ofWord_cases (String.ofList piece.text) with hword | ⟨k, hword⟩
    · rw [hword] at h
      cases h
    · rw [hword] at h
      cases h
  | blank | lineBreak | lineComment | blockComment | string | number | symbol =>
    rw [hshape] at h
    cases h

/-- The induction is on the pieces of the first part. Either the next of them has two
characters behind it, and both runs take it, or no token from there on is settled. -/
theorem settled_prefix {text more : List Char} {ps qs : List Piece} (hps : Cuts text ps [])
    (hqs : Cuts (text ++ more) qs []) {p : Position} {length : Nat}
    (hlength : length = p.offset + text.length) :
    (placed p ps).filter (isSettled length) <+: streamFrom p qs := by
  induction ps generalizing text qs p with
  | nil => exact List.nil_prefix
  | cons piece ps ih =>
    have hshaped := hps.wellShaped
    obtain ⟨after, rfl, hfits, hcuts⟩ := hps.of_cons
    have hoffset := p.offset_after hfits.accepts
    rw [List.length_append] at hlength
    by_cases hafter : 2 ≤ after.length
    · obtain ⟨rest, rfl, hrest⟩ := Cuts.cons_of_append hfits hafter hqs
      have htail := ih (p := p.after piece) hcuts hrest (by omega)
      cases hkind : piece.kind? with
      | none =>
        rw [streamFrom_of_trivia hkind, placed, hkind]
        exact htail
      | some kind =>
        have hsettled :
            isSettled length (tokenBetween kind piece.text p (p.after piece)) = true := by
          have heof : (kind == TokenKind.eof) = false := beq_eq_false_iff_ne.2 (kind_ne_eof hkind)
          have hwithin : (p.after piece).offset + 2 ≤ length := by omega
          simp [isSettled, Token.isEof, tokenBetween, heof, hwithin]
        rw [streamFrom_of_token hkind, placed, hkind]
        simp only [List.filter_cons, hsettled, if_true]
        exact (List.prefix_cons_inj _).2 htail
    · rw [filter_settled_eq_nil hshaped (by omega)]
      exact List.nil_prefix

/-- Appended text leaves the settled tokens of a source as they are. -/
theorem settled_tokens_stay (a b : String) (ts us : List Token) (ha : lex a = .ok ts)
    (hab : lex (a ++ b) = .ok us) :
    ts.filter (fun t => !t.isEof && t.span.stop + 2 ≤ a.length) <+: us := by
  obtain ⟨ps, hps, rfl⟩ := lex_eq_ok_iff.1 ha
  obtain ⟨qs, hqs, rfl⟩ := lex_eq_ok_iff.1 hab
  rw [String.toList_append] at hqs
  have hlength : a.length = Position.start.offset + a.toList.length := by
    rw [String.length_toList]
    exact (Nat.zero_add _).symm
  have hplaced := settled_prefix hps hqs hlength
  have hend : [tokenBetween .eof [] (Position.start.afterAll ps)
      (Position.start.afterAll ps)].filter (isSettled a.length) = [] := rfl
  change (stream ps).filter (isSettled a.length) <+: stream qs
  rw [stream, streamFrom, List.filter_append, hend, List.append_nil]
  exact hplaced

/-- The bound cannot be lowered. The number has one character behind it, a point, and
becomes another number when a digit follows; the name before it stays. -/
theorem settled_tokens_stay_before_fraction :
    lex "x 1." = .ok [⟨.identifier, "x", ⟨0, 1, 1, 2⟩⟩, ⟨.number, "1", ⟨2, 3, 1, 4⟩⟩,
        ⟨.symbol .dot, ".", ⟨3, 4, 1, 5⟩⟩, ⟨.eof, "", ⟨4, 4, 1, 5⟩⟩] ∧
      lex ("x 1." ++ "5") = .ok [⟨.identifier, "x", ⟨0, 1, 1, 2⟩⟩, ⟨.number, "1.5", ⟨2, 5, 1, 6⟩⟩,
        ⟨.eof, "", ⟨5, 5, 1, 6⟩⟩] ∧
      [(⟨.identifier, "x", ⟨0, 1, 1, 2⟩⟩ : Token)] <+:
        [⟨.identifier, "x", ⟨0, 1, 1, 2⟩⟩, ⟨.number, "1.5", ⟨2, 5, 1, 6⟩⟩,
          ⟨.eof, "", ⟨5, 5, 1, 6⟩⟩] := by
  have hshort : lex "x 1." = .ok [⟨.identifier, "x", ⟨0, 1, 1, 2⟩⟩, ⟨.number, "1", ⟨2, 3, 1, 4⟩⟩,
      ⟨.symbol .dot, ".", ⟨3, 4, 1, 5⟩⟩, ⟨.eof, "", ⟨4, 4, 1, 5⟩⟩] := by with_unfolding_all rfl
  have hlong : lex ("x 1." ++ "5") = .ok [⟨.identifier, "x", ⟨0, 1, 1, 2⟩⟩,
      ⟨.number, "1.5", ⟨2, 5, 1, 6⟩⟩, ⟨.eof, "", ⟨5, 5, 1, 6⟩⟩] := by with_unfolding_all rfl
  exact ⟨hshort, hlong, settled_tokens_stay _ _ _ _ hshort hlong⟩

end SurfaceLanguage.Lexing
