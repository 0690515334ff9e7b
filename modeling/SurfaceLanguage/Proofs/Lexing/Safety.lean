import SurfaceLanguage.Proofs.Lexing.ScannerSteps

/-!
# The scanner is safe and gets on

The scanner reads nothing outside its source and always comes to an end, and its answer
is that of `lex`. A run is followed cut by cut: each cut takes one step, and as it takes a
character at least, there are no more steps than characters.
-/
namespace SurfaceLanguage.Lexing

/-- The answer for a source cut in this way from a position on, with the tokens found
before. -/
def Cutting.tokensFrom (p : Position) (tokens : List Token) (c : Cutting) :
    Except LexError (List Token) :=
  match c.fault? with
  | none => .ok (tokens ++ placed p c.pieces)
  | some f => .error (f.error (p.afterAll c.pieces))

theorem placed_cons (p : Position) (piece : Piece) (pieces : List Piece) :
    placed p (piece :: pieces) = (piece.tokenAt? p).toList ++ placed (p.after piece) pieces := by
  rw [placed, Piece.tokenAt?]
  cases piece.kind? <;> rfl

theorem tokensFrom_cons (p : Position) (tokens : List Token) (piece : Piece) (c : Cutting) :
    (c.cons piece).tokensFrom p tokens =
      c.tokensFrom (p.after piece) (tokens ++ (piece.tokenAt? p).toList) := by
  unfold Cutting.tokensFrom Cutting.cons
  cases c.fault? with
  | none =>
    dsimp only
    rw [placed_cons, List.append_assoc]
  | some f => rfl

/-- Each piece takes a step, and so does a fault. -/
def Cutting.steps (c : Cutting) : Nat := c.pieces.length + c.fault?.toList.length

theorem steps_cons (piece : Piece) (c : Cutting) : (c.cons piece).steps = c.steps + 1 :=
  Nat.add_right_comm _ _ _

/-- A cut takes at least one character. -/
theorem steps_cutAll_le (text : List Char) : (cutAll text).steps ≤ text.length := by
  fun_induction cutAll text with
  | case1 => exact Nat.le_refl 0
  | case2 c text p rest hcut ih =>
    have hshorter := length_le_of_cut hcut
    rw [steps_cons, List.length_cons]
    omega
  | case3 c text found hcut => exact Nat.succ_le_succ (Nat.zero_le _)

namespace Scanner

/-- The state in which the next token begins. -/
def fresh (s : Scanner) : Scanner := s.moveTo { s.cursor with start := s.cursor.offset }

theorem Sound.fresh {s : Scanner} (h : s.Sound) : s.fresh.Sound :=
  h.moveTo (Nat.le_refl _) h.offset_le

theorem steps_fresh (s : Scanner) : s.fresh.steps = s.steps := steps_moveTo s _

theorem steps_note_step {e : Event} (he : e.isStep = true) (s : Scanner) :
    (s.note e).steps = s.steps + 1 := by
  simp [steps, note, he]

end Scanner

namespace Scan
open Scanner

theorem beginToken_ends (s : Scanner) : Ends beginToken s (.ok ()) s.fresh :=
  (ends_cursor s).bind (ends_moveTo s _)

section Run
variable {s t u : Scanner} {tokens : List Token} {c : Char} {text : List Char}

/-- The loop goes on behind a step that succeeded, with its token if there is one. -/
theorem scanAll_step {found : Option Token} {result : Except LexError (List Token)}
    (hrest : s.rest = c :: text) (hstep : Ends step s.fresh (.ok found) t)
    (hloop : Ends (scanAll (tokens ++ found.toList)) t result u) :
    Ends (scanAll tokens) s result u := by
  refine loop_again ((isAtEnd_cons hrest).bind ((beginToken_ends s).bind (hstep.bind ?_))) hloop
  cases found with
  | none =>
    rw [Option.toList_none, List.append_nil]
    exact ends_pure _ t
  | some token => exact ends_pure _ t

theorem scanAll_error {e : LexError} (hrest : s.rest = c :: text)
    (hstep : Ends step s.fresh (.error e) t) : Ends (scanAll tokens) s (.error e) t :=
  loop_error ((isAtEnd_cons hrest).bind ((beginToken_ends s).bind hstep.bind_error))

/-- A run through the rest of a source, one step for each cut. -/
structure RunsThrough (s : Scanner) (c : Cutting) (t : Scanner) : Prop where
  source : t.source = s.source
  sound : t.Sound
  steps : t.steps = s.steps + c.steps
  position : c.fault? = none → t.position = s.position.afterAll c.pieces

theorem scanAll_ends (hs : s.Sound) (tokens : List Token) :
    ∃ t, Ends (scanAll tokens) s ((cutAll s.rest).tokensFrom s.position tokens) t ∧
      RunsThrough s (cutAll s.rest) t := by
  generalize hrest : s.rest = text
  fun_induction cutAll text generalizing s tokens with
  | case1 =>
    refine ⟨s, ?_, rfl, hs, rfl, fun _ => rfl⟩
    have hanswer : (Cutting.mk [] none).tokensFrom s.position tokens = .ok tokens := by
      rw [Cutting.tokensFrom, placed, List.append_nil]
    rw [hanswer]
    exact loop_stop ((isAtEnd_nil hrest).bind (ends_pure _ s))
  | case2 c text p rest hcut ih =>
    obtain ⟨t, e, hstep, hreads, hposition, hsafe, hcounted⟩ := step_ends hs.fresh rfl hrest
    have hsplits := cut_splits c text
    rw [hcut] at hstep hreads hposition hsplits
    have hleft : (t.note e).rest = rest := by
      have hsame : p.text ++ t.rest = p.text ++ rest :=
        hreads.rest.symm.trans (hrest.trans hsplits.2.symm)
      exact List.append_cancel_left hsame
    have hplace : (t.note e).position = s.position.after p := hposition
    obtain ⟨u, hloop, hruns⟩ := ih (hreads.sound.note hsafe)
      (tokens ++ (p.tokenAt? s.position).toList) hleft
    rw [hplace] at hloop
    rw [tokensFrom_cons]
    refine ⟨u, scanAll_step hrest hstep hloop, hruns.source.trans hreads.source, hruns.sound,
      ?_, ?_⟩
    · rw [hruns.steps, steps_note_step hcounted, hreads.steps, steps_fresh, steps_cons]
      omega
    · intro hnone
      rw [hruns.position hnone, hplace]
      rfl
  | case3 c text found hcut =>
    obtain ⟨t, e, hstep, hreads, -, hsafe, hcounted⟩ := step_ends hs.fresh rfl hrest
    rw [hcut] at hstep
    refine ⟨t.note e, scanAll_error hrest hstep, hreads.source, hreads.sound.note hsafe, ?_,
      fun hnone => absurd hnone (Option.some_ne_none found)⟩
    rw [steps_note_step hcounted, hreads.steps, steps_fresh]
    rfl

theorem scanSource_ends (source : List Char) :
    ∃ t, Ends scanSource (.ofSource source) (cutAll source).tokens t ∧ t.source = source ∧
      t.Sound ∧ t.steps = (cutAll source).steps := by
  obtain ⟨t, hloop, hruns⟩ := scanAll_ends (sound_ofSource source) []
  have hrest : (ofSource source).rest = source := rfl
  have hplace : (ofSource source).position = .start := rfl
  rw [hrest, hplace] at hloop
  rw [hrest] at hruns
  have hsteps : t.steps = (cutAll source).steps := hruns.steps.trans (Nat.zero_add _)
  cases hfault : (cutAll source).fault? with
  | none =>
    obtain ⟨u, heof, hpasses⟩ :=
      tokenHere_ends rfl (Passes.refl hruns.sound.fresh).toReads .eof
    have hstop : t.fresh.position = Position.start.afterAll (cutAll source).pieces :=
      hruns.position hfault
    have hanswer : (cutAll source).tokens =
        .ok (placed .start (cutAll source).pieces ++
          [tokenBetween .eof [] t.fresh.position t.fresh.position]) := by
      rw [Cutting.tokens, hfault, hstop]
    rw [Cutting.tokensFrom, hfault] at hloop
    refine ⟨u, ?_, hpasses.source.trans hruns.source, hpasses.sound, ?_⟩
    · rw [hanswer]
      exact hloop.bind ((beginToken_ends t).bind (heof.bind (ends_pure _ u)))
    · rw [hpasses.steps, steps_fresh, hsteps]
  | some f =>
    rw [Cutting.tokensFrom, hfault] at hloop
    refine ⟨t, ?_, hruns.source, hruns.sound, hsteps⟩
    rw [Cutting.tokens, hfault]
    exact hloop.bind_error

end Run

end Scan

/-- Whatever the source, the scanner ends, with the answer of `lex`. Its cursor never left
the source, all that it read lay within, and each step that succeeded got on. It took one
step for each cut, and so no more steps than there are characters. -/
theorem scan_safe (source : String) :
    ∃ final, scan source = .some (lex source, final) ∧ .reached final.cursor ∈ final.events ∧
      (∀ c, .reached c ∈ final.events → c.start ≤ c.offset ∧ c.offset ≤ source.length) ∧
      (∀ c, .advanced c ∈ final.events → c.offset < source.length) ∧
      (∀ c, .sliced c ∈ final.events → c.start ≤ c.offset ∧ c.offset ≤ source.length) ∧
      (∀ before after, .stepped before after true ∈ final.events →
        before.offset < after.offset) ∧
      final.steps = (cutAll source.toList).steps ∧ final.steps ≤ source.length := by
  obtain ⟨final, hends, hsource, hsound, hsteps⟩ := Scan.scanSource_ends source.toList
  have hsafe : ∀ e ∈ final.events, e.IsSafe source.length := by
    intro e he
    have hevent := hsound.safe e he
    rwa [hsource, String.length_toList] at hevent
  have hbound : final.steps ≤ source.length := by
    rw [hsteps, ← String.length_toList]
    exact steps_cutAll_le _
  refine ⟨final, hends, hsound.recorded, ?_, ?_, ?_, ?_, hsteps, hbound⟩
  · exact fun c hc => hsafe _ hc
  · exact fun c hc => hsafe _ hc
  · exact fun c hc => hsafe _ hc
  · exact fun before after hstepped => hsafe _ hstepped rfl

end SurfaceLanguage.Lexing
