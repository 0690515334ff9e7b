import SurfaceLanguage.Proofs.Lexing.Boundary
import SurfaceLanguage.Proofs.Lexing.Positions
import SurfaceLanguage.Proofs.Lexing.Scanner

/-!
# What the scanner reads

A state is sound when its cursor is recorded and all that is recorded lies within the
source. Each part of the scanner that is begun in a sound state ends in one, and what it
has read in between is a text that stood at the front of the rest. Here this is shown
for the parts that do not loop.
-/
namespace SurfaceLanguage.Lexing

/-- What an event promises in a source of some length. -/
def Event.IsSafe (length : Nat) : Event → Prop
  | .reached c => c.start ≤ c.offset ∧ c.offset ≤ length
  | .advanced c => c.offset < length
  | .sliced c => c.start ≤ c.offset ∧ c.offset ≤ length
  | .stepped before after succeeded => succeeded = true → before.offset < after.offset

namespace Scanner

/-- The cursor is recorded, and what is recorded is safe. -/
structure Sound (s : Scanner) : Prop where
  recorded : .reached s.cursor ∈ s.events
  safe : ∀ e ∈ s.events, e.IsSafe s.source.length

theorem Sound.start_le {s : Scanner} (h : s.Sound) : s.cursor.start ≤ s.cursor.offset :=
  (h.safe _ h.recorded).1

theorem Sound.offset_le {s : Scanner} (h : s.Sound) : s.cursor.offset ≤ s.source.length :=
  (h.safe _ h.recorded).2

/-- What the cursor has not passed. -/
def rest (s : Scanner) : List Char := s.source.drop s.cursor.offset

def position (s : Scanner) : Position := ⟨s.cursor.offset, s.cursor.line, s.cursor.column⟩

theorem Sound.note {s : Scanner} (h : s.Sound) {e : Event} (he : e.IsSafe s.source.length) :
    (s.note e).Sound := by
  refine ⟨List.mem_append_left _ h.recorded, ?_⟩
  intro d hd
  rcases List.mem_append.1 hd with hd | hd
  · exact h.safe d hd
  · rw [List.mem_singleton.1 hd]
    exact he

theorem Sound.moveTo {s : Scanner} (h : s.Sound) {c : Cursor} (hstart : c.start ≤ c.offset)
    (hoffset : c.offset ≤ s.source.length) : (s.moveTo c).Sound := by
  refine ⟨List.mem_append_right _ (List.mem_singleton_self _), ?_⟩
  intro d hd
  rcases List.mem_append.1 hd with hd | hd
  · exact h.safe d hd
  · rw [List.mem_singleton.1 hd]
    exact ⟨hstart, hoffset⟩

theorem sound_ofSource (source : List Char) : (ofSource source).Sound := by
  refine ⟨List.mem_singleton_self _, ?_⟩
  intro e he
  rw [List.mem_singleton.1 he]
  exact ⟨Nat.le_refl 0, Nat.zero_le _⟩

theorem steps_note {e : Event} (he : e.isStep = false) (s : Scanner) :
    (s.note e).steps = s.steps := by
  simp [steps, note, he]

theorem steps_moveTo (s : Scanner) (c : Cursor) : (s.moveTo c).steps = s.steps := by
  simp [steps, moveTo, Event.isStep]

section Front
variable {s : Scanner} {c : Char} {text : List Char}

theorem getElem?_of_rest (h : s.rest = c :: text) : s.source[s.cursor.offset]? = some c := by
  rw [← List.head?_drop]
  exact congrArg List.head? h

theorem offset_lt_of_rest (h : s.rest = c :: text) : s.cursor.offset < s.source.length := by
  exact (List.getElem?_eq_some_iff.1 (getElem?_of_rest h)).1

theorem drop_succ_of_rest (h : s.rest = c :: text) :
    s.source.drop (s.cursor.offset + 1) = text := by
  rw [← List.drop_drop]
  exact congrArg (List.drop 1) h

end Front

/-- From one state to another, a text was read that stood at the front of the rest. No
step was completed and none begun on the way. -/
structure Reads (s : Scanner) (text : List Char) (t : Scanner) : Prop where
  source : t.source = s.source
  start : t.cursor.start = s.cursor.start
  offset : t.cursor.offset = s.cursor.offset + text.length
  rest : s.rest = text ++ t.rest
  steps : t.steps = s.steps
  sound : t.Sound

/-- The text was also counted character by character, its line breaks like those within
a piece. -/
structure Passes (s : Scanner) (text : List Char) (t : Scanner) : Prop extends
    s.Reads text t where
  position : t.position = s.position.past text

theorem Reads.trans {s t u : Scanner} {xs ys : List Char} (h : s.Reads xs t)
    (h' : t.Reads ys u) : s.Reads (xs ++ ys) u where
  source := h'.source.trans h.source
  start := h'.start.trans h.start
  offset := by rw [h'.offset, h.offset, List.length_append, Nat.add_assoc]
  rest := by rw [h.rest, h'.rest, List.append_assoc]
  steps := h'.steps.trans h.steps
  sound := h'.sound

theorem Reads.rest_of_cons {s t : Scanner} {c : Char} {text : List Char} (h : s.Reads [c] t)
    (hrest : s.rest = c :: text) : t.rest = text :=
  (List.cons.inj (h.rest.symm.trans hrest)).2

/-- A character other than a line break moves the column by one. -/
theorem Reads.passes {s t : Scanner} {c : Char} (h : s.Reads [c] t)
    (hcursor : t.cursor = s.cursor.forward) (hc : c ≠ '\n') : s.Passes [c] t where
  toReads := h
  position := by
    rw [Position.past_cons, Position.next, if_neg hc, Scanner.position, hcursor]
    rfl

theorem Passes.trans {s t u : Scanner} {xs ys : List Char} (h : s.Passes xs t)
    (h' : t.Passes ys u) : s.Passes (xs ++ ys) u where
  toReads := h.toReads.trans h'.toReads
  position := by rw [h'.position, h.position, Position.past_append]

theorem Passes.refl {s : Scanner} (h : s.Sound) : s.Passes [] s where
  source := rfl
  start := rfl
  offset := rfl
  rest := rfl
  steps := rfl
  sound := h
  position := rfl

end Scanner

namespace Scan
open Scanner

/-- Begun in the one state, the scanner ends in the other with this result. -/
def Ends {α : Type} (x : Scan α) (s : Scanner) (result : Except LexError α) (t : Scanner) : Prop :=
  x s = .some (result, t)

section Rules
variable {α β : Type} {s t u : Scanner} {a : α}

theorem ends_pure (a : α) (s : Scanner) : Ends (pure a) s (.ok a) s := rfl

theorem ends_throw (e : LexError) (s : Scanner) : Ends (throw e : Scan α) s (.error e) s := rfl

theorem Ends.bind {x : Scan α} {f : α → Scan β} {r : Except LexError β} (hx : Ends x s (.ok a) t)
    (hf : Ends (f a) t r u) : Ends (x >>= f) s r u := by
  have hrun : (x >>= f) s = (x s).bind fun (result, t) => ExceptT.bindCont f result t := rfl
  rw [Ends, hrun, hx, Part.bind_some]
  exact hf

theorem Ends.bind_error {x : Scan α} {f : α → Scan β} {e : LexError}
    (hx : Ends x s (.error e) t) : Ends (x >>= f) s (.error e) t := by
  have hrun : (x >>= f) s = (x s).bind fun (result, t) => ExceptT.bindCont f result t := rfl
  rw [Ends, hrun, hx, Part.bind_some]
  rfl

/-- A result that is thrown away. -/
theorem Ends.discard {x : Scan α} (hx : Ends x s (.ok a) t) : Ends (discard x) s (.ok ()) t :=
  hx.bind (ends_pure () t)

end Rules

section Primitives
variable {s : Scanner} {c : Char} {text : List Char}

theorem ends_cursor (s : Scanner) : Ends cursor s (.ok s.cursor) s := rfl

theorem ends_note (s : Scanner) (e : Event) : Ends (note e) s (.ok ()) (s.note e) := rfl

theorem ends_moveTo (s : Scanner) (here : Cursor) : Ends (moveTo here) s (.ok ()) (s.moveTo here) :=
  rfl

theorem isAtEnd_nil (h : s.rest = []) : Ends isAtEnd s (.ok true) s := by
  have hend : s.source.length ≤ s.cursor.offset := List.drop_eq_nil_iff.1 h
  rw [Ends, isAtEnd, decide_eq_true hend]

theorem isAtEnd_cons (h : s.rest = c :: text) : Ends isAtEnd s (.ok false) s := by
  have hmore := offset_lt_of_rest h
  rw [Ends, isAtEnd, decide_eq_false (Nat.not_le.2 hmore)]

theorem ends_charAt (h : s.rest = c :: text) : Ends (charAt s.cursor.offset) s (.ok c) s := by
  rw [Ends, charAt, getElem?_of_rest h]
  rfl

theorem peek_nil (h : s.rest = []) : Ends peek s (.ok '\x00') s :=
  (isAtEnd_nil h).bind (ends_pure _ s)

theorem peek_cons (h : s.rest = c :: text) : Ends peek s (.ok c) s :=
  (isAtEnd_cons h).bind ((ends_cursor s).bind (ends_charAt h))

theorem ends_peekNext (s : Scanner) : Ends peekNext s (.ok s.rest.tail.head?) s := by
  have hnext : s.rest.tail.head? = s.source[s.cursor.offset + 1]? := by
    rw [rest, List.tail_drop, List.head?_drop]
  rw [hnext]
  rfl

theorem passes_note (hs : s.Sound) {e : Event} (he : e.IsSafe s.source.length)
    (hstep : e.isStep = false) : s.Passes [] (s.note e) where
  source := rfl
  start := rfl
  offset := rfl
  rest := rfl
  steps := steps_note hstep s
  sound := hs.note he
  position := rfl

/-- Moving behind the next character reads it. -/
theorem reads_forward (hs : s.Sound) (h : s.rest = c :: text) :
    s.Reads [c] (s.moveTo s.cursor.forward) where
  source := rfl
  start := rfl
  offset := rfl
  rest := by rw [h, ← drop_succ_of_rest h]; rfl
  steps := steps_moveTo s _
  sound := hs.moveTo (Nat.le_succ_of_le hs.start_le) (offset_lt_of_rest h)

theorem advance_reads (hs : s.Sound) (h : s.rest = c :: text) :
    ∃ t, Ends advance s (.ok c) t ∧ s.Reads [c] t ∧ t.cursor = s.cursor.forward := by
  have hsafe : (Event.advanced s.cursor).IsSafe s.source.length := offset_lt_of_rest h
  have hnoted := passes_note hs hsafe rfl
  have hrest : (s.note (.advanced s.cursor)).rest = c :: text := h
  refine ⟨(s.note (.advanced s.cursor)).moveTo s.cursor.forward, ?_, ?_, rfl⟩
  · exact (ends_cursor s).bind ((ends_note s _).bind
      ((ends_charAt hrest).bind ((ends_moveTo _ _).bind (ends_pure c _))))
  · exact hnoted.toReads.trans (reads_forward hnoted.sound hrest)

theorem advance_passes (hs : s.Sound) (h : s.rest = c :: text) (hc : c ≠ '\n') :
    ∃ t, Ends advance s (.ok c) t ∧ s.Passes [c] t := by
  obtain ⟨t, hends, hreads, hcursor⟩ := advance_reads hs h
  exact ⟨t, hends, hreads.passes hcursor hc⟩

theorem newLine_reads (hs : s.Sound) :
    ∃ t, Ends newLine s (.ok ()) t ∧ s.Reads [] t ∧
      t.cursor = { s.cursor with line := s.cursor.line + 1, column := 0 } := by
  refine ⟨s.moveTo { s.cursor with line := s.cursor.line + 1, column := 0 }, ?_, ?_, rfl⟩
  · exact (ends_cursor s).bind (ends_moveTo s _)
  · exact ⟨rfl, rfl, rfl, rfl, steps_moveTo s _, hs.moveTo hs.start_le hs.offset_le⟩

theorem matchChar_hit (hs : s.Sound) (h : s.rest = c :: text) (hc : c ≠ '\n') :
    ∃ t, Ends (matchChar c) s (.ok true) t ∧ s.Passes [c] t := by
  refine ⟨_, ?_, (reads_forward hs h).passes rfl hc⟩
  refine (isAtEnd_cons h).bind ((ends_cursor s).bind ((ends_charAt h).bind ?_))
  rw [if_pos rfl]
  exact (ends_moveTo s _).bind (ends_pure true _)

theorem matchChar_miss (h : s.rest.head? ≠ some c) : Ends (matchChar c) s (.ok false) s := by
  cases hrest : s.rest with
  | nil => exact (isAtEnd_nil hrest).bind (ends_pure false s)
  | cons d text =>
    have hd : d ≠ c := by
      rintro rfl
      exact h (by rw [hrest]; rfl)
    refine (isAtEnd_cons hrest).bind ((ends_cursor s).bind ((ends_charAt hrest).bind ?_))
    rw [if_neg hd]
    exact ends_pure false s

/-- Within a piece a line break leads to column one. -/
theorem advanceInside_passes (hs : s.Sound) (h : s.rest = c :: text) :
    ∃ t, Ends advanceInside s (.ok ()) t ∧ s.Passes [c] t := by
  by_cases hc : c = '\n'
  · obtain ⟨t, hline, hreads, hcursor⟩ := newLine_reads hs
    have hrest : t.rest = c :: text := by rw [← h, hreads.rest]; rfl
    obtain ⟨u, hadvance, hreads', hcursor'⟩ := advance_reads hreads.sound hrest
    refine ⟨u, ?_, hreads.trans hreads', ?_⟩
    · refine (peek_cons h).bind ?_
      rw [if_pos hc]
      exact hline.bind hadvance.discard
    · rw [Position.past_cons, Position.next, if_pos hc, position, hcursor', hcursor]
      rfl
  · obtain ⟨t, hadvance, hpasses⟩ := advance_passes hs h hc
    refine ⟨t, ?_, hpasses⟩
    refine (peek_cons h).bind ?_
    rw [if_neg hc]
    exact hadvance.discard

end Primitives

section Lexemes
variable {s t : Scanner} {text : List Char}

/-- What was read since the token began is its lexeme. -/
theorem lexeme_ends (hstart : s.cursor.start = s.cursor.offset) (h : s.Reads text t) :
    ∃ u, Ends lexeme t (.ok (String.ofList text)) u ∧ t.Passes [] u ∧ u.cursor = t.cursor := by
  have hslice : (t.source.take t.cursor.offset).drop t.cursor.start = text := by
    have hfront : t.source.drop s.cursor.offset = text ++ t.rest := by
      rw [h.source]
      exact h.rest
    rw [h.start, hstart, h.offset, List.drop_take, Nat.add_sub_cancel_left, hfront,
      List.take_left]
  have hrange : t.cursor.start ≤ t.cursor.offset ∧ t.cursor.offset ≤ t.source.length :=
    ⟨h.sound.start_le, h.sound.offset_le⟩
  have hsafe : (Event.sliced t.cursor).IsSafe t.source.length := hrange
  refine ⟨t.note (.sliced t.cursor), ?_, passes_note h.sound hsafe rfl, rfl⟩
  rw [Ends, lexeme, if_pos hrange, hslice]

theorem tokenHere_ends (hstart : s.cursor.start = s.cursor.offset) (h : s.Reads text t)
    (kind : TokenKind) :
    ∃ u, Ends (tokenHere kind) t (.ok (tokenBetween kind text s.position t.position)) u ∧
      t.Passes [] u := by
  obtain ⟨u, hlexeme, hpasses, hcursor⟩ := lexeme_ends hstart h
  refine ⟨u, ?_, hpasses⟩
  have htoken : tokenBetween kind text s.position t.position =
      ⟨kind, String.ofList text, u.cursor.start, u.cursor.offset, u.cursor.line,
        u.cursor.column⟩ := by
    rw [hcursor, h.start, hstart]
    rfl
  rw [htoken]
  exact hlexeme.bind ((ends_cursor u).bind (ends_pure _ u))

end Lexemes

end Scan
end SurfaceLanguage.Lexing
