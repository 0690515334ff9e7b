import SurfaceLanguage.Proofs.Lexing.Boundary
import SurfaceLanguage.Tree.Printer

/-!
# Forms that can be read off their text

The text of a form is legible when its words are: each is either bare, without
spaces, brackets and quotes, or stands in quotes and has none inside. What
follows a word then shows where the word ends, so that two legible forms with one
text are the same form, whatever stands inside the quotes.
-/
namespace SurfaceLanguage.Tree
open Form Lexing

/-- Neither a quote nor one of the characters that stand between words. -/
def isBare (c : Char) : Bool := c != ' ' && c != '(' && c != ')' && c != '"'

inductive IsAtom : List Char → Prop
  | bare {text : List Char} : text ≠ [] → (∀ c ∈ text, isBare c = true) → IsAtom text
  | quoted {inner : List Char} : '"' ∉ inner → IsAtom ('"' :: (inner ++ ['"']))

mutual

def Form.Legible : Form → Prop
  | .word text => IsAtom text.toList
  | .group parts => Form.AllLegible parts

def Form.AllLegible : List Form → Prop
  | [] => True
  | part :: parts => part.Legible ∧ Form.AllLegible parts

end

/-- Nothing follows, or the end of a word. -/
def EndsWord (rest : List Char) : Prop := ∀ c ∈ rest.head?, c = ' ' ∨ c = ')'

/-- Nothing follows, or the end of a group. -/
def EndsGroup (rest : List Char) : Prop := ∀ c ∈ rest.head?, c = ')'

theorem EndsGroup.endsWord {rest : List Char} (h : EndsGroup rest) : EndsWord rest :=
  fun c hc => .inr (h c hc)

theorem EndsWord.not_bare {rest : List Char} (h : EndsWord rest) :
    ∀ c ∈ rest.head?, isBare c = false := by
  intro c hc
  rcases h c hc with rfl | rfl <;> rfl

section Words
variable {text other rest rest' : List Char}

theorem IsAtom.head (h : IsAtom text) :
    ∃ c tail, text = c :: tail ∧ c ≠ ' ' ∧ c ≠ '(' ∧ c ≠ ')' := by
  cases h with
  | @bare _ hne hall =>
    cases text with
    | nil => exact absurd rfl hne
    | cons c tail =>
      have hc := hall c List.mem_cons_self
      simp only [isBare, Bool.and_eq_true, bne_iff_ne] at hc
      exact ⟨c, tail, rfl, hc.1.1.1, hc.1.1.2, hc.1.2⟩
  | quoted _ => exact ⟨'"', _, rfl, by decide, by decide, by decide⟩

theorem bare_append_ne_quoted (hne : text ≠ []) (hall : ∀ c ∈ text, isBare c = true) :
    text ++ rest ≠ '"' :: rest' := by
  intro h
  cases text with
  | nil => exact hne rfl
  | cons c tail =>
    obtain ⟨rfl, -⟩ := List.cons.inj h
    exact absurd (hall '"' List.mem_cons_self) (by decide)

/-- A word ends where it must, whichever of the two sorts it is. -/
theorem IsAtom.append_inj (htext : IsAtom text) (hother : IsAtom other) (hrest : EndsWord rest)
    (hrest' : EndsWord rest') (h : text ++ rest = other ++ rest') :
    text = other ∧ rest = rest' := by
  cases htext with
  | @bare _ hne hall =>
    cases hother with
    | @bare _ _ hall' =>
      have htake := congrArg (List.takeWhile isBare) h
      rw [takeWhile_append_of_stop hall hrest.not_bare,
        takeWhile_append_of_stop hall' hrest'.not_bare] at htake
      subst htake
      exact ⟨rfl, List.append_cancel_left h⟩
    | quoted _ => exact absurd h (bare_append_ne_quoted hne hall)
  | @quoted inner hinner =>
    cases hother with
    | @bare _ hne hall => exact absurd h.symm (bare_append_ne_quoted hne hall)
    | @quoted inner' hinner' =>
      have htail : inner ++ '"' :: rest = inner' ++ '"' :: rest' := by simpa using h
      have hclose := congrArg closeString htail
      rw [closeString_append_quote hinner, closeString_append_quote hinner'] at hclose
      simp only [Option.some.injEq, Prod.mk.injEq, List.append_cancel_right_eq] at hclose
      exact ⟨by rw [hclose.1], hclose.2⟩

end Words

/-- The forms of a row behind its first, a space in front of each. -/
def further : List Form → List Char
  | [] => []
  | part :: parts => ' ' :: (renderAll (part :: parts)).toList

theorem renderAll_cons (part : Form) (parts : List Form) :
    (renderAll (part :: parts)).toList = part.render.toList ++ further parts := by
  cases parts with
  | nil => simp [renderAll, further]
  | cons next parts => simp [renderAll, further]

theorem render_group (parts : List Form) :
    (Form.group parts).render.toList = '(' :: ((renderAll parts).toList ++ [')']) := by
  simp [render]

theorem endsWord_further {rest : List Char} (h : EndsGroup rest) :
    ∀ parts : List Form, EndsWord (further parts ++ rest)
  | [] => h.endsWord
  | _ :: _ => by rintro c ⟨⟩; exact .inl rfl

theorem Form.Legible.head {f : Form} (h : f.Legible) :
    ∃ c tail, f.render.toList = c :: tail ∧ c ≠ ' ' ∧ c ≠ ')' := by
  cases f with
  | word text =>
    obtain ⟨c, tail, heq, hspace, -, hclose⟩ := IsAtom.head h
    exact ⟨c, tail, heq, hspace, hclose⟩
  | group parts => exact ⟨'(', _, render_group parts, by decide, by decide⟩

theorem word_append_ne_group {text : String} (h : IsAtom text.toList) {parts : List Form}
    {rest rest' : List Char} :
    (Form.word text).render.toList ++ rest ≠ (Form.group parts).render.toList ++ rest' := by
  obtain ⟨c, tail, heq, -, hopen, -⟩ := h.head
  rw [render, heq, render_group]
  intro hcons
  exact hopen (List.cons.inj hcons).1

/-- A row that goes on is told from one that has ended by what comes next. -/
theorem cons_append_ne_rest {f : Form} (h : f.Legible) {parts : List Form}
    {rest rest' : List Char} (hrest : EndsGroup rest') :
    (renderAll (f :: parts)).toList ++ rest ≠ rest' := by
  obtain ⟨c, tail, heq, -, hclose⟩ := h.head
  rw [renderAll_cons, heq]
  rintro rfl
  exact hclose (hrest c rfl)

theorem further_append_ne_rest {part : Form} {parts : List Form} {rest rest' : List Char}
    (hrest : EndsGroup rest') : further (part :: parts) ++ rest ≠ rest' := by
  rintro rfl
  exact absurd (hrest ' ' rfl) (by decide)

-- The induction is on the first form and the first row. What stands behind them is
-- left open, because behind the last word of a group stands the group's bracket and
-- whatever follows the group.
mutual

theorem Form.render_append_inj : ∀ {f g : Form} {rest rest' : List Char},
    f.Legible → g.Legible → EndsWord rest → EndsWord rest' →
    f.render.toList ++ rest = g.render.toList ++ rest' → f = g ∧ rest = rest'
  | .word text, .word other, rest, rest', hf, hg, hrest, hrest', h => by
      obtain ⟨htext, heq⟩ := IsAtom.append_inj hf hg hrest hrest' h
      exact ⟨by rw [String.toList_inj.1 htext], heq⟩
  | .word _, .group _, _, _, hf, _, _, _, h => absurd h (word_append_ne_group hf)
  | .group _, .word _, _, _, _, hg, _, _, h => absurd h.symm (word_append_ne_group hg)
  | .group parts, .group parts', rest, rest', hf, hg, _, _, h => by
      rw [render_group, render_group] at h
      have hinside : (renderAll parts).toList ++ ')' :: rest =
          (renderAll parts').toList ++ ')' :: rest' := by simpa using h
      obtain ⟨rfl, heq⟩ := Form.renderAll_append_inj hf hg
        (by rintro c ⟨⟩; rfl) (by rintro c ⟨⟩; rfl) hinside
      exact ⟨rfl, (List.cons.inj heq).2⟩

theorem Form.renderAll_append_inj : ∀ {fs gs : List Form} {rest rest' : List Char},
    AllLegible fs → AllLegible gs → EndsGroup rest → EndsGroup rest' →
    (renderAll fs).toList ++ rest = (renderAll gs).toList ++ rest' → fs = gs ∧ rest = rest'
  | [], [], _, _, _, _, _, _, h => ⟨rfl, h⟩
  | [], _ :: _, _, _, _, hg, hrest, _, h => absurd h.symm (cons_append_ne_rest hg.1 hrest)
  | _ :: _, [], _, _, hf, _, _, hrest', h => absurd h (cons_append_ne_rest hf.1 hrest')
  | f :: fs, g :: gs, rest, rest', hf, hg, hrest, hrest', h => by
      rw [renderAll_cons, renderAll_cons, List.append_assoc, List.append_assoc] at h
      obtain ⟨rfl, htail⟩ := Form.render_append_inj hf.1 hg.1 (endsWord_further hrest fs)
        (endsWord_further hrest' gs) h
      cases fs with
      | nil =>
        cases gs with
        | nil => exact ⟨rfl, htail⟩
        | cons next gs => exact absurd htail.symm (further_append_ne_rest hrest)
      | cons next fs =>
        cases gs with
        | nil => exact absurd htail (further_append_ne_rest hrest')
        | cons next' gs =>
          obtain ⟨hall, heq⟩ := Form.renderAll_append_inj hf.2 hg.2 hrest hrest'
            (List.cons.inj htail).2
          exact ⟨by rw [hall], heq⟩

end

theorem Form.render_inj {f g : Form} (hf : f.Legible) (hg : g.Legible)
    (h : f.render = g.render) : f = g :=
  (Form.render_append_inj hf hg (by simp [EndsWord]) (by simp [EndsWord])
    (congrArg (String.toList · ++ []) h)).1

/-- Legible rows with one text are one row. -/
theorem Form.renderAll_inj {fs gs : List Form} (hf : AllLegible fs) (hg : AllLegible gs)
    (h : renderAll fs = renderAll gs) : fs = gs :=
  (Form.renderAll_append_inj hf hg (by simp [EndsGroup]) (by simp [EndsGroup])
    (congrArg (String.toList · ++ []) h)).1

end SurfaceLanguage.Tree
