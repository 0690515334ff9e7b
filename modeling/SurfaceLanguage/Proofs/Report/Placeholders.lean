import SurfaceLanguage.Proofs.Report.Messages
import Mathlib.Data.List.Infix
import Mathlib.Logic.ExistsUnique

/-!
# Placeholders and what is put in their place

A template is cut at its first placeholder, the text behind that at its first one again,
and so on to the end. Filling puts the arguments between the parts, in order and as they
are, and leaves the placeholders for which there is no argument.

Messages can also be filled in place, with an offset in bytes up to which the text is
done. The offset moves behind every inserted argument, so that neither the argument nor
its seams with the template are searched. Both ways lead to the same text.
-/
namespace SurfaceLanguage

def placeholder : List Char := ['{', '}']

/-- No placeholder of the text begins before the one behind `front`. -/
def IsLeftmost (front rest : List Char) : Prop :=
  ∀ before after, front ++ '{' :: '}' :: rest = before ++ '{' :: '}' :: after →
    front.length ≤ before.length

/-- The parts of a template: the first, and the one behind each placeholder. -/
inductive Parts : List Char → List Char → List (List Char) → Prop
  | last {text : List Char} : ¬ placeholder <:+: text → Parts text text []
  | cut {front rest first : List Char} {others : List (List Char)} : IsLeftmost front rest →
      Parts rest first others → Parts (front ++ '{' :: '}' :: rest) front (first :: others)

/-- A text in front of its first placeholder and behind it. -/
def splitFirst? : List Char → Option (List Char × List Char)
  | [] => none
  | '{' :: '}' :: rest => some ([], rest)
  | c :: rest => (splitFirst? rest).map fun (front, after) => (c :: front, after)

theorem infix_placeholder_iff {text : List Char} :
    placeholder <:+: text ↔ ∃ before after, text = before ++ '{' :: '}' :: after := by
  constructor
  · rintro ⟨before, after, rfl⟩
    exact ⟨before, after, by simp [placeholder]⟩
  · rintro ⟨before, after, rfl⟩
    exact ⟨before, after, by simp [placeholder]⟩

theorem IsLeftmost.nil (rest : List Char) : IsLeftmost [] rest := fun _ _ _ => Nat.zero_le _

theorem IsLeftmost.cons {c : Char} {front rest : List Char} (h : IsLeftmost front rest)
    (hc : c = '{' → (front ++ '{' :: '}' :: rest).head? ≠ some '}') :
    IsLeftmost (c :: front) rest := by
  intro before after hsplit
  cases before with
  | nil =>
    obtain ⟨rfl, htail⟩ := List.cons.inj hsplit
    exact absurd (congrArg List.head? htail) (hc rfl)
  | cons d before =>
    have hle := h before after (List.cons.inj hsplit).2
    simpa using hle

/-- The first placeholder stands in one place only. -/
theorem IsLeftmost.unique {front rest other behind : List Char} (h : IsLeftmost front rest)
    (hother : IsLeftmost other behind)
    (htext : front ++ '{' :: '}' :: rest = other ++ '{' :: '}' :: behind) :
    front = other ∧ rest = behind := by
  have hlength := Nat.le_antisymm (h _ _ htext) (hother _ _ htext.symm)
  obtain ⟨hfront, htail⟩ := List.append_inj htext hlength
  exact ⟨hfront, (List.cons.inj (List.cons.inj htail).2).2⟩

theorem splitFirst?_eq_some {text front after : List Char}
    (h : splitFirst? text = some (front, after)) :
    text = front ++ '{' :: '}' :: after ∧ IsLeftmost front after := by
  fun_induction splitFirst? text generalizing front after with
  | case1 => cases h
  | case2 rest =>
    cases h
    exact ⟨rfl, .nil rest⟩
  | case3 c rest hc ih =>
    obtain ⟨⟨tail, behind⟩, hsplit, hparts⟩ := Option.map_eq_some_iff.1 h
    obtain ⟨rfl, rfl⟩ := Prod.mk.inj hparts
    obtain ⟨rfl, hleftmost⟩ := ih hsplit
    refine ⟨rfl, hleftmost.cons ?_⟩
    intro hbrace hhead
    obtain ⟨more, hmore⟩ := List.head?_eq_some_iff.1 hhead
    exact hc more hbrace hmore

theorem splitFirst?_eq_none_iff {text : List Char} :
    splitFirst? text = none ↔ ¬ placeholder <:+: text := by
  fun_induction splitFirst? text with
  | case1 => simp [placeholder]
  | case2 rest =>
    have hhere : placeholder <:+: '{' :: '}' :: rest := ⟨[], rest, rfl⟩
    simp only [reduceCtorEq, hhere, not_true_eq_false]
  | case3 c rest hc ih =>
    have hfront : ¬ placeholder <+: c :: rest := by
      rintro ⟨after, hafter⟩
      obtain ⟨rfl, rfl⟩ := List.cons.inj hafter
      exact hc after rfl rfl
    rw [Option.map_eq_none_iff, ih, List.infix_cons_iff]
    simp [hfront]

theorem splitFirst?_of_leftmost {front rest : List Char} (h : IsLeftmost front rest) :
    splitFirst? (front ++ '{' :: '}' :: rest) = some (front, rest) := by
  cases hsplit : splitFirst? (front ++ '{' :: '}' :: rest) with
  | none =>
    have hhere := infix_placeholder_iff.2 ⟨front, rest, rfl⟩
    exact absurd hhere (splitFirst?_eq_none_iff.1 hsplit)
  | some parts =>
    obtain ⟨htext, hother⟩ := splitFirst?_eq_some hsplit
    obtain ⟨rfl, rfl⟩ := h.unique hother htext
    rfl

theorem exists_parts (text : List Char) : ∃ first others, Parts text first others := by
  cases hsplit : splitFirst? text with
  | none => exact ⟨text, [], .last (splitFirst?_eq_none_iff.1 hsplit)⟩
  | some cut =>
    obtain ⟨front, rest⟩ := cut
    obtain ⟨htext, hleftmost⟩ := splitFirst?_eq_some hsplit
    have hshorter : rest.length < text.length := by
      rw [htext, List.length_append, List.length_cons]
      simp only [List.length_cons]
      omega
    obtain ⟨first, others, hparts⟩ := exists_parts rest
    rw [htext]
    exact ⟨front, first :: others, .cut hleftmost hparts⟩
termination_by text.length

theorem Parts.unique {text first first' : List Char} {others others' : List (List Char)}
    (h : Parts text first others) (h' : Parts text first' others') :
    first' = first ∧ others' = others := by
  induction h generalizing first' others' with
  | last hnone =>
    cases h' with
    | last _ => exact ⟨rfl, rfl⟩
    | cut _ _ => exact absurd (infix_placeholder_iff.2 ⟨_, _, rfl⟩) hnone
  | @cut front rest first others hleftmost _ ih =>
    generalize htext : front ++ '{' :: '}' :: rest = text at h'
    cases h' with
    | last hnone => exact absurd (infix_placeholder_iff.2 ⟨_, _, htext.symm⟩) hnone
    | cut hother hparts =>
      obtain ⟨rfl, rfl⟩ := hleftmost.unique hother htext
      obtain ⟨rfl, rfl⟩ := ih hparts
      exact ⟨rfl, rfl⟩

/-! Filling, one placeholder at a time. -/

theorem fillLetters_of_split {text front after : List Char}
    (h : splitFirst? text = some (front, after)) (argument : String) (arguments : List String) :
    fillLetters text (argument :: arguments) =
      front ++ (argument.toList ++ fillLetters after arguments) := by
  fun_induction splitFirst? text generalizing front after with
  | case1 => cases h
  | case2 rest =>
    cases h
    rfl
  | case3 c rest hc ih =>
    obtain ⟨⟨tail, behind⟩, hsplit, hparts⟩ := Option.map_eq_some_iff.1 h
    obtain ⟨rfl, rfl⟩ := Prod.mk.inj hparts
    rw [fillLetters_cons_of_not hc, ih hsplit]
    rfl

theorem fillLetters_of_none {text : List Char} (h : splitFirst? text = none)
    (arguments : List String) : fillLetters text arguments = text := by
  fun_induction splitFirst? text with
  | case1 => cases arguments <;> rfl
  | case2 rest => cases h
  | case3 c rest hc ih =>
    rw [fillLetters_cons_of_not hc, ih (Option.map_eq_none_iff.1 h)]

/-- What comes to stand in the place of so many placeholders: the arguments, and
placeholders where they run out. -/
def fillers (count : Nat) (arguments : List String) : List (List Char) :=
  (arguments.take count).map String.toList ++
    List.replicate (count - arguments.length) placeholder

theorem fillers_succ_nil (count : Nat) :
    fillers (count + 1) [] = placeholder :: fillers count [] := by
  simp [fillers, List.replicate_succ]

theorem fillers_succ_cons (count : Nat) (argument : String) (arguments : List String) :
    fillers (count + 1) (argument :: arguments) = argument.toList :: fillers count arguments := by
  simp [fillers]

/-- Parts with a filler between neighbours. -/
def joined (first : List Char) (fillers others : List (List Char)) : List Char :=
  first ++ (List.zipWith (· ++ ·) fillers others).flatten

theorem fillLetters_of_parts {text first : List Char} {others : List (List Char)}
    (h : Parts text first others) (arguments : List String) :
    fillLetters text arguments = joined first (fillers others.length arguments) others := by
  induction h generalizing arguments with
  | last hnone =>
    rw [fillLetters_of_none (splitFirst?_eq_none_iff.2 hnone)]
    simp [joined]
  | @cut front rest first others hleftmost _ ih =>
    cases arguments with
    | nil =>
      have hrest := ih []
      rw [fillLetters] at hrest ⊢
      rw [List.length_cons, fillers_succ_nil, hrest]
      simp [joined, placeholder]
    | cons argument arguments =>
      rw [fillLetters_of_split (splitFirst?_of_leftmost hleftmost), List.length_cons,
        fillers_succ_cons, ih]
      simp [joined]

/-! Filling in place. -/

def byteLength : List Char → Nat
  | [] => 0
  | c :: text => c.utf8Size + byteLength text

/-- A text in front of a byte offset and behind it. Within a character there is no cut. -/
def splitAtByte? : List Char → Nat → Option (List Char × List Char)
  | text, 0 => some ([], text)
  | [], _ => none
  | c :: text, offset =>
      if c.utf8Size ≤ offset then
        (splitAtByte? text (offset - c.utf8Size)).map fun (front, rest) => (c :: front, rest)
      else none

theorem splitAtByte?_append (front rest : List Char) :
    splitAtByte? (front ++ rest) (byteLength front) = some (front, rest) := by
  induction front with
  | nil => exact splitAtByte?.eq_1 rest
  | cons c front ih =>
    have hpos := c.utf8Size_pos
    have hlength : byteLength (c :: front) = c.utf8Size + byteLength front := rfl
    have hne : byteLength (c :: front) = 0 → False := by omega
    rw [List.cons_append, splitAtByte?.eq_3 _ _ _ hne, if_pos (by omega), hlength,
      Nat.add_sub_cancel_left, ih]
    rfl

/-- A message that is filled in place, and the byte offset up to which it is done. -/
structure Filling where
  text : List Char
  offset : Nat

/-- Replaces the first placeholder behind the offset, if there is one, and moves the
offset behind the argument. It fails on an offset within a character. -/
def Filling.step? (f : Filling) (argument : String) : Option Filling := do
  let (_, unread) ← splitAtByte? f.text f.offset
  match splitFirst? unread with
  | none => return f
  | some (front, _) =>
      let place := f.offset + byteLength front
      let (before, behind) ← splitAtByte? f.text place
      let (_, after) ← splitAtByte? behind (byteLength placeholder)
      return ⟨before ++ argument.toList ++ after, place + byteLength argument.toList⟩

def fillInPlace? (template : String) (arguments : List String) : Option String :=
  (arguments.foldlM Filling.step? ⟨template.toList, 0⟩).map (String.ofList ·.text)

/-- A message whose offset stands between two parts of it. -/
def Filling.between (done unread : List Char) : Filling := ⟨done ++ unread, byteLength done⟩

theorem byteLength_append (xs ys : List Char) :
    byteLength (xs ++ ys) = byteLength xs + byteLength ys := by
  induction xs with
  | nil => exact (Nat.zero_add _).symm
  | cons c xs ih => rw [List.cons_append, byteLength, byteLength, ih, Nat.add_assoc]

theorem step?_of_none {unread : List Char} (h : splitFirst? unread = none) (done : List Char)
    (argument : String) :
    (Filling.between done unread).step? argument = some (.between done unread) := by
  simp [Filling.step?, Filling.between, splitAtByte?_append, h]

/-- The argument belongs to what is done, so that it is not searched. -/
theorem step?_of_split {unread front after : List Char}
    (h : splitFirst? unread = some (front, after)) (done : List Char) (argument : String) :
    (Filling.between done unread).step? argument =
      some (.between (done ++ front ++ argument.toList) after) := by
  have hunread : unread = front ++ (placeholder ++ after) := (splitFirst?_eq_some h).1
  have hplace : splitAtByte? (done ++ unread) (byteLength done + byteLength front) =
      some (done ++ front, placeholder ++ after) := by
    rw [hunread, ← List.append_assoc, ← byteLength_append]
    exact splitAtByte?_append _ _
  simp [Filling.step?, Filling.between, splitAtByte?_append, h, hplace, byteLength_append,
    Nat.add_assoc]

theorem foldlM_step? (arguments : List String) (done unread : List Char) :
    ∃ offset, arguments.foldlM Filling.step? (.between done unread) =
      some ⟨done ++ fillLetters unread arguments, offset⟩ := by
  induction arguments generalizing done unread with
  | nil => exact ⟨byteLength done, by rw [fillLetters]; rfl⟩
  | cons argument arguments ih =>
    cases hsplit : splitFirst? unread with
    | none =>
      obtain ⟨offset, hrun⟩ := ih done unread
      refine ⟨offset, ?_⟩
      rw [List.foldlM_cons, step?_of_none hsplit, fillLetters_of_none hsplit]
      rw [fillLetters_of_none hsplit] at hrun
      exact hrun
    | some cut =>
      obtain ⟨front, after⟩ := cut
      obtain ⟨offset, hrun⟩ := ih (done ++ front ++ argument.toList) after
      refine ⟨offset, ?_⟩
      rw [List.foldlM_cons, step?_of_split hsplit, fillLetters_of_split hsplit]
      simpa using hrun

theorem fillInPlace?_eq (template : String) (arguments : List String) :
    fillInPlace? template arguments = some (fill template arguments) := by
  obtain ⟨offset, hrun⟩ := foldlM_step? arguments [] template.toList
  rw [fillInPlace?, fill]
  exact congrArg (Option.map _) hrun

/-- A template has one way to be cut at its placeholders. Filling it, in place or not,
puts the arguments between the parts, in order and as they are, and leaves placeholders
where the arguments run out. -/
theorem fill_between_parts (template : String) (arguments : List String) :
    (∃! parts : List Char × List (List Char), Parts template.toList parts.1 parts.2) ∧
    (∀ first others, Parts template.toList first others →
      (fill template arguments).toList =
        first ++ (List.zipWith (· ++ ·)
          ((arguments.take others.length).map String.toList ++
            List.replicate (others.length - arguments.length) ['{', '}']) others).flatten) ∧
    fillInPlace? template arguments = some (fill template arguments) := by
  refine ⟨?_, ?_, fillInPlace?_eq template arguments⟩
  · obtain ⟨first, others, hparts⟩ := exists_parts template.toList
    refine ⟨(first, others), hparts, ?_⟩
    intro parts hother
    obtain ⟨hfirst, hothers⟩ := hparts.unique hother
    exact Prod.ext hfirst hothers
  · intro first others hparts
    rw [fill, String.toList_ofList]
    exact fillLetters_of_parts hparts arguments

/-- The braces of the first argument and of the template meet those of the second one, and
none of them becomes a placeholder. The last placeholder stays. -/
theorem fill_between_parts_of_braces :
    Parts (String.ofList ['a', '{', '}', '{', '{', '}', '}', 'b', '{', '}']).toList
      ['a'] [['{'], ['}', 'b'], []] ∧
    (fill (String.ofList ['a', '{', '}', '{', '{', '}', '}', 'b', '{', '}'])
        [String.ofList ['{'], String.ofList ['}', 'é', '{', '}']]).toList =
      ['a', '{', '{', '}', 'é', '{', '}', '}', 'b', '{', '}'] := by
  have hfirst : splitFirst? ['a', '{', '}', '{', '{', '}', '}', 'b', '{', '}'] =
      some (['a'], ['{', '{', '}', '}', 'b', '{', '}']) := rfl
  have hsecond : splitFirst? ['{', '{', '}', '}', 'b', '{', '}'] =
      some (['{'], ['}', 'b', '{', '}']) := rfl
  have hthird : splitFirst? ['}', 'b', '{', '}'] = some (['}', 'b'], []) := rfl
  have hparts : Parts (String.ofList ['a', '{', '}', '{', '{', '}', '}', 'b', '{', '}']).toList
      ['a'] [['{'], ['}', 'b'], []] := by
    rw [String.toList_ofList]
    exact .cut (splitFirst?_eq_some hfirst).2 (.cut (splitFirst?_eq_some hsecond).2
      (.cut (splitFirst?_eq_some hthird).2 (.last (by decide))))
  refine ⟨hparts, ?_⟩
  rw [(fill_between_parts _ _).2.1 _ _ hparts]
  simp

end SurfaceLanguage
