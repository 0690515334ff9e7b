import SurfaceLanguage.Proofs.Batch.Progress

/-!
# A batch does what its units do alone

Whatever the order in which the sender and the workers move, and however many workers and
places in the queue there are, a drained pool has lexed each unit once. Named after the
units, its results are those of lexing one unit after the other.
-/
namespace SurfaceLanguage.Batch
open SurfaceLanguage.Lexing

/-- The outcome of a unit that is lexed alone. -/
def SourceUnit.outcome (unit : SourceUnit) : Outcome := ⟨unit.name, lex unit.source⟩

theorem mapM_eq_ok {α β ε : Type} {f : α → Except ε β} {g : α → β} {xs : List α}
    (h : ∀ x ∈ xs, f x = .ok (g x)) : xs.mapM f = .ok (xs.map g) := by
  induction xs with
  | nil => rfl
  | cons x xs ih =>
    have hrest := ih fun y hy => h y (List.mem_cons_of_mem x hy)
    rw [List.mapM_cons, h x List.mem_cons_self, hrest]
    rfl

/-- The outcomes of a pool in which every unit has its result. -/
theorem outcomes_eq_ok {p : Pool} {units : List SourceUnit}
    (h : ∀ i unit, units[i]? = some unit → p.result? i = some (lex unit.source)) :
    outcomes p units = .ok (units.map (·.outcome)) := by
  have hnames : units.zipIdx.map (SourceUnit.outcome ∘ Prod.fst) = units.map (·.outcome) := by
    rw [← List.map_map, List.zipIdx_map_fst]
  rw [← hnames]
  refine mapM_eq_ok fun entry hentry => ?_
  have hresult := h entry.2 entry.1 (List.mem_zipIdx_iff_getElem?.1 hentry)
  simp only [hresult]
  rfl

section Started
variable {config : Config} {units : List SourceUnit} {schedule : List Move} {q : Pool}

theorem written_once (h : (startPool config units).follow? schedule = some q)
    (hdrained : q.isDrained = true) {i : Nat} {unit : SourceUnit} (hunit : units[i]? = some unit) :
    q.written.filter (·.1 == i) = [(i, lex unit.source)] :=
  Pool.written_once_of_isDrained h hdrained (by rw [List.getElem?_map, hunit]; rfl)

theorem outcomes_of_isDrained (h : (startPool config units).follow? schedule = some q)
    (hdrained : q.isDrained = true) : outcomes q units = .ok (units.map (·.outcome)) :=
  outcomes_eq_ok fun _ _ hunit => q.result?_of_written_once (written_once h hdrained hunit)

end Started

/-- Batch equals sequential. After any schedule that drains the pool of a batch, the slot
of every unit was written exactly once, with the result of its source, and nothing else
was written. No schedule leads to a pool that cannot be drained any more. So the outcomes
of a batch are those of its units alone, in their order, whatever the numbers of workers
and of places in the queue. -/
theorem batch_eq_sequential (config : Config) (units : List SourceUnit) :
    (∀ schedule q, (startPool config units).follow? schedule = some q → q.isDrained = true →
      q.written.length = units.length ∧
      (∀ i unit, units[i]? = some unit → q.written.filter (·.1 == i) = [(i, lex unit.source)]) ∧
      outcomes q units = .ok (units.map (·.outcome))) ∧
    (∀ schedule q, (startPool config units).follow? schedule = some q →
      ∃ more r, q.follow? more = some r ∧ r.isDrained = true) ∧
    lexAll config units = .ok (units.map (·.outcome)) := by
  have hcapacity : 0 < config.capacity := Nat.le_max_left 1 _
  have hworkers : 0 < config.workerCount units.length := Nat.le_max_left 1 _
  refine ⟨?_, ?_, ?_⟩
  · intro schedule q h hdrained
    refine ⟨?_, fun i unit => written_once h hdrained, outcomes_of_isDrained h hdrained⟩
    simpa using (Pool.written_perm_of_isDrained h hdrained).length_eq
  · intro schedule q h
    exact Pool.exists_isDrained hcapacity hworkers h
  · have hfuel : (startPool config units).work ≤ 3 * (startPool config units).pending.length :=
      Nat.le_of_eq (Pool.work_start _ _ _)
    obtain ⟨hdrained, schedule, h⟩ :=
      Pool.run_isDrained (Pool.able_start hcapacity hworkers _) hfuel
    have hall := outcomes_of_isDrained h hdrained
    cases units with
    | nil => rfl
    | cons unit units => exact hall

/-- Two workers finish in the other order. The first unit is in error, and both have one
name. -/
theorem batch_eq_sequential_of_two :
    let config : Config := { workers := 5, queueCapacity := 0 }
    let units : List SourceUnit := [⟨"a", "'"⟩, ⟨"a", "1"⟩]
    let schedule : List Move := [.send, .take 1, .send, .take 0, .finish 0, .finish 1]
    ∃ q, (startPool config units).follow? schedule = some q ∧ q.isDrained = true ∧
      q.written = [(1, lex "1"), (0, lex "'")] ∧
      outcomes q units = .ok [⟨"a", lex "'"⟩, ⟨"a", lex "1"⟩] ∧
      lexAll config units = .ok [⟨"a", lex "'"⟩, ⟨"a", lex "1"⟩] := by
  intro config units schedule
  have h : (startPool config units).follow? schedule =
      some ⟨1, [], [], [none, none], [(1, lex "1"), (0, lex "'")]⟩ := rfl
  have hall := batch_eq_sequential config units
  exact ⟨_, h, rfl, rfl, (hall.1 schedule _ h rfl).2.2, hall.2.2⟩

end SurfaceLanguage.Batch
