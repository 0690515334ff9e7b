import SurfaceLanguage.Proofs.Batch.Accounting

/-!
# Progress of a pool

Every move does one of the three things that each job needs: it is sent, taken and
finished. The work that is left goes down by one with every move, so no schedule is longer
than the work, and a pool with a worker and room in its queue can move until nothing is left.
-/
namespace SurfaceLanguage.Batch.Pool

/-- The moves that the jobs still need. -/
def work (p : Pool) : Nat := 3 * p.pending.length + 2 * p.queue.length + p.held.length

/-- There is a worker, and the queue can hold a job. -/
structure Able (p : Pool) : Prop where
  capacity_pos : 0 < p.capacity
  hands_pos : 0 < p.hands.length

theorem Step.able {p q : Pool} {move : Move} (h : p.Step move q) (hable : p.Able) : q.Able := by
  obtain ⟨hcapacity, hhands⟩ := hable
  cases h with
  | send _ _ => exact ⟨hcapacity, hhands⟩
  | take _ _ => exact ⟨hcapacity, by simpa using hhands⟩
  | finish _ => exact ⟨hcapacity, by simpa using hhands⟩

/-- One move does one piece of work. -/
theorem Step.work_eq {p q : Pool} {move : Move} (h : p.Step move q) : p.work = q.work + 1 := by
  cases h with
  | @send job rest hpending _ =>
    simp only [work, held, hpending, List.length_append, List.length_cons, List.length_nil]
    omega
  | @take worker job rest hqueue hhand =>
    obtain ⟨before, after, hold, hnew⟩ := exists_reduceOption_set hhand (some job)
    simp only [work, held, hqueue, hold, hnew, Option.toList_some, Option.toList_none,
      List.length_append, List.length_cons, List.length_nil]
    omega
  | @finish worker job hhand =>
    obtain ⟨before, after, hold, hnew⟩ := exists_reduceOption_set hhand none
    simp only [work, held, hold, hnew, Option.toList_some, Option.toList_none,
      List.length_append, List.length_cons, List.length_nil]
    omega

theorem isDrained_of_work_eq_zero {p : Pool} (h : p.work = 0) : p.isDrained = true := by
  unfold work at h
  rw [isDrained_iff]
  refine ⟨?_, ?_, ?_⟩
  · exact List.length_eq_zero_iff.1 (by omega)
  · exact List.length_eq_zero_iff.1 (by omega)
  · exact List.length_eq_zero_iff.1 (by omega)

theorem next?_step {p q : Pool} (h : p.next? = some q) : ∃ move, p.Step move q := by
  obtain ⟨move, -, hmove⟩ := List.exists_of_findSome?_eq_some h
  exact ⟨move, step?_eq_some_iff.1 hmove⟩

/-- Where no move is enabled nothing is left: a worker that holds a job could finish it, an
idle one could take the next from the queue, and an empty queue has room. -/
theorem isDrained_of_next?_eq_none {p : Pool} (h : p.next? = none) (hable : p.Able) :
    p.isDrained = true := by
  have hstuck : ∀ move ∈ p.moves, ∀ q, ¬ p.Step move q := by
    intro move hmove q hstep
    have hnone := List.findSome?_eq_none_iff.1 h move hmove
    rw [step?_eq_some_iff.2 hstep] at hnone
    cases hnone
  have hidle : ∀ hand ∈ p.hands, hand = none := by
    intro hand hmem
    cases hand with
    | none => rfl
    | some job =>
      obtain ⟨worker, hlt, hhand⟩ := List.mem_iff_getElem.1 hmem
      have hfinish : .finish worker ∈ p.moves := by simp [moves, hlt]
      exact absurd (.finish (List.getElem?_eq_some_iff.2 ⟨hlt, hhand⟩)) (hstuck _ hfinish _)
  have hqueue : p.queue = [] := by
    cases hjobs : p.queue with
    | nil => rfl
    | cons job rest =>
      have htake : .take 0 ∈ p.moves := by simp [moves, hable.hands_pos]
      have hhand := hidle _ (List.getElem_mem hable.hands_pos)
      exact absurd (.take hjobs (List.getElem?_eq_some_iff.2 ⟨hable.hands_pos, hhand⟩))
        (hstuck _ htake _)
  have hpending : p.pending = [] := by
    cases hjobs : p.pending with
    | nil => rfl
    | cons job rest =>
      have hsend : .send ∈ p.moves := by simp [moves]
      have hroom : p.queue.length < p.capacity := by simpa [hqueue] using hable.capacity_pos
      exact absurd (.send hjobs hroom) (hstuck _ hsend _)
  exact isDrained_iff.2 ⟨hpending, hqueue, held_eq_nil_iff.2 hidle⟩

/-- A run with enough fuel follows some schedule until the pool is drained. -/
theorem run_isDrained {fuel : Nat} {p : Pool} (hable : p.Able) (hfuel : p.work ≤ fuel) :
    (p.run fuel).isDrained = true ∧ ∃ schedule, p.follow? schedule = some (p.run fuel) := by
  induction fuel generalizing p with
  | zero => exact ⟨isDrained_of_work_eq_zero (Nat.le_zero.1 hfuel), [], rfl⟩
  | succ fuel ih =>
    rw [run]
    split
    · next q hnext =>
        obtain ⟨move, hstep⟩ := next?_step hnext
        have hwork := hstep.work_eq
        obtain ⟨hdrained, schedule, hschedule⟩ := ih (hstep.able hable) (by omega)
        refine ⟨hdrained, move :: schedule, ?_⟩
        rw [follow?_cons, step?_eq_some_iff.2 hstep]
        exact hschedule
    · next hnext => exact ⟨isDrained_of_next?_eq_none hnext hable, [], rfl⟩

theorem able_start {capacity workers : Nat} (hcapacity : 0 < capacity) (hworkers : 0 < workers)
    (sources : List String) : (start capacity workers sources).Able :=
  ⟨hcapacity, by simpa [start] using hworkers⟩

theorem work_start (capacity workers : Nat) (sources : List String) :
    (start capacity workers sources).work =
      3 * (start capacity workers sources).pending.length := by
  have hheld : (start capacity workers sources).held = [] :=
    held_eq_nil_iff.2 fun _ hhand => List.eq_of_mem_replicate hhand
  simp [work, hheld, show (start capacity workers sources).queue = [] from rfl]

/-- A pool that was started with a worker and a queue can be drained after any schedule. -/
theorem exists_isDrained {capacity workers : Nat} (hcapacity : 0 < capacity)
    (hworkers : 0 < workers) {sources : List String} {schedule : List Move} {q : Pool}
    (h : (start capacity workers sources).follow? schedule = some q) :
    ∃ more r, q.follow? more = some r ∧ r.isDrained = true := by
  have hable : q.Able := follow?_induction Able
    (fun _ _ _ hp hstep => hstep.able hp) h (able_start hcapacity hworkers sources)
  obtain ⟨hdrained, more, hmore⟩ := run_isDrained hable (Nat.le_refl q.work)
  exact ⟨more, _, hmore, hdrained⟩

end SurfaceLanguage.Batch.Pool
