import Mathlib.Data.List.Perm.Basic
import Mathlib.Data.List.ReduceOption
import SurfaceLanguage.Batch.LexAll

/-!
# Accounting for jobs

A job is with the sender, in the queue, in the hands of a worker, or written. A move takes
one job from one of these places to the next, so the account of a pool, which has an entry
for every job wherever it is, stays the same but for its order. Once a pool is drained the
account is the log: every index has been written once, with the result of its source.
-/
namespace SurfaceLanguage.Batch
open SurfaceLanguage.Lexing

/-- What a job will have left in the log. -/
def Job.entry (job : Job) : Nat × Result := (job.index, lex job.source)

namespace Pool

/-- What a move needs and what it does. -/
inductive Step (p : Pool) : Move → Pool → Prop
  | send {job : Job} {rest : List Job} : p.pending = job :: rest → p.queue.length < p.capacity →
      Step p .send { p with pending := rest, queue := p.queue ++ [job] }
  | take {worker : Nat} {job : Job} {rest : List Job} : p.queue = job :: rest →
      p.hands[worker]? = some none →
      Step p (.take worker) { p with queue := rest, hands := p.hands.set worker (some job) }
  | finish {worker : Nat} {job : Job} : p.hands[worker]? = some (some job) →
      Step p (.finish worker)
        { p with hands := p.hands.set worker none, written := p.written ++ [job.entry] }

theorem step?_eq_some_iff {p q : Pool} {move : Move} : p.step? move = some q ↔ p.Step move q := by
  constructor
  · intro h
    cases move with
    | send =>
      rw [step?] at h
      split at h
      · next job rest hpending =>
          split at h
          · next hroom => exact Option.some.inj h ▸ .send hpending hroom
          · cases h
      · cases h
    | take worker =>
      rw [step?] at h
      split at h
      · next job rest hqueue hhand => exact Option.some.inj h ▸ .take hqueue hhand
      · cases h
    | finish worker =>
      rw [step?] at h
      split at h
      · next job hhand => exact Option.some.inj h ▸ .finish hhand
      · cases h
  · intro h
    cases h with
    | send hpending hroom => simp [step?, hpending, hroom]
    | take hqueue hhand => simp [step?, hqueue, hhand]
    | finish hhand => simp [step?, hhand, Job.entry]

/-- The jobs in the hands of workers. -/
def held (p : Pool) : List Job := p.hands.reduceOption

/-- The entries of all jobs, those already written last. -/
def account (p : Pool) : List (Nat × Result) :=
  (p.pending ++ (p.queue ++ p.held)).map Job.entry ++ p.written

/-- Changing what one worker holds leaves the others alone. -/
theorem exists_reduceOption_set {hands : List (Option Job)} {worker : Nat} {old : Option Job}
    (h : hands[worker]? = some old) (new : Option Job) :
    ∃ before after, hands.reduceOption = before ++ (old.toList ++ after) ∧
      (hands.set worker new).reduceOption = before ++ (new.toList ++ after) := by
  obtain ⟨hlt, hold⟩ := List.getElem?_eq_some_iff.1 h
  obtain ⟨before, after, hhands, -, hset⟩ := @List.exists_of_set _ worker new hands hlt
  rw [hold] at hhands
  refine ⟨before.reduceOption, after.reduceOption, ?_, ?_⟩
  · rw [hhands, List.reduceOption_append]
    cases old <;> rfl
  · rw [hset, List.reduceOption_append]
    cases new <;> rfl

/-- One move keeps the account. -/
theorem Step.account_perm {p q : Pool} {move : Move} (h : p.Step move q) :
    q.account.Perm p.account := by
  cases h with
  | @send job rest hpending _ =>
    have hjobs : (rest ++ (p.queue ++ [job] ++ p.held)).Perm
        (job :: rest ++ (p.queue ++ p.held)) := by
      simpa using @List.perm_middle _ job (rest ++ p.queue) p.held
    have haccount : p.account =
        (job :: rest ++ (p.queue ++ p.held)).map Job.entry ++ p.written := by
      rw [account, hpending]
    rw [haccount]
    exact (hjobs.map Job.entry).append_right p.written
  | @take worker job rest hqueue hhand =>
    obtain ⟨before, after, hold, hnew⟩ := exists_reduceOption_set hhand (some job)
    have hjobs : (rest ++ (before ++ job :: after)).Perm (job :: rest ++ (before ++ after)) := by
      simpa using @List.perm_middle _ job (rest ++ before) after
    rw [account, account, held, held, hqueue, hnew, hold]
    exact ((hjobs.append_left p.pending).map Job.entry).append_right p.written
  | @finish worker job hhand =>
    obtain ⟨before, after, hold, hnew⟩ := exists_reduceOption_set hhand none
    have hjobs : (p.pending ++ (p.queue ++ (before ++ job :: after))).Perm
        (job :: (p.pending ++ (p.queue ++ (before ++ after)))) := by
      simpa using @List.perm_middle _ job (p.pending ++ p.queue ++ before) after
    rw [account, account, held, held, hnew, hold, ← List.append_assoc]
    exact (List.perm_append_singleton _ _).trans ((hjobs.map Job.entry).append_right p.written).symm

theorem follow?_cons (p : Pool) (move : Move) (schedule : List Move) :
    p.follow? (move :: schedule) = (p.step? move).bind (·.follow? schedule) := rfl

/-- What every move keeps, every schedule keeps. -/
theorem follow?_induction (property : Pool → Prop)
    (hstep : ∀ p move q, property p → p.Step move q → property q) {p q : Pool}
    {schedule : List Move} (h : p.follow? schedule = some q) (hp : property p) : property q := by
  induction schedule generalizing p with
  | nil => exact Option.some.inj h ▸ hp
  | cons move schedule ih =>
    rw [follow?_cons] at h
    obtain ⟨r, hr, hrest⟩ := Option.bind_eq_some_iff.1 h
    exact ih hrest (hstep p move r hp (step?_eq_some_iff.1 hr))

/-- The jobs of a pool are the same ones after any schedule. -/
theorem account_perm_of_follow? {p q : Pool} {schedule : List Move}
    (h : p.follow? schedule = some q) : q.account.Perm p.account :=
  follow?_induction (fun r => r.account.Perm p.account)
    (fun _ _ _ hp hstep => hstep.account_perm.trans hp) h (.refl _)

theorem held_eq_nil_iff {p : Pool} : p.held = [] ↔ ∀ hand ∈ p.hands, hand = none := by
  rw [held, List.reduceOption, List.filterMap_eq_nil_iff]
  rfl

theorem isDrained_iff {p : Pool} :
    p.isDrained = true ↔ p.pending = [] ∧ p.queue = [] ∧ p.held = [] := by
  rw [held_eq_nil_iff]
  simp [isDrained, and_assoc]

theorem account_start (capacity workers : Nat) (sources : List String) :
    (start capacity workers sources).account =
      sources.zipIdx.map fun (source, index) => (index, lex source) := by
  have hheld : (start capacity workers sources).held = [] :=
    held_eq_nil_iff.2 fun _ hhand => List.eq_of_mem_replicate hhand
  rw [account, hheld]
  simp only [start, List.append_nil, List.mapIdx_eq_zipIdx_map, List.map_map]
  rfl

/-- A drained pool has one entry in its log for each source, and no other. -/
theorem written_perm_of_isDrained {capacity workers : Nat} {sources : List String}
    {schedule : List Move} {q : Pool}
    (h : (start capacity workers sources).follow? schedule = some q)
    (hdrained : q.isDrained = true) :
    q.written.Perm (sources.zipIdx.map fun (source, index) => (index, lex source)) := by
  have haccount := account_perm_of_follow? h
  obtain ⟨hpending, hqueue, hheld⟩ := isDrained_iff.1 hdrained
  rwa [account_start, account, hpending, hqueue, hheld] at haccount

end Pool

/-- An index stands in a numbered list once. -/
theorem filter_zipIdx_eq_singleton {α β : Type} (f : α → β) {xs : List α} {x : α} {i : Nat}
    (h : xs[i]? = some x) (first : Nat) :
    ((xs.zipIdx first).map fun (x, index) => (index, f x)).filter (·.1 == first + i) =
      [(first + i, f x)] := by
  induction xs generalizing i first with
  | nil => simp at h
  | cons y xs ih =>
    cases i with
    | zero =>
      -- The indices behind the first are larger.
      obtain rfl : y = x := by simpa using h
      have hlater : ((xs.zipIdx (first + 1)).map fun (x, index) => (index, f x)).filter
          (·.1 == first) = [] := by
        rw [List.filter_eq_nil_iff]
        intro entry hentry
        obtain ⟨⟨z, j⟩, hmem, rfl⟩ := List.mem_map.1 hentry
        have hle := List.le_snd_of_mem_zipIdx hmem
        simp only [beq_iff_eq]
        omega
      simp [List.zipIdx_cons, hlater]
    | succ i =>
      have hrest := ih (by simpa using h) (first + 1)
      rw [show first + 1 + i = first + (i + 1) by omega] at hrest
      simpa [List.zipIdx_cons] using hrest

/-- A key with a single entry is looked up to that entry. -/
theorem lookup_of_filter_eq_singleton {β : Type} {entries : List (Nat × β)} {i : Nat} {result : β}
    (h : entries.filter (·.1 == i) = [(i, result)]) : entries.lookup i = some result := by
  induction entries with
  | nil => cases h
  | cons entry entries ih =>
    obtain ⟨j, other⟩ := entry
    by_cases hj : j = i
    · subst hj
      have hkept : ((j, other) :: entries).filter (·.1 == j) =
          (j, other) :: entries.filter (·.1 == j) := List.filter_cons_of_pos (beq_self_eq_true j)
      rw [hkept] at h
      obtain rfl : other = result := congrArg Prod.snd (List.cons.inj h).1
      exact List.lookup_cons_self
    · have hdropped : ((j, other) :: entries).filter (·.1 == i) =
          entries.filter (·.1 == i) := List.filter_cons_of_neg (mt beq_iff_eq.1 hj)
      have hskip : (i == j) = false := beq_eq_false_iff_ne.2 (Ne.symm hj)
      rw [hdropped] at h
      rw [List.lookup_cons, hskip]
      exact ih h

namespace Pool

/-- A slot that was written once holds what was written. -/
theorem result?_of_written_once (p : Pool) {i : Nat} {result : Result}
    (h : p.written.filter (·.1 == i) = [(i, result)]) : p.result? i = some result := by
  apply lookup_of_filter_eq_singleton
  rw [List.filter_reverse, h, List.reverse_singleton]

/-- In a drained pool the slot of every source was written once, with its result. -/
theorem written_once_of_isDrained {capacity workers : Nat} {sources : List String}
    {schedule : List Move} {q : Pool}
    (h : (start capacity workers sources).follow? schedule = some q)
    (hdrained : q.isDrained = true) {i : Nat} {source : String}
    (hsource : sources[i]? = some source) :
    q.written.filter (·.1 == i) = [(i, lex source)] := by
  have hperm := (written_perm_of_isDrained h hdrained).filter (·.1 == i)
  have honce := filter_zipIdx_eq_singleton lex hsource 0
  rw [Nat.zero_add] at honce
  rwa [honce, List.perm_singleton] at hperm

end Pool
end SurfaceLanguage.Batch
