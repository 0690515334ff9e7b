import SurfaceLanguage.Lexing.Lex

/-!
# A pool of workers

Jobs go from a sender through a bounded queue to workers. A job is the index of
a unit and its source. The sender offers jobs in order, the queue hands them on
in order, and each worker holds at most one job until it writes the result.
Which of the enabled moves comes next is left open by `step?`; `next?` takes the
first one, and the order of writing is the only thing that a choice can change.
-/
namespace SurfaceLanguage.Batch
open SurfaceLanguage.Lexing

structure Job where
  index : Nat
  source : String
deriving DecidableEq, Repr

abbrev Result := Except LexError (List Token)

/-- There is one entry in `hands` for each worker. The log of results, `written`,
has the latest last. -/
structure Pool where
  capacity : Nat
  pending : List Job
  queue : List Job
  hands : List (Option Job)
  written : List (Nat × Result)

inductive Move where
  | send
  | take (worker : Nat)
  | finish (worker : Nat)
deriving DecidableEq, Repr

namespace Pool

/-- Numbers the sources and leaves all of them with the sender. -/
def start (capacity workers : Nat) (sources : List String) : Pool where
  capacity
  pending := sources.mapIdx Job.mk
  queue := []
  hands := List.replicate workers none
  written := []

/-- The state after a move, if the move is enabled. -/
def step? (p : Pool) : Move → Option Pool
  | .send =>
      match p.pending with
      | job :: rest =>
          if p.queue.length < p.capacity then
            some { p with pending := rest, queue := p.queue ++ [job] }
          else none
      | [] => none
  | .take worker =>
      match p.queue, p.hands[worker]? with
      | job :: rest, some none =>
          some { p with queue := rest, hands := p.hands.set worker (some job) }
      | _, _ => none
  | .finish worker =>
      match p.hands[worker]? with
      | some (some job) =>
          some { p with
            hands := p.hands.set worker none
            written := p.written ++ [(job.index, lex job.source)] }
      | _ => none

/-- The state after a schedule, if each of its moves is enabled in turn. -/
def follow? (p : Pool) (schedule : List Move) : Option Pool := schedule.foldlM step? p

/-- Nothing is left to send, to take or to finish. -/
def isDrained (p : Pool) : Bool :=
  p.pending.isEmpty && p.queue.isEmpty && p.hands.all Option.isNone

/-- Every move that a pool could ever make, the later stages first. -/
def moves (p : Pool) : List Move :=
  (List.range p.hands.length).map .finish ++ (List.range p.hands.length).map .take ++ [.send]

def next? (p : Pool) : Option Pool := p.moves.findSome? p.step?

/-- At most `fuel` moves. -/
def run : Nat → Pool → Pool
  | 0, p => p
  | fuel + 1, p =>
      match p.next? with
      | some q => run fuel q
      | none => p

/-- A job is sent once, taken once and finished once. -/
def drain (p : Pool) : Pool := p.run (3 * p.pending.length)

/-- The result in the slot of an index, which is the last one written there. -/
def result? (p : Pool) (index : Nat) : Option Result := p.written.reverse.lookup index

end Pool
end SurfaceLanguage.Batch
