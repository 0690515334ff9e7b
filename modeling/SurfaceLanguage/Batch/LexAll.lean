import SurfaceLanguage.Batch.Pool

/-!
# Lexing many units

A unit is the source of one file of the language. Units are lexed by a pool,
independently of each other. The outcomes come back in the order of the units,
whatever the order in which the pool wrote them, and an error in one unit is the
outcome of that unit alone. An empty batch needs no pool.
-/
namespace SurfaceLanguage
namespace Language

def name : String := "Lumen"

def version : String := "0.1.0"

/-- The part of a source file's name behind its last dot. -/
def sourceExtension : String := "lm"

/-- How many jobs wait at most between the sender and the workers of a batch. -/
def defaultQueueCapacity : Nat := 64

/-- A source file is named by a nonempty stem, a dot and the extension. The
extension holds no dot, so the dot in front of it is the last one. -/
def isSourceFile (fileName : String) : Bool :=
  let ending := '.' :: sourceExtension.toList
  ending.isSuffixOf fileName.toList && ending.length < fileName.toList.length

end Language

namespace Batch

structure SourceUnit where
  name : String
  source : String
deriving DecidableEq, Repr

structure Outcome where
  name : String
  result : Result

/-- With no number of workers given, each of the machine's processors serves as
one. -/
structure Config where
  workers : Nat := 0
  queueCapacity : Nat := Language.defaultQueueCapacity
  processors : Nat := 1
deriving DecidableEq, Repr

inductive BatchError where
  | workerLost
deriving DecidableEq, Repr

namespace BatchError

def message : BatchError → Locale → String
  | .workerLost, locale => formatMessage MessageKey.workerLost.id locale []

def display (e : BatchError) : String := e.message default

end BatchError

/-- No more workers than units, and at least one. -/
def Config.workerCount (config : Config) (units : Nat) : Nat :=
  let wanted := if config.workers = 0 then config.processors else config.workers
  max 1 (min wanted units)

/-- A queue that holds nothing would let nothing through. -/
def Config.capacity (config : Config) : Nat := max 1 config.queueCapacity

def startPool (config : Config) (units : List SourceUnit) : Pool :=
  .start config.capacity (config.workerCount units.length) (units.map (·.source))

/-- Names the results of a pool after the units. A unit without a result means
that a worker was lost. -/
def outcomes (p : Pool) (units : List SourceUnit) : Except BatchError (List Outcome) :=
  units.zipIdx.mapM fun (unit, index) =>
    match p.result? index with
    | some result => .ok ⟨unit.name, result⟩
    | none => .error .workerLost

/-- The outcome of every unit, in the order of the units. -/
def lexAll (config : Config) (units : List SourceUnit) : Except BatchError (List Outcome) :=
  if units.isEmpty then .ok [] else outcomes (startPool config units).drain units

end Batch
end SurfaceLanguage
