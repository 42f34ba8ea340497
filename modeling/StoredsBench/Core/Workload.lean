/-
Module: StoredsBench.Core.Workload
Layer: Model
Purpose: The keys of `core/core_workload.h`: the two counters, the choice of request keys, and the runs
  of the driver `ycsbc.cc` with the operations of `core/client.h`.  Where a generator computes with
  floating-point numbers it may return what its last integer operation can.  Fields and values of
  records and the choice of operations are not part of this module.
Trusted boundary: human-reviewed spec
Main exports: CounterGenerator, KeyChooser, CoreWorkload, Configuration, Event, Step, Run, Calls,
  CallStep
-/
import StoredsBench.Core.Utils

namespace StoredsBench.Core

/-! ### Generators -/

/-- `CounterGenerator`. -/
structure CounterGenerator where
  counter : UInt64

namespace CounterGenerator

/-- `Next`: `fetch_add(1)`. -/
def next (generator : CounterGenerator) : UInt64 × CounterGenerator :=
  (generator.counter, { counter := generator.counter + 1 })

/-- `Last`. -/
def last (generator : CounterGenerator) : UInt64 := generator.counter - 1

end CounterGenerator

/-- The generator behind `key_chooser_`, with what its constructor gets. -/
inductive KeyChooser where
  | uniform (min max : UInt64)
  | scrambledZipfian (numItems : UInt64)
  | skewedLatest

/-- The numbers `key_chooser_->Next()` may return.  `UniformGenerator` takes any number between its
bounds; the other two draw an item with a `ZipfianGenerator`.  `basis` is what `SkewedLatestGenerator`
refers to. -/
def KeyChooser.MayReturn (basis : CounterGenerator) : KeyChooser → UInt64 → Prop
  | .uniform min max, keyNum => min ≤ keyNum ∧ keyNum ≤ max
  | .scrambledZipfian numItems, keyNum => ∃ item, keyNum = fnvHash64 item % numItems
  | .skewedLatest, keyNum => ∃ item, keyNum = basis.last - item

/-! ### The workload -/

/-- The members of `CoreWorkload` that its keys depend on. -/
structure CoreWorkload where
  keyGenerator : CounterGenerator
  keyChooser : KeyChooser
  insertKeySequence : CounterGenerator
  orderedInserts : Bool

namespace CoreWorkload

/-- `BuildKeyName`. -/
def buildKeyName (workload : CoreWorkload) (keyNum : UInt64) : UInt64 :=
  if workload.orderedInserts then keyNum else hash keyNum

/-- `NextSequenceKey`. -/
def nextSequenceKey (workload : CoreWorkload) : UInt64 × CoreWorkload :=
  let (keyNum, keyGenerator) := workload.keyGenerator.next
  (workload.buildKeyName keyNum, { workload with keyGenerator := keyGenerator })

end CoreWorkload

/-- `requestdistribution`; `newKeys` is what `Init` computes from the operation count and the insert
proportion. -/
inductive RequestDistribution where
  | uniform
  | zipfian (newKeys : UInt64)
  | latest

/-- The properties that `Init` and the driver read. -/
structure Configuration where
  insertStart : Int32
  recordCount : Int32
  requestDistribution : RequestDistribution
  orderedInserts : Bool
  threadCount : Int32

namespace Configuration

/-- Conversion of an `int` to a `uint64_t` or `size_t`. -/
def toUInt64 (number : Int32) : UInt64 := UInt64.ofInt number.toInt

/-- `CoreWorkload::Init`. -/
def init (configuration : Configuration) : CoreWorkload where
  keyGenerator := { counter := toUInt64 configuration.insertStart }
  keyChooser :=
    match configuration.requestDistribution with
    | .uniform => .uniform 0 (toUInt64 configuration.recordCount - 1)
    | .zipfian newKeys => .scrambledZipfian (toUInt64 configuration.recordCount + newKeys)
    | .latest => .skewedLatest
  insertKeySequence := { counter := toUInt64 configuration.recordCount }
  orderedInserts := configuration.orderedInserts

/-- How often the threads of the load phase call `DoInsert` in all: each `total_ops / num_threads`
times. -/
def loadCalls (configuration : Configuration) : Nat :=
  configuration.threadCount.toInt.toNat *
    (configuration.recordCount.toInt.tdiv configuration.threadCount.toInt).toNat

end Configuration

/-! ### Runs -/

/-- A call for a key: the number that was drawn and the key that was returned. -/
inductive Event where
  | nextSequenceKey (keyNum key : UInt64)
  | nextTransactionKey (keyNum key : UInt64)

/-- One call.  `NextTransactionKey` draws until it gets a number that is not above the last one of
`insert_key_sequence_`. -/
inductive Step : CoreWorkload → Event → CoreWorkload → Prop where
  | nextSequenceKey (workload : CoreWorkload) :
      Step workload (.nextSequenceKey workload.keyGenerator.next.1 workload.nextSequenceKey.1)
        workload.nextSequenceKey.2
  | nextTransactionKey {workload : CoreWorkload} {keyNum : UInt64} :
      workload.keyChooser.MayReturn workload.insertKeySequence keyNum →
      ¬ keyNum > workload.insertKeySequence.last →
      Step workload (.nextTransactionKey keyNum (workload.buildKeyName keyNum)) workload

/-- Calls one after another, by whichever threads. -/
inductive Run : CoreWorkload → List Event → CoreWorkload → Prop where
  | nil (workload : CoreWorkload) : Run workload [] workload
  | cons {workload next final : CoreWorkload} {event : Event} {events : List Event} :
      Step workload event next → Run next events final → Run workload (event :: events) final

/-- The events of `NextSequenceKey`, which `DoInsert` and `TransactionInsert` call. -/
def Event.Inserts : Event → Prop
  | .nextSequenceKey _ _ => True
  | .nextTransactionKey _ _ => False

/-- The load phase: so many calls of `DoInsert`. -/
def Loads (configuration : Configuration) (calls : Nat) (events : List Event) (loaded : CoreWorkload) :
    Prop :=
  Run configuration.init events loaded ∧ (∀ event ∈ events, event.Inserts) ∧ events.length = calls

/-! ### Threads -/

/-- Calls of `NextSequenceKey` by the threads `T`: the workload, the numbers drawn so far, those that
calls still have to turn into a key, and the keys returned. -/
structure Calls (T : Type) where
  workload : CoreWorkload
  drawn : List UInt64
  pending : List (T × UInt64)
  returned : List UInt64

/-- No call yet. -/
def Calls.start {T : Type} (workload : CoreWorkload) : Calls T where
  workload := workload
  drawn := []
  pending := []
  returned := []

/-- A thread draws a number from `key_generator_`, or returns the key built from it. -/
inductive CallStep {T : Type} : Calls T → Calls T → Prop where
  | draw {calls : Calls T} (thread : T) :
      (∀ call ∈ calls.pending, call.1 ≠ thread) →
      CallStep calls
        { calls with
          workload := calls.workload.nextSequenceKey.2
          drawn := calls.drawn ++ [calls.workload.keyGenerator.next.1]
          pending := (thread, calls.workload.keyGenerator.next.1) :: calls.pending }
  | finish {calls : Calls T} {thread : T} {keyNum : UInt64} (before after : List (T × UInt64)) :
      calls.pending = before ++ (thread, keyNum) :: after →
      CallStep calls
        { calls with
          pending := before ++ after
          returned := calls.returned ++ [calls.workload.buildKeyName keyNum] }

/-- What the threads reach in any order of their steps. -/
inductive Reaches {T : Type} (start : Calls T) : Calls T → Prop where
  | refl : Reaches start start
  | step {calls next : Calls T} : Reaches start calls → CallStep calls next → Reaches start next

end StoredsBench.Core
