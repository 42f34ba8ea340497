/-
Module: StoredsBench.Db.Driver
Layer: Model
Purpose: The load phase of `ycsbc.cc`: threads that run `DelegateClient` over one `StoredsDB`, with
  `Client::DoInsert` and `CoreWorkload::BuildValues`.  `fetch_add` on the counter and a call of a class
  that locks its mutex are one step each.  The names of the fields, all `"field"`, are dropped, as
  `StoredsDB` drops them.
Trusted boundary: human-reviewed spec
Main exports: Fields, Fields.BuildsValues, Loader, LoadStep, loadStart, Loader.Finished, reported
-/
import StoredsBench.Interface
import StoredsBench.Core.Workload
import StoredsBench.Lib.Interleaving
import Mathlib.Algebra.BigOperators.Fin

namespace StoredsBench.Driver

open Lib StoredsBench.Core

/-- The fields of a record: how many, and the lengths `field_len_generator_->Next()` may return, which
fit a value slot. -/
structure Fields where
  fieldCount : Int32
  MayReturn : Nat → Prop
  returns : ∃ length, MayReturn length
  fits : ∀ length, MayReturn length → length < DEFAULT_VALUE_LEN

/-- `FixedPrintChar`. -/
def fixedPrintChar : UInt8 := 67

namespace Fields

variable (fields : Fields)

/-- A value `BuildValues` may append. -/
def IsValue (value : Value) : Prop :=
  ∃ length, fields.MayReturn length ∧ value.chars = List.replicate length fixedPrintChar

/-- How often the loop of `BuildValues` goes round. -/
def count : Nat := fields.fieldCount.toInt.toNat

/-- `BuildValues`. -/
structure BuildsValues (values : List Value) : Prop where
  all : ∀ value ∈ values, fields.IsValue value
  length : values.length = fields.count

end Fields

/-- What the threads share: the workload, and the store behind `StoredsDB`. -/
structure Shared (S : Type) where
  workload : CoreWorkload
  store : S

/-- A thread in `DelegateClient`: the calls of `DoInsert` it has not begun, its `oks`, and in
`StoredsDB::Insert` the key with the values still to be inserted. -/
structure Loader where
  remaining : Nat
  oks : Nat
  inserting : Option (Key × List Value)

/-- The next step of a thread. -/
inductive LoadStep {S : Type} (backend : Backend S) (fields : Fields) :
    Shared S → Loader → Shared S → Loader → Prop where
  /-- `NextSequenceKey` and `BuildValues`. -/
  | draw {shared : Shared S} {remaining oks : Nat} {values : List Value} :
      fields.BuildsValues values →
      LoadStep backend fields shared { remaining := remaining + 1, oks := oks, inserting := none }
        { shared with workload := shared.workload.nextSequenceKey.2 }
        { remaining := remaining
          oks := oks
          inserting := some (shared.workload.nextSequenceKey.1, values) }
  /-- `storeds_->insert`, in the loop over the values. -/
  | insert {shared : Shared S} {remaining oks : Nat} {key : Key} {value : Value} {values : List Value}
      {store : S} :
      backend.insert key value shared.store = .ok store →
      LoadStep backend fields shared
        { remaining := remaining, oks := oks, inserting := some (key, value :: values) }
        { shared with store := store }
        { remaining := remaining, oks := oks, inserting := some (key, values) }
  /-- `Insert` returns `kOK`. -/
  | done {shared : Shared S} {remaining oks : Nat} {key : Key} :
      LoadStep backend fields shared
        { remaining := remaining, oks := oks, inserting := some (key, []) }
        shared { remaining := remaining, oks := oks + 1, inserting := none }

/-- `num_threads`, as the bound of the loop that starts the threads. -/
def numThreads (configuration : Configuration) : Nat := configuration.threadCount.toInt.toNat

/-- `total_ops / num_threads`. -/
def numOps (configuration : Configuration) : Nat :=
  (configuration.recordCount.toInt.tdiv configuration.threadCount.toInt).toNat

/-- The threads when `main` has started them. -/
def loadStart {S : Type} (configuration : Configuration) (fresh : S) :
    Threads (Fin (numThreads configuration)) (Shared S) Loader where
  shared := { workload := configuration.init, store := fresh }
  thread := fun _ => { remaining := numOps configuration, oks := 0, inserting := none }

/-- All threads have returned from `DelegateClient`. -/
def Finished {S : Type} {n : Nat} (threads : Threads (Fin n) (Shared S) Loader) : Prop :=
  ∀ thread, (threads.thread thread).remaining = 0 ∧ (threads.thread thread).inserting = none

/-- The sum `main` prints as the number of loading records. -/
def reported {S : Type} {n : Nat} (threads : Threads (Fin n) (Shared S) Loader) : Nat :=
  ∑ thread, (threads.thread thread).oks

end StoredsBench.Driver
