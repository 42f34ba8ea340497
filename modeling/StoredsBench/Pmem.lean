/-
Module: StoredsBench.Pmem
Layer: Model
Purpose: What the classes for persistent memory share.  The text of the plain classes and of the `Tx`
  classes is that of the DRAM classes with calls to PMDK in between: `pmemobj_persist` in the plain
  classes, snapshots and transactions in the `Tx` classes.  A `Mode` says which of these calls a class
  makes, so that one definition states the common text with all calls at their places.
Trusted boundary: human-reviewed spec
Main exports: Mode, Mode.addRange, Mode.persist, Mode.transaction, Mode.allocate, Content
-/
import StoredsBench.Lib.Objects
import StoredsBench.Lib.Persisting

namespace StoredsBench

open Lib

/-- Where a class keeps its data, and by which calls it makes that durable. -/
inductive Mode where
  | volatile
  | persistent
  | transactional
deriving DecidableEq

namespace Mode

variable {N Y L α : Type}

/-- `pmemobj_tx_add_range` and `pmemobj_tx_add_range_direct`, which only the `Tx` classes call. -/
def addRange (mode : Mode) (range : L → Bool) : PmemProg N Y L Unit :=
  match mode with
  | .transactional => Lib.addRange range
  | _ => pure ()

/-- `pmemobj_persist`, which only the plain persistent classes call. -/
def persist (mode : Mode) (range : L → Bool) : PmemProg N Y L Unit :=
  match mode with
  | .persistent => Lib.persist range
  | _ => pure ()

/-- `TX_BEGIN { body } TX_END` in the `Tx` classes. -/
def transaction (mode : Mode) (body : PmemProg N Y L α) : PmemProg N Y L α :=
  match mode with
  | .transactional => Lib.transaction body
  | _ => body

/-- The effect of `pmemobj_tx_alloc`, which the `Tx` classes call inside their transactions, and of
`pmemobj_alloc`, which the plain ones call. -/
def allocation (mode : Mode) (range : L → Bool) : Effect L :=
  match mode with
  | .transactional => .allocate range
  | _ => .provide range

/-- `pmemobj_alloc` or `pmemobj_tx_alloc`; `garbage` is what the allocator leaves at an address. -/
def allocate {R F : Type} (mode : Mode) (garbage : Ptr → N) : PmemProg N Y (ObjectPlace R F) Ptr :=
  perform (fun address => mode.allocation (nodeBytes address)) do
    let size ← Prog.heapSize
    Prog.malloc (garbage (size + 1))

variable {code : PmemProg N Y L α} {before after : Store N Y} {value : α}

theorem runsTo_addRange (mode : Mode) (range : L → Bool) (store : Store N Y) :
    RunsTo (mode.addRange range) store () store := by
  cases mode with
  | volatile => exact RunsTo.pure () store
  | persistent => exact RunsTo.pure () store
  | transactional => exact RunsTo.record (.snapshot range) store

theorem runsTo_persist (mode : Mode) (range : L → Bool) (store : Store N Y) :
    RunsTo (mode.persist range) store () store := by
  cases mode with
  | volatile => exact RunsTo.pure () store
  | persistent => exact RunsTo.record (.persist range) store
  | transactional => exact RunsTo.pure () store

theorem runsTo_transaction (mode : Mode) (runs : RunsTo code before value after) :
    RunsTo (mode.transaction code) before value after := by
  cases mode with
  | volatile => exact runs
  | persistent => exact runs
  | transactional => exact runs.transaction

theorem follows_transaction {β : Type} (mode : Mode) {computation : Except Fault β}
    {post : α → β → Store N Y → Prop} (follows : Follows code before computation post) :
    Follows (mode.transaction code) before computation post := by
  cases mode with
  | volatile => exact follows
  | persistent => exact follows
  | transactional => exact follows.transaction

theorem quiet_addRange (mode : Mode) (range : L → Bool) :
    Quiet (mode.addRange range : PmemProg N Y L Unit) := by
  cases mode with
  | transactional => exact Quiet.record _
  | volatile => exact Quiet.pure
  | persistent => exact Quiet.pure

theorem quiet_persist (mode : Mode) (range : L → Bool) :
    Quiet (mode.persist range : PmemProg N Y L Unit) := by
  cases mode with
  | persistent => exact Quiet.record _
  | volatile => exact Quiet.pure
  | transactional => exact Quiet.pure

theorem performs_transaction (mode : Mode) {body : Prog N Y α} (performs : Performs code body) :
    Performs (mode.transaction code) body := by
  cases mode with
  | transactional => exact performs.transaction
  | volatile => exact performs
  | persistent => exact performs

theorem transaction_ran {mode : Mode} {store final : Store N (Journal N Y L)}
    (ran : mode.transaction code store = .ok (value, final)) :
    ∃ started ended, memory started = memory store ∧ code started = .ok (value, ended) ∧
      memory ended = memory final := by
  cases mode with
  | volatile => exact ⟨store, final, rfl, ran, rfl⟩
  | persistent => exact ⟨store, final, rfl, ran, rfl⟩
  | transactional => exact Lib.transaction_ran ran

theorem transaction_congr (mode : Mode) {other : PmemProg N Y L α} {store : Store N (Journal N Y L)}
    (same : ∀ started, memory started = memory store → code started = other started) :
    mode.transaction code store = mode.transaction other store := by
  cases mode with
  | volatile => exact same store rfl
  | persistent => exact same store rfl
  | transactional => exact Lib.transaction_congr same

/-- Whether the code in `transaction` runs in a transaction. -/
def inside : Mode → Bool
  | .transactional => true
  | _ => false

variable {V : Type} {read : Store N Y → L → Option V} {running : Bool} {allowed : Effect L → Store N Y → Prop}

/-- A snapshot covers its range. -/
theorem logs_addRange (covered range : L → Bool) :
    Logs read covered (transactional.addRange range : PmemProg N Y L Unit)
      fun _ more => Extends covered more ∧ Extends range more := by
  apply Logs.addRange
  constructor
  · intro place inside
    simp [inside]
  · intro place inside
    simp [inside]

theorem emits_addRange {mode : Mode} {range : L → Bool}
    (allows : mode = .transactional → ∀ memory, allowed (.snapshot range) memory) :
    Emits read mode.inside allowed (mode.addRange range : PmemProg N Y L Unit) := by
  cases mode with
  | volatile => exact Emits.pure ()
  | persistent => exact Emits.pure ()
  | transactional => exact Emits.addRange (allows rfl)

theorem emits_persist {mode : Mode} {range : L → Bool}
    (allows : mode = .persistent → ∀ memory, allowed (.persist range) memory) :
    Emits read running allowed (mode.persist range : PmemProg N Y L Unit) := by
  cases mode with
  | volatile => exact Emits.pure ()
  | persistent => exact Emits.persist (allows rfl)
  | transactional => exact Emits.pure ()

theorem emits_transaction {mode : Mode} (emits : Emits read mode.inside allowed code)
    (begins : ∀ memory, allowed .begin memory)
    (commits : ∀ memory, allowed .commit memory) :
    Emits read false allowed (mode.transaction code) := by
  cases mode with
  | volatile => exact emits
  | persistent => exact emits
  | transactional => exact emits.transaction begins commits

/-- An allocation outside of transactions protects nothing. -/
theorem allocation_uncovered {mode : Mode} (outside : mode.inside = false) (range : L → Bool)
    (place : L) : (mode.allocation range).covers place = false := by
  cases mode with
  | volatile => rfl
  | persistent => rfl
  | transactional => cases outside

theorem allocation_frames {mode : Mode} {range : L → Bool} {place : L} {old new : Option V}
    (kept : range place = false → new = old) (free : range place = true → old = none) :
    (mode.allocation range).Frames place old new := by
  cases mode with
  | volatile => exact ⟨kept, free⟩
  | persistent => exact ⟨kept, free⟩
  | transactional => exact ⟨kept, free⟩

section Objects

variable {R F C : Type} {readRoot : Store N Y → R → Option C} {content : N → F → C}

theorem allocate_runsTo (mode : Mode) (garbage : Ptr → N) (memory : Store N Y) :
    RunsTo (mode.allocate garbage : PmemProg N Y (ObjectPlace R F) Ptr) memory (memory.heap.size + 1)
      { memory with heap := memory.heap.push (garbage (memory.heap.size + 1)) } :=
  RunsTo.perform rfl

/-- In a transaction the new object is covered. -/
theorem logs_allocate (apart : RootApart readRoot) (garbage : Ptr → N)
    (covered : ObjectPlace R F → Bool) :
    Logs (readObjects readRoot content) covered (transactional.allocate garbage)
      fun address more => more = fun place => covered place || nodeBytes address place :=
  Logs.allocate (malloc_frames apart garbage) fun _ => rfl

/-- Outside of transactions the new object is durable. -/
theorem persists_allocate (apart : RootApart readRoot) (garbage : Ptr → N)
    (dirty : ObjectPlace R F → Bool) :
    Persists (readObjects readRoot content) dirty (persistent.allocate garbage)
      fun address more => more = fun place => dirty place && !nodeBytes address place :=
  Persists.provide (malloc_frames apart garbage) fun _ => rfl

theorem emits_allocate {mode : Mode} (apart : RootApart readRoot) {garbage : Ptr → N}
    {allowed : Effect (ObjectPlace R F) → Store N Y → Prop}
    (allocates : ∀ address memory, memory.heap.get? address = some (garbage address) →
      allowed (mode.allocation (nodeBytes address)) memory) :
    Emits (readObjects readRoot content) mode.inside allowed (mode.allocate garbage) := by
  apply Emits.perform
  · intro before address after ran
    apply allocates
    cases ran
    exact (Heap.get?_push _ _ _).trans (if_pos rfl)
  · exact fun outside address place => allocation_uncovered outside _ place
  · intro before address after ran place
    obtain ⟨kept, free⟩ := malloc_frames apart garbage before address after ran place
    exact allocation_frames kept free

end Objects

end Mode

/-- What a place of a pool may hold: an integer, a byte or a pointer; `none` marks what was never
written. -/
inductive Content where
  | word (contents : Option UInt64)
  | byte (contents : Option UInt8)
  | pointer (target : Option Ptr)
deriving DecidableEq

end StoredsBench
