/-
Module: StoredsBench.Lib.Persistence
Layer: Lib
Purpose: Programs over persistent memory.  A program keeps a trail of its effects: stores,
  allocations, explicit persists, and transactions that snapshot ranges before they are changed.
Trusted boundary: human-reviewed spec
Main exports: Effect, Journal, PmemProg, perform, addRange, persist, transaction, RunsTo, StopsAt,
  Follows, Quiet, Performs, Unlogged
-/
import StoredsBench.Lib.Simulation

namespace StoredsBench.Lib

/-- What a program does to persistent memory; `L` are the places of the memory.  A transaction
inside another one is part of it, so `begin` and `commit` are those of outermost transactions.
`allocate` is an allocation inside a transaction, `provide` one outside, which is durable at once. -/
inductive Effect (L : Type) where
  | begin
  | commit
  | snapshot (range : L → Bool)
  | allocate (range : L → Bool)
  | provide (range : L → Bool)
  | store (range : L → Bool)
  | persist (range : L → Bool)

/-- Memory beside the heap of nodes, whether a transaction is running, and the effects so far, each
with the memory after it. -/
structure Journal (N Y L : Type) where
  side : Y
  running : Bool
  trail : List (Effect L × Store N Y)

/-- A program that keeps a journal. -/
abbrev PmemProg (N Y L α : Type) := Prog N (Journal N Y L) α

section Programs

variable {N Y L α β : Type}

/-- The memory without the journal. -/
def memory (store : Store N (Journal N Y L)) : Store N Y where
  heap := store.heap
  root := store.root
  aux := store.aux.side

/-- The same journal over another memory. -/
def withMemory (store : Store N (Journal N Y L)) (changed : Store N Y) : Store N (Journal N Y L) where
  heap := changed.heap
  root := changed.root
  aux := { store.aux with side := changed.aux }

/-- Enter an effect into the trail. -/
def logged (effect : Effect L) (store : Store N (Journal N Y L)) : Store N (Journal N Y L) :=
  { store with
    aux := { store.aux with trail := store.aux.trail ++ [(effect, memory store)] } }

def setRunning (running : Bool) (store : Store N (Journal N Y L)) : Store N (Journal N Y L) :=
  { store with aux := { store.aux with running := running } }

/-- An effect that leaves the memory as it is. -/
def record (effect : Effect L) : PmemProg N Y L Unit := fun store => .ok ((), logged effect store)

/-- Run a program on the memory. -/
def onMemory (body : Prog N Y α) : PmemProg N Y L α := fun store =>
  match body (memory store) with
  | .error fault => .error fault
  | .ok (value, changed) => .ok (value, withMemory store changed)

/-- Run a program on the memory and enter its effect into the trail. -/
def perform (effect : α → Effect L) (body : Prog N Y α) : PmemProg N Y L α := do
  let value ← onMemory body
  record (effect value)
  return value

/-- `pmemobj_tx_add_range`. -/
def addRange (range : L → Bool) : PmemProg N Y L Unit := record (.snapshot range)

/-- `pmemobj_persist`. -/
def persist (range : L → Bool) : PmemProg N Y L Unit := record (.persist range)

/-- `TX_BEGIN { body } TX_END`. -/
def transaction (body : PmemProg N Y L α) : PmemProg N Y L α := fun store =>
  if store.aux.running then body store
  else
    match body (setRunning true (logged .begin store)) with
    | .error fault => .error fault
    | .ok (value, store) => .ok (value, logged .commit (setRunning false store))

@[simp] theorem memory_logged (effect : Effect L) (store : Store N (Journal N Y L)) :
    memory (logged effect store) = memory store := rfl

@[simp] theorem memory_setRunning (running : Bool) (store : Store N (Journal N Y L)) :
    memory (setRunning running store) = memory store := rfl

@[simp] theorem memory_withMemory (store : Store N (Journal N Y L)) (changed : Store N Y) :
    memory (withMemory store changed) = changed := rfl

@[simp] theorem running_logged (effect : Effect L) (store : Store N (Journal N Y L)) :
    (logged effect store).aux.running = store.aux.running := rfl

@[simp] theorem running_withMemory (store : Store N (Journal N Y L)) (changed : Store N Y) :
    (withMemory store changed).aux.running = store.aux.running := rfl

@[simp] theorem trail_logged (effect : Effect L) (store : Store N (Journal N Y L)) :
    (logged effect store).aux.trail = store.aux.trail ++ [(effect, memory store)] := rfl

@[simp] theorem trail_withMemory (store : Store N (Journal N Y L)) (changed : Store N Y) :
    (withMemory store changed).aux.trail = store.aux.trail := rfl

@[simp] theorem trail_setRunning (running : Bool) (store : Store N (Journal N Y L)) :
    (setRunning running store).aux.trail = store.aux.trail := rfl

@[simp] theorem running_setRunning (running : Bool) (store : Store N (Journal N Y L)) :
    (setRunning running store).aux.running = running := rfl

theorem record_ok (effect : Effect L) (store : Store N (Journal N Y L)) :
    record effect store = .ok ((), logged effect store) := rfl

theorem onMemory_ok {body : Prog N Y α} {store : Store N (Journal N Y L)} {value : α}
    {changed : Store N Y} (ran : body (memory store) = .ok (value, changed)) :
    onMemory body store = .ok (value, withMemory store changed) := by
  simp only [onMemory, ran]

/-- A program that only reads. -/
theorem onMemory_reads {body : Prog N Y α} {store : Store N (Journal N Y L)} {value : α}
    (ran : body (memory store) = .ok (value, memory store)) :
    onMemory body store = .ok (value, store) :=
  onMemory_ok ran

theorem onMemory_inv {body : Prog N Y α} {store final : Store N (Journal N Y L)} {value : α}
    (ran : onMemory body store = .ok (value, final)) :
    ∃ changed, body (memory store) = .ok (value, changed) ∧ final = withMemory store changed := by
  unfold onMemory at ran
  split at ran
  · cases ran
  · rename_i bodyRan
    cases ran
    exact ⟨_, bodyRan, rfl⟩

theorem onMemory_bind (first : Prog N Y α) (rest : α → Prog N Y β) :
    (onMemory (first >>= rest) : PmemProg N Y L β) =
      onMemory first >>= fun value => onMemory (rest value) := by
  funext store
  cases ran : first (memory store) with
  | error fault =>
      simp only [onMemory, bind, StateT.bind, ran, Except.bind]
  | ok pair =>
      rw [bind_ok (onMemory_ok ran)]
      simp only [onMemory, bind_ok ran, memory_withMemory]
      cases rest pair.1 pair.2 with
      | error fault => rfl
      | ok pair => rfl

theorem onMemory_load (address : Ptr) :
    (onMemory (Prog.load address) : PmemProg N Y L N) = Prog.load address := by
  funext store
  cases live : store.heap.get? address with
  | none => simp [onMemory, Prog.load, memory, live]
  | some object =>
      have there : (memory store).heap.get? address = some object := live
      rw [Prog.load_ok live, onMemory_ok (Prog.load_ok there)]
      rfl

theorem onMemory_lift (computation : Except Fault α) :
    (onMemory (Prog.lift computation) : PmemProg N Y L α) = Prog.lift computation := by
  funext store
  cases computation <;> rfl

theorem onMemory_pure (value : α) :
    (onMemory (pure value) : PmemProg N Y L α) = pure value := rfl

theorem perform_ok {effect : α → Effect L} {body : Prog N Y α} {store : Store N (Journal N Y L)}
    {value : α} {changed : Store N Y} (ran : body (memory store) = .ok (value, changed)) :
    perform effect body store = .ok (value, logged (effect value) (withMemory store changed)) := by
  rw [perform, bind_ok (onMemory_ok ran), bind_ok (record_ok _ _)]
  rfl

/-- What a run leaves in memory, whatever it enters into the trail. -/
theorem perform_memory (effect : α → Effect L) {body : Prog N Y α} {store : Store N (Journal N Y L)}
    {value : α} {changed : Store N Y} (ran : body (memory store) = .ok (value, changed)) :
    ∃ final, perform effect body store = .ok (value, final) ∧ memory final = changed :=
  ⟨_, perform_ok ran, rfl⟩

theorem perform_inv {effect : α → Effect L} {body : Prog N Y α}
    {store final : Store N (Journal N Y L)} {value : α}
    (ran : perform effect body store = .ok (value, final)) :
    ∃ changed, body (memory store) = .ok (value, changed) ∧
      final = logged (effect value) (withMemory store changed) := by
  obtain ⟨between, middle, bodyRan, rest⟩ := bind_ok_inv ran
  obtain ⟨changed, bodyOk, rfl⟩ := onMemory_inv bodyRan
  cases rest
  exact ⟨changed, bodyOk, rfl⟩

theorem transaction_running {body : PmemProg N Y L α} {store : Store N (Journal N Y L)}
    (running : store.aux.running = true) : transaction body store = body store := if_pos running

theorem transaction_outermost {body : PmemProg N Y L α} {store final : Store N (Journal N Y L)}
    {value : α} (idle : store.aux.running = false)
    (ran : body (setRunning true (logged .begin store)) = .ok (value, final)) :
    transaction body store = .ok (value, logged .commit (setRunning false final)) := by
  rw [transaction, if_neg (by rw [idle]; exact Bool.false_ne_true)]
  simp only [ran]

theorem transaction_inv {body : PmemProg N Y L α} {store final : Store N (Journal N Y L)} {value : α}
    (idle : store.aux.running = false) (ran : transaction body store = .ok (value, final)) :
    ∃ last, body (setRunning true (logged .begin store)) = .ok (value, last) ∧
      final = logged .commit (setRunning false last) := by
  rw [transaction, if_neg (by rw [idle]; exact Bool.false_ne_true)] at ran
  split at ran
  · cases ran
  · rename_i bodyRan
    cases ran
    exact ⟨_, bodyRan, rfl⟩

theorem transaction_memory {body : PmemProg N Y L α} {store : Store N (Journal N Y L)} {value : α}
    {changed : Store N Y} (ran : ∀ started, memory started = memory store →
      ∃ final, body started = .ok (value, final) ∧ memory final = changed) :
    ∃ final, transaction body store = .ok (value, final) ∧ memory final = changed := by
  cases running : store.aux.running with
  | true =>
      rw [transaction_running running]
      exact ran store rfl
  | false =>
      obtain ⟨final, bodyRan, finalEq⟩ := ran (setRunning true (logged .begin store)) rfl
      exact ⟨_, transaction_outermost running bodyRan, finalEq⟩

/-- Around the code of a transaction the memory stays as it is. -/
theorem transaction_ran {code : PmemProg N Y L α} {store final : Store N (Journal N Y L)} {value : α}
    (ran : transaction code store = .ok (value, final)) :
    ∃ started ended, memory started = memory store ∧ code started = .ok (value, ended) ∧
      memory ended = memory final := by
  cases running : store.aux.running with
  | true =>
      rw [transaction_running running] at ran
      exact ⟨store, final, rfl, ran, rfl⟩
  | false =>
      obtain ⟨last, codeRan, rfl⟩ := transaction_inv running ran
      exact ⟨setRunning true (logged .begin store), last, rfl, codeRan, rfl⟩

/-- Only the memory a transaction starts on matters for the code that runs. -/
theorem transaction_congr {code other : PmemProg N Y L α} {store : Store N (Journal N Y L)}
    (same : ∀ started, memory started = memory store → code started = other started) :
    transaction code store = transaction other store := by
  unfold transaction
  rw [same store rfl, same (setRunning true (logged .begin store)) rfl]

end Programs

/-! ### What a run leaves in memory -/

section Runs

variable {N Y L α β : Type}

/-- Whatever was entered into the journal before, the code started on the memory returns the value and
leaves the memory `after`. -/
def RunsTo (code : PmemProg N Y L α) (before : Store N Y) (value : α) (after : Store N Y) : Prop :=
  ∀ started, memory started = before →
    ∃ final, code started = .ok (value, final) ∧ memory final = after

namespace RunsTo

variable {code : PmemProg N Y L α} {before middle after : Store N Y} {value : α} {result : β}

theorem bind {rest : α → PmemProg N Y L β} (first : RunsTo code before value middle)
    (second : RunsTo (rest value) middle result after) :
    RunsTo (code >>= rest) before result after := by
  intro started startedEq
  obtain ⟨between, firstRan, betweenEq⟩ := first started startedEq
  obtain ⟨final, restRan, finalEq⟩ := second between betweenEq
  exact ⟨final, by rw [bind_ok firstRan, restRan], finalEq⟩

theorem pure (value : α) (store : Store N Y) :
    RunsTo (pure value : PmemProg N Y L α) store value store :=
  fun started startedEq => ⟨started, rfl, startedEq⟩

theorem onMemory {body : Prog N Y α} (ran : body before = .ok (value, after)) :
    RunsTo (onMemory body : PmemProg N Y L α) before value after := by
  intro started startedEq
  rw [← startedEq] at ran
  exact ⟨_, onMemory_ok ran, rfl⟩

theorem perform {effect : α → Effect L} {body : Prog N Y α} (ran : body before = .ok (value, after)) :
    RunsTo (perform effect body) before value after := by
  intro started startedEq
  rw [← startedEq] at ran
  exact ⟨_, perform_ok ran, rfl⟩

theorem record (effect : Effect L) (store : Store N Y) :
    RunsTo (record effect) store () store :=
  fun started startedEq => ⟨logged effect started, rfl, startedEq⟩

theorem transaction (runs : RunsTo code before value after) :
    RunsTo (transaction code) before value after := by
  intro started startedEq
  apply transaction_memory
  intro other otherEq
  exact runs other (otherEq.trans startedEq)

theorem load {address : Ptr} {object : N} {store : Store N Y}
    (live : store.heap.get? address = some object) :
    RunsTo (Prog.load address : PmemProg N Y L N) store object store := by
  rintro started rfl
  exact ⟨started, Prog.load_ok live, rfl⟩

theorem lift {computation : Except Fault α} (computed : computation = .ok value) (store : Store N Y) :
    RunsTo (Prog.lift computation : PmemProg N Y L α) store value store :=
  fun started startedEq => ⟨started, Prog.lift_ok computed started, startedEq⟩

theorem getRoot (store : Store N Y) :
    RunsTo (Prog.getRoot : PmemProg N Y L Ptr) store store.root store := by
  rintro started rfl
  exact ⟨started, rfl, rfl⟩

theorem heapSize (store : Store N Y) :
    RunsTo (Prog.heapSize : PmemProg N Y L Nat) store store.heap.size store := by
  rintro started rfl
  exact ⟨started, rfl, rfl⟩

/-- A run that is known to succeed. -/
theorem of_ok {started final : Store N (Journal N Y L)} {other : α}
    (runs : RunsTo code (memory started) value after) (ran : code started = .ok (other, final)) :
    other = value ∧ memory final = after := by
  obtain ⟨ended, endedRan, endedEq⟩ := runs started rfl
  rw [endedRan] at ran
  cases ran
  exact ⟨rfl, endedEq⟩

end RunsTo

/-- Whatever was entered into the journal before, the code started on the memory stops at a fault. -/
def StopsAt (code : PmemProg N Y L α) (before : Store N Y) (fault : Fault) : Prop :=
  ∀ started, memory started = before → code started = .error fault

namespace StopsAt

variable {code : PmemProg N Y L α} {before middle : Store N Y} {value : α} {fault : Fault}

theorem bind (stops : StopsAt code before fault) (rest : α → PmemProg N Y L β) :
    StopsAt (code >>= rest) before fault := by
  intro started startedEq
  simp only [Bind.bind, StateT.bind, stops started startedEq, Except.bind]

theorem behind {rest : α → PmemProg N Y L β} (first : RunsTo code before value middle)
    (stops : StopsAt (rest value) middle fault) : StopsAt (code >>= rest) before fault := by
  intro started startedEq
  obtain ⟨between, firstRan, betweenEq⟩ := first started startedEq
  rw [bind_ok firstRan]
  exact stops between betweenEq

theorem lift {computation : Except Fault α} (failed : computation = .error fault) (store : Store N Y) :
    StopsAt (Prog.lift computation : PmemProg N Y L α) store fault := by
  intro started _
  rw [failed]
  rfl

theorem transaction (stops : StopsAt code before fault) :
    StopsAt (transaction code) before fault := by
  intro started startedEq
  unfold Lib.transaction
  split
  · exact stops started startedEq
  · simp only [stops (setRunning true (logged .begin started)) startedEq]

end StopsAt

/-- The code started on the memory stops where the computation stops, and otherwise it runs on to a value
and a memory that are related to the result of the computation. -/
def Follows (code : PmemProg N Y L α) (before : Store N Y) (computation : Except Fault β)
    (post : α → β → Store N Y → Prop) : Prop :=
  match computation with
  | .error fault => StopsAt code before fault
  | .ok result => ∃ value after, RunsTo code before value after ∧ post value result after

namespace Follows

variable {γ δ : Type} {code : PmemProg N Y L α} {before middle after : Store N Y}
  {computation : Except Fault β} {post : α → β → Store N Y → Prop} {value : α} {result : β}

theorem ok (runs : RunsTo code before value after) (here : post value result after) :
    Follows code before (.ok result) post := ⟨value, after, runs, here⟩

/-- Both take one more step. -/
theorem bind {rest : α → PmemProg N Y L γ} {next : β → Except Fault δ}
    {last : γ → δ → Store N Y → Prop} (follows : Follows code before computation post)
    (second : ∀ value result middle, post value result middle →
      Follows (rest value) middle (next result) last) :
    Follows (code >>= rest) before (computation >>= next) last := by
  cases computation with
  | error fault => exact StopsAt.bind follows rest
  | ok result =>
      obtain ⟨value, middle, runs, here⟩ := follows
      have restFollows := second value result middle here
      have outcome : (Except.ok result >>= next) = next result := rfl
      rw [outcome]
      cases nextEq : next result with
      | error fault =>
          rw [nextEq] at restFollows
          exact StopsAt.behind runs restFollows
      | ok final =>
          rw [nextEq] at restFollows
          obtain ⟨answer, after, restRuns, there⟩ := restFollows
          exact ⟨answer, after, runs.bind restRuns, there⟩

/-- Only the code takes a step. -/
theorem behind {rest : α → PmemProg N Y L γ} {last : γ → β → Store N Y → Prop}
    (runs : RunsTo code before value middle)
    (follows : Follows (rest value) middle computation last) :
    Follows (code >>= rest) before computation last := by
  cases computation with
  | error fault => exact StopsAt.behind runs follows
  | ok result =>
      obtain ⟨answer, after, restRuns, here⟩ := follows
      exact ⟨answer, after, runs.bind restRuns, here⟩

theorem weaken {weaker : α → β → Store N Y → Prop} (follows : Follows code before computation post)
    (implies : ∀ value result after, post value result after → weaker value result after) :
    Follows code before computation weaker := by
  cases computation with
  | error fault => exact follows
  | ok result =>
      obtain ⟨value, after, runs, here⟩ := follows
      exact ⟨value, after, runs, implies value result after here⟩

theorem lift (computation : Except Fault β) (store : Store N Y) :
    Follows (Prog.lift computation : PmemProg N Y L β) store computation
      fun value result after => value = result ∧ after = store := by
  cases computation with
  | error fault => exact StopsAt.lift rfl store
  | ok result => exact ⟨result, store, RunsTo.lift rfl store, rfl, rfl⟩

theorem transaction (follows : Follows code before computation post) :
    Follows (transaction code) before computation post := by
  cases computation with
  | error fault => exact StopsAt.transaction follows
  | ok result =>
      obtain ⟨value, after, runs, here⟩ := follows
      exact ⟨value, after, runs.transaction, here⟩

/-- What the code returns, as far as the computation says. -/
theorem map_eq {post : β → β → Store N Y → Prop} {code : PmemProg N Y L β}
    (follows : Follows code before computation post)
    (same : ∀ value result after, post value result after → value = result)
    {started : Store N (Journal N Y L)} (startedEq : memory started = before) :
    (code started).map Prod.fst = computation := by
  cases computation with
  | error fault =>
      have stopped : code started = .error fault := follows started startedEq
      rw [stopped]
      rfl
  | ok result =>
      obtain ⟨value, after, runs, here⟩ := follows
      obtain ⟨final, ran, _⟩ := runs started startedEq
      rw [ran, ← same value result after here]
      rfl

end Follows

end Runs

/-! ### What code does to the memory -/

section Performances

variable {N Y L α β : Type}

/-- Code that leaves the memory as it is. -/
def Quiet (code : PmemProg N Y L Unit) : Prop :=
  ∀ store, ∃ final, code store = .ok ((), final) ∧ memory final = memory store

theorem Quiet.record (effect : Effect L) : Quiet (record effect : PmemProg N Y L Unit) :=
  fun store => ⟨logged effect store, rfl, rfl⟩

theorem Quiet.pure : Quiet (pure () : PmemProg N Y L Unit) := fun store => ⟨store, rfl, rfl⟩

theorem Quiet.bind {first second : PmemProg N Y L Unit} (quiet : Quiet first) (next : Quiet second) :
    Quiet (first >>= fun _ => second) := by
  intro store
  obtain ⟨middle, firstRan, same⟩ := quiet store
  obtain ⟨final, secondRan, stillSame⟩ := next middle
  exact ⟨final, by rw [bind_ok firstRan, secondRan], stillSame.trans same⟩

theorem Quiet.runsTo {code : PmemProg N Y L Unit} (quiet : Quiet code) (store : Store N Y) :
    RunsTo code store () store := by
  rintro started rfl
  exact quiet started

/-- Whatever is in the journal, the code does to the memory what the body does when it succeeds. -/
def Performs (code : PmemProg N Y L α) (body : Prog N Y α) : Prop :=
  ∀ ⦃before value after⦄, body before = .ok (value, after) → RunsTo code before value after

namespace Performs

variable {code : PmemProg N Y L α} {body : Prog N Y α} {step : PmemProg N Y L Unit}

theorem bind {rest : α → PmemProg N Y L β} {next : α → Prog N Y β} (first : Performs code body)
    (second : ∀ value, Performs (rest value) (next value)) :
    Performs (code >>= rest) (body >>= next) := by
  intro before value after ran
  obtain ⟨between, middle, bodyRan, nextRan⟩ := bind_ok_inv ran
  exact (first bodyRan).bind (second between nextRan)

theorem pure (value : α) : Performs (pure value : PmemProg N Y L α) (pure value) := by
  intro before result after ran
  cases ran
  exact RunsTo.pure value before

theorem fault (reason : Fault) :
    Performs (Prog.fault reason : PmemProg N Y L α) (Prog.fault reason) := by
  intro before value after ran
  cases ran

theorem onMemory (body : Prog N Y α) : Performs (onMemory body : PmemProg N Y L α) body :=
  fun _ _ _ ran => RunsTo.onMemory ran

theorem perform (effect : α → Effect L) (body : Prog N Y α) : Performs (perform effect body) body :=
  fun _ _ _ ran => RunsTo.perform ran

theorem load (address : Ptr) :
    Performs (Prog.load address : PmemProg N Y L N) (Prog.load address) := by
  intro before object after ran
  cases live : before.heap.get? address with
  | none => simp [Prog.load, live] at ran
  | some found =>
      rw [Prog.load_ok live] at ran
      cases ran
      exact RunsTo.load live

theorem getRoot : Performs (Prog.getRoot : PmemProg N Y L Ptr) Prog.getRoot := by
  intro before root after ran
  cases ran
  exact RunsTo.getRoot before

theorem heapSize : Performs (Prog.heapSize : PmemProg N Y L Nat) Prog.heapSize := by
  intro before size after ran
  cases ran
  exact RunsTo.heapSize before

theorem branch {condition : Prop} [Decidable condition] {other : PmemProg N Y L α}
    {otherBody : Prog N Y α} (left : condition → Performs code body)
    (right : ¬ condition → Performs other otherBody) :
    Performs (if condition then code else other) (if condition then body else otherBody) := by
  by_cases holds : condition
  · rw [if_pos holds, if_pos holds]
    exact left holds
  · rw [if_neg holds, if_neg holds]
    exact right holds

/-- A snapshot or a persist in front of the code. -/
theorem behind (quiet : Quiet step) (performs : Performs code body) :
    Performs (step >>= fun _ => code) body :=
  fun before _ _ ran => (quiet.runsTo before).bind (performs ran)

/-- A snapshot or a persist behind code that returns nothing. -/
theorem followed {code : PmemProg N Y L Unit} {body : Prog N Y Unit} (performs : Performs code body)
    (quiet : Quiet step) : Performs (code >>= fun _ => step) body :=
  fun _ _ after ran => (performs ran).bind (quiet.runsTo after)

theorem transaction (performs : Performs code body) : Performs (transaction code) body :=
  fun _ _ _ ran => (performs ran).transaction

end Performs

end Performances

/-! ### Comparing a program that keeps a journal with one that does not -/

section Simulation

variable {N M X Y L α β : Type} {pre : Store N X → Store M Y → Prop} {program : Prog N X α}
  {post : α → β → Store N X → Store M Y → Prop}

/-- A relation that does not look at the journal. -/
abbrev Unlogged (relation : Store N X → Store M Y → Prop) :
    Store N X → Store M (Journal M Y L) → Prop :=
  fun store journaled => relation store (memory journaled)

theorem unlogged_of_eq {relation : Store N X → Store M Y → Prop} {store : Store N X}
    {journaled other : Store M (Journal M Y L)} (same : memory other = memory journaled)
    (related : Unlogged relation store journaled) : Unlogged relation store other := by
  have moved : relation store (memory other) := by
    rw [same]
    exact related
  exact moved

theorem Simulates.onMemory {body : Prog M Y β} (simulates : Simulates pre program body post) :
    Simulates (Unlogged (L := L) pre) program (onMemory body)
      fun value result => Unlogged (post value result) := by
  intro store journaled related value after ran
  obtain ⟨result, changed, bodyRan, holds⟩ := simulates related ran
  exact ⟨result, _, onMemory_ok bodyRan, holds⟩

theorem Simulates.perform {effect : β → Effect L} {body : Prog M Y β}
    (simulates : Simulates pre program body post) :
    Simulates (Unlogged pre) program (perform effect body)
      fun value result => Unlogged (post value result) := by
  intro store journaled related value after ran
  obtain ⟨result, changed, bodyRan, holds⟩ := simulates related ran
  exact ⟨result, _, perform_ok bodyRan, holds⟩

theorem Simulates.transaction {code : PmemProg M Y L β}
    (simulates : Simulates (Unlogged pre) program code fun value result =>
      Unlogged (post value result)) :
    Simulates (Unlogged pre) program (transaction code)
      fun value result => Unlogged (post value result) := by
  intro store journaled related value after ran
  cases running : journaled.aux.running with
  | true =>
      rw [transaction_running running]
      exact simulates related ran
  | false =>
      obtain ⟨result, final, codeRan, holds⟩ := simulates
        (show Unlogged pre store (setRunning true (logged .begin journaled)) from related) ran
      exact ⟨result, _, transaction_outermost running codeRan, holds⟩

section

variable {objects : N → M → Prop} {beside : X → Y → Prop}

theorem Simulates.load_journaled (address : Ptr) :
    Simulates (Unlogged (L := L) (Same objects beside)) (Prog.load address) (Prog.load address)
      fun object counterpart => Unlogged fun store memory =>
        objects object counterpart ∧ Same objects beside store memory := by
  intro store journaled same object after ran
  cases live : store.heap.get? address with
  | none => simp [Prog.load, live] at ran
  | some found =>
      rw [Prog.load_ok live] at ran
      cases ran
      obtain ⟨counterpart, there, related⟩ := same.heap.live live
      exact ⟨counterpart, journaled, Prog.load_ok there, related, same⟩

/-- Reading, where it matters later what was at the address. -/
theorem Simulates.load_holding (address : Ptr) :
    Simulates (Unlogged (L := L) (Same objects beside)) (Prog.load address) (Prog.load address)
      fun object counterpart => Unlogged fun store memory => objects object counterpart ∧
        Holding address object counterpart store memory ∧ Same objects beside store memory := by
  intro store journaled same object after ran
  cases live : store.heap.get? address with
  | none => simp [Prog.load, live] at ran
  | some found =>
      rw [Prog.load_ok live] at ran
      cases ran
      obtain ⟨counterpart, there, related⟩ := same.heap.live live
      exact ⟨counterpart, journaled, Prog.load_ok there, related, ⟨live, there⟩, same⟩

theorem Simulates.getRoot_journaled :
    Simulates (Unlogged (L := L) (Same objects beside)) Prog.getRoot Prog.getRoot
      fun root other => Unlogged fun store memory =>
        other = root ∧ Same objects beside store memory := by
  intro store journaled same value after ran
  cases ran
  exact ⟨_, _, rfl, same.root, same⟩

theorem Simulates.heapSize_journaled :
    Simulates (Unlogged (L := L) (Same objects beside)) Prog.heapSize Prog.heapSize
      fun size other => Unlogged fun store memory =>
        other = size ∧ Same objects beside store memory := by
  intro store journaled same value after ran
  cases ran
  exact ⟨_, _, rfl, same.heap.size, same⟩

end

theorem Simulates.quiet_first {step : PmemProg M Y L Unit} {code : PmemProg M Y L β}
    (quiet : Quiet step) (simulates : Simulates (Unlogged pre) program code fun value result =>
      Unlogged (post value result)) :
    Simulates (Unlogged pre) program (step >>= fun _ => code)
      fun value result => Unlogged (post value result) := by
  apply Simulates.after fun _ => Unlogged pre
  · intro store journaled related
    obtain ⟨final, ran, same⟩ := quiet journaled
    exact ⟨(), final, ran, unlogged_of_eq same related⟩
  · intro _
    exact simulates

theorem Simulates.quiet_last {code step : PmemProg M Y L Unit} {last : α → Store N X → Store M Y → Prop}
    (simulates : Simulates (Unlogged pre) program code fun value _ => Unlogged (last value))
    (quiet : Quiet step) :
    Simulates (Unlogged pre) program (code >>= fun _ => step) fun value _ => Unlogged (last value) := by
  intro store journaled related value after ran
  obtain ⟨_, middle, codeRan, holds⟩ := simulates related ran
  obtain ⟨final, stepped, same⟩ := quiet middle
  exact ⟨(), final, by rw [bind_ok codeRan, stepped], unlogged_of_eq same holds⟩

end Simulation

end StoredsBench.Lib
