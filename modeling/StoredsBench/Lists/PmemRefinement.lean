/-
Module: StoredsBench.Lists.PmemRefinement
Layer: Refinement
Purpose: How the stores to list nodes in a pool change what the places of the pool hold and what the
  heap shows, and that the places determine what the heap shows.
Trusted boundary: none
Main exports: RootApart, modify_frames, allocate_frames, createNode_runsTo, nextAt_eq_of_read,
  entryAt_eq_of_read
-/
import StoredsBench.Lists.Pmem
import StoredsBench.Lists.Refinement
import StoredsBench.Lib.Logging

namespace StoredsBench.Lists

open Lib Lib.SortedAssoc

variable {R Y : Type}

/-! ### What places hold -/

/-- The members of a node determine it. -/
theorem ListNode.ext_content {node other : ListNode}
    (same : ∀ field, node.content field = other.content field) : node = other := by
  obtain ⟨key, ⟨bytes, length⟩, next⟩ := node
  obtain ⟨otherKey, ⟨otherBytes, otherLength⟩, otherNext⟩ := other
  have keyEq : key = otherKey := Content.word.inj (same .key)
  have nextEq : next = otherNext := Content.pointer.inj (same .next)
  have bytesEq : bytes = otherBytes := by
    apply List.ext_getElem (length.trans otherLength.symm)
    intro offset inside otherInside
    have byte := Content.byte.inj (same (.valueByte offset))
    simpa [List.getD_eq_getElem?_getD, inside, otherInside] using byte
  subst keyEq nextEq bytesEq
  rfl

variable {readRoot : Store ListNode Y → R → Option Content} {store other : Store ListNode Y}

theorem node_eq_of_read (same : readPlace readRoot store = readPlace readRoot other) (address : Ptr) :
    store.heap.get? address = other.heap.get? address := by
  have fields : Nonempty ListField := ⟨.key⟩
  exact get?_eq_of_read (fun same => ListNode.ext_content same) same address

theorem nextAt_eq_of_read (same : readPlace readRoot store = readPlace readRoot other) :
    nextAt store.heap = nextAt other.heap := by
  funext address
  rw [nextAt, node_eq_of_read same, nextAt]

theorem entryAt_eq_of_read (same : readPlace readRoot store = readPlace readRoot other) :
    entryAt store.heap = entryAt other.heap := by
  funext address
  rw [entryAt, node_eq_of_read same, entryAt]

/-! ### What the stores change -/

/-- `storeKey`, `storeNext` and `storeValue` change no other member. -/
theorem key_kept (key : Key) (address : Ptr) (node changed : ListNode) (field : ListField)
    (changedEq : (.ok { node with key := some key } : Except Fault ListNode) = .ok changed)
    (outside : fieldBytes (R := R) address .key (.node address field) = false) :
    changed.content field = node.content field := by
  cases changedEq
  cases field with
  | key => simp [fieldBytes] at outside
  | valueByte offset => rfl
  | next => rfl

theorem next_kept (next address : Ptr) (node changed : ListNode) (field : ListField)
    (changedEq : (.ok { node with next := some next } : Except Fault ListNode) = .ok changed)
    (outside : fieldBytes (R := R) address .next (.node address field) = false) :
    changed.content field = node.content field := by
  cases changedEq
  cases field with
  | key => rfl
  | valueByte offset => rfl
  | next => simp [fieldBytes] at outside

theorem value_kept (string : Value) (address : Ptr) (node changed : ListNode) (field : ListField)
    (changedEq : (.ok { node with value := node.value.copyString string } : Except Fault ListNode) =
      .ok changed)
    (outside : stringBytes (R := R) address (string.chars.length + 1) (.node address field) = false) :
    changed.content field = node.content field := by
  cases changedEq
  cases field with
  | key => rfl
  | valueByte offset =>
      have behind : string.chars.length + 1 ≤ offset := by simpa [stringBytes] using outside
      simp only [ListNode.content, List.getD_eq_getElem?_getD, node.value.copyString_behind string behind]
  | next => rfl

/-! ### Rules for code that logs its stores -/

section Logged

variable {garbage : Ptr → ListNode} {behind : R → ListPlace R → Bool} {covered : ListPlace R → Bool}

theorem logs_storeKey (apart : RootApart readRoot) {key : Key} {address : Ptr}
    (covers : Covers covered address) :
    Logs (readPlace readRoot) covered (storeKey key address) fun _ more => more = covered := by
  apply Logs.modify apart
  · exact key_kept key address
  · intro place inside
    obtain rfl := eq_of_fieldBytes inside
    exact covers .key

theorem logs_storeNext (apart : RootApart readRoot) {next address : Ptr}
    (covers : Covers covered address) :
    Logs (readPlace readRoot) covered (storeNext next address) fun _ more => more = covered := by
  apply Logs.modify apart
  · exact next_kept next address
  · intro place inside
    obtain rfl := eq_of_fieldBytes inside
    exact covers .next

theorem logs_storeValue (apart : RootApart readRoot) {value : Value} {address : Ptr}
    (covers : Covers covered address) :
    Logs (readPlace readRoot) covered (storeValue value address) fun _ more => more = covered := by
  apply Logs.modify apart
  · exact value_kept value address
  · intro place inside
    cases place with
    | root member => cases inside
    | node other field =>
        cases field with
        | key => cases inside
        | next => cases inside
        | valueByte offset =>
            have both : other = address ∧ offset < value.chars.length + 1 := by
              simpa [stringBytes] using inside
            obtain ⟨rfl, _⟩ := both
            exact covers (.valueByte offset)

/-- `create_node` in a transaction: the new node is covered. -/
theorem logs_createNode (apart : RootApart readRoot) {key : Key} {value : Value} :
    Logs (readPlace readRoot) covered ((ListPool.tx garbage behind).createNode key value)
      fun address more => more = fun place => covered place || nodeBytes address place := by
  apply (Mode.logs_allocate apart garbage covered).bind
  rintro address _ rfl
  have covers := covers_added covered address
  apply (logs_storeKey apart covers).bind
  rintro _ _ rfl
  apply (logs_storeValue apart covers).bind
  rintro _ _ rfl
  exact EffectLogic.Holds.pure rfl

/-- Overwriting a value in a transaction. -/
theorem logs_overwritten (apart : RootApart readRoot) (garbage : Ptr → ListNode)
    (behind : R → ListPlace R → Bool) (value : Value) (address : Ptr) :
    Logs (readPlace readRoot) (fun _ => false)
      (do
        (ListPool.tx garbage behind).mode.addRange (nodeBytes address)
        storeValue value address)
      fun _ _ => True := by
  have snapshotted : Logs (Y := Y) (readPlace readRoot) (fun _ => false)
      (addRange (nodeBytes address)) fun _ more => more = nodeBytes (R := R) address :=
    Logs.addRange rfl
  apply snapshotted.bind
  rintro _ _ rfl
  exact (logs_storeValue apart (covers_nodeBytes address)).weaken fun _ _ _ => trivial

end Logged

/-! ### Rules for the effects of the stores -/

section Effects

variable {running : Bool} {allowed : Effect (ListPlace R) → Store ListNode Y → Prop} {pool : ListPool R}

theorem emits_storeKey (apart : RootApart readRoot) {key : Key} {address : Ptr}
    (stores : ∀ range memory, allowed (.store range) memory) :
    Emits (readPlace readRoot) running allowed (storeKey key address) :=
  Emits.modify apart (key_kept key address) (stores _)

theorem emits_storeValue (apart : RootApart readRoot) {value : Value} {address : Ptr}
    (stores : ∀ range memory, allowed (.store range) memory) :
    Emits (readPlace readRoot) running allowed (storeValue value address) :=
  Emits.modify apart (value_kept value address) (stores _)

theorem emits_storeNext (apart : RootApart readRoot) {next address : Ptr}
    (stores : ∀ range memory, allowed (.store range) memory) :
    Emits (readPlace readRoot) running allowed (storeNext next address) :=
  Emits.modify apart (next_kept next address) (stores _)

theorem emits_createNode (apart : RootApart readRoot) {key : Key} {value : Value}
    (stores : ∀ range memory, allowed (.store range) memory)
    (allocates : ∀ address memory, memory.heap.get? address = some (pool.garbage address) →
      allowed (pool.mode.allocation (nodeBytes address)) memory) :
    Emits (readPlace readRoot) pool.mode.inside allowed (pool.createNode key value) := by
  apply (Mode.emits_allocate apart allocates).bind
  intro address
  apply (emits_storeKey apart stores).bind
  intro _
  apply (emits_storeValue apart stores).bind
  intro _
  exact Emits.pure address

theorem emits_findNode {key : Key} {fuel first : Nat} :
    Emits (readPlace readRoot) running allowed (findNode key fuel first : ListPmemProg R Y Ptr) := by
  apply EffectLogic.Holds.quiet
  · exact fun store found final ran => (findNode_inv ran).1
  · exact fun _ => trivial

theorem emits_overwrite (apart : RootApart readRoot) {value : Value} {address : Ptr}
    (stores : ∀ range memory, allowed (.store range) memory) (begins : ∀ memory, allowed .begin memory)
    (commits : ∀ memory, allowed .commit memory)
    (snapshots : pool.mode = .transactional → ∀ memory, allowed (.snapshot (nodeBytes address)) memory) :
    Emits (readPlace readRoot) false allowed (pool.overwrite value address) := by
  refine Mode.emits_transaction ?_ begins commits
  apply (Mode.emits_addRange snapshots).bind
  intro _
  exact emits_storeValue apart stores

end Effects

/-! ### What the memory shows -/

theorem nextAt_allocated (heap : Heap ListNode) (node : ListNode) :
    nextAt (heap.push node) = Function.update (nextAt heap) (heap.size + 1) node.next := by
  funext other
  rw [nextAt, Heap.get?_push, Function.update_apply]
  split
  · rfl
  · rfl

theorem entryAt_allocated (heap : Heap ListNode) (node : ListNode) :
    entryAt (heap.push node) = Function.update (entryAt heap) (heap.size + 1) node.view := by
  funext other
  rw [entryAt, Heap.get?_push, Function.update_apply]
  split
  · rfl
  · rfl

/-- The node `create_node` makes at an address. -/
def ListPool.newNode (pool : ListPool R) (key : Key) (value : Value) (address : Ptr) : ListNode :=
  { pool.garbage address with
    key := some key
    value := (pool.garbage address).value.copyString value }

theorem ListPool.view_newNode (pool : ListPool R) (key : Key) (value : Value) (address : Ptr) :
    (pool.newNode key value address).view = some (key, value) := by
  simp [ListNode.view, ListPool.newNode]

theorem createNode_runsTo (pool : ListPool R) (key : Key) (value : Value) (memory : Store ListNode Y) :
    RunsTo (pool.createNode key value) memory (memory.heap.size + 1)
      { memory with heap := memory.heap.push (pool.newNode key value (memory.heap.size + 1)) } := by
  apply RunsTo.bind (pool.mode.allocate_runsTo pool.garbage memory)
  apply RunsTo.bind (RunsTo.perform (Prog.modify_allocated memory _ fun contents =>
    { contents with key := some key }))
  apply RunsTo.bind (RunsTo.perform (Prog.modify_allocated memory _ fun contents =>
    { contents with value := contents.value.copyString value }))
  exact RunsTo.pure _ _

/-- The calls around the copy of a value do not touch the memory. -/
theorem overwrite_runsTo (pool : ListPool R) {memory after : Store ListNode Y} {address : Ptr}
    {value : Value} (ran : setValue value address memory = .ok ((), after)) :
    RunsTo (pool.overwrite value address) memory () after := by
  apply pool.mode.runsTo_transaction
  apply (pool.mode.runsTo_addRange _ _).bind
  exact RunsTo.perform ran

/-- Only the copy changes the memory. -/
theorem overwrite_inv {pool : ListPool R} {store final : ListPmem R Y} {value : Value} {address : Ptr}
    (ran : pool.overwrite value address store = .ok ((), final)) :
    setValue value address (memory store) = .ok ((), memory final) := by
  obtain ⟨started, ended, startedEq, bodyRan, endedEq⟩ := Mode.transaction_ran ran
  obtain ⟨_, middle, addedRan, storedRan⟩ := bind_ok_inv bodyRan
  obtain ⟨changed, copied, rfl⟩ := perform_inv storedRan
  have middleEq : memory middle = memory started :=
    ((pool.mode.runsTo_addRange _ (memory started)).of_ok addedRan).2
  rw [← endedEq, ← startedEq, ← middleEq]
  exact copied

end StoredsBench.Lists
