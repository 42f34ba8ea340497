/-
Module: StoredsBench.Lib.Memory
Layer: Lib
Purpose: Pointer programs with explicit faults. A heap maps addresses to live objects, address 0
  is the null pointer, allocation never reuses an address, and every access to a null, dangling
  or freed pointer faults. A program is a state transformer that either faults or returns, so an
  `ok` result is at once a safety and a termination statement.
Trusted boundary: human-reviewed spec
Main exports: Fault, Heap, Store, Prog, Prog.load, Prog.modify, Prog.malloc, Prog.free, bind_ok,
  Prog.loadBeside, Prog.modifyBeside, Prog.mallocBeside
-/
import Mathlib.Data.List.Basic
import Mathlib.Data.List.Perm.Subperm
import Mathlib.Tactic.Common

namespace StoredsBench.Lib

/-- What a C program does wrong where its behaviour is undefined, where it aborts, or where it
does not return. -/
inductive Fault where
  | invalidPointer
  | outOfBounds
  | uninitialised
  | unterminated
  | assertion
  | diverged
deriving Repr, DecidableEq

/-- Addresses; `0` is the null pointer. -/
abbrev Ptr := Nat

def null : Ptr := 0

/-- Live objects by address.  The object at address `p` sits at position `p - 1`; a freed one
leaves `none` behind. -/
structure Heap (N : Type) where
  cells : List (Option N)
deriving DecidableEq

namespace Heap

variable {N : Type}

def empty : Heap N := ⟨[]⟩

/-- Number of objects ever allocated, which is also the highest address in use. -/
def size (heap : Heap N) : Nat := heap.cells.length

def get? (heap : Heap N) : Ptr → Option N
  | 0 => none
  | address + 1 => heap.cells[address]?.join

def set (heap : Heap N) (address : Ptr) (object : N) : Heap N :=
  ⟨heap.cells.set (address - 1) (some object)⟩

def push (heap : Heap N) (object : N) : Heap N := ⟨heap.cells ++ [some object]⟩

def erase (heap : Heap N) (address : Ptr) : Heap N := ⟨heap.cells.set (address - 1) none⟩

/-- Every live object changed. -/
def mapObjects (change : N → N) (heap : Heap N) : Heap N := ⟨heap.cells.map (Option.map change)⟩

@[simp] theorem get?_null (heap : Heap N) : heap.get? null = none := rfl

@[simp] theorem size_set (heap : Heap N) (address : Nat) (object : N) :
    (heap.set address object).size = heap.size := by
  simp [size, set]

@[simp] theorem size_push (heap : Heap N) (object : N) :
    (heap.push object).size = heap.size + 1 := by
  simp [size, push]

@[simp] theorem size_erase (heap : Heap N) (address : Nat) :
    (heap.erase address).size = heap.size := by
  simp [size, erase]

theorem bounds_of_get? {heap : Heap N} {address : Nat} {object : N}
    (live : heap.get? address = some object) : 0 < address ∧ address ≤ heap.size := by
  cases address with
  | zero => simp [get?] at live
  | succ address =>
      have inside : address < heap.cells.length := by
        by_contra outside
        simp [get?, List.getElem?_eq_none (Nat.le_of_not_lt outside)] at live
      exact ⟨Nat.succ_pos _, inside⟩

theorem ne_null_of_get? {heap : Heap N} {address : Nat} {object : N}
    (live : heap.get? address = some object) : address ≠ null :=
  Nat.ne_of_gt (bounds_of_get? live).1

theorem get?_set {heap : Heap N} {address : Nat} {old : N} (live : heap.get? address = some old)
    (object : N) (other : Nat) :
    (heap.set address object).get? other =
      if other = address then some object else heap.get? other := by
  obtain ⟨positive, inside⟩ := bounds_of_get? live
  cases other with
  | zero => rw [if_neg (by omega)]; rfl
  | succ other =>
      obtain ⟨address, rfl⟩ : ∃ below, address = below + 1 := ⟨address - 1, by omega⟩
      have inCells : address < heap.cells.length := inside
      by_cases same : other = address
      · subst same
        simp [get?, set, inCells]
      · simp [get?, set, List.getElem?_set_ne (Ne.symm same), same]

theorem get?_erase {heap : Heap N} {address : Nat} {old : N} (live : heap.get? address = some old)
    (other : Nat) :
    (heap.erase address).get? other = if other = address then none else heap.get? other := by
  obtain ⟨positive, inside⟩ := bounds_of_get? live
  cases other with
  | zero => simp [get?]
  | succ other =>
      obtain ⟨address, rfl⟩ : ∃ below, address = below + 1 := ⟨address - 1, by omega⟩
      have inCells : address < heap.cells.length := inside
      by_cases same : other = address
      · subst same
        simp [get?, erase, inCells]
      · simp [get?, erase, List.getElem?_set_ne (Ne.symm same), same]

theorem get?_push (heap : Heap N) (object : N) (other : Nat) :
    (heap.push object).get? other =
      if other = heap.size + 1 then some object else heap.get? other := by
  cases other with
  | zero => simp [get?]
  | succ other =>
      by_cases same : other = heap.cells.length
      · subst same
        simp [get?, push, size]
      · have different : other + 1 ≠ heap.size + 1 := by simpa [size] using same
        rw [if_neg different]
        rcases Nat.lt_or_gt_of_ne same with inside | outside
        · simp [get?, push, List.getElem?_append_left inside]
        · have beyond : (heap.cells ++ [some object])[other]? = none :=
            List.getElem?_eq_none (by rw [List.length_append]; exact outside)
          have beyondBefore : heap.cells[other]? = none :=
            List.getElem?_eq_none (Nat.le_of_lt outside)
          simp only [get?, push, beyond, beyondBefore]

theorem get?_mapObjects (change : N → N) (heap : Heap N) (address : Ptr) :
    (heap.mapObjects change).get? address = (heap.get? address).map change := by
  cases address with
  | zero => rfl
  | succ address =>
      simp only [get?, mapObjects, List.getElem?_map]
      cases heap.cells[address]? with
      | none => rfl
      | some cell => cases cell <;> rfl

/-- Initialising an object right after its allocation. -/
theorem push_set (heap : Heap N) (blank object : N) :
    (heap.push blank).set (heap.size + 1) object = heap.push object := by
  simp [push, set, size]

/-- Only the last of two stores to an object remains. -/
theorem set_set (heap : Heap N) (address : Ptr) (object last : N) :
    (heap.set address object).set address last = heap.set address last := by
  simp [set]

@[simp] theorem get?_empty (address : Nat) : (empty : Heap N).get? address = none := by
  cases address <;> simp [get?, empty]

/-- An address that is not live now was never written by an earlier object either. -/
theorem ne_fresh_of_get? {heap : Heap N} {address : Nat} {object : N}
    (live : heap.get? address = some object) : address ≠ heap.size + 1 := by
  have inside := (bounds_of_get? live).2
  omega

/-- Distinct addresses in use are no more than were allocated. -/
theorem length_le_size {heap : Heap N} {addresses : List Nat} (distinct : addresses.Nodup)
    (used : ∀ address ∈ addresses, 0 < address ∧ address ≤ heap.size) :
    addresses.length ≤ heap.size := by
  have inRange : addresses ⊆ List.range' 1 heap.size := by
    intro address member
    have bounds := used address member
    rw [List.mem_range'_1]
    omega
  have count := (distinct.subperm inRange).length_le
  rwa [List.length_range'] at count

end Heap

/-- The memory of one data structure: its heap, the pointer it is entered through (`root`,
`head`, ...), and further state `X` the operations draw on. -/
structure Store (N X : Type) where
  heap : Heap N
  root : Ptr
  aux : X

/-- A program over a store of `N` objects. -/
abbrev Prog (N X α : Type) := StateT (Store N X) (Except Fault) α

/-- A computation whose outcome is a success starts with a success. -/
theorem except_bind_inv {α β : Type} {first : Except Fault α} {rest : α → Except Fault β} {result : β}
    (ran : (first >>= rest) = .ok result) :
    ∃ value, first = .ok value ∧ rest value = .ok result := by
  cases first with
  | error fault => cases ran
  | ok value => exact ⟨value, rfl, ran⟩

theorem except_bind_ok {α β : Type} {first : Except Fault α} {rest : α → Except Fault β} {value : α}
    (ran : first = .ok value) : (first >>= rest) = rest value := by
  rw [ran]
  rfl

section Programs

variable {N X α β : Type}

/-- Run the rest of a program from what its first part returned. -/
theorem bind_ok {first : Prog N X α} {rest : α → Prog N X β} {store after : Store N X} {value : α}
    (ran : first store = .ok (value, after)) : (first >>= rest) store = rest value after := by
  simp [bind, StateT.bind, ran, Except.bind]

theorem pure_ok (value : α) (store : Store N X) :
    (pure value : Prog N X α) store = .ok (value, store) := rfl

theorem map_ok_inv {E : Type} {change : α → β} {outcome : Except E α} {result : β}
    (mapped : outcome.map change = .ok result) : ∃ value, outcome = .ok value ∧ change value = result := by
  cases outcome with
  | error fault => cases mapped
  | ok value =>
      cases mapped
      exact ⟨value, rfl, rfl⟩

/-- A program whose run is a success starts with a success. -/
theorem bind_ok_inv {first : Prog N X α} {rest : α → Prog N X β} {store final : Store N X}
    {result : β} (ran : (first >>= rest) store = .ok (result, final)) :
    ∃ value after, first store = .ok (value, after) ∧ rest value after = .ok (result, final) := by
  cases firstRan : first store with
  | error fault => simp [bind, StateT.bind, firstRan, Except.bind] at ran
  | ok pair => exact ⟨pair.1, pair.2, rfl, by simpa [bind, StateT.bind, firstRan, Except.bind] using ran⟩

namespace Prog

def fault (reason : Fault) : Prog N X α := fun _ => .error reason

/-- Lift a computation that does not touch the store. -/
def lift (computation : Except Fault α) : Prog N X α :=
  fun store => computation.map fun value => (value, store)

/-- Read the object a pointer names. -/
def load (address : Ptr) : Prog N X N := fun store =>
  match store.heap.get? address with
  | some object => .ok (object, store)
  | none => .error .invalidPointer

/-- Change the object a pointer names; the change itself may fault. -/
def modify (address : Ptr) (change : N → Except Fault N) : Prog N X Unit := fun store =>
  match store.heap.get? address with
  | none => .error .invalidPointer
  | some object =>
      match change object with
      | .ok object => .ok ((), { store with heap := store.heap.set address object })
      | .error fault => .error fault

/-- Allocate an object with the given initial contents. -/
def malloc (object : N) : Prog N X Ptr := fun store =>
  .ok (store.heap.size + 1, { store with heap := store.heap.push object })

/-- Release an object; freeing anything else than a live object faults. -/
def free (address : Ptr) : Prog N X Unit := fun store =>
  match store.heap.get? address with
  | none => .error .invalidPointer
  | some _ => .ok ((), { store with heap := store.heap.erase address })

def getRoot : Prog N X Ptr := fun store => .ok (store.root, store)

def setRoot (address : Ptr) : Prog N X Unit := fun store => .ok ((), { store with root := address })

def getAux : Prog N X X := fun store => .ok (store.aux, store)

def setAux (aux : X) : Prog N X Unit := fun store => .ok ((), { store with aux := aux })

/-- Number of objects ever allocated: a bound for any walk that visits no object twice. -/
def heapSize : Prog N X Nat := fun store => .ok (store.heap.size, store)

theorem getRoot_ok (store : Store N X) : getRoot store = .ok (store.root, store) := rfl

theorem getAux_ok (store : Store N X) : getAux store = .ok (store.aux, store) := rfl

theorem heapSize_ok (store : Store N X) : heapSize store = .ok (store.heap.size, store) := rfl

theorem lift_ok {computation : Except Fault α} {value : α} (computed : computation = .ok value)
    (store : Store N X) : lift computation store = .ok (value, store) := by
  simp [lift, computed, Except.map]

theorem lift_inv {computation : Except Fault α} {store after : Store N X} {value : α}
    (ran : lift computation store = .ok (value, after)) : computation = .ok value ∧ after = store := by
  cases computationEq : computation with
  | error fault => simp [lift, computationEq, Except.map] at ran
  | ok computed =>
      rw [lift_ok computationEq] at ran
      cases ran
      exact ⟨rfl, rfl⟩

theorem load_ok {store : Store N X} {address : Ptr} {object : N}
    (live : store.heap.get? address = some object) : load address store = .ok (object, store) := by
  simp [load, live]

theorem load_inv {store after : Store N X} {address : Ptr} {object : N}
    (loaded : load address store = .ok (object, after)) : store.heap.get? address = some object := by
  unfold load at loaded
  split at loaded
  · rename_i found live
    cases loaded
    exact live
  · cases loaded

/-- Reading an object twice reads the same. -/
theorem load_load (address : Ptr) (rest : N → N → Prog N X α) :
    (do
      let first ← load address
      let second ← load address
      rest first second) =
      load address >>= fun object => rest object object := by
  funext store
  cases live : store.heap.get? address with
  | none => simp [load, live, bind, StateT.bind, Except.bind]
  | some object => rw [bind_ok (load_ok live), bind_ok (load_ok live), bind_ok (load_ok live)]

theorem modify_ok {store : Store N X} {address : Ptr} {object changed : N}
    {change : N → Except Fault N} (live : store.heap.get? address = some object)
    (ran : change object = .ok changed) :
    modify address change store =
      .ok ((), { store with heap := store.heap.set address changed }) := by
  simp [modify, live, ran]

theorem modify_inv {store after : Store N X} {address : Ptr} {change : N → Except Fault N} {value : Unit}
    (ran : modify address change store = .ok (value, after)) :
    ∃ object changed, store.heap.get? address = some object ∧ change object = .ok changed ∧
      after = { store with heap := store.heap.set address changed } := by
  cases live : store.heap.get? address with
  | none => simp [modify, live] at ran
  | some object =>
      cases changedEq : change object with
      | error fault => simp [modify, live, changedEq] at ran
      | ok changed =>
          rw [modify_ok live changedEq] at ran
          cases ran
          exact ⟨object, changed, rfl, changedEq, rfl⟩

/-- A change that cannot fault itself. -/
theorem modify_pure_ok {store : Store N X} {address : Ptr} {object : N} (change : N → N)
    (live : store.heap.get? address = some object) :
    modify address (fun node => .ok (change node)) store =
      .ok ((), { store with heap := store.heap.set address (change object) }) :=
  modify_ok live rfl

theorem malloc_ok (object : N) (store : Store N X) :
    malloc object store =
      .ok (store.heap.size + 1, { store with heap := store.heap.push object }) := rfl

theorem free_ok {store : Store N X} {address : Ptr} {object : N}
    (live : store.heap.get? address = some object) :
    free address store = .ok ((), { store with heap := store.heap.erase address }) := by
  simp [free, live]

/-- A store to the object that was allocated last. -/
theorem modify_allocated (store : Store N X) (object : N) (change : N → N) :
    modify (store.heap.size + 1) (fun contents => .ok (change contents))
        { store with heap := store.heap.push object } =
      .ok ((), { store with heap := store.heap.push (change object) }) := by
  have live : (store.heap.push object).get? (store.heap.size + 1) = some object := by
    rw [Heap.get?_push, if_pos rfl]
  rw [modify_pure_ok change live, Heap.push_set]

end Prog

end Programs

/-! ### Programs that only read -/

/-- Nothing is changed. -/
def Reading {N X α : Type} (program : Prog N X α) : Prop :=
  ∀ ⦃store after : Store N X⦄ ⦃value : α⦄, program store = .ok (value, after) → after = store

namespace Reading

variable {N X α β : Type} {program : Prog N X α}

theorem bind {rest : α → Prog N X β} (first : Reading program)
    (second : ∀ value, Reading (rest value)) : Reading (program >>= rest) := by
  intro store after value ran
  obtain ⟨between, middle, firstRan, restRan⟩ := bind_ok_inv ran
  rw [second between restRan, first firstRan]

theorem pure (value : α) : Reading (pure value : Prog N X α) := by
  intro store after result ran
  cases ran
  rfl

theorem fault (reason : Fault) : Reading (Prog.fault reason : Prog N X α) := by
  intro store after value ran
  cases ran

theorem lift (computation : Except Fault α) : Reading (Prog.lift computation : Prog N X α) :=
  fun _ _ _ ran => (Prog.lift_inv ran).2

theorem load (address : Ptr) : Reading (Prog.load address : Prog N X N) := by
  intro store after object ran
  unfold Prog.load at ran
  split at ran
  · cases ran
    rfl
  · cases ran

theorem getRoot : Reading (Prog.getRoot : Prog N X Ptr) := by
  intro store after root ran
  cases ran
  rfl

theorem getAux : Reading (Prog.getAux : Prog N X X) := by
  intro store after value ran
  cases ran
  rfl

theorem heapSize : Reading (Prog.heapSize : Prog N X Nat) := by
  intro store after size ran
  cases ran
  rfl

theorem branch {condition : Prop} [Decidable condition] {other : Prog N X α}
    (left : condition → Reading program) (right : ¬ condition → Reading other) :
    Reading (if condition then program else other) := by
  by_cases holds : condition
  · rw [if_pos holds]
    exact left holds
  · rw [if_neg holds]
    exact right holds

end Reading

/-! ### A second heap -/

section Beside

variable {N R : Type}

namespace Prog

/-- Read an object of the heap that is kept beside the first one. -/
def loadBeside (address : Ptr) : Prog N (Heap R) R := fun store =>
  match store.aux.get? address with
  | some object => .ok (object, store)
  | none => .error .invalidPointer

def modifyBeside (address : Ptr) (change : R → R) : Prog N (Heap R) Unit := fun store =>
  match store.aux.get? address with
  | some object => .ok ((), { store with aux := store.aux.set address (change object) })
  | none => .error .invalidPointer

/-- Allocate an object whose contents may depend on its address. -/
def mallocBeside (contents : Ptr → R) : Prog N (Heap R) Ptr := fun store =>
  .ok (store.aux.size + 1, { store with aux := store.aux.push (contents (store.aux.size + 1)) })

theorem loadBeside_ok {store : Store N (Heap R)} {address : Ptr} {object : R}
    (live : store.aux.get? address = some object) : loadBeside address store = .ok (object, store) := by
  simp [loadBeside, live]

theorem modifyBeside_ok {store : Store N (Heap R)} {address : Ptr} {object : R} (change : R → R)
    (live : store.aux.get? address = some object) :
    modifyBeside address change store =
      .ok ((), { store with aux := store.aux.set address (change object) }) := by
  simp [modifyBeside, live]

theorem mallocBeside_ok (contents : Ptr → R) (store : Store N (Heap R)) :
    mallocBeside contents store = .ok (store.aux.size + 1,
      { store with aux := store.aux.push (contents (store.aux.size + 1)) }) := rfl

end Prog

end Beside

end StoredsBench.Lib
