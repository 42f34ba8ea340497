/-
Module: StoredsBench.Clients
Layer: Model
Purpose: Clients that share one of the classes with a lock.  Every call runs between locking and
  unlocking, so a run is a sequence of whole calls in the order in which they got the lock; which
  client makes a call is noted with it.  What a client does with a pointer it got is not part of a
  call, so pointers must stay good after the lock is released.
Trusted boundary: human-reviewed spec
Main exports: ClientCall, SharedBackend, SharedBackend.run, SharedBackend.Stable, KeepsPointers
-/
import StoredsBench.Interface
import Mathlib.Data.List.Nodup

namespace StoredsBench

open Lib

/-- A call of one of the clients, which are numbered. -/
inductive ClientCall where
  | read (client : Nat) (key : Key)
  | insert (client : Nat) (key : Key) (value : Value)
  | update (client : Nat) (key : Key) (value : Value)

/-- The key whose value a call writes. -/
def ClientCall.written? : ClientCall → Option Key
  | .read _ _ => none
  | .insert _ key _ => some key
  | .update _ key _ => some key

/-- A class as its clients see it: `read` returns a pointer to a value slot. -/
structure SharedBackend (σ : Type) where
  insert : Key → Value → σ → Except Fault σ
  update : Key → Value → σ → Except Fault σ
  read : Key → σ → Except Fault (Option Ptr)
  /-- The contents of the value slot a pointer names. -/
  slot : σ → Ptr → Option ValueSlot

namespace SharedBackend

variable {σ : Type} (backend : SharedBackend σ)

/-- One critical section. -/
def step : ClientCall → σ → Except Fault σ
  | .read _ key, state => (backend.read key state).map fun _ => state
  | .insert _ key value, state => backend.insert key value state
  | .update _ key value, state => backend.update key value state

/-- The calls in the order in which they got the lock. -/
def run (calls : List ClientCall) (state : σ) : Except Fault σ :=
  calls.foldlM (fun state call => backend.step call state) state

/-- A pointer that `read` delivers in the state stays the slot of its key: after any further calls
`read` delivers the same one, and a call changes what is in the slot only if it writes to the key. -/
def Stable (state : σ) : Prop :=
  ∀ key address, backend.read key state = .ok (some address) → ∀ calls, ∃ later,
    backend.run calls state = .ok later ∧ backend.read key later = .ok (some address) ∧
    ∀ call, ∃ next, backend.step call later = .ok next ∧
      (call.written? ≠ some key → backend.slot next address = backend.slot later address)

end SharedBackend

/-- A class whose states show for which key each slot is used.  Slots stay with their keys, and a
write for one key leaves the slots of the others alone. -/
structure KeepsPointers {σ : Type} (backend : SharedBackend σ)
    (Placed : σ → List (Ptr × Key) → Prop) : Prop where
  unique : ∀ {state places first second key}, Placed state places → (first, key) ∈ places →
    (second, key) ∈ places → first = second
  read : ∀ {state places}, Placed state places → ∀ key,
    (∃ address, backend.read key state = .ok (some address) ∧ (address, key) ∈ places) ∨
      backend.read key state = .ok none
  complete : ∀ {state places address key}, Placed state places → (address, key) ∈ places →
    backend.read key state ≠ .ok none
  insert : ∀ {state places}, Placed state places → ∀ key value, ∃ next later,
    backend.insert key value state = .ok next ∧ Placed next later ∧ places ⊆ later ∧
      ∀ address other, (address, other) ∈ places → other ≠ key →
        backend.slot next address = backend.slot state address
  update : ∀ {state places}, Placed state places → ∀ key value,
    backend.update key value state = backend.insert key value state

/-- Among objects with distinct keys, a key has one label. -/
theorem label_unique {α : Type} {labelOf : α → Ptr} {keyOf : α → Key} {objects : List α}
    (distinct : (objects.map keyOf).Nodup) {first second : Ptr} {key : Key}
    (firstPlace : (first, key) ∈ objects.map fun object => (labelOf object, keyOf object))
    (secondPlace : (second, key) ∈ objects.map fun object => (labelOf object, keyOf object)) :
    first = second := by
  obtain ⟨one, oneIn, oneEq⟩ := List.mem_map.mp firstPlace
  obtain ⟨other, otherIn, otherEq⟩ := List.mem_map.mp secondPlace
  obtain ⟨rfl, oneKey⟩ := Prod.mk.inj oneEq
  obtain ⟨rfl, otherKey⟩ := Prod.mk.inj otherEq
  rw [List.inj_on_of_nodup_map distinct oneIn otherIn (oneKey.trans otherKey.symm)]

namespace KeepsPointers

variable {σ : Type} {backend : SharedBackend σ} {Placed : σ → List (Ptr × Key) → Prop} {state : σ}
  {places : List (Ptr × Key)}

/-- One call keeps the slots and touches only that of the key it writes. -/
theorem step (keeps : KeepsPointers backend Placed) (placed : Placed state places)
    (call : ClientCall) :
    ∃ next later, backend.step call state = .ok next ∧ Placed next later ∧ places ⊆ later ∧
      ∀ address key, (address, key) ∈ places → call.written? ≠ some key →
        backend.slot next address = backend.slot state address := by
  cases call with
  | read client key =>
      refine ⟨state, places, ?_, placed, List.Subset.refl places, fun _ _ _ _ => rfl⟩
      rcases keeps.read placed key with ⟨address, found, _⟩ | missing
      · rw [SharedBackend.step, found]
        rfl
      · rw [SharedBackend.step, missing]
        rfl
  | insert client key value =>
      obtain ⟨next, later, ran, still, grows, frame⟩ := keeps.insert placed key value
      refine ⟨next, later, ran, still, grows, ?_⟩
      intro address other member unwritten
      exact frame address other member fun same => unwritten (congrArg some same.symm)
  | update client key value =>
      obtain ⟨next, later, ran, still, grows, frame⟩ := keeps.insert placed key value
      refine ⟨next, later, (keeps.update placed key value).trans ran, still, grows, ?_⟩
      intro address other member unwritten
      exact frame address other member fun same => unwritten (congrArg some same.symm)

theorem run (keeps : KeepsPointers backend Placed) (calls : List ClientCall)
    (placed : Placed state places) :
    ∃ later more, backend.run calls state = .ok later ∧ Placed later more ∧ places ⊆ more := by
  induction calls generalizing state places with
  | nil => exact ⟨state, places, rfl, placed, List.Subset.refl places⟩
  | cons call rest inductionHypothesis =>
      obtain ⟨next, nextPlaces, ran, nextPlaced, grows, _⟩ := keeps.step placed call
      obtain ⟨later, more, restRan, laterPlaced, growsOn⟩ := inductionHypothesis nextPlaced
      refine ⟨later, more, ?_, laterPlaced, fun _ member => growsOn (grows member)⟩
      rw [SharedBackend.run, List.foldlM_cons, except_bind_ok ran]
      exact restRan

/-- What `read` delivers is the slot of the key, and every key with a slot is found. -/
theorem read_iff (keeps : KeepsPointers backend Placed) (placed : Placed state places) (key : Key)
    (address : Ptr) : backend.read key state = .ok (some address) ↔ (address, key) ∈ places := by
  rcases keeps.read placed key with ⟨found, ran, member⟩ | missing
  · rw [ran]
    constructor
    · intro same
      cases same
      exact member
    · intro other
      rw [keeps.unique placed other member]
  · constructor
    · intro found
      rw [missing] at found
      cases found
    · intro member
      exact absurd missing (keeps.complete placed member)

theorem stable (keeps : KeepsPointers backend Placed) (placed : Placed state places) :
    backend.Stable state := by
  intro key address found calls
  have member := (keeps.read_iff placed key address).mp found
  obtain ⟨later, more, ran, laterPlaced, grows⟩ := keeps.run calls placed
  refine ⟨later, ran, (keeps.read_iff laterPlaced key address).mpr (grows member), ?_⟩
  intro call
  obtain ⟨next, _, stepped, _, _, frame⟩ := keeps.step laterPlaced call
  exact ⟨next, stepped, frame address key (grows member)⟩

end KeepsPointers

end StoredsBench
