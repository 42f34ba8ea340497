/-
Module: StoredsBench.Lib.Objects
Layer: Lib
Purpose: Persistent memory that consists of objects on a heap, which are entered through the members
  of a root object.  The places are the members of the root object and the fields of the objects.
Trusted boundary: human-reviewed spec
Main exports: ObjectPlace, readObjects, RootApart, modify_frames, malloc_frames, Logs.modify,
  Emits.modify
-/
import StoredsBench.Lib.Logging

namespace StoredsBench.Lib

/-- The members `R` of a root object, and the fields `F` of the object at an address. -/
inductive ObjectPlace (R F : Type) where
  | root (member : R)
  | node (address : Ptr) (field : F)
deriving DecidableEq

variable {N Y R F C : Type}

/-- The bytes of a member of the root object. -/
def memberBytes [DecidableEq R] (member : R) : ObjectPlace R F → Bool
  | .root other => other == member
  | .node _ _ => false

/-- The bytes of the object at an address. -/
def nodeBytes (address : Ptr) : ObjectPlace R F → Bool
  | .node other _ => other == address
  | .root _ => false

/-- The bytes of one field of the object at an address. -/
def fieldBytes [DecidableEq F] (address : Ptr) (field : F) : ObjectPlace R F → Bool
  | .node other otherField => other == address && otherField == field
  | .root _ => false

theorem eq_of_memberBytes [DecidableEq R] {member : R} {place : ObjectPlace R F}
    (inside : memberBytes member place = true) : place = .root member := by
  cases place with
  | root other => simpa [memberBytes] using inside
  | node address field => cases inside

theorem eq_of_fieldBytes [DecidableEq F] {address : Ptr} {field : F} {place : ObjectPlace R F}
    (inside : fieldBytes address field place = true) : place = .node address field := by
  cases place with
  | root member => cases inside
  | node other otherField => simpa [fieldBytes] using inside

/-- What a place holds, when `readRoot` reads the members of the root object and `content` the fields
of an object; `none` is a place of no object. -/
def readObjects (readRoot : Store N Y → R → Option C) (content : N → F → C) (store : Store N Y) :
    ObjectPlace R F → Option C
  | .root member => readRoot store member
  | .node address field => (store.heap.get? address).map fun node => content node field

/-- The members of the root object do not depend on the objects. -/
def RootApart (readRoot : Store N Y → R → Option C) : Prop :=
  ∀ (store : Store N Y) (heap : Heap N), readRoot { store with heap := heap } = readRoot store

/-- Every byte of the object at an address is covered. -/
def Covers (covered : ObjectPlace R F → Bool) (address : Ptr) : Prop :=
  ∀ field, covered (.node address field) = true

theorem covers_nodeBytes (address : Ptr) : Covers (nodeBytes (R := R) (F := F) address) address := by
  intro field
  simp [nodeBytes]

theorem covers_added (covered : ObjectPlace R F → Bool) (address : Ptr) :
    Covers (fun place => covered place || nodeBytes address place) address := by
  intro field
  simp [nodeBytes]

theorem Extends.covers {covered more : ObjectPlace R F → Bool} {address : Ptr}
    (grows : Extends covered more) (covers : Covers covered address) : Covers more address :=
  fun field => grows _ (covers field)

theorem Extends.covers_node {more : ObjectPlace R F → Bool} {address : Ptr}
    (grows : Extends (nodeBytes address) more) : Covers more address :=
  grows.covers (covers_nodeBytes address)

variable {readRoot : Store N Y → R → Option C} {content : N → F → C} {store other : Store N Y}

/-- Objects that their fields determine are the same when the places hold the same. -/
theorem get?_eq_of_read [Nonempty F]
    (determined : ∀ {node other : N}, (∀ field, content node field = content other field) → node = other)
    (same : readObjects readRoot content store = readObjects readRoot content other) (address : Ptr) :
    store.heap.get? address = other.heap.get? address := by
  have fields : ∀ field, (store.heap.get? address).map (fun node => content node field) =
      (other.heap.get? address).map fun node => content node field :=
    fun field => congrFun same (.node address field)
  have field := Classical.arbitrary F
  cases live : store.heap.get? address with
  | none =>
      cases otherLive : other.heap.get? address with
      | none => rfl
      | some node => simpa [live, otherLive] using fields field
  | some node =>
      cases otherLive : other.heap.get? address with
      | none => simpa [live, otherLive] using fields field
      | some otherNode =>
          congr 1
          apply determined
          intro other
          simpa [live, otherLive] using fields other

/-- A change of the object at an address stores to the fields it changes. -/
theorem modify_frames (apart : RootApart readRoot) {address : Ptr} {change : N → Except Fault N}
    {range : ObjectPlace R F → Bool}
    (kept : ∀ node changed field, change node = .ok changed → range (.node address field) = false →
      content changed field = content node field)
    (before : Store N Y) (value : Unit) (after : Store N Y)
    (ran : Prog.modify address change before = .ok (value, after)) (place : ObjectPlace R F) :
    (Effect.store range).Frames place (readObjects readRoot content before place)
      (readObjects readRoot content after place) := by
  obtain ⟨node, changed, live, changedEq, rfl⟩ := Prog.modify_inv ran
  cases place with
  | root member =>
      have same : readObjects readRoot content { before with heap := before.heap.set address changed }
          (.root member) = readObjects readRoot content before (.root member) :=
        congrFun (apart before _) member
      rw [same]
      exact ⟨fun _ => rfl, Iff.rfl⟩
  | node other field =>
      simp only [readObjects, Heap.get?_set live]
      by_cases isHere : other = address
      · subst isHere
        rw [if_pos rfl, live]
        constructor
        · intro outside
          exact congrArg some (kept node changed field changedEq outside)
        · simp
      · rw [if_neg isHere]
        exact ⟨fun _ => rfl, Iff.rfl⟩

/-- Allocating touches only places that no object had. -/
theorem malloc_frames (apart : RootApart readRoot) (blank : Ptr → N) (before : Store N Y)
    (address : Ptr) (after : Store N Y)
    (ran : (do let size ← Prog.heapSize; Prog.malloc (blank (size + 1))) before =
      .ok (address, after)) (place : ObjectPlace R F) :
    (nodeBytes address place = false →
      readObjects readRoot content after place = readObjects readRoot content before place) ∧
    (nodeBytes address place = true → readObjects readRoot content before place = none) := by
  cases ran
  cases place with
  | root member => exact ⟨fun _ => congrFun (apart before _) member, fun inside => by cases inside⟩
  | node other field =>
      constructor
      · intro outside
        have different : other ≠ before.heap.size + 1 := by simpa [nodeBytes] using outside
        simp only [readObjects, Heap.get?_push, if_neg different]
      · intro inside
        obtain rfl : other = before.heap.size + 1 := by simpa [nodeBytes] using inside
        cases live : before.heap.get? (before.heap.size + 1) with
        | none => simp [readObjects, live]
        | some node => exact absurd rfl (Heap.ne_fresh_of_get? live)

/-- A store to fields of a covered object. -/
theorem Logs.modify (apart : RootApart readRoot) {address : Ptr} {change : N → Except Fault N}
    {range covered : ObjectPlace R F → Bool}
    (kept : ∀ node changed field, change node = .ok changed → range (.node address field) = false →
      content changed field = content node field)
    (safe : ∀ place, range place = true → covered place = true) :
    Logs (readObjects readRoot content) covered
      (perform (fun _ => .store range) (Prog.modify address change)) fun _ more => more = covered :=
  Logs.store safe (modify_frames apart kept) fun _ => rfl

theorem Emits.modify (apart : RootApart readRoot) {address : Ptr} {change : N → Except Fault N}
    {range : ObjectPlace R F → Bool} {running : Bool}
    {allowed : Effect (ObjectPlace R F) → Store N Y → Prop}
    (kept : ∀ node changed field, change node = .ok changed → range (.node address field) = false →
      content changed field = content node field)
    (allows : ∀ memory, allowed (.store range) memory) :
    Emits (readObjects readRoot content) running allowed
      (Lib.perform (fun _ => .store range) (Prog.modify address change)) :=
  Emits.store allows (modify_frames apart kept)

end StoredsBench.Lib
