/-
Module: StoredsBench.Lists.Durability
Layer: Refinement
Purpose: The plain classes allocate their list nodes and store the keys, but no persist covers a key:
  a crash may bring back what the allocator left there.
Trusted boundary: none
Main exports: Reaches, LosesKeys, withoutKeys, recovers_withoutKeys
-/
import StoredsBench.Lists.PmemRefinement

namespace StoredsBench.Lists

open Lib

variable {R Y : Type} {readRoot : Store ListNode Y → R → Option Content}

/-- Links lead from a node to an entry. -/
def Reaches (heap : Heap ListNode) (start : Ptr) (key : Key) (value : Value) : Prop :=
  ∃ between address, Leads (nextAt heap) address start between ∧
    entryAt heap address = some (key, value)

/-- The effect leaves it open that every node gets the key back that the allocator left. -/
def LosesKeys (readRoot : Store ListNode Y → R → Option Content) (key : Option Key)
    (effect : Effect (ListPlace R)) (memory : Store ListNode Y) : Prop :=
  ∀ address, effect.Leaves (.node address .key) (some (.word key))
    (readPlace readRoot memory (.node address .key))

/-- What the allocator leaves where an object with another key was before. -/
def otherKey (key : Key) (_address : Ptr) : ListNode := { ListNode.unwritten with key := some (key + 1) }

/-- All nodes with the key that the allocator left. -/
def withoutKeys (key : Option Key) (memory : Store ListNode Y) : Store ListNode Y :=
  { memory with heap := memory.heap.mapObjects fun node => { node with key := key } }

section Losing

variable {key : Option Key} {garbage : Ptr → ListNode} {memory : Store ListNode Y}

theorem losesKeys_allocate (same : ∀ address, (garbage address).key = key) (address : Ptr)
    (live : memory.heap.get? address = some (garbage address)) :
    LosesKeys readRoot key (.provide (nodeBytes address)) memory := by
  intro other inside
  obtain rfl : other = address := by simpa [nodeBytes] using inside
  simp [readPlace, readObjects, live, ListNode.content, same]

theorem losesKeys_persist {range : ListPlace R → Bool}
    (outside : ∀ address, range (.node address .key) = false) :
    LosesKeys readRoot key (.persist range) memory := outside

/-- A crash may leave all nodes without their keys. -/
theorem recovers_withoutKeys (apart : RootApart readRoot) {initial : Store ListNode Y}
    {start store : ListPmem R Y}
    (traced : Traced (readPlace readRoot) (LosesKeys readRoot key) start store)
    (before : Accounted (readPlace readRoot) initial start)
    (empty : ∀ address, start.heap.get? address = none) :
    Recovers (readPlace readRoot) initial store.aux.trail (withoutKeys key (Lib.memory store)) := by
  apply (traced.accounted before).recovers
  intro place
  cases place with
  | root member => exact Or.inl (congrFun (apart (Lib.memory store) _) member)
  | node address field =>
      cases live : store.heap.get? address with
      | none =>
          apply Or.inl
          simp [readPlace, readObjects, withoutKeys, Heap.get?_mapObjects, Lib.memory, live]
      | some node =>
          cases field with
          | key =>
              apply Or.inr
              have lost : readPlace readRoot (withoutKeys key (Lib.memory store)) (.node address .key) =
                  some (.word key) := by
                simp [readPlace, readObjects, withoutKeys, Heap.get?_mapObjects, Lib.memory, live,
                  ListNode.content]
              rw [lost]
              apply traced.may before
              · exact fun effect memory leaves => leaves address
              · simp [readPlace, readObjects, Lib.memory, empty]
              · simp [readPlace, readObjects, Lib.memory, live]
          | valueByte offset =>
              apply Or.inl
              simp [readPlace, readObjects, withoutKeys, Heap.get?_mapObjects, Lib.memory, live,
                ListNode.content]
          | next =>
              apply Or.inl
              simp [readPlace, readObjects, withoutKeys, Heap.get?_mapObjects, Lib.memory, live,
                ListNode.content]

theorem not_reaches_withoutKeys {wanted : Key} (different : key ≠ some wanted) (start : Ptr)
    (value : Value) : ¬ Reaches (withoutKeys key memory).heap start wanted value := by
  rintro ⟨between, address, _, found⟩
  rw [entryAt, withoutKeys, Heap.get?_mapObjects] at found
  cases live : memory.heap.get? address with
  | none => simp [live] at found
  | some node =>
      simp only [live, Option.map_some, Option.bind_some, ListNode.view] at found
      obtain ⟨stored, storedEq, rest⟩ := Option.bind_eq_some_iff.mp found
      obtain ⟨string, _, pair⟩ := Option.map_eq_some_iff.mp rest
      cases pair
      exact different storedEq

theorem otherKey_ne (key : Key) : some (key + 1) ≠ some key :=
  fun same => key_succ_ne key (Option.some.inj same)

end Losing

end StoredsBench.Lists
