/-
Module: StoredsBench.Lib.Frame
Layer: Lib
Purpose: Frame rules for programs over a heap.  A view shows the part of an object that a program
  must leave alone; a program frames it when every object that was there is still there and looks the
  same.  One rule per way to build a program.
Trusted boundary: none
Main exports: Frames, Frames.bind, Frames.modify, Frames.malloc
-/
import StoredsBench.Lib.Memory

namespace StoredsBench.Lib

variable {N X α β V : Type}

/-- Every object of the heap is still there after a run, and the view of it is the same. -/
def Frames (view : N → V) (program : Prog N X α) : Prop :=
  ∀ ⦃store after : Store N X⦄ ⦃value : α⦄, program store = .ok (value, after) →
    ∀ ⦃address : Nat⦄ ⦃object : N⦄, store.heap.get? address = some object →
      ∃ changed, after.heap.get? address = some changed ∧ view changed = view object

namespace Frames

variable {view : N → V} {program : Prog N X α}

/-- A program that leaves the heap as it is. -/
theorem of_heap_eq (same : ∀ store value after, program store = .ok (value, after) →
    after.heap = store.heap) : Frames view program := by
  intro store after value ran address object live
  rw [same store value after ran]
  exact ⟨object, live, rfl⟩

theorem bind {rest : α → Prog N X β} (first : Frames view program)
    (second : ∀ value, Frames view (rest value)) : Frames view (program >>= rest) := by
  intro store after value ran address object live
  obtain ⟨between, middle, firstRan, restRan⟩ := bind_ok_inv ran
  obtain ⟨kept, middleLive, same⟩ := first firstRan live
  obtain ⟨changed, afterLive, stillSame⟩ := second between restRan middleLive
  exact ⟨changed, afterLive, stillSame.trans same⟩

theorem pure (value : α) : Frames view (pure value : Prog N X α) := by
  apply of_heap_eq
  intro store result after ran
  cases ran
  rfl

theorem fault (reason : Fault) : Frames view (Prog.fault reason : Prog N X α) := by
  intro store after value ran
  cases ran

/-- A program that only reads. -/
theorem of_reading (reading : Reading program) : Frames view program :=
  of_heap_eq fun store value after ran => by rw [reading ran]

theorem lift (computation : Except Fault α) : Frames view (Prog.lift computation : Prog N X α) :=
  of_reading (Reading.lift computation)

theorem load (address : Ptr) : Frames view (Prog.load address : Prog N X N) :=
  of_reading (Reading.load address)

theorem getRoot : Frames view (Prog.getRoot : Prog N X Ptr) := of_reading Reading.getRoot

theorem heapSize : Frames view (Prog.heapSize : Prog N X Nat) := of_reading Reading.heapSize

theorem setRoot (address : Ptr) : Frames view (Prog.setRoot address : Prog N X Unit) := by
  apply of_heap_eq
  intro store value after ran
  cases ran
  rfl

theorem malloc (object : N) : Frames view (Prog.malloc object : Prog N X Ptr) := by
  intro store after value ran address other live
  cases ran
  refine ⟨other, ?_, rfl⟩
  rw [Heap.get?_push, if_neg (Heap.ne_fresh_of_get? live), live]

/-- A change that the view does not show. -/
theorem modify {change : N → Except Fault N}
    (unseen : ∀ object changed, change object = .ok changed → view changed = view object)
    (address : Ptr) : Frames view (Prog.modify address change : Prog N X Unit) := by
  intro store after value ran other object live
  obtain ⟨target, changed, targetLive, changeRan, rfl⟩ := Prog.modify_inv ran
  rw [Heap.get?_set targetLive]
  by_cases same : other = address
  · rw [if_pos same]
    rw [same, targetLive, Option.some.injEq] at live
    exact ⟨changed, rfl, by rw [unseen target changed changeRan, live]⟩
  · rw [if_neg same]
    exact ⟨object, live, rfl⟩

theorem branch {condition : Prop} [Decidable condition] {other : Prog N X α}
    (left : condition → Frames view program) (right : ¬ condition → Frames view other) :
    Frames view (if condition then program else other) := by
  by_cases holds : condition
  · rw [if_pos holds]
    exact left holds
  · rw [if_neg holds]
    exact right holds

end Frames

end StoredsBench.Lib
