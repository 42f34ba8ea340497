/-
Module: StoredsBench.StablePointers
Layer: Correctness
Purpose: Pointers that `read` delivered stay good in the classes that keep values in records or nodes
  of their own, whatever calls other clients make afterwards.
Trusted boundary: none
Main exports: mlock_pointers_stable
-/
import StoredsBench.Rbtree.Clients
import StoredsBench.Skiplist.Clients
import StoredsBench.MemOpt.Clients

namespace StoredsBench

open Lib

/-- A run from a first call that leaves slots in place. -/
theorem KeepsPointers.run_stable {σ : Type} {backend : SharedBackend σ}
    {Placed : σ → List (Ptr × Key) → Prop} (keeps : KeepsPointers backend Placed) {fresh next : σ}
    {key : Key} {value : Value} {places : List (Ptr × Key)}
    (ran : backend.insert key value fresh = .ok next) (placed : Placed next places) (client : Nat)
    (calls : List ClientCall) :
    ∃ state, backend.run (.insert client key value :: calls) fresh = .ok state ∧
      backend.Stable state := by
  obtain ⟨state, _, restRan, statePlaced, _⟩ := keeps.run calls placed
  have stepped : backend.step (.insert client key value) fresh = .ok next := ran
  refine ⟨state, ?_, keeps.stable statePlaced⟩
  rw [SharedBackend.run, List.foldlM_cons, except_bind_ok stepped]
  exact restRan

/-- For any number of clients and every order in which their calls get the lock, in every state that
is reached the pointers `read` delivers stay the value slots of their keys: every later `read` of the
key delivers the same pointer, no call faults, and only calls that write to the key change what is in
the slot.  The trees begin with an insert, before which every other call aborts. -/
theorem mlock_pointers_stable (client : Nat) (key : Key) (value : Value) (calls : List ClientCall)
    (garbage : Ptr → BP.Node) (garbageRecord : Ptr → BP.Record) (otherGarbage : Ptr → BT.Node)
    (garbageEntry : Ptr → BT.Entry) (outcomes : Skiplist.Outcomes) :
    (∃ state, (BPDramConcurrentMLock.shared (BPDram.pool garbage garbageRecord)).run
        (.insert client key value :: calls) BPDram.init = .ok state ∧
      (BPDramConcurrentMLock.shared (BPDram.pool garbage garbageRecord)).Stable state) ∧
    (∃ state, (BTDramConcurrentMLock.shared (BTDram.pool otherGarbage garbageEntry)).run
        (.insert client key value :: calls) BTDram.init = .ok state ∧
      (BTDramConcurrentMLock.shared (BTDram.pool otherGarbage garbageEntry)).Stable state) ∧
    (∃ state, RbtreeDramConcurrentMLock.shared.run (.insert client key value :: calls)
        RbtreeDram.init = .ok state ∧ RbtreeDramConcurrentMLock.shared.Stable state) ∧
    ∃ fresh state, SkiplistDram.init (SkiplistDram.blank outcomes) = .ok (1, fresh) ∧
      SkiplistDramConcurrentMLock.shared.run calls fresh = .ok state ∧
      SkiplistDramConcurrentMLock.shared.Stable state := by
  refine ⟨?_, ?_, ?_, ?_⟩
  · obtain ⟨next, places, ran, placed⟩ := BPDramConcurrentMLock.insert_first _ key value
    exact (BPDramConcurrentMLock.keepsPointers _).run_stable ran placed client calls
  · obtain ⟨next, places, ran, placed⟩ := BTDramConcurrentMLock.insert_first _ key value
    exact (BTDramConcurrentMLock.keepsPointers _).run_stable ran placed client calls
  · obtain ⟨next, places, ran, placed⟩ := RbtreeDramConcurrentMLock.insert_first key value
    exact RbtreeDramConcurrentMLock.keepsPointers.run_stable ran placed client calls
  · obtain ⟨fresh, initialised, holds⟩ := SkiplistDram.init_ok outcomes
    obtain ⟨state, _, ran, placed, _⟩ := SkiplistDramConcurrentMLock.keepsPointers.run calls
      (show SkiplistDramConcurrentMLock.Placed fresh [] from ⟨[], holds, rfl⟩)
    exact ⟨fresh, state, initialised, ran, SkiplistDramConcurrentMLock.keepsPointers.stable placed⟩

end StoredsBench
