/-
Module: StoredsBench.Hashlist.Transactions
Layer: Correctness
Purpose: Crashes of `HlPmemTx`: an insert is failure-atomic as long as the list has one node at most,
  that is, when no other key was inserted before.
Trusted boundary: none
Main exports: HlPmemTx.insert_reached, list_insert_failureAtomic_iff
-/
import StoredsBench.Hashlist.Refinement
import StoredsBench.Linkedlist.Transactions

namespace StoredsBench.HlPmemTx

open Lib Lib.SortedAssoc Lists Linkedlist Hashmap Hashlist HlPmem

variable (garbage : Ptr → ListNode) (behind : RootMember → ListPlace RootMember → Bool)
  {coefficients : HashCoefficients} {store final : HlPmem} {cells : List Cell} {key : Key} {value : Value}

/-- An insert of the class is failure-atomic: a crash inside it leaves the list before it or the list
after it, a crash behind it the list after it, from head to tail. -/
def InsertAtomic (pool : ListPool RootMember) (coefficients : HashCoefficients) (store : HlPmem)
    (key : Key) (value : Value) : Prop :=
  ∃ final fresh cells, insert pool key value store = .ok (1, final) ∧ Shows (memory store) cells ∧
    AtomicBetween (newTable coefficients) store final cells (upserted key value fresh cells)

/-- One insert: the list it leaves is durable, and reached atomically, when it has one node at most. -/
theorem insert_reached (reached : Reached (newTable coefficients) store cells)
    (holds : Hashlist.Holds (memory store) cells) (key : Key) (value : Value) :
    ∃ final, insert (ListPool.tx garbage behind) key value store = .ok (1, final) ∧
      Reached (newTable coefficients) final (upserted key value (store.heap.size + 1) cells) ∧
      Hashlist.Holds (memory final) (upserted key value (store.heap.size + 1) cells) ∧
      ((upserted key value (store.heap.size + 1) cells).length ≤ 1 →
        AtomicBetween (newTable coefficients) store final cells
          (upserted key value (store.heap.size + 1) cells)) := by
  obtain ⟨final, ran, finalHolds⟩ := insert_ok (ListPool.tx garbage behind) holds key value
  refine ⟨final, ran, ?_⟩
  cases found : cellOf key cells with
  | some cell =>
      rw [upserted_found found] at finalHolds ⊢
      rw [insert_eq_found _ holds.indexed found] at ran
      obtain ⟨_, ended, overwritten, rest⟩ := bind_ok_inv ran
      cases rest
      obtain ⟨next, atomic⟩ := reached.overwrite overwritten
      refine ⟨next, finalHolds, ?_⟩
      intro short
      apply atomic
      simpa using short
  | none =>
      rw [upserted_missing found] at finalHolds ⊢
      rw [insert_eq_missing _ holds.indexed found] at ran
      obtain ⟨node, middle, appended, afterAppend⟩ := bind_ok_inv ran
      obtain ⟨_, ended, enterRan, rest⟩ := bind_ok_inv afterAppend
      cases rest
      obtain ⟨sameTrail, sameRunning, sameRead⟩ := enter_inv enterRan
      cases cells with
      | nil =>
          obtain ⟨next, call, trail, atomic⟩ := reached.append_first appended
          have sameNode := finalHolds.shows.unique ((next.of_same sameTrail sameRunning sameRead).shows)
          rw [sameNode]
          exact ⟨next.of_same sameTrail sameRunning sameRead, sameNode ▸ finalHolds,
            fun _ => ⟨call, sameTrail.trans trail, atomic⟩⟩
      | cons first rest =>
          obtain ⟨nodeEq, next⟩ := reached.append_behind (List.cons_ne_nil _ _) appended
          rw [nodeEq] at next
          refine ⟨next.of_same sameTrail sameRunning sameRead, finalHolds, ?_⟩
          intro short
          simp at short

/-- Every sequence of inserts runs to its end; the list has one node for every key. -/
theorem run_reached (reached : Reached (newTable coefficients) store cells)
    (holds : Hashlist.Holds (memory store) cells) (pairs : List (Key × Value)) :
    ∃ final others, insertEach (insert (ListPool.tx garbage behind)) pairs store = .ok ((), final) ∧
      Reached (newTable coefficients) final others ∧ Hashlist.Holds (memory final) others ∧
      ∀ stored, stored ∈ keys others ↔ stored ∈ keys cells ∨ ∃ pair ∈ pairs, pair.1 = stored := by
  induction pairs generalizing store cells with
  | nil => exact ⟨store, cells, rfl, reached, holds, fun stored => by simp⟩
  | cons pair rest inductionHypothesis =>
      obtain ⟨next, ran, nextReached, nextHolds, _⟩ := insert_reached garbage behind reached holds pair.1 pair.2
      obtain ⟨final, others, restRan, last, lastHolds, stored⟩ := inductionHypothesis nextReached nextHolds
      refine ⟨final, others, ?_, last, lastHolds, ?_⟩
      · rw [insertEach, bind_ok ran]
        exact restRan
      · intro key
        have here : key ∈ keys (upserted pair.1 pair.2 (store.heap.size + 1) cells) ↔
            key ∈ keys cells ∨ pair.1 = key := by
          rw [keys_upserted]
          split
          · rename_i member
            constructor
            · exact Or.inl
            · rintro (old | rfl)
              · exact old
              · exact member
          · rw [List.mem_append, List.mem_singleton, eq_comm]
        rw [stored key, here, List.exists_mem_cons_iff, or_assoc]

theorem insertAtomic_iff (reached : Reached (newTable coefficients) store cells)
    (holds : Hashlist.Holds (memory store) cells) (key : Key) (value : Value) :
    InsertAtomic (ListPool.tx garbage behind) coefficients store key value ↔
      ∀ stored ∈ keys cells, stored = key := by
  obtain ⟨after, ran, next, nextHolds, atomic⟩ :=
    insert_reached garbage behind reached holds key value
  rw [← length_upserted_le_one_iff holds.distinct]
  constructor
  · rintro ⟨final, _, _, finalRan, _, between⟩
    rw [ran] at finalRan
    cases finalRan
    by_contra long
    exact next.not_atomic (Nat.lt_of_not_le long) between
  · exact fun short => ⟨after, _, cells, ran, holds.shows, atomic short⟩

end StoredsBench.HlPmemTx

namespace StoredsBench

open Lib Lib.SortedAssoc Lists Linkedlist Hashmap Hashlist

/-- An append behind the last node snapshots that node but not `root_p->tail`, which it stores to.  An
insert of `LinkedlistPmemTx` is failure-atomic if and only if no insert was before it, one of
`HlPmemTx` if and only if no other key was inserted before. -/
theorem list_insert_failureAtomic_iff (garbage : Ptr → ListNode)
    (behind : RootMember → ListPlace RootMember → Bool) (coefficients : HashCoefficients) :
    (∀ calls store,
      LinkedlistPmem.run (ListPool.tx garbage behind) calls (newPool ()) = .ok ((), store) →
      ∀ key value, LinkedlistPmemTx.InsertAtomic (ListPool.tx garbage behind) store key value ↔
        ∀ call ∈ calls, LinkedlistPmemTx.enters call = false) ∧
    ∀ pairs, ∃ store,
      insertEach (HlPmem.insert (ListPool.tx garbage behind)) pairs (HlPmem.init coefficients) =
        .ok ((), store) ∧
      ∀ key value, HlPmemTx.InsertAtomic (ListPool.tx garbage behind) coefficients store key value ↔
        ∀ pair ∈ pairs, pair.1 = key := by
  constructor
  · intro calls store ran key value
    obtain ⟨cells, reached, empty⟩ := LinkedlistPmemTx.run_reached (reached_newPool ()) ran
    rw [LinkedlistPmemTx.insertAtomic_iff_empty reached, empty]
    simp
  · intro pairs
    obtain ⟨store, cells, ran, reached, holds, stored⟩ :=
      HlPmemTx.run_reached garbage behind (reached_newPool (HlPmem.newTable coefficients)) (init_holds coefficients) pairs
    refine ⟨store, ran, fun key value => ?_⟩
    rw [HlPmemTx.insertAtomic_iff garbage behind reached holds]
    simp [stored, show keys [] = [] from rfl]

/-- On new pools the condition holds for every insert. -/
theorem list_insert_failureAtomic_iff_fresh :
    ∃ coefficients : HashCoefficients, ∃ first : Value,
      LinkedlistPmemTx.InsertAtomic (ListPool.tx (fun _ => ListNode.unwritten) fun _ _ => false)
        (newPool ()) 5 first ∧
      ∃ store, insertEach
          (HlPmem.insert (ListPool.tx (fun _ => ListNode.unwritten) fun _ _ => false)) [(5, first)]
          (HlPmem.init coefficients) = .ok ((), store) ∧
        HlPmemTx.InsertAtomic (ListPool.tx (fun _ => ListNode.unwritten) fun _ _ => false) coefficients
          store 5 first := by
  refine ⟨⟨1, 0, 32212254719, 1333334, by decide, by decide, by decide⟩,
    ⟨[97], by decide, by decide⟩, ?_, ?_⟩
  · apply ((list_insert_failureAtomic_iff _ _ ⟨1, 0, 1, 1, by decide, by decide, by decide⟩).1 [] _ rfl
      5 _).mpr
    intro call member
    cases member
  · obtain ⟨store, ran, atomic⟩ := (list_insert_failureAtomic_iff (fun _ => ListNode.unwritten)
      (fun _ _ => false) ⟨1, 0, 32212254719, 1333334, by decide, by decide, by decide⟩).2
      [(5, ⟨[97], by decide, by decide⟩)]
    exact ⟨store, ran, (atomic 5 _).mpr (by simp)⟩

/-- A second node: a crash behind the insert of 3 may leave the tail at the node of 5. -/
theorem list_insert_not_failureAtomic :
    ∃ first second : Value, ∃ store,
      LinkedlistPmem.run (ListPool.tx (fun _ => ListNode.unwritten) fun _ _ => false)
          [.insert 5 first] (newPool ()) = .ok ((), store) ∧
        ¬ LinkedlistPmemTx.InsertAtomic (ListPool.tx (fun _ => ListNode.unwritten) fun _ _ => false)
          store 3 second := by
  refine ⟨⟨[97], by decide, by decide⟩, ⟨[98], by decide, by decide⟩, ?_⟩
  obtain ⟨store, node, ran, appended⟩ := LinkedlistPmemTx.insert_ok (reached_newPool ())
    (ListPool.tx (fun _ => ListNode.unwritten) fun _ _ => false) 5 ⟨[97], by decide, by decide⟩
  obtain ⟨reached, _⟩ := (reached_newPool ()).append_first appended
  refine ⟨store, ?_, ?_⟩
  · rw [LinkedlistPmem.run, LinkedlistPmem.call, bind_ok ran]
    rfl
  · rw [LinkedlistPmemTx.insertAtomic_iff_empty reached]
    exact List.cons_ne_nil _ _

end StoredsBench
