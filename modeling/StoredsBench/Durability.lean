/-
Module: StoredsBench.Durability
Layer: Correctness
Purpose: What the plain classes for lists and tables have made durable when `insert` returns.
Trusted boundary: none
Main exports: pmem_inserts_durable_iff
-/
import StoredsBench.Skiplist.Durability
import StoredsBench.Hashmap.Durability
import StoredsBench.Linkedlist.Durability

namespace StoredsBench

open Lib Lists Linkedlist Skiplist

/-- Inserts into a `SkiplistPmem` are durable exactly when every key is inserted twice.  No insert into
an `HtPmem`, a `LinkedlistPmem` or an `HlPmem` is durable. -/
theorem pmem_inserts_durable_iff (outcomes : Outcomes) (pairs : List (Key × Value))
    (calls : List LinkedlistPmem.ListCall) (key : Key) (value : Value) :
    (SkiplistPmem.InsertsDurable outcomes pairs ↔
      ∀ stored ∈ pairs.map Prod.fst, 2 ≤ (pairs.map Prod.fst).count stored) ∧
    ¬ HtPmem.InsertDurable pairs key value ∧
    ((∃ store, LinkedlistPmem.run (bare (otherKey key)) calls (newPool ()) = .ok ((), store)) →
      ¬ LinkedlistPmem.InsertDurable calls key value) ∧
    ¬ HlPmem.InsertDurable pairs key value := by
  constructor
  · exact SkiplistPmem.insertsDurable_iff outcomes pairs
  constructor
  · exact HtPmem.not_insertDurable ⟨1, 0, 1, 1, by decide, by decide, by decide⟩ pairs key value
  constructor
  · exact LinkedlistPmem.not_insertDurable calls key value
  · exact HlPmem.not_insertDurable ⟨1, 0, 1, 1, by decide, by decide, by decide⟩ pairs key value

/-- A key inserted twice into a skip list, and a second insert into a linked list. -/
theorem pmem_inserts_durable_iff_twice :
    ∃ first second : Value,
      SkiplistPmem.InsertsDurable (Stream'.const 1) [(5, first), (5, second)] ∧
      ¬ LinkedlistPmem.InsertDurable [.insert 5 first] 3 second := by
  refine ⟨⟨[97], by decide, by decide⟩, ⟨[98], by decide, by decide⟩, ?_⟩
  obtain ⟨skips, _, lists, _⟩ := pmem_inserts_durable_iff (Stream'.const 1)
    [(5, ⟨[97], by decide, by decide⟩), (5, ⟨[98], by decide, by decide⟩)]
    [.insert 5 ⟨[97], by decide, by decide⟩] 3 ⟨[98], by decide, by decide⟩
  constructor
  · apply skips.mpr
    simp
  · exact lists ⟨_, rfl⟩

/-- The first insert of a key may be lost from every class. -/
theorem pmem_insert_not_durable :
    ∃ value : Value, ¬ SkiplistPmem.InsertsDurable (Stream'.const 1) [(5, value)] ∧
      ¬ HtPmem.InsertDurable [] 5 value ∧ ¬ LinkedlistPmem.InsertDurable [] 5 value ∧
      ¬ HlPmem.InsertDurable [] 5 value := by
  refine ⟨⟨[97], by decide, by decide⟩, ?_, ?_, ?_, ?_⟩
  · exact SkiplistPmem.not_durable_of_once _ (by simp : (List.map Prod.fst [(5, _)]).count (5 : Key) = 1)
  · exact HtPmem.not_insertDurable ⟨1, 0, 1, 1, by decide, by decide, by decide⟩ [] 5 _
  · exact LinkedlistPmem.not_insertDurable [] 5 _ ⟨_, rfl⟩
  · exact HlPmem.not_insertDurable ⟨1, 0, 1, 1, by decide, by decide, by decide⟩ [] 5 _

end StoredsBench
