/-
Module: StoredsBench.BTree.Transactions
Layer: Correctness
Purpose: What a crash within an insert or an update leaves of a `BTreePmemTx`.
Trusted boundary: none
Main exports: bTreePmemTx_insert_atomic, bTreePmemTx_update_atomic_iff
-/
import StoredsBench.BTree.PmemRefinement
import StoredsBench.Trees.Updates

namespace StoredsBench.BTreePmemTx

open Lib Lib.SortedAssoc Trees BTreePmem
open BTreeDram (kind chain)

variable (garbage : Ptr → Node BTREE_MIN_DEGREE Unit) (behindRoot : Place → Bool)

theorem logs_splitNode : SplitLogs (splitNode (pool garbage behindRoot)) := by
  intro covered index parent child covers
  apply (EffectLogic.Holds.load child fun _ => rfl).bind
  rintro contents _ rfl
  exact logs_splitMiddle rfl _ () index child covers

theorem splitNode_grafts : SplitGrafts (splitNode (pool garbage behindRoot)) := by
  apply SplitGrafts.of_graftSibling (show (pool garbage behindRoot).mode = .transactional from rfl)
  intro index parent child store final ran
  obtain ⟨contents, loaded, loadRan, splitRan⟩ := bind_ok_inv ran
  obtain rfl := Reading.load _ loadRan
  exact splitMiddle_begins rfl splitRan

/-- On durable memory `BTreePmemTx::insert` of a new key is failure-atomic where the root is full or the
child of the root on the way to the key has room.  Where it has to change the root node it is not: the
range it snapshots for the root is that of the pool's root object. -/
theorem bTreePmemTx_insert_atomic (pairs : List (Key × Value)) (key : Key) (value : Value)
    (absent : key ∉ pairs.map Prod.fst) :
    ∃ started store final, init (pool garbage behindRoot) newPool = .ok ((), started) ∧
      (backend (pool garbage behindRoot)).insertAll pairs started = .ok store ∧
      (backend (pool garbage behindRoot)).insert key value store = .ok final ∧
      (sparesRoot (memory store) key = true → InsertAtomic kind chain store final (upsertAll pairs [])
        (upsert key value (upsertAll pairs []))) ∧
      (sparesRoot (memory store) key = false → (∀ field, behindRoot (.node store.root field) = false) →
        ¬ InsertAtomic kind chain store final (upsertAll pairs [])
          (upsert key value (upsertAll pairs []))) :=
  run_atomic BTreeDram.implements solid (pmemImplements (pool garbage behindRoot))
    (pmemServes (pool garbage behindRoot)) rfl (logs_splitNode garbage behindRoot)
    (splitNode_grafts garbage behindRoot) pairs key value absent

/-- What a new node may hold. -/
def blank (_ : Ptr) : Node BTREE_MIN_DEGREE Unit :=
  { isLeaf := true, nk := 0, entries := CArray.unwritten _ _, children := CArray.unwritten _ _, links := () }

theorem bTreePmemTx_insert_atomic_second :
    ∃ value : Value, ∃ started store final,
      init (pool blank fun _ => false) newPool = .ok ((), started) ∧
      (backend (pool blank fun _ => false)).insertAll [(2, value)] started = .ok store ∧
      (backend (pool blank fun _ => false)).insert 1 value store = .ok final ∧
      (sparesRoot (memory store) 1 = true →
        InsertAtomic kind chain store final [(2, value)] [(1, value), (2, value)]) ∧
      (sparesRoot (memory store) 1 = false → (∀ field, (fun _ => false) (Place.node store.root field) = false) →
        ¬ InsertAtomic kind chain store final [(2, value)] [(1, value), (2, value)]) :=
  ⟨⟨[97], by decide, by decide⟩, bTreePmemTx_insert_atomic blank (fun _ => false)
    [(2, ⟨[97], by decide, by decide⟩)] 1 ⟨[97], by decide, by decide⟩ (by decide)⟩

theorem resets : kind.Resets := fun _ _ _ => rfl

/-- On durable memory `BTreePmemTx::insert` of a stored key is failure-atomic exactly when the new value is
not longer than the stored one. -/
theorem bTreePmemTx_update_atomic_iff (pairs : List (Key × Value)) (key : Key) (old value : Value)
    (stored : (upsertAll pairs []).lookup key = some old) :
    ∃ started store final, init (pool garbage behindRoot) newPool = .ok ((), started) ∧
      (backend (pool garbage behindRoot)).insertAll pairs started = .ok store ∧
      (backend (pool garbage behindRoot)).insert key value store = .ok final ∧
      (InsertAtomic kind chain store final (upsertAll pairs []) (upsert key value (upsertAll pairs [])) ↔
        value.chars.length ≤ old.chars.length) :=
  run_update_atomic_iff BTreeDram.implements solid resets (pmemImplements (pool garbage behindRoot))
    (pmemServes (pool garbage behindRoot)) rfl pairs stored value

/-- A shorter value. -/
theorem bTreePmemTx_update_atomic_shorter :
    ∃ old value : Value, ∃ started store final,
      init (pool blank fun _ => false) newPool = .ok ((), started) ∧
      (backend (pool blank fun _ => false)).insertAll [(1, old)] started = .ok store ∧
      (backend (pool blank fun _ => false)).insert 1 value store = .ok final ∧
      InsertAtomic kind chain store final [(1, old)] [(1, value)] := by
  obtain ⟨started, store, final, initRan, ran, insertRan, iff⟩ :=
    bTreePmemTx_update_atomic_iff blank (fun _ => false) [(1, ⟨[97, 98], by decide, by decide⟩)] 1
      ⟨[97, 98], by decide, by decide⟩ ⟨[99], by decide, by decide⟩ rfl
  exact ⟨⟨[97, 98], by decide, by decide⟩, ⟨[99], by decide, by decide⟩, started, store, final, initRan, ran,
    insertRan, iff.mpr (by decide)⟩

end StoredsBench.BTreePmemTx
