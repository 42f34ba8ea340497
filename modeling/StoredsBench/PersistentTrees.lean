/-
Module: StoredsBench.PersistentTrees
Layer: Correctness
Purpose: The trees for persistent memory against the DRAM trees, over whole workloads: from their own
  initial states on they deliver the same and hold the same tree.
Trusted boundary: none
Main exports: pmem_trees_refine_dram
-/
import StoredsBench.BTree.PmemRefinement
import StoredsBench.BPlusTree.PmemRefinement

namespace StoredsBench

open Lib Lib.Multiway Trees

theorem btreePmem_refines (pool : Pool (Node BTREE_MIN_DEGREE Unit)) (key : Key) (value : Value)
    (calls : List Call) :
    ∃ started answers store pmem, BTreePmem.init pool newPool = .ok ((), started) ∧
      serve BTreeDram.backend.step (.insert key value :: calls) BTreeDram.init =
        .ok (answers, store) ∧
      serve (BTreePmem.backend pool).step (.insert key value :: calls) started =
        .ok (answers, pmem) ∧
      ∃ (depth : Nat) (tree : PtrTree (Key × Value) depth),
        Stores BTreeDram.kind BTreeDram.chain store tree ∧
        Stores BTreeDram.kind BTreeDram.chain (memory pmem) tree := by
  obtain ⟨started, next, final, initRan, ran, ranThere, twins⟩ :=
    Twins.first BTreeDram.implements (BTreePmem.pmemImplements pool) BTreeDram.serves
      (BTreePmem.pmemServes pool) key value
  obtain ⟨answers, store, pmem, served, servedThere, mirrors, entries, depth, tree, stores, _⟩ :=
    (BTreePmem.matches_dram pool).serve_from_first (Backend.step_insert ran)
      (Backend.step_insert ranThere) twins calls
  exact ⟨started, answers, store, pmem, initRan, served, servedThere, depth, tree, stores,
    stores.filled BTreePmem.solid mirrors⟩

theorem bplustreePmem_refines (pool : Pool (Node BPLUSTREE_MIN_DEGREE BPlusTreeDram.Links))
    (key : Key) (value : Value) (calls : List RangeCall) :
    ∃ started answers store pmem, BPlusTreePmem.init pool newPool = .ok ((), started) ∧
      serve BPlusTreeDram.rangeBackend.step (.insert key value :: calls) BPlusTreeDram.init =
        .ok (answers, store) ∧
      serve (BPlusTreePmem.rangeBackend pool).step (.insert key value :: calls) started =
        .ok (answers, pmem) ∧
      ∃ (depth : Nat) (tree : PtrTree Key depth),
        Stores BPlusTreeDram.kind BPlusTreeDram.chain store tree ∧
        Stores BPlusTreeDram.kind BPlusTreeDram.chain (memory pmem) tree := by
  obtain ⟨started, next, final, initRan, ran, ranThere, twins⟩ :=
    Twins.first BPlusTreeDram.implements (BPlusTreePmem.pmemImplements pool) BPlusTreeDram.serves
      (BPlusTreePmem.pmemServes pool) key value
  obtain ⟨answers, store, pmem, served, servedThere, mirrors, entries, depth, tree, stores, _⟩ :=
    (BPlusTreePmem.matches_dram pool).serve_from_first
      (show BPlusTreeDram.rangeBackend.step (.insert key value) _ = _ from Backend.step_insert ran)
      (show (BPlusTreePmem.rangeBackend pool).step (.insert key value) _ = _ from
        Backend.step_insert ranThere) twins calls
  exact ⟨started, answers, store, pmem, initRan, served, servedThere, depth, tree, stores,
    stores.filled BPlusTreePmem.solid mirrors⟩

/-- `BTreePmem` and `BPlusTreePmem`, initialised over an allocator that leaves anything in new nodes,
deliver for every workload that begins with an insert what `BTreeDram` and `BPlusTreeDram` deliver
from a `NULL` root on.  After it one tree describes both memories: node by node the same keys and
values at the same positions, and for B+-trees the same chain of leaves. -/
theorem pmem_trees_refine_dram :
    (∀ (garbage : Ptr → Node BTREE_MIN_DEGREE Unit) (behindRoot : Place → Bool) (key : Key)
        (value : Value) (calls : List Call),
      ∃ started answers store pmem,
        BTreePmem.init (BTreePmem.pool garbage behindRoot) newPool = .ok ((), started) ∧
        serve BTreeDram.backend.step (.insert key value :: calls) BTreeDram.init =
          .ok (answers, store) ∧
        serve (BTreePmem.backend (BTreePmem.pool garbage behindRoot)).step
          (.insert key value :: calls) started = .ok (answers, pmem) ∧
        ∃ (depth : Nat) (tree : PtrTree (Key × Value) depth),
          Stores BTreeDram.kind BTreeDram.chain store tree ∧
          Stores BTreeDram.kind BTreeDram.chain (memory pmem) tree) ∧
    ∀ (garbage : Ptr → Node BPLUSTREE_MIN_DEGREE BPlusTreeDram.Links) (behindRoot : Place → Bool)
        (key : Key) (value : Value) (calls : List RangeCall),
      ∃ started answers store pmem,
        BPlusTreePmem.init (BPlusTreePmem.pool garbage behindRoot) newPool = .ok ((), started) ∧
        serve BPlusTreeDram.rangeBackend.step (.insert key value :: calls) BPlusTreeDram.init =
          .ok (answers, store) ∧
        serve (BPlusTreePmem.rangeBackend (BPlusTreePmem.pool garbage behindRoot)).step
          (.insert key value :: calls) started = .ok (answers, pmem) ∧
        ∃ (depth : Nat) (tree : PtrTree Key depth),
          BPlusTreeDram.Structured store tree ∧ BPlusTreeDram.Structured (memory pmem) tree := by
  constructor
  · intro garbage behindRoot key value calls
    exact btreePmem_refines (BTreePmem.pool garbage behindRoot) key value calls
  · intro garbage behindRoot key value calls
    obtain ⟨started, answers, store, pmem, initRan, served, servedThere, depth, tree, stores,
      storesThere⟩ := bplustreePmem_refines (BPlusTreePmem.pool garbage behindRoot) key value calls
    exact ⟨started, answers, store, pmem, initRan, served, servedThere, depth, tree,
      BPlusTreeDram.structured stores, BPlusTreeDram.structured storesThere⟩

end StoredsBench
