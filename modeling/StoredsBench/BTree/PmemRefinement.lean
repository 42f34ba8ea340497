/-
Module: StoredsBench.BTree.PmemRefinement
Layer: Refinement
Purpose: A pool of `BTreePmem` or `BTreePmemTx` mirrors a `BTreeDram`, whatever the allocator leaves in
  new nodes: search, update and split do the same at the same addresses.
Trusted boundary: none
Main exports: BTreePmem.pmemImplements, BTreePmem.pmemServes, BTreePmem.matches_dram
-/
import StoredsBench.BTree.Pmem
import StoredsBench.BTree.Correctness
import StoredsBench.Trees.PmemMap

namespace StoredsBench.BTreePmem

open Lib Lib.Multiway Trees
open BTreeDram (kind chain)

theorem solid : kind.Solid := fun same viewed => viewEntry_filled same viewed

theorem search_mirrors (key : Key) : ∀ (fuel : Nat) (current : Ptr),
    Simulates Mirrors (BTreeDram.search fuel current key) (BTreeDram.search fuel current key)
      fun slot other store memory => other = slot ∧ Mirrors store memory
  | 0, _ => Simulates.fault _
  | fuel + 1, current => by
      rw [BTreeDram.search]
      refine Simulates.bind (Simulates.load current) fun contents there =>
        Simulates.assume fun filled => ?_
      refine Simulates.bind (Simulates.lift fun index located =>
        ⟨index, lowerIndexOf_filled filled located, Eq.refl index⟩) fun index other =>
          Simulates.assume ?_
      rintro rfl
      refine Simulates.bind (Simulates.lift fun found tested =>
        ⟨found, keyMatches_filled filled tested, Eq.refl found⟩) fun found other =>
          Simulates.assume ?_
      rintro rfl
      apply Simulates.branch Iff.rfl
      · intro _
        exact Simulates.pure fun _ _ mirrors => ⟨rfl, mirrors⟩
      · intro _
        apply Simulates.branch (by rw [filled.isLeaf])
        · intro _
          exact Simulates.pure fun _ _ mirrors => ⟨rfl, mirrors⟩
        · intro _
          refine Simulates.bind (Simulates.lift fun child read => filled.children.get read)
            fun child other => Simulates.assume ?_
          rintro rfl
          exact search_mirrors key fuel _

variable (pool : Pool (Node BTREE_MIN_DEGREE Unit))

theorem splitNode_mirrors : SplitMirrors BTreeDram.splitNode (splitNode pool) := by
  intro index parent child
  unfold BTreeDram.splitNode splitNode
  refine Simulates.bind (Simulates.load_journaled child) fun contents there =>
    Simulates.assume fun filled => ?_
  rw [filled.isLeaf]
  exact splitMiddle_mirrors pool _ _ _ _ _

/-- `update_if_found` descends exactly as `search` does and overwrites what it finds. -/
theorem updateIfFound_eq (key : Key) (value : Value) : ∀ (fuel : Nat) (current : Ptr),
    updateIfFound pool fuel current key value =
      onMemory (BTreeDram.search fuel current key) >>= pool.overwriteFound value
  | 0, _ => rfl
  | fuel + 1, current => by
      rw [updateIfFound, BTreeDram.search, onMemory_bind, onMemory_load, bind_assoc]
      refine bind_congr fun contents => ?_
      rw [onMemory_bind, onMemory_lift, bind_assoc]
      refine bind_congr fun index => ?_
      rw [onMemory_bind, onMemory_lift, bind_assoc]
      refine bind_congr fun found => ?_
      cases found with
      | true => rfl
      | false =>
          simp only [Bool.false_eq_true, if_false]
          split
          · rfl
          · rw [onMemory_bind, onMemory_lift, bind_assoc]
            exact bind_congr fun child => updateIfFound_eq key value fuel child

theorem pmemImplements :
    PmemImplements pool BTreeDram.splitNode BTreeDram.search (splitNode pool) (updateIfFound pool) where
  splits := splitNode_mirrors pool
  searches := fun fuel current key => search_mirrors key fuel current
  updates := fun fuel current key value => updateIfFound_eq pool key value fuel current

theorem pmemServes : PmemServes pool BTreeDram.search (splitNode pool) (updateIfFound pool) ()
    (backend pool) where
  insert := fun _ _ _ => rfl
  read := fun _ _ => rfl

/-- Every call on a `BTreeDram` and a pool that mirrors it. -/
theorem matches_dram : Matches BTreeDram.backend.step (backend pool).step (fun _ => Twins kind chain) := by
  intro past call store pmem twins
  cases call with
  | insert key value =>
      obtain ⟨next, final, ran, ranThere, stillTwins⟩ := twins.insert BTreeDram.implements
        (pmemImplements pool) BTreeDram.serves (pmemServes pool) key value
      exact ⟨.inserted, next, final, Backend.step_insert ran, Backend.step_insert ranThere, stillTwins⟩
  | read key =>
      obtain ⟨found, ran, ranThere⟩ :=
        twins.read BTreeDram.implements solid BTreeDram.serves (pmemServes pool) key
      exact ⟨.value found, store, pmem, Backend.step_read ran, Backend.step_read ranThere, twins⟩

end StoredsBench.BTreePmem
