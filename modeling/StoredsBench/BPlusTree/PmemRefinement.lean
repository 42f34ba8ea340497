/-
Module: StoredsBench.BPlusTree.PmemRefinement
Layer: Refinement
Purpose: A pool of `BPlusTreePmem` or `BPlusTreePmemTx` mirrors a `BPlusTreeDram`, whatever the
  allocator leaves in new nodes: search, update, both kinds of split with the linking of the new leaf,
  and range scans do the same at the same addresses.
Trusted boundary: none
Main exports: BPlusTreePmem.pmemImplements, BPlusTreePmem.pmemServes, BPlusTreePmem.scan_mirrors,
  BPlusTreePmem.matches_dram
-/
import StoredsBench.BPlusTree.Pmem
import StoredsBench.BPlusTree.Correctness
import StoredsBench.Trees.PmemMap

namespace StoredsBench.BPlusTreePmem

open Lib Lib.Multiway Trees
open BPlusTreeDram (kind chain Links)

theorem solid : kind.Solid := by
  intro entry other item same viewed
  rw [← viewed]
  exact congrArg some same.key

theorem search_mirrors (key : Key) : ∀ (fuel : Nat) (current : Ptr),
    Simulates Mirrors (BPlusTreeDram.search fuel current key) (BPlusTreeDram.search fuel current key)
      fun slot other store memory => other = slot ∧ Mirrors store memory
  | 0, _ => Simulates.fault _
  | fuel + 1, current => by
      rw [BPlusTreeDram.search]
      refine Simulates.bind (Simulates.load current) fun contents there =>
        Simulates.assume fun filled => ?_
      refine Simulates.bind (Simulates.lift fun index located =>
        ⟨index, lowerIndexOf_filled filled located, Eq.refl index⟩) fun index other =>
          Simulates.assume ?_
      rintro rfl
      refine Simulates.bind (Simulates.lift fun found tested =>
        ⟨found, keyMatches_filled filled tested, Eq.refl found⟩) fun found other =>
          Simulates.assume ?_
      rintro rfl
      apply Simulates.branch (by rw [filled.isLeaf])
      · intro _
        apply Simulates.branch Iff.rfl
        · intro _
          exact Simulates.pure fun _ _ mirrors => ⟨rfl, mirrors⟩
        · intro _
          exact Simulates.pure fun _ _ mirrors => ⟨rfl, mirrors⟩
      · intro _
        refine Simulates.bind (Simulates.lift fun child read => filled.children.get read)
          fun child other => Simulates.assume ?_
        rintro rfl
        exact search_mirrors key fuel _

/-! ### Scanning -/

theorem scanDescend_mirrors (key : Key) : ∀ (fuel : Nat) (current : Ptr),
    Simulates Mirrors (BPlusTreeDram.scanDescend fuel current key)
      (BPlusTreeDram.scanDescend fuel current key)
      fun leaf other store memory => other = leaf ∧ Mirrors store memory
  | 0, _ => Simulates.fault _
  | fuel + 1, current => by
      rw [BPlusTreeDram.scanDescend]
      apply Simulates.branch Iff.rfl
      · intro _
        exact Simulates.pure fun _ _ mirrors => ⟨rfl, mirrors⟩
      · intro _
        refine Simulates.bind (Simulates.load current) fun contents there =>
          Simulates.assume fun filled => ?_
        apply Simulates.branch (by rw [filled.isLeaf])
        · intro _
          exact Simulates.pure fun _ _ mirrors => ⟨rfl, mirrors⟩
        · intro _
          refine Simulates.bind (Simulates.lift fun index located =>
            ⟨index, lowerIndexOf_filled filled located, Eq.refl index⟩) fun index other =>
              Simulates.assume ?_
          rintro rfl
          refine Simulates.bind (Simulates.lift fun child read => filled.children.get read)
            fun child other => Simulates.assume ?_
          rintro rfl
          exact scanDescend_mirrors key fuel _

theorem scanLeaf_filled {entries others : CArray Entry (2 * BPLUSTREE_MIN_DEGREE - 1)}
    (filled : CArray.Related EntryFilled entries others) (len : Int) :
    ∀ (remaining index : Nat) (count : Int) (result : List (Key × Value))
      (outcome : List (Key × Value) × Int × Bool),
      BPlusTreeDram.scanLeaf entries len remaining index count result = .ok outcome →
      BPlusTreeDram.scanLeaf others len remaining index count result = .ok outcome
  | 0, _, _, _, _, ran => ran
  | remaining + 1, index, count, result, outcome, ran => by
      rw [BPlusTreeDram.scanLeaf] at ran ⊢
      obtain ⟨entry, read, ran⟩ := except_bind_inv ran
      obtain ⟨other, readThere, same⟩ := filled.get read
      rw [except_bind_ok readThere]
      cases valueRead : entry.value.string? with
      | none => simp [valueRead] at ran
      | some value =>
          simp only [valueRead] at ran
          simp only [same.value.string? valueRead, same.key]
          split
          · rename_i last
            rwa [if_pos last] at ran
          · rename_i more
            rw [if_neg more] at ran
            exact scanLeaf_filled filled len remaining _ _ _ _ ran

theorem scanChain_mirrors (len : Int) : ∀ (fuel : Nat) (current index : Nat) (count : Int)
    (result : List (Key × Value)),
    Simulates Mirrors (BPlusTreeDram.scanChain len fuel current index count result)
      (BPlusTreeDram.scanChain len fuel current index count result)
      fun found other store memory => other = found ∧ Mirrors store memory
  | 0, _, _, _, _ => Simulates.fault _
  | fuel + 1, current, index, count, result => by
      rw [BPlusTreeDram.scanChain]
      apply Simulates.branch Iff.rfl
      · intro _
        exact Simulates.pure fun _ _ mirrors => ⟨rfl, mirrors⟩
      · intro _
        refine Simulates.bind (Simulates.load current) fun contents there =>
          Simulates.assume fun filled => ?_
        rw [filled.nk, filled.links]
        refine Simulates.bind (Simulates.lift fun outcome scanned =>
          ⟨outcome, scanLeaf_filled filled.entries len _ _ _ _ _ scanned, Eq.refl outcome⟩)
            fun outcome other => Simulates.assume ?_
        rintro rfl
        apply Simulates.branch Iff.rfl
        · intro _
          exact Simulates.pure fun _ _ mirrors => ⟨rfl, mirrors⟩
        · intro _
          exact scanChain_mirrors len fuel _ _ _ _

/-- A scan on a mirror of a tree with a root delivers the same. -/
theorem scan_mirrors {store : BPlusTreeDram} {pmem : BPlusTreePmem} (rooted : store.root ≠ null)
    (mirrors : Mirrors store (memory pmem)) {key : Key} {len : Int} {found : List (Key × Value)}
    (ran : BPlusTreeDram.scan key len store = .ok (found, store)) :
    ∃ final, scan key len pmem = .ok (found, final) := by
  rw [BPlusTreeDram.scan, bind_ok (BPlusTreeDram.check_ok rooted)] at ran
  have simulates : Simulates Mirrors (do
        let root ← Prog.getRoot
        let bound ← Prog.heapSize
        let leaf ← BPlusTreeDram.scanDescend bound root key
        if leaf = null then return []
        else
          let contents ← Prog.load leaf
          let index ← Prog.lift (lowerIndexOf contents key)
          BPlusTreeDram.scanChain len (bound + 1) leaf index 0 []) (do
        let root ← Prog.getRoot
        let bound ← Prog.heapSize
        let leaf ← BPlusTreeDram.scanDescend bound root key
        if leaf = null then return []
        else
          let contents ← Prog.load leaf
          let index ← Prog.lift (lowerIndexOf contents key)
          BPlusTreeDram.scanChain len (bound + 1) leaf index 0 [])
      fun found other store memory => other = found ∧ Mirrors store memory := by
    refine Simulates.bind Simulates.getRoot fun root other => Simulates.assume ?_
    rintro rfl
    refine Simulates.bind Simulates.heapSize fun bound other => Simulates.assume ?_
    rintro rfl
    refine Simulates.bind (scanDescend_mirrors key _ _) fun leaf other => Simulates.assume ?_
    rintro rfl
    apply Simulates.branch Iff.rfl
    · intro _
      exact Simulates.pure fun _ _ mirrors => ⟨rfl, mirrors⟩
    · intro _
      refine Simulates.bind (Simulates.load _) fun contents there => Simulates.assume fun filled => ?_
      refine Simulates.bind (Simulates.lift fun index located =>
        ⟨index, lowerIndexOf_filled filled located, Eq.refl index⟩) fun index other =>
          Simulates.assume ?_
      rintro rfl
      exact scanChain_mirrors len _ _ _ _ _
  obtain ⟨other, final, ranThere, rfl, _⟩ := simulates mirrors ran
  exact ⟨_, onMemory_ok ranThere⟩

/-! ### Splitting -/

variable (pool : Pool (Node BPLUSTREE_MIN_DEGREE Links))

theorem relink_mirrors (address : Ptr) (change : Links → Links) :
    Simulates (Unlogged Mirrors)
      (Prog.modify address fun node => .ok { node with links := change node.links } :
        BPlusTreeDram.M Unit)
      (storeNode address fun node => .ok { node with links := change node.links })
      fun _ _ => Unlogged Mirrors := by
  apply storeNode_mirrors
  intro node other filled changed ran
  cases ran
  exact ⟨_, rfl, filled.isLeaf, filled.nk, congrArg change filled.links, filled.entries,
    filled.children⟩

theorem linkSibling_mirrors (child sibling : Ptr) :
    Simulates (Unlogged Mirrors) (BPlusTreeDram.linkSibling child sibling)
      (linkSibling pool child sibling) fun _ _ => Unlogged Mirrors := by
  unfold BPlusTreeDram.linkSibling linkSibling
  refine Simulates.bind (Simulates.load_journaled child) fun contents there =>
    Simulates.assume fun filled => ?_
  rw [filled.links]
  refine Simulates.bind (relink_mirrors sibling fun links => { links with next := contents.links.next })
    fun _ _ => ?_
  refine Simulates.bind (Simulates.load_journaled sibling) fun siblingContents there =>
    Simulates.assume fun filled => ?_
  rw [filled.links]
  have linkChild : Simulates (Unlogged Mirrors)
      (do
        Prog.modify child fun node =>
          .ok { node with links := { node.links with next := sibling } }
        Prog.modify sibling fun node =>
          .ok { node with links := { node.links with previous := child } } : BPlusTreeDram.M Unit)
      (do
        storeNode child fun node =>
          .ok { node with links := { node.links with next := sibling } }
        storeNode sibling fun node =>
          .ok { node with links := { node.links with previous := child } })
      fun _ _ => Unlogged Mirrors :=
    Simulates.bind (relink_mirrors child fun links => { links with next := sibling })
      fun _ _ => relink_mirrors sibling fun links => { links with previous := child }
  dsimp only
  apply Simulates.branch Iff.rfl
  · intro _
    apply Simulates.quiet_first (Mode.quiet_addRange _ _)
    refine Simulates.bind (relink_mirrors _ fun links => { links with previous := sibling })
      fun _ _ => ?_
    exact Simulates.quiet_first (Mode.quiet_persist _ _) linkChild
  · intro _
    exact linkChild

theorem splitLeafNode_mirrors (index : Nat) (parent child : Ptr) :
    Simulates (Unlogged Mirrors) (BPlusTreeDram.splitLeafNode index parent child)
      (splitLeafNode pool index parent child) fun _ _ => Unlogged Mirrors := by
  unfold BPlusTreeDram.splitLeafNode splitLeafNode
  refine Simulates.bind (Simulates.load_journaled child) fun contents contentsThere =>
    Simulates.assume fun filled => ?_
  rw [filled.isLeaf]
  refine Simulates.bind (createNode_mirrors pool _ _) fun sibling other => Simulates.assume ?_
  rintro rfl
  apply Simulates.quiet_first (Mode.quiet_addRange _ _)
  apply Simulates.quiet_first (Mode.quiet_addRange _ _)
  refine Simulates.bind (storeNode_mirrors _ ?_) fun _ _ => ?_
  · intro node there same changed ran
    obtain ⟨entries, copyRan, ran⟩ := except_bind_inv ran
    cases ran
    obtain ⟨entriesThere, copyRanThere, sameEntries⟩ :=
      filled.entries.copyFrom _ same.entries copyRan
    rw [except_bind_ok copyRanThere]
    exact ⟨_, rfl, same.isLeaf, rfl, same.links, sameEntries, same.children⟩
  refine Simulates.bind (storeNode_mirrors _ ?_) fun _ _ => ?_
  · intro node there same changed ran
    cases ran
    exact ⟨_, rfl, same.isLeaf, rfl, same.links, same.entries, same.children⟩
  refine Simulates.bind (Simulates.load_journaled _) fun siblingContents siblingThere =>
    Simulates.assume fun siblingFilled => ?_
  refine Simulates.bind (storeNode_mirrors _ ?_) fun _ _ => ?_
  · intro node there same changed ran
    refine graft_filled same (fun placedBefore placed placeRan => ?_) ran
    obtain ⟨first, firstRan, setRan⟩ := except_bind_inv placeRan
    obtain ⟨firstThere, firstRanThere, sameFirst⟩ := siblingFilled.entries.get firstRan
    rw [except_bind_ok firstRanThere, sameFirst.key]
    exact setKey_filled placedBefore setRan
  exact Simulates.quiet_last (linkSibling_mirrors pool child _)
    ((Mode.quiet_persist _ _).bind ((Mode.quiet_persist _ _).bind (Mode.quiet_persist _ _)))

theorem splitNode_mirrors : SplitMirrors BPlusTreeDram.splitNode (splitNode pool) := by
  intro index parent child
  unfold BPlusTreeDram.splitNode splitNode
  refine Simulates.bind (Simulates.load_journaled child) fun contents there =>
    Simulates.assume fun filled => ?_
  apply Simulates.branch (by rw [filled.isLeaf])
  · intro _
    exact splitLeafNode_mirrors pool index parent child
  · intro _
    exact splitMiddle_mirrors pool _ _ _ _ _

/-! ### Whole calls -/

/-- `update_if_found` descends exactly as `search` does and overwrites what it finds. -/
theorem updateIfFound_eq (key : Key) (value : Value) : ∀ (fuel : Nat) (current : Ptr),
    updateIfFound pool fuel current key value =
      onMemory (BPlusTreeDram.search fuel current key) >>= pool.overwriteFound value
  | 0, _ => rfl
  | fuel + 1, current => by
      rw [updateIfFound, BPlusTreeDram.search, onMemory_bind, onMemory_load, bind_assoc]
      refine bind_congr fun contents => ?_
      rw [onMemory_bind, onMemory_lift, bind_assoc]
      refine bind_congr fun index => ?_
      rw [onMemory_bind, onMemory_lift, bind_assoc]
      refine bind_congr fun found => ?_
      cases contents.isLeaf with
      | true => cases found <;> rfl
      | false =>
          simp only [Bool.false_eq_true, if_false]
          rw [onMemory_bind, onMemory_lift, bind_assoc]
          exact bind_congr fun child => updateIfFound_eq key value fuel child

theorem pmemImplements :
    PmemImplements pool BPlusTreeDram.splitNode BPlusTreeDram.search (splitNode pool)
      (updateIfFound pool) where
  splits := splitNode_mirrors pool
  searches := fun fuel current key => search_mirrors key fuel current
  updates := fun fuel current key value => updateIfFound_eq pool key value fuel current

theorem pmemServes : PmemServes pool BPlusTreeDram.search (splitNode pool) (updateIfFound pool)
    Links.null (backend pool) where
  insert := fun _ _ _ => rfl
  read := fun _ _ => rfl

/-- Every call on a `BPlusTreeDram` and a pool that mirrors it. -/
theorem matches_dram :
    Matches BPlusTreeDram.rangeBackend.step (rangeBackend pool).step (fun _ => Twins kind chain) := by
  intro past call store pmem twins
  cases call with
  | insert key value =>
      obtain ⟨next, final, ran, ranThere, stillTwins⟩ := twins.insert BPlusTreeDram.implements
        (pmemImplements pool) BPlusTreeDram.serves (pmemServes pool) key value
      exact ⟨.inserted, next, final, Backend.step_insert ran, Backend.step_insert ranThere, stillTwins⟩
  | read key =>
      obtain ⟨found, ran, ranThere⟩ :=
        twins.read BPlusTreeDram.implements solid BPlusTreeDram.serves (pmemServes pool) key
      exact ⟨.value found, store, pmem, Backend.step_read ran, Backend.step_read ranThere, twins⟩
  | scan key len =>
      obtain ⟨mirrors, entries, depth, tree, stores, contentsEq⟩ := twins
      obtain ⟨found, ran⟩ := BPlusTreeDram.scan_total stores key len
      obtain ⟨final, ranThere⟩ := scan_mirrors stores.root_ne_null mirrors ran
      refine ⟨.pairs found, store, pmem, RangeBackend.step_scan ?_, RangeBackend.step_scan ?_, mirrors,
        entries, depth, tree, stores, contentsEq⟩
      · simp only [BPlusTreeDram.rangeBackend, ran]
        rfl
      · simp only [rangeBackend, ranThere]
        rfl

end StoredsBench.BPlusTreePmem
