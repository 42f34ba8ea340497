/-
Module: StoredsBench.Rbtree.PoolRefinement
Layer: Refinement
Purpose: With all their calls to PMDK `RbtreePmem` and `RbtreePmemTx` do to the memory what the functions
  of `RbtreePmem` do without them, so that every sequence of inserts runs and leaves a red-black tree.
Trusted boundary: none
Main exports: RbPool.insert_performs, RbPool.insert_stores, RbPool.insertEach_stores,
  RbPool.rbPool_finite_map
-/
import StoredsBench.Rbtree.Pool
import StoredsBench.Rbtree.Correctness

namespace StoredsBench.Rbtree

open Lib Lib.RedBlack Lib.RedBlack.Tree Lib.SortedAssoc

namespace RbPool

variable (pool : RbPool)

/-! ### Every function does what its text says to the memory -/

theorem createNewNode_performs (key : Key) (value : Value) :
    Performs (pool.createNewNode key value) (Rbtree.createNewNode key value) := by
  intro before address after ran
  cases ran
  apply (Mode.allocate_runsTo pool.mode pool.garbage before).bind
  apply ((pool.mode.quiet_addRange _).runsTo _).bind
  apply RunsTo.bind
  · apply RunsTo.perform
    exact Prog.modify_pure_ok _ (by rw [Heap.get?_push, if_pos rfl])
  · rw [Heap.push_set]
    exact RunsTo.pure _ _

theorem reparent_performs (child parent : Ptr) :
    Performs (pool.reparent child parent) (Rbtree.reparent child parent) := by
  apply Performs.branch
  · intro _
    apply Performs.behind (pool.mode.quiet_addRange _)
    exact (Performs.perform _ _).followed (pool.mode.quiet_persist _)
  · intro _
    exact Performs.pure ()

theorem replaceRoot_performs (new : Ptr) : Performs (pool.replaceRoot new) (Prog.setRoot new) := by
  intro before value after ran
  apply (RunsTo.getRoot before).bind
  apply ((pool.mode.quiet_addRange _).runsTo _).bind
  exact (Performs.perform _ _).followed (pool.mode.quiet_persist _) ran

theorem replaceChild_performs (parent old new : Ptr) :
    Performs (pool.replaceChild parent old new) (Rbtree.replaceChild parent old new) := by
  apply Performs.branch
  · intro _
    exact pool.replaceRoot_performs new
  · intro _
    apply Performs.behind (pool.mode.quiet_addRange _)
    apply (Performs.load parent).bind
    intro contents
    apply Performs.branch
    · intro _
      exact (Performs.perform _ _).followed (pool.mode.quiet_persist _)
    · intro _
      exact (Performs.perform _ _).followed (pool.mode.quiet_persist _)

theorem rotate_performs (side : Side) (ptr : Ptr) :
    Performs (pool.rotate side ptr) (Rbtree.rotate side ptr) := by
  apply Performs.behind (pool.mode.quiet_addRange _)
  apply (Performs.load ptr).bind
  intro contents
  apply Performs.behind (pool.mode.quiet_addRange _)
  apply (Performs.load _).bind
  intro promoted
  apply (Performs.perform _ _).bind
  intro _
  apply (pool.reparent_performs _ _).bind
  intro _
  apply (Performs.load ptr).bind
  intro contents
  apply (Performs.perform _ _).bind
  intro _
  apply (pool.replaceChild_performs _ _ _).bind
  intro _
  apply (Performs.perform _ _).bind
  intro _
  exact Performs.perform _ _

theorem attach_performs (side : Side) (current : Ptr) (key : Key) (value : Value) :
    Performs (pool.attach side current key value) (Rbtree.attach side current key value) := by
  apply pool.mode.performs_transaction
  apply Performs.behind (pool.mode.quiet_addRange _)
  apply (pool.createNewNode_performs key value).bind
  intro newNode
  apply (Performs.perform _ _).bind
  intro _
  apply (Performs.perform _ _).bind
  intro _
  exact Performs.behind (pool.mode.quiet_persist _) (Performs.pure newNode)

theorem overwrite_performs (current : Ptr) (value : Value) :
    Performs (pool.overwrite current value)
      (Prog.modify current fun node => .ok { node with value := node.value.copyString value }) := by
  apply pool.mode.performs_transaction
  apply Performs.behind (pool.mode.quiet_addRange _)
  exact (Performs.perform _ _).followed (pool.mode.quiet_persist _)

theorem bstUpsert_performs (fuel : Nat) (current : Ptr) (key : Key) (value : Value) :
    Performs (pool.bstUpsert fuel current key value) (Rbtree.bstUpsert fuel current key value) := by
  induction fuel generalizing current with
  | zero => exact Performs.fault _
  | succ fuel inductionHypothesis =>
      apply Performs.branch
      · intro _
        exact Performs.fault _
      · intro _
        apply (Performs.load current).bind
        intro contents
        apply Performs.branch
        · intro _
          exact (pool.overwrite_performs current value).bind fun _ => Performs.pure null
        · intro _
          apply Performs.branch
          · intro _
            exact pool.attach_performs _ _ _ _
          · intro _
            exact inductionHypothesis _

theorem isRed_performs (address : Ptr) :
    Performs (isRed address : RbPmemProg Bool) (isRed address) := by
  apply Performs.branch
  · intro _
    exact Performs.pure false
  · intro _
    exact (Performs.load address).bind fun contents => Performs.pure _

theorem recolor_performs (grandparent parent uncle : Ptr) :
    Performs (pool.recolor grandparent parent uncle) (Rbtree.recolor grandparent parent uncle) := by
  apply Performs.behind (pool.mode.quiet_addRange _)
  apply (Performs.perform _ _).bind
  intro _
  apply (Performs.perform _ _).bind
  intro _
  apply (Performs.perform _ _).followed
  exact (pool.mode.quiet_persist _).bind
    ((pool.mode.quiet_persist _).bind (pool.mode.quiet_persist _))

theorem straighten_performs (side : Side) (current parent : Ptr) :
    Performs (pool.straighten side current parent) (Rbtree.straighten side current parent) := by
  apply (Performs.load parent).bind
  intro contents
  apply Performs.branch
  · intro _
    apply (pool.rotate_performs side parent).bind
    intro _
    exact (Performs.load parent).bind fun contents => Performs.pure _
  · intro _
    exact Performs.pure parent

theorem swapColors_performs (parent grandparent : Ptr) :
    Performs (swapColors parent grandparent) (Rbtree.swapColors parent grandparent) := by
  apply (Performs.load parent).bind
  intro parentContents
  apply (Performs.load grandparent).bind
  intro grandparentContents
  apply (Performs.perform _ _).bind
  intro _
  exact Performs.perform _ _

theorem rebalance_performs (side : Side) (current parent grandparent : Ptr) :
    Performs (pool.rebalance side current parent grandparent)
      (RbtreePmem.rebalance side current parent grandparent) := by
  apply pool.mode.performs_transaction
  apply Performs.behind (pool.mode.quiet_addRange _)
  apply Performs.behind (pool.mode.quiet_addRange _)
  apply (Performs.load grandparent).bind
  intro contents
  apply (isRed_performs _).bind
  intro redUncle
  apply Performs.branch
  · intro _
    exact (pool.recolor_performs _ _ _).bind fun _ => Performs.pure grandparent
  · intro _
    rw [turn, bind_assoc]
    apply (pool.straighten_performs _ _ _).bind
    intro promoted
    rw [bind_assoc]
    apply (pool.rotate_performs _ _).bind
    intro _
    exact (swapColors_performs _ _).bind fun _ => Performs.pure parent

theorem fixLoop_performs {code : Side → Ptr → Ptr → Ptr → RbPmemProg Ptr}
    {body : Side → Ptr → Ptr → Ptr → RbProg Ptr Ptr}
    (performs : ∀ side current parent grandparent,
      Performs (code side current parent grandparent) (body side current parent grandparent))
    (fuel : Nat) (current : Ptr) : Performs (fixLoop code fuel current) (fixLoop body fuel current) := by
  induction fuel generalizing current with
  | zero => exact Performs.fault _
  | succ fuel inductionHypothesis =>
      apply Performs.getRoot.bind
      intro root
      apply Performs.branch
      · intro _
        exact Performs.pure ()
      · intro _
        apply (Performs.load current).bind
        intro contents
        apply Performs.branch
        · intro _
          exact Performs.pure ()
        · intro _
          apply (Performs.load contents.parent).bind
          intro parentContents
          apply Performs.branch
          · intro _
            apply (Performs.load parentContents.parent).bind
            intro grandparentContents
            exact (performs _ _ _ _).bind inductionHypothesis
          · intro _
            exact Performs.pure ()

theorem blackenRoot_performs :
    Performs pool.blackenRoot (do
      let root ← Prog.getRoot
      setColor .black root) := by
  apply pool.mode.performs_transaction
  apply Performs.getRoot.bind
  intro root
  apply Performs.behind (pool.mode.quiet_addRange _)
  exact (Performs.perform _ _).followed (pool.mode.quiet_persist _)

theorem fixViolation_performs (current : Ptr) :
    Performs (pool.fixViolation current) (RbtreePmem.fixViolation current) := by
  apply Performs.heapSize.bind
  intro bound
  apply (fixLoop_performs pool.rebalance_performs _ _).bind
  intro _
  exact pool.blackenRoot_performs

theorem createRoot_performs (key : Key) (value : Value) :
    Performs (pool.createRoot key value) (do
      let root ← Rbtree.createNewNode key value
      Prog.setRoot root
      return root) := by
  apply pool.mode.performs_transaction
  apply Performs.behind (pool.mode.quiet_addRange _)
  apply (pool.createNewNode_performs key value).bind
  intro root
  exact (Performs.perform _ _).bind fun _ => Performs.pure root

theorem insert_performs (key : Key) (value : Value) :
    Performs (pool.insert key value) (RbtreePmem.insert key value) := by
  apply (Performs.onMemory _).bind
  intro _
  apply Performs.getRoot.bind
  intro root
  apply Performs.branch
  · intro _
    have created := (pool.createRoot_performs key value).bind fun root =>
      (pool.fixViolation_performs root).bind fun _ => Performs.pure (1 : Int)
    simpa only [bind_assoc, pure_bind, RbtreePmem.fixViolation] using created
  · intro _
    apply Performs.heapSize.bind
    intro bound
    apply (pool.bstUpsert_performs _ _ _ _).bind
    intro newNode
    apply Performs.branch
    · intro _
      exact Performs.pure 1
    · intro _
      exact (pool.fixViolation_performs newNode).bind fun _ => Performs.pure 1

/-! ### Runs -/

variable {pool} {store final : RbPmem} {tree : PtrTree}

/-- A place of the memory is one of the pool. -/
theorem holds_memory {above : List PtrFrame} :
    Holds (memory store) above tree ↔ Holds store above tree := by
  constructor
  · exact fun holds => ⟨holds.root, holds.rep, holds.repAbove, holds.nodup, holds.size⟩
  · exact fun holds => ⟨holds.root, holds.rep, holds.repAbove, holds.nodup, holds.size⟩

/-- `bst_upsert` changes the pool where its descent ends. -/
theorem bstUpsert_inv {fuel : Nat} {current address : Ptr} {key : Key} {value : Value}
    (ran : pool.bstUpsert fuel current key value store = .ok (address, final)) :
    (address = null ∧ ∃ node, pool.overwrite node value store = .ok ((), final)) ∨
      ∃ side node, pool.attach side node key value store = .ok (address, final) := by
  induction fuel generalizing current with
  | zero => cases ran
  | succ fuel inductionHypothesis =>
      rw [bstUpsert] at ran
      split at ran
      · cases ran
      · obtain ⟨contents, after, loaded, stepped⟩ := bind_ok_inv ran
        obtain rfl := Reading.load current loaded
        split at stepped
        · obtain ⟨_, _, overwritten, last⟩ := bind_ok_inv stepped
          cases last
          exact Or.inl ⟨rfl, current, overwritten⟩
        · generalize (if key < contents.key then Side.left else Side.right) = side at stepped
          dsimp only at stepped
          split at stepped
          · exact Or.inr ⟨side, current, stepped⟩
          · exact inductionHypothesis stepped

theorem root_ne_null (stores : Stores (memory store) tree) (nonempty : tree ≠ .leaf) :
    store.root ≠ null := by
  rw [show store.root = rootLabel tree from stores.holds.root]
  exact fun isNull => nonempty ((rootLabel_eq_null stores.holds.rep).mp isNull)

/-- What `bst_upsert` leaves when it is called on a tree. -/
theorem bstUpsert_stores (pool : RbPool) (stores : Stores (memory store) tree) (nonempty : tree ≠ .leaf)
    (key : Key) (value : Value) :
    ∃ address middle,
      pool.bstUpsert store.heap.size store.root key value store = .ok (address, middle) ∧
      Upserted (memory middle) (store.heap.size + 1) key value address (locate key tree []) := by
  have bound : tree.height ≤ store.heap.size := by
    rw [show store.heap.size = tree.labels.length from stores.size]
    exact height_le_length tree
  obtain ⟨address, after, ran, _, upserted⟩ := bstUpsert_ok key value stores.holds nonempty bound
  obtain ⟨middle, middleRan, middleEq⟩ := pool.bstUpsert_performs _ _ key value ran store rfl
  rw [← show store.root = rootLabel tree from stores.holds.root] at middleRan
  refine ⟨address, middle, middleRan, ?_⟩
  rw [middleEq]
  exact upserted

/-- `insert` on a tree with a root. -/
theorem insert_rooted (pool : RbPool) (valid : store.aux.side ≠ null) (rooted : store.root ≠ null)
    (key : Key) (value : Value) {address : Ptr}
    (ran : pool.bstUpsert store.heap.size store.root key value store = .ok (address, final)) :
    pool.insert key value store =
      (if address = null then return 1
        else do
          pool.fixViolation address
          return 1 : RbPmemProg Int) final := by
  have checked : onMemory RbtreePmem.check store = .ok ((), store) :=
    onMemory_reads (RbtreePmem.check_ok valid)
  rw [insert, bind_ok checked, bind_ok (Prog.getRoot_ok store), if_neg rooted,
    bind_ok (Prog.heapSize_ok store), bind_ok ran]

/-- `insert` into an empty tree. -/
theorem insert_empty (pool : RbPool) (valid : store.aux.side ≠ null) (empty : store.root = null)
    (key : Key) (value : Value) :
    pool.insert key value store = (do
      let root ← pool.createRoot key value
      pool.fixViolation root
      return 1 : RbPmemProg Int) store := by
  have checked : onMemory RbtreePmem.check store = .ok ((), store) :=
    onMemory_reads (RbtreePmem.check_ok valid)
  rw [insert, bind_ok checked, bind_ok (Prog.getRoot_ok store), if_pos empty]

/-- The first node is red and stands alone. -/
theorem createRoot_holds {key : Key} {value : Value} {root : Ptr} (stores : Stores (memory store) .leaf)
    (ran : pool.createRoot key value store = .ok (root, final)) :
    root = store.heap.size + 1 ∧
      Holds (memory final) [] (.node .red (store.heap.size + 1) (key, value) .leaf .leaf) := by
  obtain ⟨one, oneRan, oneAux, oneRoot, oneSize, oneViews⟩ := createNewNode_ok (memory store) key value
  have body : (do
      let root ← Rbtree.createNewNode key value
      Prog.setRoot root
      return root : RbProg Ptr Ptr) (memory store) =
        .ok (store.heap.size + 1, { one with root := store.heap.size + 1 }) := by
    rw [bind_ok oneRan]
    rfl
  obtain ⟨rootEq, finalEq⟩ := (pool.createRoot_performs key value body).of_ok ran
  refine ⟨rootEq, ?_⟩
  rw [finalEq]
  constructor
  · rfl
  · refine ⟨?_, trivial, trivial⟩
    have shows := congrFun oneViews (store.heap.size + 1)
    exact shows.trans (Function.update_self _ _ _)
  · trivial
  · exact List.nodup_cons.mpr ⟨List.not_mem_nil, List.nodup_nil⟩
  · exact oneSize.trans (congrArg (· + 1) stores.holds.size)

/-- One insert. -/
theorem insert_stores (pool : RbPool) (valid : store.aux.side ≠ null)
    (stores : Stores (memory store) tree) (key : Key) (value : Value) :
    ∃ final, pool.insert key value store = .ok (1, final) ∧ final.aux.side = store.aux.side ∧
      Stores (memory final) (grow tree (key, value)) := by
  obtain ⟨next, ran, aux, nextStores⟩ :=
    insert_refines RbtreePmem.rebalances stores key value
  have passed : RbtreePmem.insert key value (memory store) = .ok (1, next) := by
    rw [RbtreePmem.insert, bind_ok (RbtreePmem.check_ok valid)]
    exact ran
  obtain ⟨final, finalRan, finalEq⟩ := pool.insert_performs key value passed store rfl
  refine ⟨final, finalRan, ?_, ?_⟩
  · exact (congrArg Store.aux finalEq).trans aux
  · rw [finalEq]
    exact nextStores

/-- Every sequence of inserts runs to its end. -/
theorem insertEach_stores (pool : RbPool) (valid : store.aux.side ≠ null)
    (stores : Stores (memory store) tree) (pairs : List (Key × Value)) :
    ∃ final, insertEach pool.insert pairs store = .ok ((), final) ∧
      final.aux.side = store.aux.side ∧ Stores (memory final) (pairs.foldl grow tree) := by
  induction pairs generalizing store tree with
  | nil => exact ⟨store, rfl, rfl, stores⟩
  | cons pair rest inductionHypothesis =>
      obtain ⟨next, ran, side, nextStores⟩ := insert_stores pool valid stores pair.1 pair.2
      obtain ⟨final, restRan, finalSide, finalStores⟩ :=
        inductionHypothesis (by rwa [side]) nextStores
      refine ⟨final, ?_, finalSide.trans side, finalStores⟩
      rw [insertEach, bind_ok ran]
      exact restRan

theorem newPool_stores (rootOid : Ptr) : Stores (memory (newPool rootOid)) .leaf := stores_empty rootOid

/-! ### A finite map -/

/-- A pool shows the entries of a red-black tree with a root. -/
def ShowsEntries (store : RbPmem) (entries : List (Key × Value)) : Prop :=
  ∃ tree, Stores (memory store) tree ∧ store.aux.side ≠ null ∧ tree ≠ .leaf ∧ tree.entries = entries

theorem grow_ne_leaf (stores : Stores (memory store) tree) (pair : Key × Value) : grow tree pair ≠ .leaf := by
  intro empty
  have entriesEq := entries_grow stores.sorted pair
  rw [empty] at entriesEq
  exact upsert_ne_nil pair.1 pair.2 tree.entries entriesEq.symm

theorem backend_insert (pool : RbPool) (valid : store.aux.side ≠ null) (stores : Stores (memory store) tree)
    (key : Key) (value : Value) :
    ∃ next, pool.backend.insert key value store = .ok next ∧
      ShowsEntries next (SortedAssoc.upsert key value tree.entries) := by
  obtain ⟨next, ran, side, nextStores⟩ := insert_stores pool valid stores key value
  refine ⟨next, ?_, _, nextStores, by rwa [side], grow_ne_leaf stores (key, value),
    entries_grow stores.sorted (key, value)⟩
  simp only [backend, ran, Except.map]

theorem represents (pool : RbPool) : Represents pool.backend ShowsEntries where
  insert := by
    rintro store _ key value ⟨tree, stores, valid, _, rfl⟩
    exact backend_insert pool valid stores key value
  read := by
    rintro store _ key ⟨tree, stores, valid, nonempty, rfl⟩
    exact RbtreePmem.serves.read_ok stores valid nonempty key

/-- Whatever the allocator leaves in new objects and wherever they lie, both classes with all their calls
to PMDK are finite maps: every sequence of calls that begins with an insert runs to its end, and each
read returns the value of the most recent insert for its key. -/
theorem rbPool_finite_map (pool : RbPool) (rootOid : Ptr) (valid : rootOid ≠ null) (key : Key)
    (value : Value) (calls : List Call) :
    ∃ store, pool.backend.run (.insert key value :: calls) (newPool rootOid) =
        .ok (answers (.insert key value :: calls), store) ∧
      pool.backend.MapAfter (.insert key value :: calls) store := by
  obtain ⟨next, first, shown⟩ := backend_insert pool (show (newPool rootOid).aux.side ≠ null from valid)
    (newPool_stores rootOid) key value
  exact pool.represents.run_from_first first shown calls

theorem rbPool_finite_map_transactions :
    ∃ value : Value, ∃ store,
      (RbtreePmemTx.pool (fun _ => ⟨0, CharArray.unwritten _, null, null, null, .red⟩)
          fun _ _ => false).backend.run [.insert 5 value, .read 5] (newPool 1) =
        .ok (answers [.insert 5 value, .read 5], store) ∧
      (RbtreePmemTx.pool (fun _ => ⟨0, CharArray.unwritten _, null, null, null, .red⟩)
          fun _ _ => false).backend.MapAfter [.insert 5 value, .read 5] store :=
  ⟨⟨[97], by decide, by decide⟩, rbPool_finite_map _ 1 (by decide) 5 _ [.read 5]⟩

end RbPool

end StoredsBench.Rbtree
