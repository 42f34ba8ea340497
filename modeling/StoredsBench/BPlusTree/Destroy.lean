/-
Module: StoredsBench.BPlusTree.Destroy
Layer: Correctness
Purpose: `destroy` of `bplustree_dram.cc`: the recursion takes each leaf out of the chain before it frees
  it.  Every node of a reachable tree is freed, and nothing else was allocated.
Trusted boundary: none
Main exports: BPlusTreeDram.destroy, BPlusTreeDram.serve_whole, BPlusTreeDram.destroy_ok
-/
import StoredsBench.BPlusTree.Correctness
import StoredsBench.Trees.Destroy

namespace StoredsBench

open Lib Lib.Multiway Trees

namespace BPlusTreeDram

/-- The chain pointers of leaves. -/
def linking : Linking (Node BPLUSTREE_MIN_DEGREE Links) where
  next := fun node => node.links.next
  previous := fun node => node.links.previous
  setNext := fun address node => { node with links := { node.links with next := address } }
  setPrevious := fun address node => { node with links := { node.links with previous := address } }
  next_setPrevious := fun _ _ => rfl
  previous_setPrevious := fun _ _ => rfl

/-- `is_leaf`, `nk + 1` and `children` of a node. -/
def branching : Branching (Node BPLUSTREE_MIN_DEGREE Links) where
  isLeaf := Node.isLeaf
  count := fun node => node.nk + 1
  capacity := 2 * BPLUSTREE_MIN_DEGREE
  child := fun node index => node.children.get index

/-- The base case of `recursive_free`. -/
def freeLeaf (leaf : Ptr) : M Unit := do
  linking.unlink leaf
  Prog.free leaf

/-- `recursive_free`. -/
def recursiveFree : (fuel : Nat) → Ptr → M Unit := branching.recursiveFree freeLeaf

/-- `destroy`. -/
def destroy : M Unit := do
  check
  let root ← Prog.getRoot
  let depthBound ← Prog.heapSize
  recursiveFree depthBound root
  Prog.setRoot null

end BPlusTreeDram

namespace BPlusTreeDram

/-- The nodes of a tree branch as the tree does. -/
theorem branches_of_rep {heap : Heap (Node BPLUSTREE_MIN_DEGREE Links)} :
    ∀ {depth low : Nat} {tree : PtrTree Key depth}, Rep kind heap tree → Shape kind.scheme low tree →
      branching.Branches heap tree
  | 0, _, leaf, rep, _ => by
      obtain ⟨node, live, isLeaf, _⟩ := rep.root
      exact ⟨node, live, isLeaf⟩
  | depth + 1, low, tree, rep, shape => by
      obtain ⟨node, live, inner, nk, _, children⟩ := rep.root
      obtain ⟨⟨_, full⟩, count, below⟩ := shape
      have nkEq : node.nk = tree.items.length := nk
      refine ⟨⟨node, live, inner, ?_, ?_, ?_⟩, ?_⟩
      · rw [count, ← nkEq]
        rfl
      · rw [count]
        exact Nat.succ_le_succ full
      · intro index child found
        obtain ⟨address, written, viewed⟩ := children index (label child) (by
          rw [List.getElem?_map, found, Option.map_some])
        rw [Option.some.inj viewed] at written
        exact CArray.get_ok written
      · exact fun child member => branches_of_rep (rep.2 child member) (below child member)

/-- The leaves are linked in order. -/
theorem linkedLeaves {store : BPlusTreeDram} {depth : Nat} {tree : PtrTree Key depth}
    (stores : Stores kind chain store tree) :
    branching.LinkedLeaves linking store.heap (leafLabels tree) := by
  have chained := stores.holds.chained
  rw [List.nil_append, List.append_nil] at chained
  refine ⟨⟨chained.1, chained.2.congr ?_ ?_⟩, ?_⟩
  · intro address _
    rw [Linking.nextIn, nextOf, linksAt, Option.map_map]
    rfl
  · intro address _
    rw [Linking.previousIn, previousOf, linksAt, Option.map_map]
    rfl
  · intro address member
    exact (branches_of_rep stores.holds.rep stores.valid.shape).leaf_of_mem member

/-- Freeing a leaf keeps the others linked. -/
theorem freesLeaves : branching.FreesLeaves freeLeaf fun leaves (store : BPlusTreeDram) =>
    branching.LinkedLeaves linking store.heap leaves where
  leaf := by
    intro store address rest node holds live isLeaf
    obtain ⟨heap, ran, rest, same, clears, -⟩ := holds.unlink_ok fun _ _ => ⟨rfl, rfl, rfl⟩
    have stillLive : heap.get? address = some node := same.trans live
    have unlisted := (List.nodup_cons.mp holds.listed.1).1
    refine ⟨{ store with heap := heap.erase address }, ?_, rest.erase stillLive unlisted, rfl,
      clears.trans (Branching.Clears.erase stillLive)⟩
    rw [freeLeaf, bind_ok ran]
    exact Prog.free_ok stillLive
  inner := fun holds live isInner => holds.inner live isInner

theorem destroy_ok {store : BPlusTreeDram} {depth : Nat} {tree : PtrTree Key depth}
    (stores : Stores kind chain store tree) (whole : Whole store tree) :
    ∃ ended, destroy store = .ok ((), ended) ∧ ended.root = null ∧
      ∀ address, ¬ ended.heap.Live address := by
  have linked := linkedLeaves stores
  rw [← List.append_nil (leafLabels tree)] at linked
  obtain ⟨after, ran, _, _, clears⟩ := Branching.recursiveFree_ok freesLeaves stores.depth_lt_size
    (branches_of_rep stores.holds.rep stores.valid.shape) stores.holds.nodup linked
  refine ⟨{ after with root := null }, ?_, rfl, ?_⟩
  · rw [destroy, bind_ok (check_ok stores.root_ne_null), bind_ok (Prog.getRoot_ok _),
      bind_ok (Prog.heapSize_ok _), recursiveFree, stores.root, bind_ok ran]
    rfl
  · exact clears.not_live fun address live => whole.mem_labels stores.holds live

/-! ### Reachable trees -/

/-- A call that `step` serves where the nodes of a tree are all that was allocated leaves such a state. -/
theorem step_whole {store : BPlusTreeDram} (call : RangeCall) (start : StoresWhole kind chain store) :
    ∃ answer next, rangeBackend.step call store = .ok (answer, next) ∧ StoresWhole kind chain next := by
  cases call with
  | insert key value =>
      obtain ⟨next, ran, whole⟩ := start.insert implements key value
      refine ⟨.inserted, next, Backend.step_insert ?_, whole⟩
      simp only [rangeBackend, backend, BPlusTreeDram.insert, ran]
      rfl
  | read key =>
      obtain ⟨depth, tree, stores, whole⟩ := start
      exact ⟨_, store, Backend.step_read ((implements.represents serves).read key ⟨depth, tree, stores, rfl⟩),
        depth, tree, stores, whole⟩
  | scan key len =>
      obtain ⟨depth, tree, stores, whole⟩ := start
      obtain ⟨found, ran⟩ := scan_total stores key len
      refine ⟨.pairs found, store, RangeBackend.step_scan ?_, depth, tree, stores, whole⟩
      simp only [rangeBackend, ran]
      rfl

theorem serve_whole_from : ∀ (calls : List RangeCall) {store : BPlusTreeDram},
    StoresWhole kind chain store →
    ∃ answers after, serve rangeBackend.step calls store = .ok (answers, after) ∧
      StoresWhole kind chain after
  | [], store, start => ⟨[], store, rfl, start⟩
  | call :: calls, store, start => by
      obtain ⟨answer, next, ran, between⟩ := step_whole call start
      obtain ⟨answers, after, restRan, final⟩ := serve_whole_from calls between
      exact ⟨answer :: answers, after, serve_cons ran restRan, final⟩

/-- Every workload that begins with an insert leads to a tree whose nodes are all that was allocated. -/
theorem serve_whole (key : Key) (value : Value) (calls : List RangeCall) :
    ∃ answers after, serve rangeBackend.step (.insert key value :: calls) init = .ok (answers, after) ∧
      StoresWhole kind chain after := by
  obtain ⟨next, ran, first⟩ := StoresWhole.first implements (show init.root = null from rfl)
    (show init.heap.size = 0 from rfl) key value
  have firstRan : rangeBackend.step (.insert key value) init = .ok (.inserted, next) := by
    apply Backend.step_insert
    simp only [rangeBackend, backend, BPlusTreeDram.insert, ran]
    rfl
  obtain ⟨answers, after, restRan, final⟩ := serve_whole_from calls first
  exact ⟨.inserted :: answers, after, serve_cons firstRan restRan, final⟩

end BPlusTreeDram

end StoredsBench
