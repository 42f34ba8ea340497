/-
Module: StoredsBench.BTreeMemOpt.Destroy
Layer: Correctness
Purpose: `destroy` of `bt_dram.cc`, over two heaps of live objects.  It frees every node and no entry.
Trusted boundary: human-reviewed spec for the definitions
Main exports: BTDram.destroy, BTDram.destroy_ok, BTDram.Fed, BTDram.freesAll_iff
-/
import StoredsBench.BTreeMemOpt.Correctness
import StoredsBench.Trees.Destroy
import StoredsBench.Hashmap.Destroy

namespace StoredsBench

namespace BTDram

open Lib Lib.Multiway Lib.SortedAssoc MemOpt BT
open BTreeDram (kind chain)

/-- Programs over nodes and entries that free some of them. -/
abbrev Frees (α : Type) := Prog Node (Heap Entry) α

/-- `is_leaf`, `nk + 1` and `children` of a node. -/
def branching : Branching Node where
  isLeaf := Node.isLeaf
  count := fun node => node.nk + 1
  capacity := BT_MAX_CHILDREN
  child := fun node index => node.children.get index

/-- `recursive_free`. -/
def recursiveFree : (fuel : Nat) → Ptr → Frees Unit := branching.recursiveFree Prog.free

/-- `destroy`. -/
def destroy : Frees Unit := do
  check
  let root ← Prog.getRoot
  let depthBound ← Prog.heapSize
  recursiveFree depthBound root
  Prog.setRoot null

/-- What `destroy` returns from here holds no node and no entry. -/
def FreesAll (state : State) : Prop :=
  ∀ ended, destroy (memory state) = .ok ((), ended) →
    (∀ address, ¬ ended.heap.Live address) ∧ ∀ address, ¬ ended.aux.Live address

variable {owners : List Key} {entries : List (Key × Value)} {store : BTreeDram} {state : State}

/-- The nodes branch as those of the `BTreeDram` beside them. -/
theorem branches_of_stands {memory : Store Node (Heap Entry)}
    (stands : Stands owners memory.aux store memory) :
    ∀ {depth low : Nat} {tree : Trees.PtrTree (Key × Value) depth}, Trees.Rep kind store.heap tree →
      Shape kind.scheme low tree → branching.Branches memory.heap tree
  | 0, _, leaf, rep, _ => by
      obtain ⟨node, live, isLeaf, _⟩ := rep.root
      obtain ⟨there, liveThere, nodeStands⟩ := stands.heap.live live
      exact ⟨there, liveThere, nodeStands.isLeaf.trans isLeaf⟩
  | depth + 1, low, tree, rep, shape => by
      obtain ⟨node, live, inner, nk, _, children⟩ := rep.root
      obtain ⟨there, liveThere, nodeStands⟩ := stands.heap.live live
      obtain ⟨⟨_, full⟩, count, below⟩ := shape
      have nkEq : node.nk = tree.items.length := nk
      refine ⟨⟨there, liveThere, nodeStands.isLeaf.trans inner, ?_, ?_, ?_⟩, ?_⟩
      · rw [count, ← nkEq, ← nodeStands.nk]
        rfl
      · rw [count]
        exact Nat.succ_le_succ full
      · intro index child found
        obtain ⟨address, written, viewed⟩ := children index (label child) (by
          rw [List.getElem?_map, found, Option.map_some])
        obtain ⟨pointer, pointerThere, rfl⟩ := nodeStands.children.written written
        rw [Option.some.inj viewed] at pointerThere
        exact CArray.get_ok pointerThere
      · exact fun child member => branches_of_stands stands (rep.2 child member) (below child member)

/-- The entries are these, whatever leaves are left. -/
def KeepsEntries (records : Heap Entry) (_ : List Ptr) (memory : Store Node (Heap Entry)) : Prop :=
  memory.aux = records

/-- Freeing nodes touches no entry. -/
theorem freesLeaves (records : Heap Entry) :
    branching.FreesLeaves Prog.free (KeepsEntries records) where
  leaf := by
    intro memory address rest node same live _
    exact ⟨{ memory with heap := memory.heap.erase address }, Prog.free_ok live, same, rfl,
      Branching.Clears.erase live⟩
  inner := fun same _ _ => same

/-- Of a reachable tree every node is freed, and every entry stays. -/
theorem destroy_ok (companions : Companions owners entries store state)
    (start : Trees.StoresWhole kind chain store) :
    ∃ ended, destroy (memory state) = .ok ((), ended) ∧ ended.root = null ∧
      (∀ address, ¬ ended.heap.Live address) ∧ ended.aux = (memory state).aux := by
  obtain ⟨depth, tree, stores, whole⟩ := start
  have stands := companions.stands
  have deep : depth < (memory state).heap.size := by
    rw [stands.heap.size]
    exact stores.depth_lt_size
  have untouched : KeepsEntries (memory state).aux (leafLabels tree ++ []) (memory state) := rfl
  obtain ⟨after, ran, kept, _, clears⟩ := Branching.recursiveFree_ok (freesLeaves (memory state).aux) deep
    (branches_of_stands stands stores.holds.rep stores.valid.shape) stores.holds.nodup untouched
  have rootEq : (memory state).root = label tree := stands.root.trans stores.root
  have rooted : (memory state).root ≠ null := by
    rw [stands.root]
    exact stores.root_ne_null
  refine ⟨{ after with root := null }, ?_, rfl, ?_, kept⟩
  · rw [destroy, bind_ok (check_ok rooted), bind_ok (Prog.getRoot_ok _), bind_ok (Prog.heapSize_ok _),
      recursiveFree, rootEq, bind_ok ran]
    rfl
  · apply clears.not_live
    rintro address ⟨node, live⟩
    apply whole.mem_of_bounds stores.holds
    rw [← stands.heap.size]
    exact Heap.bounds_of_get? live

/-! ### Runs of inserts -/

/-- A tree that is beside a `BTreeDram` and was given something to store. -/
def Fed (state : State) : Prop :=
  ∃ owners entries store, owners ≠ [] ∧ Companions owners entries store state ∧
    Trees.StoresWhole kind chain store

variable (pool : Pool Node Entry)

theorem fed_first (key : Key) (value : Value) :
    ∃ final, insert pool key value init = .ok (1, final) ∧ Fed final := by
  obtain ⟨next, final, ran, ranThere, companions⟩ := insert_first pool key value
  obtain ⟨same, sameRan, whole⟩ := Trees.StoresWhole.first BTreeDram.implements
    (show BTreeDram.init.root = null from rfl) (show BTreeDram.init.heap.size = 0 from rfl) key value
  cases sameRan.symm.trans ran
  exact ⟨final, ranThere, [key], [(key, value)], next, List.cons_ne_nil key [], companions, whole⟩

theorem Fed.insert (fed : Fed state) (key : Key) (value : Value) :
    ∃ final, insert pool key value state = .ok (1, final) ∧ Fed final := by
  obtain ⟨owners, entries, store, some, companions, whole⟩ := fed
  obtain ⟨next, final, ran, ranThere, still, _⟩ :=
    companions.insert BTreeDram.implements (keepsRecords pool) key value
  obtain ⟨same, sameRan, wholeNext⟩ := whole.insert BTreeDram.implements key value
  cases sameRan.symm.trans ran
  have rooted : state.root ≠ null := by
    obtain ⟨depth, tree, stores, _⟩ := whole
    exact companions.stands.root ▸ stores.root_ne_null
  refine ⟨final, ?_, _, _, next, ?_, still, wholeNext⟩
  · rw [BTDram.insert, bind_ok (Prog.getRoot_ok state), if_neg rooted, ranThere]
  · split
    · exact some
    · exact List.append_ne_nil_of_right_ne_nil owners (List.cons_ne_nil key [])

theorem insertAll_fed : ∀ (pairs : List (Key × Value)) {state : State}, Fed state →
    ∃ final, (backend pool).insertAll pairs state = .ok final ∧ Fed final
  | [], state, fed => ⟨state, rfl, fed⟩
  | pair :: pairs, state, fed => by
      obtain ⟨next, ran, nextFed⟩ := fed.insert pool pair.1 pair.2
      obtain ⟨final, restRan, finalFed⟩ := insertAll_fed pairs nextFed
      refine ⟨final, ?_, finalFed⟩
      have inserted : (backend pool).insert pair.1 pair.2 state = .ok next := by
        simp only [backend, ran]
        rfl
      rw [Backend.insertAll, List.foldlM_cons, inserted]
      exact restRan

theorem insertAll_cons (pair : Key × Value) (pairs : List (Key × Value)) :
    ∃ final, (backend pool).insertAll (pair :: pairs) init = .ok final ∧ Fed final := by
  obtain ⟨first, ran, fed⟩ := fed_first pool pair.1 pair.2
  obtain ⟨final, restRan, finalFed⟩ := insertAll_fed pool pairs fed
  refine ⟨final, ?_, finalFed⟩
  have inserted : (backend pool).insert pair.1 pair.2 init = .ok first := by
    simp only [backend, ran]
    rfl
  rw [Backend.insertAll, List.foldlM_cons, inserted]
  exact restRan

/-- `destroy` of a tree that was given something leaves an entry. -/
theorem Fed.not_freesAll (fed : Fed state) : ¬ FreesAll state := by
  obtain ⟨owners, entries, store, some, companions, whole⟩ := fed
  obtain ⟨ended, ran, _, _, kept⟩ := destroy_ok companions whole
  intro all
  obtain ⟨key, member⟩ := List.exists_mem_of_ne_nil owners some
  obtain ⟨entry, owned⟩ := exists_ownedBy member
  obtain ⟨object, value, live, _⟩ := companions.ledger.values owned
  apply (all ended ran).2 entry
  rw [kept]
  exact ⟨object, live⟩

/-- `destroy` of an empty tree aborts. -/
theorem destroy_init : destroy (memory init) = .error .assertion := rfl

theorem freesAll_iff (pairs : List (Key × Value)) :
    ∃ state, (backend pool).insertAll pairs init = .ok state ∧ (FreesAll state ↔ pairs = []) := by
  cases pairs with
  | nil =>
      refine ⟨init, rfl, iff_of_true ?_ rfl⟩
      intro ended ran
      rw [destroy_init] at ran
      cases ran
  | cons pair pairs =>
      obtain ⟨state, ran, fed⟩ := insertAll_cons pool pair pairs
      exact ⟨state, ran, iff_of_false fed.not_freesAll (List.cons_ne_nil pair pairs)⟩

end BTDram

open Lib

/-- Of both classes, `destroy` frees everything where nothing was inserted, and only there. -/
theorem destroys_free_all_iff (garbage : Ptr → BT.Node) (garbageEntry : Ptr → BT.Entry)
    (coefficients : Hashmap.HashCoefficients) (pairs : List (Key × Value)) :
    (∃ state, (BTDram.backend (BTDram.pool garbage garbageEntry)).insertAll pairs BTDram.init = .ok state ∧
      (BTDram.FreesAll state ↔ pairs = [])) ∧
    ∃ store, HtDram.backend.insertAll pairs (HtDram.init coefficients) = .ok store ∧
      (HtDram.FreesAll store ↔ pairs = []) :=
  ⟨BTDram.freesAll_iff _ pairs, HtDram.freesAll_iff coefficients pairs⟩

/-- One insert is enough for both to leave something. -/
theorem destroys_leave_objects :
    ∃ (garbage : Ptr → BT.Node) (garbageEntry : Ptr → BT.Entry) (coefficients : Hashmap.HashCoefficients)
      (pair : Key × Value) (state : BT.State) (store : HtDram),
      (BTDram.backend (BTDram.pool garbage garbageEntry)).insertAll [pair] BTDram.init = .ok state ∧
      ¬ BTDram.FreesAll state ∧
      HtDram.backend.insertAll [pair] (HtDram.init coefficients) = .ok store ∧ ¬ HtDram.FreesAll store := by
  obtain ⟨state, ran, fed⟩ := BTDram.insertAll_cons (BTDram.pool
    (fun _ => ⟨false, 0, CArray.unwritten _ _, CArray.unwritten _ _⟩)
    fun _ => ⟨0, CharArray.unwritten _⟩) (1, ⟨[97], by decide, by decide⟩) []
  obtain ⟨store, ranTable, left⟩ := HtDram.freesAll_iff ⟨1, 0, 7, 4, by decide, by decide, by decide⟩
    [(1, ⟨[97], by decide, by decide⟩)]
  exact ⟨_, _, _, _, state, store, ran, fed.not_freesAll, ranTable, fun all => by cases left.mp all⟩

end StoredsBench
