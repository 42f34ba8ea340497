/-
Module: StoredsBench.BPlusTreeMemOpt.Correctness
Layer: Correctness
Purpose: `BPDram` against `BPlusTreeDram` over whole workloads: both deliver the same and hold the
  same tree, and the records correspond to the stored keys one to one.
Trusted boundary: none
Main exports: BPDram.Shown, BPDram.serve_beside, BPDram.bpDram_refines_bplustreeDram
-/
import StoredsBench.BPlusTreeMemOpt.Calls

namespace StoredsBench.BPDram

open Lib Lib.Multiway Lib.SortedAssoc MemOpt BP
open BPlusTreeDram (Links kind chain)

/-- The two classes after a history. -/
def Beside (past : List RangeCall) (store : BPlusTreeDram) (state : State) : Prop :=
  ∃ entries, Companions (insertionOrder RangeCall.inserted? past) entries store state

variable (pool : Pool Node Record) {past : List RangeCall} {store : BPlusTreeDram} {state : State}

/-- A state of the class beside a `BPlusTreeDram` has a root. -/
theorem root_ne_null (beside : Beside past store state) : (memory state).root ≠ null := by
  obtain ⟨entries, ⟨depth, tree, stores, _⟩, stands, _⟩ := beside
  rw [stands.root]
  exact stores.root_ne_null

theorem check_ok {memory : Store Node (Heap Record)} (rooted : memory.root ≠ null) :
    check memory = .ok ((), memory) := by
  rw [check, bind_ok (Prog.getRoot_ok memory), if_neg rooted]
  rfl

theorem matches_bplustreeDram :
    Matches BPlusTreeDram.rangeBackend.step (rangeBackend pool).step Beside := by
  intro past call store state beside
  have rooted := root_ne_null beside
  have checked := check_ok rooted
  obtain ⟨entries, companions⟩ := beside
  cases call with
  | insert key value =>
      obtain ⟨next, final, ran, ranThere, still, _⟩ := companions.insert BPlusTreeDram.implements
        (keepsRecords pool) key value
      refine ⟨.inserted, next, final, Backend.step_insert ?_, Backend.step_insert ?_,
        upsert key value entries, ?_⟩
      · simp only [BPlusTreeDram.rangeBackend, BPlusTreeDram.backend, BPlusTreeDram.insert, ran]
        rfl
      · have inserted : insert pool key value state = .ok (1, final) := by
          rw [insert, bind_ok (Prog.getRoot_ok state),
            if_neg (show state.root ≠ null from rooted), ranThere]
        simp only [rangeBackend, inserted]
        rfl
      · rw [insertionOrder_insert past rfl]
        exact still
  | read key =>
      obtain ⟨found, final, searched, denotes⟩ := searchFromRoot_reads pool companions key
      refine ⟨.value (entries.lookup key), store, state, Backend.step_read ?_, Backend.step_read ?_,
        entries, ?_⟩
      · exact (BPlusTreeDram.implements.represents BPlusTreeDram.serves).read key companions.shows
      · have read : read key (memory state) = .ok (found, final) := by
          rw [read, bind_ok checked, searched]
        simp only [rangeBackend, read]
        exact denotes
      · rw [insertionOrder_idle past rfl]
        exact companions
  | scan key len =>
      obtain ⟨found, final, ran, ranThere⟩ := scanFromRoot_scans companions key len
      refine ⟨.pairs found, store, state, RangeBackend.step_scan ?_, RangeBackend.step_scan ?_,
        entries, ?_⟩
      · simp only [BPlusTreeDram.rangeBackend, ran]
        rfl
      · have scanned : scan key len (memory state) = .ok (found, final) := by
          rw [scan, bind_ok checked, ranThere]
        simp only [rangeBackend, scanned]
        rfl
      · rw [insertionOrder_idle past rfl]
        exact companions

/-- The first node, before anything is stored in it. -/
def firstNode : Node :=
  { pool.garbage 1 with isLeaf := true, nk := 0, next := null, previous := null }

theorem firstNode_live :
    (Heap.empty.push (firstNode pool)).get? 1 = some (firstNode pool) := rfl

/-- What the first insert leaves in memory. -/
theorem insert_init {key : Key} (value : Value) {keys : CArray Key BP_MAX_KEYS}
    {pointers : CArray Pointer BP_MAX_CHILDREN} (keysRan : (firstNode pool).keys.set 0 key = .ok keys)
    (pointersRan : (firstNode pool).pointers.set 0 (.record 1) = .ok pointers) :
    ∃ final, insert pool key value init = .ok (1, final) ∧ memory final =
      { heap := Heap.empty.push { firstNode pool with keys := keys, pointers := pointers, nk := 1 }
        root := 1
        aux := Heap.empty.push (newRecord pool Heap.empty value) } := by
  obtain ⟨first, createRan, firstEq⟩ : ∃ first, createNode pool true init = .ok (1, first) ∧
      memory first = { heap := Heap.empty.push (firstNode pool), root := null, aux := Heap.empty } :=
    perform_memory _ rfl
  obtain ⟨second, rootRan, secondEq⟩ : ∃ second, storeRoot 1 first = .ok ((), second) ∧
      memory second = { memory first with root := 1 } := perform_memory _ rfl
  rw [firstEq] at secondEq
  have live : (memory second).heap.get? 1 = some (firstNode pool) := by
    rw [secondEq]
    exact firstNode_live pool
  obtain ⟨third, keyRan, thirdEq⟩ := storeNode_memory (fun node => do
    let keys ← node.keys.set 0 key
    return { node with keys := keys }) live (except_bind_ok keysRan)
  obtain ⟨fourth, recordRan, fourthEq⟩ := createRecord_ok pool value third
  rw [thirdEq, secondEq] at fourthEq recordRan
  have liveFourth : (memory fourth).heap.get? 1 = some { firstNode pool with keys := keys } := by
    rw [fourthEq]
    exact (Heap.get?_set (firstNode_live pool) _ _).trans (if_pos rfl)
  obtain ⟨fifth, pointerRan, fifthEq⟩ := storeNode_memory (fun node => do
    let pointers ← node.pointers.set 0 (.record 1)
    return { node with pointers := pointers, nk := 1 }) liveFourth (except_bind_ok pointersRan)
  refine ⟨fifth, ?_, ?_⟩
  · rw [insert, bind_ok (Prog.getRoot_ok init), if_pos (show init.root = null from rfl),
      bind_ok createRan, bind_ok rootRan, bind_ok keyRan, bind_ok recordRan]
    exact (bind_ok pointerRan).trans rfl
  · rw [fifthEq, fourthEq]
    rfl

/-- The first insert creates a root in both trees, and the first record. -/
theorem insert_first (key : Key) (value : Value) :
    ∃ next final, BPlusTreeDram.insert key value BPlusTreeDram.init = .ok (1, next) ∧
      insert pool key value init = .ok (1, final) ∧ Companions [key] [(key, value)] next final := by
  obtain ⟨keyed, placed, entry, keySet, copied, viewed, placedAt⟩ :=
    Trees.place_ok (CArray.unwritten Trees.Entry (2 * BPLUSTREE_MIN_DEGREE - 1))
      (show 0 < 2 * BPLUSTREE_MIN_DEGREE - 1 by decide) key value
  have blankStands : NodeStands [] (Trees.blankLeaf BPLUSTREE_MIN_DEGREE Links.null) (firstNode pool) :=
    blank_stands true _
  obtain ⟨index, shifted, moved, keys, pointers, shiftRan, keysRan, pointersRan, stands⟩ :=
    insertIntoLeaf_parts blankStands rfl (Trees.insertIntoLeaf_blank keySet copied)
  cases shiftRan
  obtain ⟨final, ranThere, finalEq⟩ := insert_init pool value keysRan pointersRan
  obtain ⟨next, ran, stores, -⟩ := Trees.insert_empty BPlusTreeDram.implements
    (show BPlusTreeDram.init.root = null from rfl) key value
  have created : BPlusTreeDram.insert key value BPlusTreeDram.init =
      .ok (1, Trees.oneLeafStore Links.null placed) := Trees.insert_newStore keySet copied
  obtain rfl : next = Trees.oneLeafStore Links.null placed := by
    have same := ran.symm.trans created
    cases same
    rfl
  refine ⟨_, final, created, ranThere, ⟨0, _, stores, rfl⟩, ?_, ?_⟩
  · rw [finalEq]
    exact ⟨Coupled.empty.push stands, rfl, rfl⟩
  · rw [finalEq]
    exact Ledger.empty.append rfl trivial (CharArray.string?_copyString _ value)

/-- Both classes serve every workload that begins with an insert in the same way. -/
theorem serve_beside (garbage : Ptr → Node) (garbageRecord : Ptr → Record) (key : Key) (value : Value)
    (calls : List RangeCall) :
    ∃ answers store state,
      serve BPlusTreeDram.rangeBackend.step (.insert key value :: calls) BPlusTreeDram.init =
        .ok (answers, store) ∧
      serve (rangeBackend (BPDram.pool garbage garbageRecord)).step (.insert key value :: calls) init =
        .ok (answers, state) ∧
      Beside (.insert key value :: calls) store state := by
  obtain ⟨next, final, ran, ranThere, companions⟩ :=
    insert_first (BPDram.pool garbage garbageRecord) key value
  have firstRan : BPlusTreeDram.rangeBackend.step (.insert key value) BPlusTreeDram.init =
      .ok (.inserted, next) := by
    apply Backend.step_insert
    simp only [BPlusTreeDram.rangeBackend, BPlusTreeDram.backend, ran]
    rfl
  have firstRanThere : (rangeBackend (BPDram.pool garbage garbageRecord)).step (.insert key value) init =
      .ok (.inserted, final) := by
    apply Backend.step_insert
    simp only [rangeBackend, ranThere]
    rfl
  exact (matches_bplustreeDram (BPDram.pool garbage garbageRecord)).serve_from_first firstRan
    firstRanThere ⟨_, companions⟩ calls

/-! ### Trees with records -/

/-- The memory holds a tree of `BPlusTreeDram` at its labels: the same keys at the same positions, in
inner nodes the pointers to the children, and in leaves pointers to the records of the keys, which
hold the values. -/
def Shown (memory : Store Node (Heap Record)) (recordOf : Key → Ptr) :
    {depth : Nat} → Trees.PtrTree Key depth → Prop
  | 0, leaf =>
      ∃ node, memory.heap.get? leaf.label = some node ∧ node.isLeaf = true ∧
        node.nk = leaf.entries.length ∧
        ∀ index entry, leaf.entries[index]? = some entry →
          node.keys.at? index = some entry.1 ∧
          node.pointers.at? index = some (.record (recordOf entry.1)) ∧
          ∃ record, memory.aux.get? (recordOf entry.1) = some record ∧ record.string? = some entry.2
  | _ + 1, tree =>
      (∃ node, memory.heap.get? tree.label = some node ∧ node.isLeaf = false ∧
        node.nk = tree.items.length ∧
        (∀ index separator, tree.items[index]? = some separator →
          node.keys.at? index = some separator) ∧
        ∀ index child, tree.children[index]? = some child →
          node.pointers.at? index = some (.node (label child))) ∧
      ∀ child ∈ tree.children, Shown memory recordOf child

theorem shown_of_stands {owners : List Key} {entries : List (Key × Value)}
    {memory : Store Node (Heap Record)} (stands : Stands owners memory.aux store memory)
    (ledger : Ledger owners entries memory.aux) :
    ∀ {depth : Nat} {tree : Trees.PtrTree Key depth}, Trees.Rep kind store.heap tree →
      (∀ leaf ∈ leaves tree, ∀ pair ∈ leaf.entries, entries.lookup pair.1 = some pair.2) →
      Shown memory (recordOf owners) tree
  | 0, leaf, rep, stored => by
      obtain ⟨node, live, isLeaf, nk, shown⟩ := rep.root
      obtain ⟨there, liveThere, nodeStands⟩ := stands.heap.live live
      refine ⟨there, liveThere, nodeStands.isLeaf.trans isLeaf, nodeStands.nk.trans nk, ?_⟩
      intro index entry found
      obtain ⟨stored', written, viewed⟩ := shown index entry found
      have keyEq : stored'.key = entry.1 := Trees.viewEntry_key viewed
      obtain ⟨key, keyThere, sameKey⟩ := nodeStands.keys.written written
      obtain ⟨pointer, pointerThere, record, rfl, owned⟩ :=
        (nodeStands.records isLeaf).written written
      rw [keyEq] at owned sameKey
      obtain ⟨object, value, recordLive, holds, lookup⟩ := ledger.values owned
      have valueEq := stored leaf (List.mem_singleton.mpr rfl) entry (List.mem_of_getElem? found)
      rw [lookup, Option.some.injEq] at valueEq
      rw [← owned.eq_recordOf ledger.distinct]
      exact ⟨sameKey ▸ keyThere, pointerThere, object, recordLive, valueEq ▸ holds⟩
  | depth + 1, tree, rep, stored => by
      obtain ⟨node, live, inner, nk, items, children⟩ := rep.root
      obtain ⟨there, liveThere, nodeStands⟩ := stands.heap.live live
      refine ⟨⟨there, liveThere, nodeStands.isLeaf.trans inner, nodeStands.nk.trans nk, ?_, ?_⟩, ?_⟩
      · intro index separator found
        obtain ⟨entry, written, viewed⟩ := items index separator found
        obtain ⟨key, keyThere, sameKey⟩ := nodeStands.keys.written written
        rw [keyThere, sameKey]
        exact viewed
      · intro index child found
        obtain ⟨address, written, viewed⟩ := children index (label child) (by
          rw [List.getElem?_map, found, Option.map_some])
        obtain ⟨pointer, pointerThere, rfl⟩ := (nodeStands.children inner).written written
        cases viewed
        exact pointerThere
      · intro child member
        apply shown_of_stands stands ledger (rep.2 child member)
        intro leaf inChild
        exact stored leaf (List.mem_flatMap.mpr ⟨child, member, inChild⟩)

/-- The chain pointers of the nodes. -/
def nextOf (memory : Store Node (Heap Record)) (address : Nat) : Option Nat :=
  (memory.heap.get? address).map Node.next

def previousOf (memory : Store Node (Heap Record)) (address : Nat) : Option Nat :=
  (memory.heap.get? address).map Node.previous

theorem chained_of_stands {owners : List Key} {records : Heap Record}
    {memory : Store Node (Heap Record)} (stands : Stands owners records store memory) {origin : Nat}
    {addresses : List Nat}
    (chained : Chain (BPlusTreeDram.nextOf (Trees.linksAt store.heap))
      (BPlusTreeDram.previousOf (Trees.linksAt store.heap)) origin addresses) :
    Chain (nextOf memory) (previousOf memory) origin addresses := by
  apply chained.mono
  · intro address target found
    obtain ⟨links, linked, rfl⟩ := Option.map_eq_some_iff.mp found
    obtain ⟨node, live, rfl⟩ := Option.map_eq_some_iff.mp linked
    obtain ⟨there, liveThere, nodeStands⟩ := stands.heap.live live
    rw [nextOf, liveThere, Option.map_some, nodeStands.next]
  · intro address target found
    obtain ⟨links, linked, rfl⟩ := Option.map_eq_some_iff.mp found
    obtain ⟨node, live, rfl⟩ := Option.map_eq_some_iff.mp linked
    obtain ⟨there, liveThere, nodeStands⟩ := stands.heap.live live
    rw [previousOf, liveThere, Option.map_some, nodeStands.previous]

/-- `BPDram` and `BPlusTreeDram` deliver the same for every workload that begins with an insert.  After
it both memories hold one tree: the same nodes with the same keys at the same positions, chained in the
same way.  The records are numbered by the order in which their keys were first inserted: there is one
for every stored key and no other, and the slot of a key in its leaf points to the record of that key,
which holds its value. -/
theorem bpDram_refines_bplustreeDram (garbage : Ptr → Node) (garbageRecord : Ptr → Record) (key : Key)
    (value : Value) (calls : List RangeCall) :
    ∃ answers store state order,
      serve BPlusTreeDram.rangeBackend.step (.insert key value :: calls) BPlusTreeDram.init =
        .ok (answers, store) ∧
      serve (rangeBackend (BPDram.pool garbage garbageRecord)).step (.insert key value :: calls) init =
        .ok (answers, state) ∧
      order = insertionOrder RangeCall.inserted? (.insert key value :: calls) ∧
      order.Nodup ∧ (memory state).aux.size = order.length ∧
      ∃ (depth : Nat) (tree : Trees.PtrTree Key depth), BPlusTreeDram.Structured store tree ∧
        (memory state).root = label tree ∧ Shown (memory state) (recordOf order) tree ∧
        Chain (nextOf (memory state)) (previousOf (memory state)) null (leafLabels tree) ∧
        ∀ stored, stored ∈ order ↔ ∃ leaf ∈ leaves tree, stored ∈ leaf.entries.map Prod.fst := by
  obtain ⟨answers, store, state, served, servedThere, entries, ⟨depth, tree, stores, contentsEq⟩, stands,
    ledger⟩ := serve_beside garbage garbageRecord key value calls
  have leavesEq : entries = (leaves tree).flatMap Leaf.entries :=
    contentsEq.symm.trans (contents_bplus stores.valid.shape)
  have structured := BPlusTreeDram.structured stores
  have stored : ∀ leaf ∈ leaves tree, ∀ pair ∈ leaf.entries, entries.lookup pair.1 = some pair.2 := by
    intro leaf member pair inLeaf
    rw [leavesEq]
    exact lookup_of_mem structured.stored (List.mem_flatMap.mpr ⟨leaf, member, inLeaf⟩)
  refine ⟨answers, store, state, _, served, servedThere, rfl, ledger.distinct, ledger.level, depth, tree,
    structured, stands.root.trans structured.root, shown_of_stands stands ledger structured.nodes stored,
    chained_of_stands stands structured.chained, ?_⟩
  intro other
  constructor
  · intro member
    obtain ⟨record, owned⟩ := exists_ownedBy member
    obtain ⟨_, found, _, _, lookup⟩ := ledger.values owned
    have pairStored := mem_of_lookup_eq_some lookup
    rw [leavesEq] at pairStored
    obtain ⟨leaf, leafMember, inLeaf⟩ := List.mem_flatMap.mp pairStored
    exact ⟨leaf, leafMember, List.mem_map.mpr ⟨_, inLeaf, rfl⟩⟩
  · rintro ⟨leaf, leafMember, inKeys⟩
    obtain ⟨pair, inLeaf, rfl⟩ := List.mem_map.mp inKeys
    exact ledger.complete (stored leaf leafMember pair inLeaf)

end StoredsBench.BPDram
