/-
Module: StoredsBench.BTreeMemOpt.Correctness
Layer: Correctness
Purpose: `BTDram` against `BTreeDram` over whole workloads: both deliver the same and hold the same
  tree, and the entry of every stored key is referenced from one slot.
Trusted boundary: none
Main exports: BTDram.Shown, BTDram.References, BTDram.btDram_refines_btreeDram
-/
import StoredsBench.BTreeMemOpt.Insertion
import StoredsBench.Lib.Multiway.Slots
import StoredsBench.Trees.PmemMap

namespace StoredsBench.BT

open Lib Lib.Multiway Lib.SortedAssoc MemOpt

/-- `update_if_found` descends exactly as `search` does and overwrites what it finds. -/
theorem updateIfFound_eq (pool : Pool Node Entry) (key : Key) (value : Value) :
    ∀ (fuel : Nat) (current : Ptr), updateIfFound pool fuel current key value =
      onMemory (search fuel current key) >>= pool.overwriteFound value
  | 0, _ => rfl
  | fuel + 1, current => by
      rw [updateIfFound, search, onMemory_bind, onMemory_load, bind_assoc]
      refine bind_congr fun contents => ?_
      rw [onMemory_bind, bind_assoc]
      refine bind_congr fun index => ?_
      rw [onMemory_bind, bind_assoc]
      refine bind_congr fun found => ?_
      cases found with
      | true =>
          simp only [if_true]
          rw [onMemory_bind, onMemory_lift, bind_assoc]
          exact bind_congr fun entry => rfl
      | false =>
          simp only [Bool.false_eq_true, if_false]
          cases contents.isLeaf with
          | true => rfl
          | false =>
              simp only [Bool.false_eq_true, if_false]
              rw [onMemory_bind, onMemory_lift, bind_assoc]
              exact bind_congr fun child => updateIfFound_eq pool key value fuel child

theorem keepsRecords (pool : Pool Node Entry) :
    KeepsRecords NodeStands pool BTreeDram.splitNode BTreeDram.search () search
      (updateIfFound pool) (insertNew pool) (insertBelowRoot pool) (newEntry pool) where
  ignores := by
    intro owners node other index value placed stands ran
    obtain ⟨entry, readRan, setRan⟩ := except_bind_inv ran
    exact
      { isLeaf := stands.isLeaf
        nk := stands.nk
        entries := stands.entries.rewrite readRan setRan fun _ points => points
        children := stands.children }
  searches := fun tags fuel current key => search_stands tags key fuel current
  updates := fun fuel current key value => updateIfFound_eq pool key value fuel current
  inserts := fun tags level depthBound root key value =>
    insertNew_stands pool tags depthBound root key value level
  calls := fun _ _ => rfl
  tagged := fun _ _ _ => rfl
  written := fun _ _ value => CharArray.string?_copyString _ value

/-- A `BTreeDram`, a tree of pointers that stands for it, and the keys of the entries. -/
abbrev Companions (owners : List Key) (entries : List (Key × Value)) (store : BTreeDram)
    (state : State) : Prop :=
  MemOpt.Companions BTreeDram.kind BTreeDram.chain NodeStands owners entries store state

end StoredsBench.BT

namespace StoredsBench.BTDram

open Lib Lib.Multiway Lib.SortedAssoc MemOpt BT
open BTreeDram (kind)

/-! ### Calls -/

/-- The two classes after a history. -/
def Beside (past : List Call) (store : BTreeDram) (state : State) : Prop :=
  ∃ entries, Companions (insertionOrder Call.inserted? past) entries store state

variable (pool : Pool Node Entry) {past : List Call} {store : BTreeDram} {state : State}

/-- A state of the class beside a `BTreeDram` has a root. -/
theorem root_ne_null (beside : Beside past store state) : (memory state).root ≠ null := by
  obtain ⟨entries, ⟨depth, tree, stores, _⟩, stands, _⟩ := beside
  rw [stands.root]
  exact stores.root_ne_null

theorem check_ok {memory : Store Node (Heap Entry)} (rooted : memory.root ≠ null) :
    check memory = .ok ((), memory) := by
  rw [check, bind_ok (Prog.getRoot_ok memory), if_neg rooted]
  rfl

theorem read_eq (key : Key) {memory : Store Node (Heap Entry)} (rooted : memory.root ≠ null) :
    read key memory = search memory.heap.size memory.root key memory := by
  rw [read, bind_ok (check_ok rooted), searchFromRoot, bind_ok (Prog.getRoot_ok memory),
    bind_ok (Prog.heapSize_ok memory)]

theorem matches_btreeDram : Matches BTreeDram.backend.step (backend pool).step Beside := by
  intro past call store state beside
  have rooted := root_ne_null beside
  obtain ⟨entries, companions⟩ := beside
  cases call with
  | insert key value =>
      obtain ⟨next, final, ran, ranThere, still, _⟩ := companions.insert BTreeDram.implements
        (keepsRecords pool) key value
      refine ⟨.inserted, next, final, Backend.step_insert ?_, Backend.step_insert ?_,
        upsert key value entries, ?_⟩
      · simp only [BTreeDram.backend, BTreeDram.insert, ran]
        rfl
      · have inserted : insert pool key value state = .ok (1, final) := by
          rw [insert, bind_ok (Prog.getRoot_ok state),
            if_neg (show state.root ≠ null from rooted), ranThere]
        simp only [backend, inserted]
        rfl
      · rw [insertionOrder_insert past rfl]
        exact still
  | read key =>
      obtain ⟨found, final, searched, denotes⟩ :=
        companions.reads BTreeDram.implements (keepsRecords pool) key
      refine ⟨.value (entries.lookup key), store, state, Backend.step_read ?_, Backend.step_read ?_,
        entries, ?_⟩
      · exact (BTreeDram.implements.represents BTreeDram.serves).read key companions.shows
      · have readRan : read key (memory state) = .ok (found, final) :=
          (read_eq key rooted).trans searched
        simp only [backend, readRan]
        exact denotes
      · rw [insertionOrder_idle past rfl]
        exact companions

/-! ### The first insert -/

/-- The first node, before anything is stored in it. -/
def firstNode : Node := { pool.garbage 1 with isLeaf := true, nk := 0 }

theorem firstNode_live :
    (Heap.empty.push (firstNode pool)).get? 1 = some (firstNode pool) := rfl

/-- What the first insert leaves in memory. -/
theorem insert_init (key : Key) (value : Value) {entries : CArray Ptr BT_MAX_KEYS}
    (setRan : (firstNode pool).entries.set 0 1 = .ok entries) :
    ∃ final, insert pool key value init = .ok (1, final) ∧ memory final =
      { heap := Heap.empty.push { firstNode pool with entries := entries, nk := 1 }
        root := 1
        aux := Heap.empty.push (newEntry pool Heap.empty key value) } := by
  obtain ⟨first, createRan, firstEq⟩ : ∃ first, createNode pool true init = .ok (1, first) ∧
      memory first = { heap := Heap.empty.push (firstNode pool), root := null, aux := Heap.empty } :=
    perform_memory _ rfl
  obtain ⟨second, rootRan, secondEq⟩ : ∃ second, storeRoot 1 first = .ok ((), second) ∧
      memory second = { memory first with root := 1 } := perform_memory _ rfl
  obtain ⟨third, entryRan, thirdEq⟩ := createEntry_ok pool key value second
  rw [secondEq, firstEq] at thirdEq entryRan
  have liveThird : (memory third).heap.get? 1 = some (firstNode pool) := by
    rw [thirdEq]
    exact firstNode_live pool
  obtain ⟨fourth, slotRan, fourthEq⟩ := storeNode_memory (fun node => do
    let entries ← node.entries.set 0 1
    return { node with entries := entries, nk := 1 }) liveThird (except_bind_ok setRan)
  refine ⟨fourth, ?_, ?_⟩
  · rw [insert, bind_ok (Prog.getRoot_ok init), if_pos (show init.root = null from rfl),
      bind_ok createRan, bind_ok rootRan, bind_ok entryRan]
    exact (bind_ok slotRan).trans rfl
  · rw [fourthEq, thirdEq]
    rfl

/-- The first insert creates a root in both trees, and the first entry. -/
theorem insert_first (key : Key) (value : Value) :
    ∃ next final, BTreeDram.insert key value BTreeDram.init = .ok (1, next) ∧
      insert pool key value init = .ok (1, final) ∧ Companions [key] [(key, value)] next final := by
  obtain ⟨keyed, placed, entry, keySet, copied, viewed, placedAt⟩ :=
    Trees.place_ok (CArray.unwritten Trees.Entry (2 * BTREE_MIN_DEGREE - 1))
      (show 0 < 2 * BTREE_MIN_DEGREE - 1 by decide) key value
  have blank : CArray.Related (PointsTo [key])
      (CArray.unwritten Trees.Entry (2 * BTREE_MIN_DEGREE - 1)) (firstNode pool).entries :=
    .unwritten (by decide)
  obtain ⟨entries, setRan, sameEntries⟩ :=
    place_stands blank (OwnedBy.last [] key) keySet copied
  obtain ⟨final, ranThere, finalEq⟩ := insert_init pool key value setRan
  obtain ⟨next, ran, stores, -⟩ := Trees.insert_empty BTreeDram.implements
    (show BTreeDram.init.root = null from rfl) key value
  have created : BTreeDram.insert key value BTreeDram.init =
      .ok (1, Trees.oneLeafStore () placed) := Trees.insert_newStore keySet copied
  obtain rfl : next = Trees.oneLeafStore () placed := by
    have same := ran.symm.trans created
    cases same
    rfl
  have stands : NodeStands [key]
      { Trees.blankLeaf BTREE_MIN_DEGREE () with entries := placed, nk := 1 }
      { firstNode pool with entries := entries, nk := 1 } :=
    ⟨rfl, rfl, sameEntries, .unwritten (by decide)⟩
  refine ⟨_, final, created, ranThere, ⟨0, _, stores, rfl⟩, ?_, ?_⟩
  · rw [finalEq]
    exact ⟨Coupled.empty.push stands, rfl, rfl⟩
  · rw [finalEq]
    exact Ledger.empty.append rfl rfl (CharArray.string?_copyString _ value)

/-! ### Trees of pointers -/

/-- The slot points to the entry of the key, and that entry holds the key and its value. -/
def Holds (memory : Store Node (Heap Entry)) (recordOf : Key → Ptr) (node : Node) (index : Nat)
    (stored : Key × Value) : Prop :=
  node.entries.at? index = some (recordOf stored.1) ∧
    ∃ entry, memory.aux.get? (recordOf stored.1) = some entry ∧ entry.key = stored.1 ∧
      entry.value.string? = some stored.2

/-- The memory holds a tree of `BTreeDram` at its labels: the same kind of node, the same children, and
at every position a pointer to the entry of the key that is stored there. -/
def Shown (memory : Store Node (Heap Entry)) (recordOf : Key → Ptr) :
    {depth : Nat} → Trees.PtrTree (Key × Value) depth → Prop
  | 0, leaf =>
      ∃ node, memory.heap.get? leaf.label = some node ∧ node.isLeaf = true ∧
        node.nk = leaf.entries.length ∧
        ∀ index stored, leaf.entries[index]? = some stored → Holds memory recordOf node index stored
  | _ + 1, tree =>
      (∃ node, memory.heap.get? tree.label = some node ∧ node.isLeaf = false ∧
        node.nk = tree.items.length ∧
        (∀ index stored, tree.items[index]? = some stored →
          Holds memory recordOf node index stored) ∧
        ∀ index child, tree.children[index]? = some child →
          node.children.at? index = some (label child)) ∧
      ∀ child ∈ tree.children, Shown memory recordOf child

/-- The slot, a node of the tree and an index below its number of keys, points to the entry. -/
def References (memory : Store Node (Heap Entry)) {depth : Nat}
    (tree : Trees.PtrTree (Key × Value) depth) (entry : Ptr) (slot : Ptr × Nat) : Prop :=
  slot.1 ∈ labels tree ∧ ∃ node, memory.heap.get? slot.1 = some node ∧ slot.2 < node.nk ∧
    node.entries.at? slot.2 = some entry

section Showing

variable {owners : List Key} {entries : List (Key × Value)} {there : Store Node (Heap Entry)}

/-- A slot that shows a stored entry on the one side points to its entry on the other. -/
theorem holds_of_stands (ledger : Ledger owners entries there.aux)
    {node : Trees.Node BTREE_MIN_DEGREE Unit} {other : Node} (stands : NodeStands owners node other)
    {index : Nat} {entry : Trees.Entry} {stored : Key × Value}
    (written : node.entries.at? index = some entry) (viewed : Trees.viewEntry entry = some stored)
    (lookup : entries.lookup stored.1 = some stored.2) :
    Holds there (recordOf owners) other index stored := by
  obtain ⟨address, writtenThere, owned⟩ := stands.entries.written written
  rw [PointsTo, Trees.viewEntry_key viewed] at owned
  obtain ⟨object, value, live, holds, found⟩ := ledger.values owned
  obtain ⟨_, same, tagged⟩ := ledger.tags _ _ owned
  obtain rfl := Option.some.inj (live.symm.trans same)
  obtain rfl := Option.some.inj (found.symm.trans lookup)
  rw [Holds, ← owned.eq_recordOf ledger.distinct]
  exact ⟨writtenThere, object, live, tagged, holds⟩

theorem shown_of_stands (stands : Stands owners there.aux store there)
    (ledger : Ledger owners entries there.aux) :
    ∀ {depth : Nat} {tree : Trees.PtrTree (Key × Value) depth}, Trees.Rep kind store.heap tree →
      (∀ slot ∈ slots tree, entries.lookup (Sum.elim id id slot.2).1 = some (Sum.elim id id slot.2).2) →
      Shown there (recordOf owners) tree
  | 0, leaf, rep, stored => by
      obtain ⟨node, live, isLeaf, nk, shown⟩ := rep.root
      obtain ⟨other, liveThere, nodeStands⟩ := stands.heap.live live
      refine ⟨other, liveThere, nodeStands.isLeaf.trans isLeaf, nodeStands.nk.trans nk, ?_⟩
      intro index pair found
      obtain ⟨entry, written, viewed⟩ := shown index pair found
      apply holds_of_stands ledger nodeStands written viewed
      apply stored ((leaf.label, index), .inr pair)
      rw [slots, mem_slotsOf]
      exact ⟨rfl, by rw [List.getElem?_map, found, Option.map_some]⟩
  | depth + 1, tree, rep, stored => by
      obtain ⟨node, live, inner, nk, items, children⟩ := rep.root
      obtain ⟨other, liveThere, nodeStands⟩ := stands.heap.live live
      refine ⟨⟨other, liveThere, nodeStands.isLeaf.trans inner, nodeStands.nk.trans nk, ?_, ?_⟩, ?_⟩
      · intro index pair found
        obtain ⟨entry, written, viewed⟩ := items index pair found
        apply holds_of_stands ledger nodeStands written viewed
        apply stored ((tree.label, index), .inl pair)
        rw [slots, List.mem_append, mem_slotsOf]
        exact .inl ⟨rfl, by rw [List.getElem?_map, found, Option.map_some]⟩
      · intro index child found
        obtain ⟨address, written, viewed⟩ := children index (label child) (by
          rw [List.getElem?_map, found, Option.map_some])
        obtain ⟨pointer, pointerThere, rfl⟩ := nodeStands.children.written written
        cases viewed
        exact pointerThere
      · intro child member
        apply shown_of_stands stands ledger (rep.2 child member)
        intro slot inChild
        apply stored slot
        exact List.mem_append_right _ (List.mem_flatMap.mpr ⟨child, member, inChild⟩)

/-- Every slot of a shown tree is a slot of a node in memory. -/
theorem references_of_slot {memory : Store Node (Heap Entry)} {recordOf : Key → Ptr} :
    ∀ {depth : Nat} {tree : Trees.PtrTree (Key × Value) depth}, Shown memory recordOf tree →
      ∀ {place : Ptr × Nat} {mark : (Key × Value) ⊕ (Key × Value)}, (place, mark) ∈ slots tree →
        References memory tree (recordOf (Sum.elim id id mark).1) place
  | 0, leaf, shown, place, mark, member => by
      obtain ⟨node, live, _, nk, holds⟩ := shown
      obtain ⟨here, found⟩ := mem_slotsOf.mp member
      rw [List.getElem?_map] at found
      obtain ⟨stored, foundStored, rfl⟩ := Option.map_eq_some_iff.mp found
      refine ⟨List.mem_singleton.mpr here, node, here ▸ live, ?_, (holds _ _ foundStored).1⟩
      rw [nk]
      exact (List.getElem?_eq_some_iff.mp foundStored).1
  | depth + 1, tree, shown, place, mark, member => by
      obtain ⟨⟨node, live, _, nk, holds, _⟩, below⟩ := shown
      rcases List.mem_append.mp member with own | inChildren
      · obtain ⟨here, found⟩ := mem_slotsOf.mp own
        rw [List.getElem?_map] at found
        obtain ⟨stored, foundStored, rfl⟩ := Option.map_eq_some_iff.mp found
        refine ⟨?_, node, here ▸ live, ?_, (holds _ _ foundStored).1⟩
        · rw [here]
          exact List.mem_cons_self
        · rw [nk]
          exact (List.getElem?_eq_some_iff.mp foundStored).1
      · obtain ⟨child, isChild, inChild⟩ := List.mem_flatMap.mp inChildren
        obtain ⟨inLabels, points⟩ := references_of_slot (below child isChild) inChild
        exact ⟨List.mem_cons_of_mem _ (List.mem_flatMap.mpr ⟨child, isChild, inLabels⟩), points⟩

/-- Every slot of a node in memory is a slot of the shown tree. -/
theorem slot_of_references {memory : Store Node (Heap Entry)} {recordOf : Key → Ptr} :
    ∀ {depth : Nat} {tree : Trees.PtrTree (Key × Value) depth}, Shown memory recordOf tree →
      ∀ {entry : Ptr} {place : Ptr × Nat}, References memory tree entry place →
        ∃ mark, (place, mark) ∈ slots tree ∧ entry = recordOf (Sum.elim id id mark).1
  | 0, leaf, shown, entry, place, references => by
      obtain ⟨node, live, _, nk, holds⟩ := shown
      obtain ⟨member, found, liveFound, inside, written⟩ := references
      have here : place.1 = leaf.label := List.mem_singleton.mp member
      rw [here, live, Option.some.injEq] at liveFound
      subst liveFound
      rw [nk] at inside
      have stored := List.getElem?_eq_getElem inside
      refine ⟨.inr leaf.entries[place.2], ?_, ?_⟩
      · rw [slots, mem_slotsOf, List.getElem?_map, stored, Option.map_some]
        exact ⟨here, rfl⟩
      · exact Option.some.inj (written.symm.trans (holds _ _ stored).1)
  | depth + 1, tree, shown, entry, place, references => by
      obtain ⟨⟨node, live, _, nk, holds, _⟩, below⟩ := shown
      obtain ⟨member, found, liveFound, inside, written⟩ := references
      rcases List.mem_cons.mp member with here | inChildren
      · rw [here, live, Option.some.injEq] at liveFound
        subst liveFound
        rw [nk] at inside
        have stored := List.getElem?_eq_getElem inside
        refine ⟨.inl tree.items[place.2], ?_, ?_⟩
        · rw [slots, List.mem_append, mem_slotsOf, List.getElem?_map, stored, Option.map_some]
          exact .inl ⟨here, rfl⟩
        · exact Option.some.inj (written.symm.trans (holds _ _ stored).1)
      · obtain ⟨child, isChild, inChild⟩ := List.mem_flatMap.mp inChildren
        obtain ⟨mark, inSlots, entryEq⟩ := slot_of_references (below child isChild)
          ⟨inChild, found, liveFound, inside, written⟩
        exact ⟨mark, List.mem_append_right _ (List.mem_flatMap.mpr ⟨child, isChild, inSlots⟩), entryEq⟩

end Showing

/-- In a B-tree every mark is an entry. -/
theorem contents_eq {depth : Nat} (tree : Trees.PtrTree (Key × Value) depth) :
    contents kind.scheme tree = (trace tree).map (Sum.elim id id) := by
  have all : ∀ marks : List ((Key × Value) ⊕ (Key × Value)),
      entriesOf kind.scheme marks = marks.map (Sum.elim id id) := by
    intro marks
    induction marks with
    | nil => rfl
    | cons mark marks inductionHypothesis =>
        cases mark with
        | inl item =>
            rw [entriesOf_separator_cons, inductionHypothesis]
            rfl
        | inr entry =>
            rw [entriesOf_entry_cons, inductionHypothesis]
            rfl
  exact all (trace tree)

/-- `BTDram` and `BTreeDram` deliver the same for every workload that begins with an insert.  After it
both memories hold one tree: the same nodes with the same children and the same keys at the same
positions.  The entries are numbered by the order in which their keys were first inserted, one for
every stored key and no other; exactly one slot of one node points to the entry of a stored key, and
no slot points anywhere else. -/
theorem btDram_refines_btreeDram (garbage : Ptr → Node) (garbageEntry : Ptr → Entry) (key : Key)
    (value : Value) (calls : List Call) :
    ∃ answers store state order,
      serve BTreeDram.backend.step (.insert key value :: calls) BTreeDram.init =
        .ok (answers, store) ∧
      serve (backend (BTDram.pool garbage garbageEntry)).step (.insert key value :: calls) init =
        .ok (answers, state) ∧
      order = insertionOrder Call.inserted? (.insert key value :: calls) ∧
      order.Nodup ∧ (memory state).aux.size = order.length ∧
      ∃ (depth : Nat) (tree : Trees.PtrTree (Key × Value) depth),
        store.root = label tree ∧ Trees.Rep kind store.heap tree ∧ (labels tree).Nodup ∧
        Shape kind.scheme 1 tree ∧
        (memory state).root = label tree ∧ Shown (memory state) (recordOf order) tree ∧
        (∀ stored, stored ∈ order ↔ stored ∈ (contents kind.scheme tree).map Prod.fst) ∧
        (∀ stored ∈ order, ∃! slot, References (memory state) tree (recordOf order stored) slot) ∧
        ∀ entry slot, References (memory state) tree entry slot →
          ∃ stored ∈ order, entry = recordOf order stored := by
  obtain ⟨next, final, ran, ranThere, companions⟩ :=
    insert_first (BTDram.pool garbage garbageEntry) key value
  have firstRan : BTreeDram.backend.step (.insert key value) BTreeDram.init =
      .ok (.inserted, next) := by
    apply Backend.step_insert
    simp only [BTreeDram.backend, ran]
    rfl
  have firstRanThere : (backend (BTDram.pool garbage garbageEntry)).step (.insert key value) init =
      .ok (.inserted, final) := by
    apply Backend.step_insert
    simp only [backend, ranThere]
    rfl
  obtain ⟨answers, store, state, served, servedThere, entries, ⟨depth, tree, stores, rfl⟩, stands,
    ledger⟩ := (matches_btreeDram (BTDram.pool garbage garbageEntry)).serve_from_first firstRan
      firstRanThere ⟨_, companions⟩ calls
  have ascending := stores.valid.contents_ascending kind.lawful
  have shape := stores.valid.shape
  have distinct : ((trace tree).map fun mark => (Sum.elim id id mark).1).Nodup := by
    have keysNodup : ((contents kind.scheme tree).map Prod.fst).Nodup :=
      List.Pairwise.map _ (fun _ _ below => ne_of_lt below) ascending
    rwa [contents_eq, List.map_map] at keysNodup
  have lookup_slot : ∀ slot ∈ slots tree, (contents kind.scheme tree).lookup (Sum.elim id id slot.2).1 =
      some (Sum.elim id id slot.2).2 := by
    intro slot member
    apply lookup_of_mem ascending
    rw [contents_eq]
    apply List.mem_map_of_mem
    exact (slots_perm_trace shape).mem_iff.mp (List.mem_map_of_mem member)
  have shown := shown_of_stands stands ledger stores.holds.rep lookup_slot
  have stored_iff : ∀ stored, stored ∈ insertionOrder Call.inserted? (.insert key value :: calls) ↔
      stored ∈ (contents kind.scheme tree).map Prod.fst := by
    intro stored
    constructor
    · intro member
      obtain ⟨record, owned⟩ := exists_ownedBy member
      obtain ⟨_, found, _, _, lookup⟩ := ledger.values owned
      exact List.mem_map.mpr ⟨_, mem_of_lookup_eq_some lookup, rfl⟩
    · intro member
      obtain ⟨pair, inContents, rfl⟩ := List.mem_map.mp member
      exact ledger.complete (lookup_of_mem ascending inContents)
  have slot_stored : ∀ {place : Ptr × Nat} {mark}, (place, mark) ∈ slots tree →
      (Sum.elim id id mark).1 ∈ insertionOrder Call.inserted? (.insert key value :: calls) :=
    fun member => ledger.complete (lookup_slot _ member)
  refine ⟨answers, store, state, _, served, servedThere, rfl, ledger.distinct, ledger.level, depth,
    tree, stores.root, stores.holds.rep, stores.holds.nodup, shape, stands.root.trans stores.root,
    shown, stored_iff, ?_, ?_⟩
  · intro stored member
    obtain ⟨pair, inContents, rfl⟩ := List.mem_map.mp ((stored_iff stored).mp member)
    rw [contents_eq] at inContents
    obtain ⟨mark, inTrace, rfl⟩ := List.mem_map.mp inContents
    obtain ⟨place, inSlots⟩ := exists_slot shape inTrace
    refine ⟨place, references_of_slot shown inSlots, ?_⟩
    intro other references
    obtain ⟨otherMark, otherIn, sameEntry⟩ := slot_of_references shown references
    have sameKey := (ownedBy_recordOf (slot_stored otherIn)).key_eq
      (sameEntry ▸ ownedBy_recordOf member)
    exact congrArg Prod.fst
      (slot_unique (fun mark => (Sum.elim id id mark).1) shape distinct otherIn inSlots sameKey.symm)
  · intro entry slot references
    obtain ⟨mark, inSlots, entryEq⟩ := slot_of_references shown references
    exact ⟨_, slot_stored inSlots, entryEq⟩

end StoredsBench.BTDram
