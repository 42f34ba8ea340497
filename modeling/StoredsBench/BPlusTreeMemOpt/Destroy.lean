/-
Module: StoredsBench.BPlusTreeMemOpt.Destroy
Layer: Correctness
Purpose: The tear-down of the B+-trees with values in records, over two heaps of live objects: `destroy`
  of `bp_dram.cc` and of `bp_pmem.cc`.  Flushes change nothing in memory and are left out.
Trusted boundary: human-reviewed spec for the definitions
Main exports: BP.freeRecords, BPDram.destroy, BP.Holding, BPDram.bpDram_torn_down
-/
import StoredsBench.BPlusTreeMemOpt.Correctness
import StoredsBench.BPlusTree.Destroy

namespace StoredsBench

open Lib Lib.Multiway Lib.SortedAssoc MemOpt

namespace Lib.Prog

/-- `free` of an object beside the heap. -/
def freeBeside {N R : Type} (address : Ptr) : Prog N (Heap R) Unit := fun store =>
  match store.aux.get? address with
  | none => .error .invalidPointer
  | some _ => .ok ((), { store with aux := store.aux.erase address })

theorem freeBeside_ok {N R : Type} {store : Store N (Heap R)} {address : Ptr} {object : R}
    (live : store.aux.get? address = some object) :
    freeBeside address store = .ok ((), { store with aux := store.aux.erase address }) := by
  simp [freeBeside, live]

end Lib.Prog

namespace BP

/-- Programs over nodes and records that free some of them. -/
abbrev Frees (α : Type) := Prog Node (Heap Record) α

/-- The chain pointers of leaves. -/
def linking : Linking Node where
  next := Node.next
  previous := Node.previous
  setNext := fun address node => { node with next := address }
  setPrevious := fun address node => { node with previous := address }
  next_setPrevious := fun _ _ => rfl
  previous_setPrevious := fun _ _ => rfl

/-- `is_leaf`, `nk + 1` and `pointers` of a node. -/
def branching : Branching Node where
  isLeaf := Node.isLeaf
  count := fun node => node.nk + 1
  capacity := BP_MAX_CHILDREN
  child := childAt

/-- What a pointer leads to. -/
def Pointer.address : Pointer → Ptr
  | .node address => address
  | .record address => address

/-- `free` of what a pointer leads to. -/
def freePointer : Pointer → Frees Unit
  | .node address => Prog.free address
  | .record address => Prog.freeBeside address

/-- The body of the loop over the records of a leaf: frees one and forgets the pointer. -/
def freeRecordAt (leaf : Ptr) (contents : Node) (index : Nat) : Frees Unit := do
  let pointer ← Prog.lift (contents.pointers.get index)
  if pointer.address = null then return ()
  else
    freePointer pointer
    Prog.modify leaf fun node => do
      let pointers ← node.pointers.set index (.record null)
      return { node with pointers := pointers }

/-- The loop over the records of a leaf, which reads the leaf in every round.  The rounds beyond the
array of pointers would read outside of it. -/
def freeRecords (leaf : Ptr) : (rounds index : Nat) → Frees Unit
  | 0, _ => Prog.fault .outOfBounds
  | rounds + 1, index => do
      let contents ← Prog.load leaf
      if index < contents.nk then
        freeRecordAt leaf contents index
        freeRecords leaf rounds (index + 1)
      else return ()

/-! ### The records of a leaf -/

/-- The live leaf points to these records. -/
def Owns (heap : Heap Node) (leaf : Ptr) (records : List Ptr) : Prop :=
  ∃ node, heap.get? leaf = some node ∧ node.nk = records.length ∧
    ∀ index record, records[index]? = some record → node.pointers.at? index = some (.record record)

/-- Nothing but one node has changed, which is still live, and these records are gone. -/
structure Dropped (before after : Store Node (Heap Record)) (leaf : Ptr) (records : List Ptr) : Prop where
  root : after.root = before.root
  still : after.heap.Live leaf
  others : ∀ address, address ≠ leaf → after.heap.get? address = before.heap.get? address
  live : ∀ address, after.aux.Live address ↔ before.aux.Live address ∧ address ∉ records

theorem Dropped.nil {memory : Store Node (Heap Record)} {leaf : Ptr} (live : memory.heap.Live leaf) :
    Dropped memory memory leaf [] where
  root := rfl
  still := live
  others := fun _ _ => rfl
  live := fun _ => ⟨fun live => ⟨live, List.not_mem_nil⟩, And.left⟩

theorem Dropped.cons {before between after : Store Node (Heap Record)} {leaf record : Ptr}
    {records : List Ptr} (first : Dropped before between leaf [record])
    (rest : Dropped between after leaf records) : Dropped before after leaf (record :: records) where
  root := rest.root.trans first.root
  still := rest.still
  others := fun address different => (rest.others address different).trans (first.others address different)
  live := by
    intro address
    rw [rest.live, first.live, and_assoc, ← not_or, ← List.mem_append, List.singleton_append]

/-- One record is freed. -/
theorem freeRecordAt_ok {memory : Store Node (Heap Record)} {leaf record : Ptr} {contents : Node}
    {index : Nat} (live : memory.heap.get? leaf = some contents)
    (written : contents.pointers.at? index = some (.record record)) (recordLive : memory.aux.Live record) :
    ∃ after, freeRecordAt leaf contents index memory = .ok ((), after) ∧
      after.heap.get? leaf =
        some { contents with pointers := contents.pointers.put index (.record null) } ∧
      Dropped memory after leaf [record] := by
  obtain ⟨object, found⟩ := recordLive
  have inside := CArray.lt_of_at? written
  refine ⟨{ memory with
    heap := memory.heap.set leaf { contents with pointers := contents.pointers.put index (.record null) }
    aux := memory.aux.erase record }, ?_, ?_, ?_⟩
  · have notNull : (Pointer.record record).address ≠ null := Heap.ne_null_of_get? found
    rw [freeRecordAt, bind_ok (Prog.lift_ok (CArray.get_ok written) memory), if_neg notNull, freePointer,
      bind_ok (Prog.freeBeside_ok found)]
    have leafLive : ({ memory with aux := memory.aux.erase record } : Store Node (Heap Record)).heap.get?
        leaf = some contents := live
    apply Prog.modify_ok leafLive
    rw [CArray.set_ok inside]
    rfl
  · rw [Heap.get?_set live, if_pos rfl]
  · constructor
    · rfl
    · exact ⟨_, by rw [Heap.get?_set live, if_pos rfl]⟩
    · intro address different
      rw [Heap.get?_set live, if_neg different]
    · intro address
      rw [List.mem_singleton, Heap.Live, Heap.get?_erase found]
      by_cases same : address = record
      · simp [same]
      · simp [same, Heap.Live]

theorem freeRecords_ok {leaf : Ptr} {records : List Ptr} {memory : Store Node (Heap Record)}
    {contents : Node} {index rounds : Nat} (live : memory.heap.get? leaf = some contents)
    (count : contents.nk = index + records.length)
    (pointers : ∀ place record, records[place]? = some record →
      contents.pointers.at? (index + place) = some (.record record))
    (distinct : records.Nodup) (recordsLive : ∀ record ∈ records, memory.aux.Live record)
    (enough : records.length < rounds) :
    ∃ after, freeRecords leaf rounds index memory = .ok ((), after) ∧ Dropped memory after leaf records := by
  induction records generalizing memory contents index rounds with
  | nil =>
      obtain ⟨rounds, rfl⟩ := Nat.exists_eq_succ_of_ne_zero (Nat.ne_of_gt enough)
      refine ⟨memory, ?_, Dropped.nil ⟨contents, live⟩⟩
      rw [freeRecords, bind_ok (Prog.load_ok live), if_neg (by rw [count]; exact Nat.lt_irrefl _)]
      rfl
  | cons record records inductionHypothesis =>
      obtain ⟨rounds, rfl⟩ := Nat.exists_eq_succ_of_ne_zero (Nat.ne_of_gt (Nat.zero_lt_of_lt enough))
      obtain ⟨fresh, restDistinct⟩ := List.nodup_cons.mp distinct
      have more : index < contents.nk := by
        rw [count, List.length_cons]
        omega
      have written : contents.pointers.at? index = some (.record record) := pointers 0 record rfl
      obtain ⟨between, firstRan, leafLive, dropped⟩ := freeRecordAt_ok live written
        (recordsLive record List.mem_cons_self)
      have inside := CArray.lt_of_at? written
      have restPointers : ∀ place other, records[place]? = some other →
          (contents.pointers.put index (.record null)).at? (index + 1 + place) = some (.record other) := by
        intro place other found
        rw [CArray.at?_put _ inside, if_neg (by omega), Nat.add_assoc, Nat.add_comm 1 place]
        exact pointers (place + 1) other found
      have restLive : ∀ other ∈ records, between.aux.Live other := by
        intro other member
        rw [dropped.live, List.mem_singleton]
        exact ⟨recordsLive other (List.mem_cons_of_mem _ member), fun same => fresh (same ▸ member)⟩
      obtain ⟨after, restRan, restDropped⟩ := inductionHypothesis leafLive
        (by rw [count, List.length_cons]; omega) restPointers restDistinct restLive
        (Nat.lt_of_succ_lt_succ enough)
      refine ⟨after, ?_, dropped.cons restDropped⟩
      rw [freeRecords, bind_ok (Prog.load_ok live), if_pos more, bind_ok firstRan, restRan]

/-- The loop over the records of a leaf frees all of them. -/
theorem Owns.freeRecords {memory : Store Node (Heap Record)} {leaf : Ptr} {records : List Ptr}
    (owns : Owns memory.heap leaf records) (distinct : records.Nodup)
    (live : ∀ record ∈ records, memory.aux.Live record) :
    ∃ after, freeRecords leaf (BP_MAX_CHILDREN + 1) 0 memory = .ok ((), after) ∧
      Dropped memory after leaf records := by
  obtain ⟨node, leafLive, count, pointers⟩ := owns
  have few : records.length < BP_MAX_CHILDREN + 1 := by
    cases isEmpty : records.length with
    | zero => exact Nat.succ_pos _
    | succ last =>
        have inside : last < records.length := isEmpty ▸ Nat.lt_succ_self last
        have written := pointers last _ (List.getElem?_eq_getElem inside)
        exact Nat.succ_lt_succ (CArray.lt_of_at? written)
  apply freeRecords_ok leafLive (by rw [count, Nat.zero_add]) _ distinct live few
  intro place record found
  rw [Nat.zero_add]
  exact pointers place record found

/-! ### The leaves that are left -/

/-- The leaves are linked, each of them points to its own records, and no other records are live. -/
structure Holding (owned : Ptr → List Ptr) (leaves : List Ptr) (memory : Store Node (Heap Record)) :
    Prop where
  linked : branching.LinkedLeaves linking memory.heap leaves
  owns : ∀ leaf ∈ leaves, Owns memory.heap leaf (owned leaf)
  distinct : (leaves.flatMap owned).Nodup
  live : ∀ record, memory.aux.Live record ↔ record ∈ leaves.flatMap owned

/-- What a leaf points to depends on the leaf only. -/
theorem Owns.congr {before after : Heap Node} {leaf : Ptr} {records : List Ptr}
    (owns : Owns before leaf records) (same : after.get? leaf = before.get? leaf) :
    Owns after leaf records := by
  obtain ⟨node, live, count, pointers⟩ := owns
  exact ⟨node, same.trans live, count, pointers⟩

/-- The node at this address and its records are gone, and no other node has changed. -/
theorem clears_of_others {before after : Heap Node} {address : Ptr} {node : Node}
    (live : before.get? address = some node) (gone : after.get? address = none)
    (others : ∀ other, other ≠ address → after.get? other = before.get? other) :
    branching.Clears before after [address] where
  freed := by
    intro other member
    obtain rfl := List.mem_singleton.mp member
    exact gone
  kept := by
    intro other outside object objectLive
    have different : other ≠ address := fun same => outside (List.mem_singleton.mpr same)
    exact ⟨object, (others other different).trans objectLive, Branching.Alike.refl object⟩
  dead := by
    intro other dead
    have different : other ≠ address := by
      rintro rfl
      cases live.symm.trans dead
    exact (others other different).trans dead

variable {owned : Ptr → List Ptr} {memory : Store Node (Heap Record)} {first : Ptr} {rest : List Ptr}

/-- The first leaf is unlinked. -/
theorem Holding.unlink (holding : Holding owned (first :: rest) memory) :
    ∃ heap, linking.unlink first memory = .ok ((), { memory with heap := heap }) ∧
      branching.LinkedLeaves linking heap rest ∧ branching.Clears memory.heap heap [] ∧
      ∀ leaf ∈ first :: rest, Owns heap leaf (owned leaf) := by
  obtain ⟨heap, ran, linked, _, clears, changed⟩ :=
    holding.linked.unlink_ok fun _ _ => ⟨rfl, rfl, rfl⟩
  refine ⟨heap, ran, linked, clears, ?_⟩
  intro leaf member
  obtain ⟨node, live, count, pointers⟩ := holding.owns leaf member
  rcases changed leaf node live with same | relinked
  · exact ⟨node, same, count, pointers⟩
  · exact ⟨_, relinked, count, pointers⟩

/-- The first leaf is freed with its records, once it is unlinked. -/
theorem Holding.freeRecords (holding : Holding owned (first :: rest) memory) {heap : Heap Node}
    (linked : branching.LinkedLeaves linking heap rest)
    (owns : ∀ leaf ∈ first :: rest, Owns heap leaf (owned leaf)) :
    ∃ after, (do
        freeRecords first (BP_MAX_CHILDREN + 1) 0
        Prog.free first) { memory with heap := heap } = .ok ((), after) ∧
      Holding owned rest after ∧ after.root = memory.root ∧ branching.Clears heap after.heap [first] := by
  obtain ⟨ownDistinct, restDistinct, apart⟩ := List.nodup_append.mp
    (show (owned first ++ rest.flatMap owned).Nodup from holding.distinct)
  obtain ⟨node, live, _⟩ := owns first List.mem_cons_self
  have ownLive : ∀ record ∈ owned first, memory.aux.Live record := fun record member =>
    (holding.live record).mpr (List.mem_append_left _ member)
  obtain ⟨dropped, ran, drops⟩ := Owns.freeRecords
    (show Owns ({ memory with heap := heap } : Store Node (Heap Record)).heap first _ from
      owns first List.mem_cons_self) ownDistinct ownLive
  obtain ⟨left, leftLive⟩ := drops.still
  have others : ∀ address, address ≠ first →
      (dropped.heap.erase first).get? address = heap.get? address := by
    intro address different
    rw [Heap.get?_erase leftLive, if_neg different, drops.others address different]
  have fresh : first ∉ rest := (List.nodup_cons.mp holding.linked.listed.1).1
  have kept : ∀ leaf ∈ rest, (dropped.heap.erase first).get? leaf = heap.get? leaf := fun leaf member =>
    others leaf fun same => fresh (same ▸ member)
  refine ⟨{ dropped with heap := dropped.heap.erase first }, ?_, ⟨⟨linked.listed.congr kept, ?_⟩, ?_,
    restDistinct, ?_⟩, drops.root, clears_of_others live ?_ others⟩
  · rw [bind_ok ran, Prog.free_ok leftLive]
  · intro leaf member
    rw [kept leaf member]
    exact linked.areLeaves leaf member
  · intro leaf member
    exact (owns leaf (List.mem_cons_of_mem _ member)).congr (kept leaf member)
  · intro record
    rw [drops.live, holding.live, List.flatMap_cons, List.mem_append]
    constructor
    · rintro ⟨own | other, outside⟩
      · exact absurd own outside
      · exact other
    · intro other
      exact ⟨Or.inr other, fun own => apart record own record other rfl⟩
  · rw [Heap.get?_erase leftLive, if_pos rfl]

end BP

namespace BPDram

open BP

/-- The base case of `recursive_free`. -/
def freeLeaf (leaf : Ptr) : Frees Unit := do
  linking.unlink leaf
  freeRecords leaf (BP_MAX_CHILDREN + 1) 0
  Prog.free leaf

/-- `recursive_free`. -/
def recursiveFree : (fuel : Nat) → Ptr → Frees Unit := branching.recursiveFree freeLeaf

/-- `destroy`. -/
def destroy : Frees Unit := do
  check
  let root ← Prog.getRoot
  let depthBound ← Prog.heapSize
  recursiveFree depthBound root
  Prog.setRoot null

/-- Freeing a leaf keeps the others linked, with their records. -/
theorem freesLeaves (owned : Ptr → List Ptr) : branching.FreesLeaves freeLeaf (Holding owned) where
  leaf := by
    intro memory address rest node holding live isLeaf
    obtain ⟨heap, unlinked, linked, kept, owns⟩ := holding.unlink
    obtain ⟨after, freed, left, root, clears⟩ := holding.freeRecords linked owns
    refine ⟨after, ?_, left, root, kept.trans clears⟩
    rw [freeLeaf, bind_ok unlinked, freed]
  inner := by
    intro memory address leaves node holding live isInner
    refine ⟨holding.linked.inner live isInner, ?_, holding.distinct, holding.live⟩
    intro leaf member
    apply (holding.owns leaf member).congr
    obtain ⟨other, otherLive, isLeaf⟩ := holding.linked.areLeaves leaf member
    have different : leaf ≠ address := by
      rintro rfl
      obtain rfl := Option.some.inj (live.symm.trans otherLive)
      rw [isLeaf] at isInner
      cases isInner
    rw [Heap.get?_erase live, if_neg different]

/-! ### Reachable trees -/

section Reachable

variable {owners : List Key} {entries : List (Key × Value)} {store : BPlusTreeDram}
  {memory : Store Node (Heap Record)}

/-- What the first pointers of a node lead to. -/
def recordsAt (heap : Heap Node) (address : Ptr) : List Ptr :=
  match heap.get? address with
  | none => []
  | some node => (List.range node.nk).filterMap fun index =>
      (node.pointers.at? index).map Pointer.address

theorem filterMap_range {α β : Type} {read : Nat → Option α} {items : List β} {view : β → α}
    (same : ∀ index item, items[index]? = some item → read index = some (view item)) :
    (List.range items.length).filterMap read = items.map view := by
  induction items using List.reverseRecOn with
  | nil => rfl
  | append_singleton front last inductionHypothesis =>
      have before : ∀ index item, front[index]? = some item → read index = some (view item) := by
        intro index item found
        apply same index item
        rw [List.getElem?_append_left (List.getElem?_eq_some_iff.mp found).1, found]
      have atEnd : read front.length = some (view last) := same front.length last (by simp)
      rw [List.length_append, List.length_singleton, List.range_succ, List.filterMap_append,
        inductionHypothesis before, List.map_append, List.filterMap_cons, atEnd]
      rfl

/-- The memory branches as the tree it shows. -/
theorem branches_of_shown {recordOf : Key → Ptr} :
    ∀ {depth low : Nat} {tree : Trees.PtrTree Key depth}, Shown memory recordOf tree →
      Shape BPlusTreeDram.kind.scheme low tree → branching.Branches memory.heap tree
  | 0, _, leaf, shown, _ => by
      obtain ⟨node, live, isLeaf, _⟩ := shown
      exact ⟨node, live, isLeaf⟩
  | depth + 1, low, tree, shown, shape => by
      obtain ⟨⟨node, live, inner, nk, _, children⟩, below⟩ := shown
      obtain ⟨⟨_, full⟩, count, shapes⟩ := shape
      refine ⟨⟨node, live, inner, ?_, ?_, ?_⟩, ?_⟩
      · rw [count, ← nk]
        rfl
      · rw [count]
        exact Nat.succ_le_succ full
      · intro index child found
        have pointer : childAt node index = .ok (label child) := by
          rw [childAt, except_bind_ok (CArray.get_ok (children index child found))]
          rfl
        exact pointer
      · exact fun child member => branches_of_shown (below child member) (shapes child member)

/-- A leaf of a tree that the memory shows points to the records of its keys. -/
theorem recordsAt_of_shown {recordOf : Key → Ptr} {leaf : BPlusTreeDram.PtrLeaf} :
    ∀ {depth : Nat} {tree : Trees.PtrTree Key depth}, Shown memory recordOf tree → leaf ∈ leaves tree →
      recordsAt memory.heap leaf.label = leaf.entries.map (fun entry => recordOf entry.1) ∧
      Owns memory.heap leaf.label (leaf.entries.map fun entry => recordOf entry.1)
  | 0, tree, shown, member => by
      obtain rfl := List.mem_singleton.mp member
      obtain ⟨node, live, _, nk, slots⟩ := shown
      have pointers : ∀ index entry, leaf.entries[index]? = some entry →
          node.pointers.at? index = some (.record (recordOf entry.1)) :=
        fun index entry found => (slots index entry found).2.1
      constructor
      · rw [recordsAt, live]
        dsimp only
        rw [nk]
        apply filterMap_range
        intro index entry found
        rw [pointers index entry found]
        rfl
      · refine ⟨node, live, by rw [nk, List.length_map], ?_⟩
        intro index record found
        rw [List.getElem?_map] at found
        obtain ⟨entry, isEntry, rfl⟩ := Option.map_eq_some_iff.mp found
        exact pointers index entry isEntry
  | depth + 1, tree, shown, member => by
      obtain ⟨child, childMember, inChild⟩ := List.mem_flatMap.mp member
      exact recordsAt_of_shown (shown.2 child childMember) inChild

/-- The records of different keys are different. -/
theorem recordOf_inj {key other : Key} (member : key ∈ owners) (otherMember : other ∈ owners)
    (same : recordOf owners key = recordOf owners other) : key = other := by
  have owned := ownedBy_recordOf member
  rw [same] at owned
  exact owned.key_eq (ownedBy_recordOf otherMember) |>.symm

/-- The leaves of a reachable tree hold all records. -/
theorem holding_of_stands (stands : Stands owners memory.aux store memory)
    (ledger : Ledger owners entries memory.aux) {depth : Nat} {tree : Trees.PtrTree Key depth}
    (stores : Trees.Stores BPlusTreeDram.kind BPlusTreeDram.chain store tree)
    (contentsEq : contents BPlusTreeDram.kind.scheme tree = entries) :
    Holding (recordsAt memory.heap) (leafLabels tree) memory ∧ branching.Branches memory.heap tree := by
  have leavesEq : (leaves tree).flatMap Leaf.entries = entries :=
    (contents_bplus stores.valid.shape).symm.trans contentsEq
  have structured := BPlusTreeDram.structured stores
  have stored : ∀ leaf ∈ leaves tree, ∀ pair ∈ leaf.entries, entries.lookup pair.1 = some pair.2 := by
    intro leaf member pair inLeaf
    rw [← leavesEq]
    exact lookup_of_mem structured.stored (List.mem_flatMap.mpr ⟨leaf, member, inLeaf⟩)
  have shown := shown_of_stands stands ledger structured.nodes stored
  have branches := branches_of_shown shown structured.fill
  have recordsEq : (leafLabels tree).flatMap (recordsAt memory.heap) =
      entries.map fun entry => recordOf owners entry.1 := by
    rw [← leavesEq, leafLabels, List.flatMap_map, List.map_flatMap]
    apply List.flatMap_congr
    intro leaf member
    exact (recordsAt_of_shown shown member).1
  have owner : ∀ entry ∈ entries, entry.1 ∈ owners := by
    intro entry member
    rw [← leavesEq] at member
    obtain ⟨leaf, leafMember, inLeaf⟩ := List.mem_flatMap.mp member
    exact ledger.complete (stored leaf leafMember entry inLeaf)
  refine ⟨⟨⟨⟨?_, chained_of_stands stands structured.chained⟩, ?_⟩, ?_, ?_, ?_⟩, branches⟩
  · have distinct := stores.holds.chained.1
    rwa [List.nil_append, List.append_nil] at distinct
  · intro address member
    exact branches.leaf_of_mem member
  · intro address member
    obtain ⟨leaf, leafMember, rfl⟩ := List.mem_map.mp member
    have both := recordsAt_of_shown shown leafMember
    rw [both.1]
    exact both.2
  · have sorted : Sorted entries := leavesEq ▸ structured.stored
    rw [recordsEq, List.Nodup, List.pairwise_map]
    apply sorted.imp_of_mem
    intro first second firstMember secondMember below same
    exact below.ne (recordOf_inj (owner first firstMember) (owner second secondMember) same)
  · intro record
    rw [recordsEq, List.mem_map]
    constructor
    · rintro ⟨object, live⟩
      obtain ⟨positive, inside⟩ := Heap.bounds_of_get? live
      rw [ledger.level] at inside
      obtain ⟨index, rfl⟩ := Nat.exists_eq_succ_of_ne_zero (Nat.ne_of_gt positive)
      have owned : OwnedBy owners (index + 1) owners[index] := ⟨index, rfl, List.getElem?_eq_getElem inside⟩
      obtain ⟨_, value, _, _, found⟩ := ledger.values owned
      exact ⟨_, mem_of_lookup_eq_some found, (owned.eq_recordOf ledger.distinct).symm⟩
    · rintro ⟨entry, member, rfl⟩
      obtain ⟨object, _, live, _⟩ := ledger.values (ownedBy_recordOf (owner entry member))
      exact ⟨object, live⟩

/-- A reachable tree is torn down, with its records. -/
theorem destroy_ok (stands : Stands owners memory.aux store memory)
    (ledger : Ledger owners entries memory.aux) {depth : Nat} {tree : Trees.PtrTree Key depth}
    (stores : Trees.Stores BPlusTreeDram.kind BPlusTreeDram.chain store tree)
    (contentsEq : contents BPlusTreeDram.kind.scheme tree = entries) (whole : Trees.Whole store tree) :
    ∃ ended, destroy memory = .ok ((), ended) ∧ ended.root = null ∧
      (∀ address, ¬ ended.heap.Live address) ∧ ∀ record, ¬ ended.aux.Live record := by
  obtain ⟨holding, branches⟩ := holding_of_stands stands ledger stores contentsEq
  rw [← List.append_nil (leafLabels tree)] at holding
  have deep : depth < memory.heap.size := by
    rw [stands.heap.size]
    exact stores.depth_lt_size
  obtain ⟨after, ran, nothing, _, clears⟩ := Branching.recursiveFree_ok (freesLeaves _) deep branches
    stores.holds.nodup holding
  have rootEq : memory.root = label tree := stands.root.trans stores.root
  have rooted : memory.root ≠ null := by
    rw [stands.root]
    exact stores.root_ne_null
  refine ⟨{ after with root := null }, ?_, rfl, ?_, ?_⟩
  · rw [destroy, bind_ok (check_ok rooted), bind_ok (Prog.getRoot_ok _), bind_ok (Prog.heapSize_ok _),
      recursiveFree, rootEq, bind_ok ran]
    rfl
  · apply clears.not_live
    rintro address ⟨node, live⟩
    apply whole.mem_of_bounds stores.holds
    rw [← stands.heap.size]
    exact Heap.bounds_of_get? live
  · intro record live
    cases (nothing.live record).mp live

end Reachable

/-- Behind every workload that begins with an insert, `destroy` of `BPlusTreeDram` and of `BPDram` runs to
its end: no object is freed twice, read or written after it was freed.  No node and no record is left. -/
theorem bplusTrees_torn_down (garbage : Ptr → Node) (garbageRecord : Ptr → Record) (key : Key)
    (value : Value) (calls : List RangeCall) :
    (∃ answers store ended,
      serve BPlusTreeDram.rangeBackend.step (.insert key value :: calls) BPlusTreeDram.init =
        .ok (answers, store) ∧
      BPlusTreeDram.destroy store = .ok ((), ended) ∧ ended.root = null ∧
      ∀ address, ¬ ended.heap.Live address) ∧
    ∃ answers state ended,
      serve (rangeBackend (BPDram.pool garbage garbageRecord)).step (.insert key value :: calls) init =
        .ok (answers, state) ∧
      destroy (memory state) = .ok ((), ended) ∧ ended.root = null ∧
      (∀ address, ¬ ended.heap.Live address) ∧ ∀ record, ¬ ended.aux.Live record := by
  obtain ⟨answers, store, served, depth, tree, stores, whole⟩ :=
    BPlusTreeDram.serve_whole key value calls
  constructor
  · obtain ⟨ended, ran, rootless, nothing⟩ := BPlusTreeDram.destroy_ok stores whole
    exact ⟨answers, store, ended, served, ran, rootless, nothing⟩
  · obtain ⟨_, after, state, servedFirst, servedThere, beside⟩ := serve_beside garbage garbageRecord key value calls
    obtain rfl : after = store := by
      cases servedFirst.symm.trans served
      rfl
    obtain ⟨entries, ⟨height, other, storesOther, contentsEq⟩, stands, ledger⟩ := beside
    have sameContents := stores.contents_eq BPlusTreeDram.implements.searches storesOther
    obtain ⟨ended, ran, rootless, nodes, records⟩ :=
      destroy_ok stands ledger stores (sameContents.trans contentsEq) whole
    exact ⟨_, state, ended, servedThere, ran, rootless, nodes, records⟩

end BPDram

end StoredsBench
