/-
Module: StoredsBench.BPlusTreeMemOpt.Calls
Layer: Refinement
Purpose: Whole calls of the B+-tree with values in records beside those of `BPlusTreeDram`: inserts,
  reads and range scans deliver the same, the nodes keep standing for each other, and the ledger
  lists the keys in the order of their first insertion.
Trusted boundary: none
Main exports: BP.keepsRecords, BP.Companions, BP.searchFromRoot_reads, BP.scanFromRoot_scans
-/
import StoredsBench.BPlusTreeMemOpt.Insertion
import StoredsBench.Trees.PmemMap

namespace StoredsBench.BP

open Lib Lib.Multiway Lib.SortedAssoc MemOpt
open BPlusTreeDram (Links)

variable {owners : List Key} {entries : List (Key × Value)} {store : BPlusTreeDram} {state : State}

/-! ### Inserts and reads -/

/-- `update_if_found` descends exactly as `search` does and overwrites what it finds. -/
theorem updateIfFound_eq (pool : Pool Node Record) (key : Key) (value : Value) :
    ∀ (fuel : Nat) (current : Ptr), updateIfFound pool fuel current key value =
      onMemory (search fuel current key) >>= pool.overwriteFound value
  | 0, _ => rfl
  | fuel + 1, current => by
      rw [updateIfFound, search, onMemory_bind, onMemory_load, bind_assoc]
      refine bind_congr fun contents => ?_
      rw [onMemory_bind, onMemory_lift, bind_assoc]
      refine bind_congr fun index => ?_
      rw [onMemory_bind, onMemory_lift, bind_assoc]
      refine bind_congr fun found => ?_
      cases contents.isLeaf with
      | true =>
          cases found with
          | false => rfl
          | true =>
              simp only [if_true]
              rw [onMemory_bind, onMemory_lift, bind_assoc]
              exact bind_congr fun record => rfl
      | false =>
          simp only [Bool.false_eq_true, if_false]
          rw [onMemory_bind, onMemory_lift, bind_assoc]
          exact bind_congr fun child => updateIfFound_eq pool key value fuel child

theorem keepsRecords (pool : Pool Node Record) :
    KeepsRecords NodeStands pool BPlusTreeDram.splitNode BPlusTreeDram.search Links.null search
      (updateIfFound pool) (insertNew pool) (insertBelowRoot pool)
      fun records _ value => newRecord pool records value where
  ignores := by
    intro owners node other index value placed stands ran
    obtain ⟨entry, readRan, setRan⟩ := except_bind_inv ran
    exact
      { isLeaf := stands.isLeaf
        nk := stands.nk
        next := stands.next
        previous := stands.previous
        keys := stands.keys.rewrite readRan setRan fun _ same => same
        records := fun leaf => (stands.records leaf).rewrite readRan setRan fun _ points => points
        children := stands.children }
  searches := fun _ fuel current key => search_stands key fuel current
  updates := fun fuel current key value => updateIfFound_eq pool key value fuel current
  inserts := fun _ level depthBound root key value =>
    insertNew_stands pool depthBound root key value level
  calls := fun _ _ => rfl
  tagged := fun _ _ _ => trivial
  written := fun _ _ value => CharArray.string?_copyString _ value

/-- A `BPlusTreeDram`, a tree with records that stands for it, and the keys of the records. -/
abbrev Companions (owners : List Key) (entries : List (Key × Value)) (store : BPlusTreeDram)
    (state : State) : Prop :=
  MemOpt.Companions BPlusTreeDram.kind BPlusTreeDram.chain NodeStands owners entries store state

/-- A search from the root leads to the value of the map. -/
theorem searchFromRoot_reads (pool : Pool Node Record)
    (companions : Companions owners entries store state) (key : Key) :
    ∃ found after, searchFromRoot key (memory state) = .ok (found, after) ∧
      stringAt after found = .ok (entries.lookup key) := by
  obtain ⟨found, after, ran, denotes⟩ :=
    companions.reads BPlusTreeDram.implements (keepsRecords pool) key
  refine ⟨found, after, ?_, denotes⟩
  rw [searchFromRoot, bind_ok (Prog.getRoot_ok _), bind_ok (Prog.heapSize_ok _), ran]

/-! ### Scans -/

/-- The loop over one leaf, all of whose entries are stored. -/
theorem scanLeaf_stands {contents : Trees.Node BPLUSTREE_MIN_DEGREE Links} {there : Node}
    {memory : Store Node (Heap Record)} (stands : NodeStands owners contents there)
    (leaf : contents.isLeaf = true) (ledger : Ledger owners entries memory.aux)
    {items : List (Key × Value)} (shown : CArray.Prefix Trees.viewEntry contents.entries items)
    (stored : ∀ pair ∈ items, entries.lookup pair.1 = some pair.2) (len : Int) :
    ∀ (remaining index : Nat) (count : Int) (result : List (Key × Value))
      (outcome : List (Key × Value) × Int × Bool), index + remaining ≤ items.length →
      BPlusTreeDram.scanLeaf contents.entries len remaining index count result = .ok outcome →
      scanLeaf there len remaining index count result memory = .ok (outcome, memory)
  | 0, index, count, result, outcome, _, ran => by
      cases ran
      rfl
  | remaining + 1, index, count, result, outcome, bound, ran => by
      have inside : index < items.length := by omega
      obtain ⟨entry, written, viewed⟩ := shown index items[index] (List.getElem?_eq_getElem inside)
      obtain ⟨value, read, pairEq⟩ := Option.map_eq_some_iff.mp viewed
      obtain ⟨record, recordRead, owned⟩ := recordAt_stands stands leaf (CArray.get_ok written)
      obtain ⟨other, found, readThere⟩ := ledger.valueOf_ok owned
      have valueEq : other = value := by
        have isStored := stored items[index] (List.getElem_mem inside)
        rw [← pairEq, found] at isStored
        exact Option.some.inj isStored
      subst valueEq
      rw [BPlusTreeDram.scanLeaf, except_bind_ok (CArray.get_ok written)] at ran
      simp only [read] at ran
      rw [scanLeaf, bind_ok (Prog.lift_ok (get_key_stands stands.keys (CArray.get_ok written)) memory),
        bind_ok (Prog.lift_ok recordRead memory), bind_ok readThere]
      split
      · rename_i last
        rw [if_pos last] at ran
        cases ran
        rfl
      · rename_i more
        rw [if_neg more] at ran
        exact scanLeaf_stands stands leaf ledger shown stored len remaining _ _ _ _ (by omega) ran

open BPlusTreeDram (PtrLeaf nextOf previousOf kind chain)

/-- The walk through leaves all of whose entries are stored. -/
theorem scanChain_stands {memory : Store Node (Heap Record)} (stands : Stands owners memory.aux store memory)
    (ledger : Ledger owners entries memory.aux) (len : Int) :
    ∀ (remaining : List PtrLeaf) (fuel index origin : Nat) (count : Int)
      (result found : List (Key × Value)),
      (∀ leaf ∈ remaining,
        Trees.Rep kind store.heap (mkLeaf leaf.label leaf.entries : Trees.PtrTree Key 0)) →
      (∀ leaf ∈ remaining, ∀ pair ∈ leaf.entries, entries.lookup pair.1 = some pair.2) →
      Chain (nextOf (Trees.linksAt store.heap)) (previousOf (Trees.linksAt store.heap)) origin
        (remaining.map Leaf.label) →
      (∀ leaf ∈ remaining.head?, index ≤ leaf.entries.length) →
      BPlusTreeDram.scanChain len fuel ((remaining.map Leaf.label).headD null) index count result store =
        .ok (found, store) →
      scanChain len fuel ((remaining.map Leaf.label).headD null) index count result memory =
        .ok (found, memory)
  | _, 0, _, _, _, _, _, _, _, _, _, ran => by cases ran
  | [], fuel + 1, index, origin, count, result, found, _, _, _, _, ran => by
      have same : result = found := by
        have stopped : BPlusTreeDram.scanChain len (fuel + 1) null index count result store =
            .ok (result, store) := by simp [BPlusTreeDram.scanChain]; rfl
        rw [show (([] : List PtrLeaf).map Leaf.label).headD null = null from rfl, stopped] at ran
        cases ran
        rfl
      subst same
      simp [scanChain]
      rfl
  | leaf :: remaining, fuel + 1, index, origin, count, result, found, shown, stored, linked, inside,
      ran => by
      obtain ⟨node, live, isLeaf, nk, shownEntries⟩ := (shown leaf (by simp)).root
      have live : store.heap.get? leaf.label = some node := live
      have nk : node.nk = leaf.entries.length := nk
      have isLeaf : node.isLeaf = true := isLeaf
      have shownEntries : CArray.Prefix Trees.viewEntry node.entries leaf.entries := shownEntries
      have indexInside : index ≤ leaf.entries.length := inside leaf (by simp)
      obtain ⟨there, liveThere, nodeStands⟩ := stands.heap.live live
      obtain ⟨_, forward, restLinked⟩ := linked
      have next : node.links.next = (remaining.map Leaf.label).headD null := by
        simpa [nextOf, Trees.linksAt, live] using forward
      have current : ((leaf :: remaining).map Leaf.label).headD null = leaf.label := rfl
      rw [current, BPlusTreeDram.scanChain, if_neg (Heap.ne_null_of_get? live),
        bind_ok (Prog.load_ok live)] at ran
      obtain ⟨⟨gathered, total, reached⟩, after, leafRan, ran⟩ := bind_ok_inv ran
      obtain ⟨gathers, unchanged⟩ := Prog.lift_inv leafRan
      rw [unchanged] at ran
      have leafThere := scanLeaf_stands nodeStands isLeaf ledger shownEntries
        (stored leaf List.mem_cons_self) len (node.nk - index) index count result _ (by omega) gathers
      rw [current, scanChain, if_neg (Heap.ne_null_of_get? live), bind_ok (Prog.load_ok liveThere),
        nodeStands.nk, bind_ok leafThere]
      dsimp only at ran ⊢
      split
      · rename_i stops
        rw [if_pos stops] at ran
        cases ran
        rfl
      · rename_i continues
        rw [if_neg continues, next] at ran
        rw [nodeStands.next, next]
        exact scanChain_stands stands ledger len remaining fuel 0 leaf.label total gathered found
          (fun other member => shown other (List.mem_cons_of_mem leaf member))
          (fun other member => stored other (List.mem_cons_of_mem leaf member)) restLinked
          (fun _ _ => Nat.zero_le _) ran

theorem scanFromRoot_scans (companions : Companions owners entries store state) (key : Key)
    (len : Int) :
    ∃ found final, BPlusTreeDram.scan key len store = .ok (found, store) ∧
      scanFromRoot key len (memory state) = .ok (found, final) := by
  obtain ⟨⟨depth, tree, stores, rfl⟩, stands, ledger⟩ := companions
  obtain ⟨front, leaf, back, origin, leavesEq, _, _, shown, linked, few, descended, ⟨node, live,
    located⟩, started⟩ := BPlusTreeDram.scan_start stores key
  obtain ⟨found, ran⟩ := BPlusTreeDram.scan_total stores key len
  obtain ⟨reached, final, descendedThere, sameLeaf, same⟩ := scanDescend_stands key _ _ stands descended
  have recordsEq : final.aux = (memory state).aux := same.aux
  rw [← recordsEq] at same ledger
  obtain ⟨there, liveThere, nodeStands⟩ := same.heap.live live
  have stored : ∀ other ∈ leaf :: back, ∀ pair ∈ other.entries,
      (contents kind.scheme tree).lookup pair.1 = some pair.2 := by
    intro other member pair inLeaf
    apply lookup_of_mem (stores.valid.contents_ascending kind.lawful)
    rw [show contents kind.scheme tree = _ from contents_bplus stores.valid.shape, leavesEq]
    exact List.mem_flatMap.mpr ⟨other, List.mem_append_right front member, inLeaf⟩
  refine ⟨found, final, ran, ?_⟩
  rw [started] at ran
  have walked := scanChain_stands same ledger len (leaf :: back) _ _ origin 0 [] found shown stored
    linked (fun first isFirst => by
      rw [← Option.some.inj isFirst]
      exact lowerIndex_le Prod.fst key leaf.entries) ran
  rw [BP.scanFromRoot, bind_ok (Prog.getRoot_ok _), bind_ok (Prog.heapSize_ok _), stands.root,
    stands.heap.size, bind_ok descendedThere, sameLeaf, if_neg (Heap.ne_null_of_get? live),
    bind_ok (Prog.load_ok liveThere), bind_ok (Prog.lift_ok (lowerIndexOf_stands nodeStands located) _)]
  exact walked

end StoredsBench.BP
