/-
Module: StoredsBench.BPlusTree.Correctness
Layer: Correctness
Purpose: `BPlusTreeDram` is a finite map, its range scan is exact, and every state inserts can reach
  is a B+-tree of minimum degree 9 whose leaves form a doubly linked list.
Trusted boundary: none
Main exports: bplustreeDram_finite_map, bplustreeDram_scan, Structured, bplustreeDram_structure
-/
import StoredsBench.BPlusTree.Scan

namespace StoredsBench.BPlusTreeDram

open Lib Lib.Multiway Lib.SortedAssoc Trees

/-- On a tree with a root, `read` is a search from there. -/
theorem read_eq (key : Key) {store : BPlusTreeDram} (rooted : store.root ≠ null) :
    read key store = search store.heap.size store.root key store := by
  rw [read, bind_ok (check_ok rooted),
    bind_ok (Prog.getRoot_ok store),
    bind_ok (Prog.heapSize_ok store)]

theorem serves : Serves splitNode search updateIfFound Links.null backend where
  insert := fun _ _ _ => rfl
  read := fun key store rooted => by
    simp only [backend, read_eq key rooted]
    rfl

/-- A non-empty sequence of inserts runs to its end and stores the map it describes. -/
theorem insertAll_stores (first : Key × Value) (rest : List (Key × Value)) :
    ∃ store, backend.insertAll (first :: rest) init = .ok store ∧
      ∃ (depth : Nat) (tree : PtrTree Key depth), Stores kind chain store tree ∧
        contents kind.scheme tree = upsertAll (first :: rest) [] := by
  obtain ⟨next, firstRan, shown⟩ :=
    implements.insert_first serves (show init.root = null from rfl) first.1 first.2
  exact (implements.represents serves).insertAll_from_first firstRan shown rest

/-- Every sequence of inserts and reads that begins with an insert runs to its end, and each read
returns the value of the most recent insert for its key; an insert never changes what another key
reads. -/
theorem bplustreeDram_finite_map (key : Key) (value : Value) (calls : List Call) :
    ∃ store, backend.run (.insert key value :: calls) init =
        .ok (answers (.insert key value :: calls), store) ∧
      backend.MapAfter (.insert key value :: calls) store := by
  obtain ⟨next, first, shown⟩ :=
    implements.insert_first serves (show init.root = null from rfl) key value
  exact (implements.represents serves).run_from_first first shown calls

/-! ### Scanning -/

/-- After any non-empty sequence of inserts, `scan` delivers the stored entries with keys from `key`
on in ascending order, `len` of them or as many as there are.  The stored entries are those of the
last inserts. -/
theorem bplustreeDram_scan (first : Key × Value) (rest : List (Key × Value)) (key : Key) (len : Int)
    (positive : 1 ≤ len) :
    ∃ store stored result, backend.insertAll (first :: rest) init = .ok store ∧
      stored = upsertAll (first :: rest) [] ∧ Sorted stored ∧
      (∀ other, stored.lookup other =
        lastInsert other ((first :: rest).map fun pair => .insert pair.1 pair.2)) ∧
      scan key len store = .ok (result, store) ∧
      result = (stored.filter fun entry => key ≤ entry.1).take len.toNat ∧
      Sorted result ∧
      result.length = min len.toNat (stored.filter fun entry => key ≤ entry.1).length := by
  obtain ⟨store, ran, depth, tree, stores, contentsEq⟩ := insertAll_stores first rest
  have sorted := sorted_upsertAll (first :: rest)
  have scanned := scan_ok stores key positive
  rw [contentsEq, fromKey_eq_filter sorted] at scanned
  exact ⟨store, _, _, ran, rfl, sorted, fun other => lookup_upsertAll other (first :: rest), scanned,
    rfl, sorted.sublist ((List.take_sublist _ _).trans List.filter_sublist), List.length_take⟩

/-- Two entries from key 4 on, after four inserts of three keys in no particular order. -/
theorem bplustreeDram_scan_from_four :
    ∃ old new : Value, old ≠ new ∧ (1 : Int) ≤ 2 ∧
      ∃ store, backend.insertAll [(9, old), (3, new), (5, new), (9, new)] init = .ok store ∧
        scan 4 2 store = .ok ([(5, new), (9, new)], store) := by
  refine ⟨⟨[97], by decide, by decide⟩, ⟨[98], by decide, by decide⟩, by decide, by decide, ?_⟩
  obtain ⟨store, stored, result, ran, storedEq, _, _, scanned, resultEq, _⟩ :=
    bplustreeDram_scan (9, ⟨[97], by decide, by decide⟩) [(3, ⟨[98], by decide, by decide⟩),
      (5, ⟨[98], by decide, by decide⟩), (9, ⟨[98], by decide, by decide⟩)] 4 2 (by decide)
  rw [resultEq, storedEq] at scanned
  exact ⟨store, ran, scanned⟩

/-! ### Structure -/

/-- The keys at all nodes of a tree, separators included. -/
def keysOf {depth : Nat} (tree : PtrTree Key depth) : List Key :=
  (trace tree).map (markKey kind.scheme)

/-- The keys of every node ascend strictly, and those below a child are at least the separator to
its left and below the separator to its right. -/
def Separated : {depth : Nat} → PtrTree Key depth → Prop
  | 0, leaf => leaf.entries.Pairwise fun a b => a.1 < b.1
  | _ + 1, node =>
      node.items.Pairwise (· < ·) ∧
        (∀ index separator, node.items[index]? = some separator →
          (∀ child, node.children[index]? = some child → ∀ key ∈ keysOf child, key < separator) ∧
          ∀ child, node.children[index + 1]? = some child → ∀ key ∈ keysOf child, separator ≤ key) ∧
        ∀ child ∈ node.children, Separated child

theorem separated_of_ordered : ∀ {depth low : Nat} {tree : PtrTree Key depth},
    Shape kind.scheme low tree → Ordered kind.scheme (trace tree) → Separated tree
  | 0, _, leaf, _, ordered => (List.pairwise_map.mp ordered).imp position_entry_lt_iff.mp
  | depth + 1, low, node, shape, ordered => by
      refine ⟨shape.items_ascending ordered, fun index separator found => ?_, fun child member => ?_⟩
      · obtain ⟨leftOf, rightOf⟩ := shape.between ordered found
        refine ⟨fun child childAt key member => ?_, fun child childAt key member => ?_⟩
        · obtain ⟨mark, inChild, rfl⟩ := List.mem_map.mp member
          exact markKey_lt_of_position_lt (leftOf child childAt mark inChild)
        · obtain ⟨mark, inChild, rfl⟩ := List.mem_map.mp member
          exact markKey_le_of_position_lt (rightOf child childAt mark inChild)
      · exact separated_of_ordered (shape.2.2 child member) (shape.ordered_of_mem ordered member)

/-- The heap holds a B+-tree with linked leaves. -/
structure Structured (store : BPlusTreeDram) {depth : Nat} (tree : PtrTree Key depth) : Prop where
  root : store.root = label tree
  /-- Every node shows its part of the tree: its kind, its keys, and in an inner node one written
  child pointer more than keys. -/
  nodes : Rep kind store.heap tree
  distinct : (labels tree).Nodup
  /-- At most `2 * BPLUSTREE_MIN_DEGREE - 1` keys in every node, at least
  `BPLUSTREE_MIN_DEGREE - 1` below the root. -/
  fill : Shape kind.scheme 1 tree
  separated : Separated tree
  anchored : ∀ separator, .inl separator ∈ trace tree →
    ∃ leaf ∈ leaves tree, ∃ entry ∈ leaf.entries, entry.1 = separator
  /-- From the leftmost leaf on, `next` and `previous` run through all leaves in order. -/
  chained : Chain (nextOf (linksAt store.heap)) (previousOf (linksAt store.heap)) null
    (leafLabels tree)
  /-- No key is stored twice. -/
  stored : Sorted ((leaves tree).flatMap Leaf.entries)

theorem structured {store : BPlusTreeDram} {depth : Nat} {tree : PtrTree Key depth}
    (stores : Stores kind chain store tree) : Structured store tree where
  root := stores.root
  nodes := stores.holds.rep
  distinct := stores.holds.nodup
  fill := stores.valid.shape
  separated := separated_of_ordered stores.valid.shape stores.valid.ordered
  anchored := by
    intro separator member
    obtain ⟨entry, inContents, sameKey⟩ := stores.valid.anchored separator member
    rw [show entriesOf kind.scheme (trace tree) = _ from contents_bplus stores.valid.shape] at inContents
    obtain ⟨leaf, leafMember, inLeaf⟩ := List.mem_flatMap.mp inContents
    exact ⟨leaf, leafMember, entry, inLeaf, sameKey⟩
  chained := by
    have linked := stores.holds.chained.2
    rwa [List.nil_append, List.append_nil] at linked
  stored := by
    have ascending := stores.valid.contents_ascending kind.lawful
    rwa [show contents kind.scheme tree = _ from contents_bplus stores.valid.shape] at ascending

/-- In every state inserts can reach, the empty one apart, the heap holds a B+-tree with all leaves
`depth` edges below the root, linked from left to right, and its leaves hold the inserted keys. -/
theorem bplustreeDram_structure (pairs : List (Key × Value)) :
    ∃ store, backend.insertAll pairs init = .ok store ∧
      ((pairs = [] ∧ store.root = null) ∨
        ∃ (depth : Nat) (tree : PtrTree Key depth), Structured store tree ∧
          (leaves tree).flatMap Leaf.entries = upsertAll pairs []) := by
  cases pairs with
  | nil => exact ⟨init, rfl, Or.inl ⟨rfl, rfl⟩⟩
  | cons first rest =>
      obtain ⟨store, ran, depth, tree, stores, contentsEq⟩ := insertAll_stores first rest
      refine ⟨store, ran, Or.inr ⟨depth, tree, structured stores, ?_⟩⟩
      rwa [show contents kind.scheme tree = _ from contents_bplus stores.valid.shape] at contentsEq

end StoredsBench.BPlusTreeDram
