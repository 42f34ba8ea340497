/-
Module: StoredsBench.Trees.Recovery
Layer: Correctness
Purpose: What it means for a call on a persistent tree to be failure-atomic: a crash leaves the nodes of a
  search tree with the old entries or with the new ones.
Trusted boundary: none
Main exports: SearchTree, HoldsEntries, InsertAtomic, not_holdsEntries_of_dangling,
  HoldsEntries.length_eq
-/
import StoredsBench.Trees.Effects
import StoredsBench.Trees.PmemMap

namespace StoredsBench.Trees

open Lib Lib.Multiway Lib.SortedAssoc

variable {t : Nat} {X I : Type}

/-- The nodes at and below the root are those of a search tree with these entries, whose leaves are
chained. -/
structure SearchTree (kind : Kind t I) (chain : LeafChain X) (store : Store (Node t X) Unit)
    (entries : List (Key × Value)) {depth : Nat} (tree : PtrTree I depth) (low : Nat) : Prop where
  root : store.root = label tree
  holds : Holds kind chain store [] [] tree
  shape : Shape kind.scheme low tree
  ordered : Ordered kind.scheme (trace tree)
  entries : contents kind.scheme tree = entries

def HoldsEntries (kind : Kind t I) (chain : LeafChain X) (entries : List (Key × Value))
    (store : Store (Node t X) Unit) : Prop :=
  ∃ (depth : Nat) (tree : PtrTree I depth) (low : Nat), SearchTree kind chain store entries tree low

/-- On durable memory the call is failure-atomic: a crash within it leaves the old entries or the new
ones, and a crash behind it the new ones. -/
def InsertAtomic (kind : Kind t I) (chain : LeafChain X) (store final : PmemTree t X)
    (old new : List (Key × Value)) : Prop :=
  ∃ call, final.aux.trail = store.aux.trail ++ call ∧
    FailureAtomic readTree (memory store) [] call (HoldsEntries kind chain old)
      (HoldsEntries kind chain new)

/-! ### Trees that memories hold -/

section Holding

variable {kind : Kind t I} {chain : LeafChain X} {blank : X} {store recovered : Store (Node t X) Unit}
  {pmem : PmemTree t X} {entries : List (Key × Value)}

theorem HoldsEntries.of_readTree (holds : HoldsEntries kind chain entries store)
    (same : readTree recovered = readTree store) : HoldsEntries kind chain entries recovered := by
  obtain ⟨depth, tree, low, searchTree⟩ := holds
  have nodes := get?_of_readTree same
  refine ⟨depth, tree, low, (root_of_readTree same).trans searchTree.root, ?_, searchTree.shape,
    searchTree.ordered, searchTree.entries⟩
  constructor
  · apply searchTree.holds.rep.congr
    intro address _
    rw [bodyAt, bodyAt, nodes]
  · exact searchTree.holds.nodup
  · apply chain.stable _ searchTree.holds.chained
    intro address links found
    rw [linksAt, nodes]
    exact found

theorem Stores.holdsEntries {depth : Nat} {tree : PtrTree I depth} (stores : Stores kind chain store tree) :
    HoldsEntries kind chain (contents kind.scheme tree) store :=
  ⟨depth, tree, 1, stores.root, stores.holds, stores.valid.shape, stores.valid.ordered, rfl⟩

/-- What a pool shows it holds. -/
theorem ShowsEntries.holdsEntries (solid : kind.Solid)
    (single : ∀ (links : Nat → Option X) (address : Nat), links address = some blank →
      chain.holds links [address])
    (shows : ShowsEntries kind chain blank pmem entries) :
    HoldsEntries kind chain entries (memory pmem) := by
  obtain ⟨store, mirrors, ⟨heap, rfl, rfl⟩ | ⟨depth, tree, stores, rfl⟩⟩ := shows
  · obtain ⟨node, live, filled⟩ := mirrors.heap.live (leafStore_live heap blank)
    refine ⟨0, mkLeaf (heap.size + 1) [], 0, mirrors.root, ⟨?_, ?_, ?_⟩, ⟨Nat.le_refl 0, Nat.zero_le _⟩,
      List.Pairwise.nil, rfl⟩
    · refine ⟨node.body, ?_, filled.isLeaf, filled.nk, CArray.Prefix.nil⟩
      exact congrArg (Option.map Node.body) live
    · simp [labels]
    · apply single
      rw [linksAt, live, Option.map_some, filled.links]
      rfl
  · exact (stores.filled solid mirrors).holdsEntries

end Holding

/-! ### What the root tells -/

section Roots

variable {kind : Kind t I} {chain : LeafChain X} {entries : List (Key × Value)}
  {store : Store (Node t X) Unit} {node : Node t X}

/-- No tree has a pointer to a node that is not there. -/
theorem not_holdsEntries_of_dangling {index : Nat} {child : Ptr}
    (live : store.heap.get? store.root = some node) (inner : node.isLeaf = false) (within : index ≤ node.nk)
    (pointer : node.children.at? index = some child) (dangling : store.heap.get? child = none) :
    ¬ HoldsEntries kind chain entries store := by
  rintro ⟨depth, tree, low, searchTree⟩
  obtain ⟨root, rootLive, shows⟩ := searchTree.holds.rep.root
  rw [← searchTree.root, live] at rootLive
  cases rootLive
  cases depth with
  | zero =>
      have isLeaf : node.isLeaf = true := shows.1
      rw [inner] at isLeaf
      cases isLeaf
  | succ depth =>
      have nk : node.nk = tree.items.length := shows.2.1
      have counted : tree.children.length = tree.items.length + 1 := searchTree.shape.2.1
      have bound : index < tree.children.length := by omega
      obtain ⟨written, found, viewed⟩ := shows.2.2.2 index (label tree.children[index]) (by simp [bound])
      have found : node.children.at? index = some written := found
      rw [pointer] at found
      cases found
      obtain rfl : child = label tree.children[index] := Option.some.inj viewed
      obtain ⟨there, thereLive, _⟩ := (searchTree.holds.rep.2 _ (List.getElem_mem bound)).root
      rw [dangling] at thereLive
      cases thereLive

/-- A root that is a leaf counts the entries. -/
theorem HoldsEntries.length_eq (holds : HoldsEntries kind chain entries store)
    (live : store.heap.get? store.root = some node) (isLeaf : node.isLeaf = true) :
    entries.length = node.nk := by
  obtain ⟨depth, tree, low, searchTree⟩ := holds
  obtain ⟨root, rootLive, shows⟩ := searchTree.holds.rep.root
  rw [← searchTree.root, live] at rootLive
  cases rootLive
  cases depth with
  | zero =>
      have contentsEq : contents kind.scheme tree = tree.entries := entriesOf_entries tree.entries
      have nk : node.nk = tree.entries.length := shows.2.1
      rw [nk, ← contentsEq, searchTree.entries]
  | succ depth =>
      have inner : node.isLeaf = false := shows.1
      rw [isLeaf] at inner
      cases inner

theorem HoldsEntries.rooted (holds : HoldsEntries kind chain entries store) :
    ∃ root, store.heap.get? store.root = some root := by
  obtain ⟨depth, tree, low, searchTree⟩ := holds
  obtain ⟨node, live, _⟩ := searchTree.holds.rep.root
  rw [← searchTree.root] at live
  exact ⟨node, live⟩

/-- The way an inner root leads to a key. -/
theorem HoldsEntries.way (holds : HoldsEntries kind chain entries store)
    (live : store.heap.get? store.root = some root) (inner : root.isLeaf = false) (key : Key) :
    ∃ index child childContents,
      root.entries.scanDown (fun entry => decide (key < entry.key)) root.nk = .ok index ∧
      index ≤ root.nk ∧ root.children.get index = .ok child ∧
      store.heap.get? child = some childContents ∧ store.root ≠ child := by
  obtain ⟨depth, tree, low, searchTree⟩ := holds
  obtain ⟨node, nodeLive, shows⟩ := searchTree.holds.rep.root
  rw [← searchTree.root, live] at nodeLive
  cases nodeLive
  cases depth with
  | zero =>
      have isLeaf : root.isLeaf = true := shows.1
      rw [inner] at isLeaf
      cases isLeaf
  | succ depth =>
      have nk : root.nk = tree.items.length := shows.2.1
      have counted : tree.children.length = tree.items.length + 1 := searchTree.shape.2.1
      have searched := descent_index shows key
      have within := upperIndex_le kind.scheme.itemKey key tree.items
      generalize upperIndex kind.scheme.itemKey key tree.items = index at searched within
      have bound : index < tree.children.length := by omega
      have member : tree.children[index] ∈ tree.children := List.getElem_mem bound
      obtain ⟨written, found, viewed⟩ := shows.2.2.2 index (label tree.children[index]) (by simp [bound])
      obtain rfl : written = label tree.children[index] := Option.some.inj viewed
      obtain ⟨childContents, childLive, _⟩ := (searchTree.holds.rep.2 _ member).root
      refine ⟨index, label tree.children[index], childContents, searched, nk ▸ within, CArray.get_ok found,
        childLive, ?_⟩
      rw [searchTree.root]
      intro same
      apply (List.nodup_cons.mp searchTree.holds.nodup).1
      rw [show tree.label = label tree from rfl, same]
      exact List.mem_flatMap.mpr ⟨_, member, label_mem_labels _⟩

end Roots

end StoredsBench.Trees
