/-
Module: StoredsBench.Rbtree.Correctness
Layer: Correctness
Purpose: `RbtreeDram` is a finite map and stays a red-black tree, and its `fix_violation` ends;
  `RbtreePmem` builds the same trees at the same addresses.
Trusted boundary: none
Main exports: rbtreeDram_invariant, rbtreeDram_fixViolation, rbtreeDram_finite_map,
  rbtreePmem_same_tree
-/
import StoredsBench.Rbtree.Map
import StoredsBench.Rbtree.Dram
import StoredsBench.Rbtree.Pmem

namespace StoredsBench.Rbtree

open Lib Lib.RedBlack Lib.RedBlack.Tree Lib.SortedAssoc

/-- The calls of a class run the common functions wherever its check lets them. -/
structure Serves {X : Type} (rebalance : Side → Ptr → Ptr → Ptr → RbProg X Ptr)
    (backend : Backend (Store RbNode X)) (valid : X → Prop) : Prop where
  rebalances : Rebalances rebalance
  insert : ∀ key value store, valid store.aux →
    backend.insert key value store = (insert rebalance key value store).map Prod.snd
  read : ∀ key store, valid store.aux → store.root ≠ null →
    backend.read key store = (do
      let (slot, state) ← lookup (store.heap.size + 1) store.root key none store
      stringAt state slot)

namespace Serves

variable {X : Type} {rebalance : Side → Ptr → Ptr → Ptr → RbProg X Ptr}
  {backend : Backend (Store RbNode X)} {valid : X → Prop} {store : Store RbNode X} {tree : PtrTree}

theorem insert_ok (serves : Serves rebalance backend valid) (stores : Stores store tree)
    (accepted : valid store.aux) (pair : Key × Value) :
    ∃ next, backend.insert pair.1 pair.2 store = .ok next ∧ Stores next (grow tree pair) ∧
      valid next.aux := by
  obtain ⟨next, ran, aux, nextStores⟩ := insert_refines serves.rebalances stores pair.1 pair.2
  refine ⟨next, ?_, nextStores, by rwa [aux]⟩
  rw [serves.insert _ _ _ accepted, ran]
  rfl

/-- The pairs alone determine the tree a sequence of inserts builds. -/
theorem insertAll_ok (serves : Serves rebalance backend valid) (pairs : List (Key × Value))
    (stores : Stores store tree) (accepted : valid store.aux) :
    ∃ next, backend.insertAll pairs store = .ok next ∧ Stores next (pairs.foldl grow tree) := by
  induction pairs generalizing store tree with
  | nil => exact ⟨store, rfl, stores⟩
  | cons pair pairs inductionHypothesis =>
      obtain ⟨next, ran, nextStores, nextAccepted⟩ := serves.insert_ok stores accepted pair
      obtain ⟨last, restRan, lastStores⟩ := inductionHypothesis nextStores nextAccepted
      refine ⟨last, ?_, lastStores⟩
      rw [Backend.insertAll, List.foldlM_cons, ran]
      exact restRan

theorem read_ok (serves : Serves rebalance backend valid) (stores : Stores store tree)
    (accepted : valid store.aux) (nonempty : tree ≠ .leaf) (key : Key) :
    backend.read key store = .ok (tree.entries.lookup key) := by
  have rooted : store.root = rootLabel tree := stores.holds.root
  have notNull : store.root ≠ null := by
    rw [rooted]
    exact fun isNull => nonempty ((rootLabel_eq_null stores.holds.rep).mp isNull)
  have bound : tree.height < store.heap.size + 1 := by
    rw [stores.size]
    exact Nat.lt_succ_of_le (height_le_length tree)
  rw [serves.read key store accepted notNull, rooted]
  rcases lookup_ok key none stores.holds.rep stores.sorted bound with
    ⟨label, shown, ran, found, _, result⟩ | ⟨ran, result⟩
  · obtain ⟨node, live, viewed⟩ := exists_live found
    have slot : node.value.string? = some shown.entry.2 := (views_of_view viewed).value
    rw [ran, result]
    simp only [bind, Except.bind, stringAt, live, slot]
  · rw [ran, result]
    rfl

/-- Stores that hold a tree with a root show its entries. -/
theorem represents (serves : Serves rebalance backend valid) :
    Represents backend fun store entries => ∃ tree, Stores store tree ∧ valid store.aux ∧
      tree ≠ .leaf ∧ tree.entries = entries where
  insert := by
    rintro store _ key value ⟨tree, stores, accepted, _, rfl⟩
    obtain ⟨next, ran, nextStores, nextAccepted⟩ :=
      serves.insert_ok stores accepted (key, value)
    have entriesEq := entries_grow stores.sorted (key, value)
    refine ⟨next, ran, grow tree (key, value), nextStores, nextAccepted, ?_, entriesEq⟩
    intro empty
    rw [empty] at entriesEq
    exact upsert_ne_nil key value tree.entries entriesEq.symm
  read := by
    rintro store _ key ⟨tree, stores, accepted, nonempty, rfl⟩
    exact serves.read_ok stores accepted nonempty key

end Serves

/-- The tree of a sequence of inserts has their entries. -/
theorem entries_foldl_grow (pairs : List (Key × Value)) {tree : PtrTree}
    (sorted : Sorted tree.entries) :
    (pairs.foldl grow tree).entries = upsertAll pairs tree.entries := by
  induction pairs generalizing tree with
  | nil => rfl
  | cons pair pairs inductionHypothesis =>
      have grown := entries_grow sorted pair
      rw [List.foldl_cons, inductionHypothesis (by rw [grown]; exact sorted_upsert sorted), grown]
      rfl

end StoredsBench.Rbtree

namespace StoredsBench.RbtreeDram

open Lib Lib.RedBlack Lib.RedBlack.Tree Lib.SortedAssoc Rbtree

/-- On a tree with a root, `read` is a lookup from there. -/
theorem read_eq (key : Key) (result : Option Ptr) {store : RbtreeDram} (rooted : store.root ≠ null) :
    read key result store = lookup (store.heap.size + 1) store.root key result store := by
  have checked : check store = .ok ((), store) := by
    rw [check, bind_ok (Prog.getRoot_ok store), if_neg rooted]
    rfl
  rw [read, bind_ok checked, bind_ok (Prog.getRoot_ok store), bind_ok (Prog.heapSize_ok store)]

theorem serves : Serves rebalance backend fun _ => True where
  rebalances := rebalances
  insert := fun _ _ _ _ => rfl
  read := fun key store _ rooted => by
    simp only [backend, read_eq key none rooted]

theorem insertAll_ok (pairs : List (Key × Value)) :
    ∃ store, backend.insertAll pairs init = .ok store ∧ Stores store (treeOf pairs) :=
  serves.insertAll_ok pairs (stores_empty ()) trivial

/-- In every state reached by a sequence of inserts the heap shows a red-black search tree at
pairwise distinct addresses, every node with its actual parent.  Its keys ascend strictly in order
and it has the entries of the inserts. -/
theorem rbtreeDram_invariant (pairs : List (Key × Value)) :
    ∃ store tree, backend.insertAll pairs init = .ok store ∧
      store.root = rootLabel tree ∧ Rep (viewAt store.heap) null tree ∧
      tree.labels.Nodup ∧ store.heap.size = tree.labels.length ∧
      (tree.entries.Pairwise fun low high => low.1 < high.1) ∧
      tree.entries = upsertAll pairs [] ∧
      tree.rootColor = .black ∧ NoRedRed tree ∧
      (∃ n, ∀ path ∈ tree.paths, path.count .black = n) ∧
      tree.height ≤ 2 * Nat.log 2 (tree.labels.length + 1) := by
  obtain ⟨store, ran, stores⟩ := insertAll_ok pairs
  obtain ⟨n, balanced⟩ := stores.balanced
  have nodup : (treeOf pairs).labels.Nodup := by
    have whole := stores.holds.nodup
    rwa [labelsAbove, List.append_nil] at whole
  refine ⟨store, treeOf pairs, ran, stores.holds.root, stores.holds.rep, nodup, stores.size,
    stores.sorted, entries_foldl_grow pairs sorted_nil, balanced.rootColor_eq, balanced.noRedRed,
    ⟨n, balanced.count_black⟩, ?_⟩
  rw [labels, List.length_map]
  exact balanced.height_le_log

/-- After `bst_upsert` on any red-black tree `fix_violation` runs to its end: its loop needs no more
iterations than the tree is high, and nothing it or a rotation dereferences is `NULL`, which would
be a fault. -/
theorem rbtreeDram_fixViolation {store : RbtreeDram} {tree : PtrTree} (stores : Stores store tree)
    (nonempty : tree ≠ .leaf) (key : Key) (value : Value) :
    ∃ address attached,
      bstUpsert store.heap.size store.root key value store = .ok (address, attached) ∧
      ((address = null ∧ ∃ old, (key, old) ∈ tree.entries) ∨
        ∃ above balanced fixed, plug above .leaf = tree ∧
          Holds attached above (.node .red address (key, value) .leaf .leaf) ∧
          fixLoop rebalance (tree.height + 1) address attached = .ok ((), balanced) ∧
          fixViolation address attached = .ok ((), fixed)) := by
  obtain ⟨n, balanced⟩ := stores.balanced
  have bound : tree.height ≤ store.heap.size := by
    rw [stores.size]
    exact height_le_length tree
  obtain ⟨address, attached, ran, _, upserted⟩ := bstUpsert_ok key value stores.holds nonempty bound
  refine ⟨address, attached, by rw [stores.holds.root]; exact ran, ?_⟩
  obtain ⟨color, m, fits, placeBalanced⟩ := Fits.locate key .root balanced
  rcases upsert_cases (store.heap.size + 1) key value tree with
    ⟨above, located, whole, _⟩ | ⟨above, _, label, old, left, right, located, whole, _⟩
  · rw [located] at upserted fits placeBalanced
    obtain ⟨rfl, attachedHolds⟩ := upserted
    cases placeBalanced with
    | leaf =>
        have leafBalanced :
            Balanced (.node .red (store.heap.size + 1) (key, value) .leaf .leaf : PtrTree) .red 0 :=
          .red .leaf .leaf
        have few : above.length < tree.height + 1 := by
          have depth := length_le_height_plug above .leaf
          rw [whole] at depth
          exact Nat.lt_succ_of_le ((Nat.le_add_right _ _).trans depth)
        obtain ⟨settled, loopRan, _, _⟩ :=
          fixLoop_ok rebalances attachedHolds (by simp) leafBalanced fits few
        obtain ⟨fixed, fixRan, _, _⟩ :=
          fixViolation_ok rebalances attachedHolds (by simp) leafBalanced fits
        exact Or.inr ⟨above, settled, fixed, whole, attachedHolds, loopRan, fixRan⟩
  · rw [located] at upserted
    refine Or.inl ⟨upserted.1, old, ?_⟩
    rw [← whole, entries, inorder_plug]
    simp [inorder]

/-- The third of these keys makes a red node below a red one. -/
theorem rbtreeDram_fixViolation_inner :
    ∃ (value : Value) (store : RbtreeDram) (tree : PtrTree), Stores store tree ∧ tree ≠ .leaf ∧
      ∃ address attached,
        bstUpsert store.heap.size store.root 2 value store = .ok (address, attached) ∧
        ((address = null ∧ ∃ old, (2, old) ∈ tree.entries) ∨
          ∃ above balanced fixed, plug above .leaf = tree ∧
            Holds attached above (.node .red address (2, value) .leaf .leaf) ∧
            fixLoop rebalance (tree.height + 1) address attached = .ok ((), balanced) ∧
            fixViolation address attached = .ok ((), fixed)) := by
  obtain ⟨store, _, stores⟩ := insertAll_ok [(3, ⟨[97], by decide, by decide⟩),
    (1, ⟨[97], by decide, by decide⟩)]
  have nonempty : treeOf [(3, ⟨[97], by decide, by decide⟩), (1, ⟨[97], by decide, by decide⟩)] ≠
      .leaf := fun empty => absurd (congrArg rootLabel empty) (by decide)
  exact ⟨⟨[97], by decide, by decide⟩, store, _, stores, nonempty,
    rbtreeDram_fixViolation stores nonempty 2 ⟨[97], by decide, by decide⟩⟩

/-- The first insert makes a tree with a root. -/
theorem insert_first (key : Key) (value : Value) :
    ∃ next, backend.insert key value init = .ok next ∧
      ∃ tree, Stores next tree ∧ True ∧ tree ≠ .leaf ∧ tree.entries = [(key, value)] := by
  obtain ⟨next, first, stores, accepted⟩ :=
    serves.insert_ok (stores_empty ()) trivial (key, value)
  have emptySorted : Sorted (entries (.leaf : PtrTree)) := sorted_nil
  have entriesEq : (grow .leaf (key, value)).entries = [(key, value)] :=
    entries_grow emptySorted (key, value)
  refine ⟨next, first, _, stores, accepted, ?_, entriesEq⟩
  intro empty
  rw [empty] at entriesEq
  cases entriesEq

/-- Every sequence of inserts and reads that begins with an insert runs to its end, and each read
returns the value of the most recent insert for its key; an insert never changes what another key
reads. -/
theorem rbtreeDram_finite_map (key : Key) (value : Value) (calls : List Call) :
    ∃ store, backend.run (.insert key value :: calls) init =
        .ok (answers (.insert key value :: calls), store) ∧
      backend.MapAfter (.insert key value :: calls) store := by
  obtain ⟨next, first, shown⟩ := insert_first key value
  exact serves.represents.run_from_first first shown calls

end StoredsBench.RbtreeDram

namespace StoredsBench.RbtreePmem

open Lib Lib.RedBlack Lib.RedBlack.Tree Rbtree

/-- With a root object `check` passes. -/
theorem check_ok {store : RbtreePmem} (valid : store.aux ≠ null) :
    check store = .ok ((), store) := by
  rw [check, bind_ok (Prog.getAux_ok store), if_neg valid]
  rfl

theorem serves : Serves rebalance backend fun rootOid => rootOid ≠ null where
  rebalances := rebalances
  insert := fun key value store valid => by
    simp only [backend, insert, bind_ok (check_ok valid)]
  read := fun key store valid _ => by
    simp only [backend, read, bind_ok (check_ok valid), bind_ok (Prog.getRoot_ok store),
      bind_ok (Prog.heapSize_ok store)]

theorem insertAll_ok {rootOid : Ptr} (valid : rootOid ≠ null) (pairs : List (Key × Value)) :
    ∃ store, backend.insertAll pairs (init rootOid) = .ok store ∧ Stores store (treeOf pairs) :=
  serves.insertAll_ok pairs (stores_empty rootOid) valid

/-- After every sequence of inserts `RbtreeDram` and `RbtreePmem` hold one tree: the same shape, at
every position the same key, value and colour, even the nodes in the same order of allocation. -/
theorem rbtreePmem_same_tree (rootOid : Ptr) (valid : rootOid ≠ null) (pairs : List (Key × Value)) :
    ∃ (tree : PtrTree) (dram : RbtreeDram) (pmem : RbtreePmem),
      RbtreeDram.backend.insertAll pairs RbtreeDram.init = .ok dram ∧
      backend.insertAll pairs (init rootOid) = .ok pmem ∧
      (dram.root = rootLabel tree ∧ Rep (viewAt dram.heap) null tree) ∧
      (pmem.root = rootLabel tree ∧ Rep (viewAt pmem.heap) null tree) := by
  obtain ⟨dram, dramRan, dramStores⟩ := RbtreeDram.insertAll_ok pairs
  obtain ⟨pmem, pmemRan, pmemStores⟩ := insertAll_ok valid pairs
  exact ⟨treeOf pairs, dram, pmem, dramRan, pmemRan, ⟨dramStores.holds.root, dramStores.holds.rep⟩,
    ⟨pmemStores.holds.root, pmemStores.holds.rep⟩⟩

/-- The third of these inserts makes an inner rotation at the root. -/
theorem rbtreePmem_same_tree_inner :
    ∃ value : Value, (1 : Ptr) ≠ null ∧ ∃ (tree : PtrTree) (dram : RbtreeDram) (pmem : RbtreePmem),
      RbtreeDram.backend.insertAll [(3, value), (1, value), (2, value)] RbtreeDram.init = .ok dram ∧
      backend.insertAll [(3, value), (1, value), (2, value)] (init 1) = .ok pmem ∧
      (dram.root = rootLabel tree ∧ Rep (viewAt dram.heap) null tree) ∧
      (pmem.root = rootLabel tree ∧ Rep (viewAt pmem.heap) null tree) :=
  ⟨⟨[97], by decide, by decide⟩, by decide, rbtreePmem_same_tree 1 (by decide) _⟩

end StoredsBench.RbtreePmem
