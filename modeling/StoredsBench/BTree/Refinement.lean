/-
Module: StoredsBench.BTree.Refinement
Layer: Refinement
Purpose: `split_node`, `search` and `update_if_found` of `BTreeDram` do on the heap what a B-tree of
  minimum degree 9 does.  There are no chain pointers to maintain.
Trusted boundary: none
Main exports: BTreeDram.kind, BTreeDram.implements
-/
import StoredsBench.BTree.Dram
import StoredsBench.Lib.Multiway.Schemes
import StoredsBench.Trees.Map

namespace StoredsBench.BTreeDram

open Lib Lib.Multiway Trees

/-- Inner nodes store entries, which show as leaf entries do. -/
def kind : Kind BTREE_MIN_DEGREE (Key × Value) where
  scheme := btree BTREE_MIN_DEGREE Prod.fst
  viewItem := viewEntry
  minDegree_eq := rfl
  lawful := btree_lawful Prod.fst (by decide)
  entryKey_eq := rfl
  viewItem_key := fun _ _ viewed => viewEntry_key viewed
  setItem := fun value pair => (pair.1, value)
  viewItem_copy := fun _ _ value viewed => viewEntry_copy value viewed
  itemKey_set := fun _ _ => rfl
  carries_set := fun value item pair stored => by
    obtain rfl : item = pair := Option.some.inj stored
    rfl

/-- No chain of leaves. -/
def chain : LeafChain Unit where
  holds := fun _ _ => True
  stable := fun _ _ => trivial

/-- A full leaf is cut around its middle entry. -/
theorem cutsMiddle_leaf {full : Node BTREE_MIN_DEGREE Unit} {fresh : Nat}
    {child lower upper : PtrTree (Key × Value) 0} {separator : Key × Value}
    (shows : Shows kind full.body child) (isFull : width child = kind.scheme.maxKeys)
    (splitEq : split kind.scheme fresh child = some (lower, separator, upper)) :
    CutsMiddle kind false () full lower separator upper := by
  obtain ⟨isLeaf, nk, shown⟩ := shows
  have entriesFull : child.entries.length = 2 * BTREE_MIN_DEGREE - 1 := by
    rw [← kind.maxKeys_eq]
    exact isFull
  obtain ⟨middle, high, dropped, whole, highLength⟩ :=
    exists_middle kind.degree entriesFull
  have cutEq : kind.scheme.splitLeaf child.entries =
      some (child.entries.take (BTREE_MIN_DEGREE - 1), middle, high) := by
    simp only [kind, btree, dropped]
  simp only [split, cutEq, Option.map_some, Option.some.injEq, Prod.mk.injEq] at splitEq
  obtain ⟨rfl, rfl, rfl⟩ := splitEq
  have highEq : (child.entries.drop BTREE_MIN_DEGREE).take (BTREE_MIN_DEGREE - 1) = high := by
    have tail : child.entries.drop BTREE_MIN_DEGREE = high := by
      have shifted := congrArg List.tail dropped
      rwa [List.tail_drop] at shifted
    rw [tail, List.take_of_length_le highLength.le]
  have middleAt : child.entries[BTREE_MIN_DEGREE - 1]? = some middle := by
    have head := congrArg List.head? dropped
    rwa [List.head?_drop] at head
  obtain ⟨copied, entriesRan, copiedShown⟩ :=
    CArray.copyFrom_prefix shown (CArray.unwritten Entry (2 * BTREE_MIN_DEGREE - 1))
      (show BTREE_MIN_DEGREE + (BTREE_MIN_DEGREE - 1) ≤ _ by
        rw [entriesFull]
        decide)
  obtain ⟨entry, written, viewed⟩ := shown _ _ middleAt
  refine ⟨copied, CArray.unwritten _ _, entry, entriesRan, rfl, CArray.get_ok written, viewed,
    ⟨isLeaf, ?_, shown.take _⟩, isLeaf, highLength.symm, ?_⟩
  · show BTREE_MIN_DEGREE - 1 = (child.entries.take (BTREE_MIN_DEGREE - 1)).length
    rw [List.length_take, entriesFull]
    decide
  · rwa [highEq] at copiedShown

/-- `split_node` does to the heap what `split` does to the tree. -/
theorem splitNode_refines : SplitRefines kind chain splitNode := by
  intro depth low name store front back before after left right child lower upper separator holds
    leftAligned rightAligned room shape full splitEq
  obtain ⟨childNode, childLive, childShows⟩ := (holds.rep.2 child (by simp)).root
  have isLeaf : childNode.isLeaf = decide (depth = 0) := childShows.isLeaf
  rw [splitNode, bind_ok (Prog.load_ok childLive), isLeaf]
  refine splitMiddle_refines _ () holds leftAligned rightAligned room splitEq ?_ fun _ _ => trivial
  intro node shows
  cases depth with
  | zero => exact cutsMiddle_leaf shows full splitEq
  | succ depth => exact cutsMiddle_inner shows shape full splitEq

/-- `search` finds the entry of the key wherever it is stored. -/
theorem search_ok (key : Key) : ∀ {depth fuel low : Nat} {tree : PtrTree (Key × Value) depth}
    {store : BTreeDram}, depth < fuel → Rep kind store.heap tree → (labels tree).Nodup →
    Shape kind.scheme low tree → Ordered kind.scheme (trace tree) →
    ∃ result, search fuel (label tree) key store = .ok (result, store) ∧
      Answers kind store.heap tree key result
  | 0, fuel + 1, low, leaf, store, _, rep, nodup, shape, ordered => by
      obtain ⟨node, live, shows⟩ := rep.root
      have isLeaf : node.isLeaf = true := shows.1
      obtain ⟨index, found, scanned, tested, answers⟩ := Answers.leaf live shows ordered
      refine ⟨_, ?_, answers⟩
      rw [search, bind_ok (Prog.load_ok live), bind_ok (Prog.lift_ok scanned store),
        bind_ok (Prog.lift_ok tested store), isLeaf]
      cases found <;> rfl
  | depth + 1, fuel + 1, low, tree, store, bound, rep, nodup, shape, ordered => by
      obtain ⟨node, live, shows⟩ := rep.root
      have isLeaf : node.isLeaf = false := shows.1
      obtain ⟨before, after, found, itemsEq, scanned, tested, below, cases⟩ :=
        shows.probe shape ordered key
      have started : search (fuel + 1) (label tree) key store =
          (if found then return some { node := label tree, index := before.length }
          else do
            let child ← Prog.lift (node.children.get before.length)
            search fuel child key : M (Option SlotRef)) store := by
        rw [search, bind_ok (Prog.load_ok live), bind_ok (Prog.lift_ok scanned store),
          bind_ok (Prog.lift_ok tested store), isLeaf]
        rfl
      rcases cases with ⟨rfl, hit, rest, rfl, hitKey, _⟩ | ⟨rfl, above⟩
      · obtain ⟨entry, written, viewed⟩ := shows.2.2.1 before.length hit (by simp [itemsEq])
        obtain ⟨value, read, pairEq⟩ := Option.map_eq_some_iff.mp viewed
        have stores : kind.scheme.carries hit = some (key, value) := by
          rw [← hitKey, ← pairEq]
          rfl
        exact ⟨_, started, value,
          Located.separator nodup shape live written read itemsEq stores⟩
      · obtain ⟨left, child, right, childrenEq, leftAligned, rightAligned⟩ := shape.child_at itemsEq
        obtain ⟨name, items, children⟩ := tree
        simp only at itemsEq childrenEq
        subst itemsEq childrenEq
        have childMember : child ∈ left ++ child :: right := by simp
        obtain ⟨result, ran, answers⟩ :=
          search_ok key (by omega : depth < fuel) (rep.2 child childMember)
            (nodup_child nodup) (shape.2.2 child childMember) (ordered_child leftAligned ordered)
        refine ⟨result, ?_, answers.lift nodup ordered leftAligned rightAligned
          (fun item member => position_item_lt (below item member))
          fun item member => lt_position_item (above item member)⟩
        rw [started]
        simp only [Bool.false_eq_true, if_false]
        rw [bind_ok (Prog.lift_ok (child_pointer shows leftAligned) store), ran]

/-- `update_if_found` descends exactly as `search` does and overwrites what it finds. -/
theorem updateIfFound_eq (key : Key) (value : Value) : ∀ (fuel : Nat) (current : Ptr),
    updateIfFound fuel current key value = search fuel current key >>= overwriteFound value
  | 0, _ => rfl
  | fuel + 1, current => by
      rw [updateIfFound, search, bind_assoc]
      refine bind_congr fun contents => ?_
      rw [bind_assoc]
      refine bind_congr fun index => ?_
      rw [bind_assoc]
      refine bind_congr fun found => ?_
      cases found with
      | true => rfl
      | false =>
          simp only [Bool.false_eq_true, if_false]
          split
          · rfl
          · rw [bind_assoc]
            exact bind_congr fun child => updateIfFound_eq key value fuel child

theorem implements : Implements kind chain splitNode search updateIfFound () where
  splits := splitNode_refines
  searches := fun key bound rep nodup shape ordered => search_ok key bound rep nodup shape ordered
  updates := fun fuel current key value => updateIfFound_eq key value fuel current
  single := fun _ _ _ => trivial

end StoredsBench.BTreeDram
