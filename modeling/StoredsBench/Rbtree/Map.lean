/-
Module: StoredsBench.Rbtree.Map
Layer: Refinement
Purpose: `bst_upsert`, `insert` and `lookup` on whole stores.  New nodes are labelled in the order of
  their allocation, so that a sequence of inserts determines the tree a store holds, labels included.
Trusted boundary: none
Main exports: bstUpsert_ok, lookup_ok, Stores, grow, treeOf, insert_refines
-/
import StoredsBench.Rbtree.Rebalancing

namespace StoredsBench.Rbtree

open Lib Lib.RedBlack Lib.RedBlack.Tree Lib.SortedAssoc

variable {X : Type} {store : Store RbNode X} {above : List PtrFrame} {tree : PtrTree}

/-! ### New nodes -/

/-- What a new node shows. -/
def Shown.fresh (key : Key) (value : Value) : Shown :=
  ⟨(key, value), .red, null, null, null⟩

theorem createNewNode_ok (store : Store RbNode X) (key : Key) (value : Value) :
    ∃ next, createNewNode key value store = .ok (store.heap.size + 1, next) ∧
      next.aux = store.aux ∧ next.root = store.root ∧ next.heap.size = store.heap.size + 1 ∧
      viewAt next.heap =
        Function.update (viewAt store.heap) (store.heap.size + 1) (some (Shown.fresh key value)) := by
  refine ⟨_, rfl, rfl, rfl, Heap.size_push _ _, ?_⟩
  funext other
  rw [viewAt, Heap.get?_push, Function.update_apply]
  split
  · rw [Option.bind_some, RbNode.view, CharArray.string?_copyString]
    rfl
  · rfl

/-- Addresses that show something are in use. -/
theorem ne_fresh_of_view {address : Nat} {shown : Shown}
    (found : viewAt store.heap address = some shown) : address ≠ store.heap.size + 1 := by
  obtain ⟨node, live, _⟩ := exists_live found
  exact Heap.ne_fresh_of_get? live

theorem Rep.shows {views : Nat → Option Shown} {parent : Nat} (rep : Rep views parent tree) :
    ∀ address ∈ tree.labels, ∃ shown, views address = some shown := by
  induction tree generalizing parent with
  | leaf =>
      intro address member
      cases member
  | node color label entry left right leftShows rightShows =>
      obtain ⟨here, leftRep, rightRep⟩ := rep
      intro address member
      simp only [labels, inorder, List.map_append, List.map_cons, List.mem_append,
        List.mem_cons] at member
      rcases member with inLeft | rfl | inRight
      · exact leftShows leftRep address inLeft
      · exact ⟨_, here⟩
      · exact rightShows rightRep address inRight

theorem RepAbove.shows {views : Nat → Option Shown} {hole : Nat} (rep : RepAbove views hole above) :
    ∀ address ∈ labelsAbove above, ∃ shown, views address = some shown := by
  induction above generalizing hole with
  | nil =>
      intro address member
      cases member
  | cons frame above inductionHypothesis =>
      obtain ⟨here, siblingRep, aboveRep⟩ := rep
      intro address member
      simp only [labelsAbove, List.mem_cons, List.mem_append] at member
      rcases member with rfl | inSibling | inAbove
      · exact ⟨_, here⟩
      · exact siblingRep.shows address inSibling
      · exact inductionHypothesis aboveRep address inAbove

/-- A new node at an empty place. -/
theorem attach_ok {frame : PtrFrame} (holds : Holds store (frame :: above) .leaf) (key : Key)
    (value : Value) :
    ∃ next, attach frame.side frame.label key value store = .ok (store.heap.size + 1, next) ∧
      next.aux = store.aux ∧
      Holds next (frame :: above) (.node .red (store.heap.size + 1) (key, value) .leaf .leaf) := by
  obtain ⟨here, siblingRep, aboveRep⟩ := holds.repAbove
  have order : (labelsAbove (frame :: above)).Nodup := holds.nodup
  obtain ⟨frameFresh, _⟩ := List.nodup_cons.mp order
  rw [List.mem_append, not_or] at frameFresh
  have old : ∀ address ∈ labelsAbove (frame :: above), address ≠ store.heap.size + 1 := by
    intro address member
    obtain ⟨shown, found⟩ := holds.repAbove.shows address member
    exact ne_fresh_of_view found
  have frameOld := old frame.label List.mem_cons_self
  obtain ⟨one, oneRan, oneAux, oneRoot, oneSize, oneViews⟩ := createNewNode_ok store key value
  have oneFrame : viewAt one.heap frame.label = _ :=
    (congrFun oneViews frame.label).trans ((Function.update_of_ne frameOld _ _).trans here)
  obtain ⟨two, twoRan, twoKept, twoRoot, twoViews⟩ :=
    setChild_ok oneFrame frame.side (store.heap.size + 1)
  have twoNew : viewAt two.heap (store.heap.size + 1) = some (Shown.fresh key value) := by
    rw [twoViews, Function.update_of_ne (Ne.symm frameOld), oneViews, Function.update_self]
  obtain ⟨three, threeRan, threeKept, threeRoot, threeViews⟩ := setParent_ok twoNew frame.label
  rw [Shown.build_withNear] at twoViews
  refine ⟨three, ?_, ?_, ?_, ?_, ?_, ?_, ?_⟩
  · rw [attach, bind_ok oneRan, bind_ok twoRan, bind_ok threeRan]
    rfl
  · rw [threeKept.aux, twoKept.aux, oneAux]
  · rw [threeRoot, twoRoot, oneRoot, holds.root]
    exact rootLabel_plug fun empty => absurd empty (List.cons_ne_nil frame above)
  · refine ⟨?_, trivial, trivial⟩
    rw [threeViews, Function.update_self]
    rfl
  · rw [threeViews, twoViews, oneViews]
    refine ⟨?_, ?_, ?_⟩
    · rw [Function.update_of_ne frameOld, Function.update_self]
      rfl
    · exact ((siblingRep.write (fun member => old _ (by simp [labelsAbove, member]) rfl) _).write
        frameFresh.1 _).write (fun member => old _ (by simp [labelsAbove, member]) rfl) _
    · exact ((aboveRep.write (fun member => old _ (by simp [labelsAbove, member]) rfl) _).write
        frameFresh.2 _).write (fun member => old _ (by simp [labelsAbove, member]) rfl) _
  · exact List.nodup_cons.mpr ⟨fun member => old _ member rfl, order⟩
  · rw [threeKept.size, twoKept.size, oneSize, holds.size]
    rfl

/-! ### Updating or attaching -/

/-- What `bst_upsert` leaves at the place of the key, and what it returns. -/
def Upserted (next : Store RbNode X) (fresh : Nat) (key : Key) (value : Value) (address : Nat) :
    PtrTree × List PtrFrame → Prop
  | (.leaf, place) => address = fresh ∧ Holds next place (.node .red fresh (key, value) .leaf .leaf)
  | (.node color label _ left right, place) =>
      address = null ∧ Holds next place (.node color label (key, value) left right)

theorem rootLabel_eq_null {parent : Nat} (rep : Rep (viewAt store.heap) parent tree) :
    rootLabel tree = null ↔ tree = .leaf := by
  cases tree with
  | leaf => exact ⟨fun _ => rfl, fun _ => rfl⟩
  | node color label entry left right =>
      constructor
      · exact fun empty => absurd empty (ne_null_of_view rep.1)
      · exact fun leaf => by cases leaf

/-- The nodes determine the tree. -/
theorem Rep.unique {store : Store RbNode X} {parent otherParent : Nat} {tree other : PtrTree}
    (rep : Rep (viewAt store.heap) parent tree) (otherRep : Rep (viewAt store.heap) otherParent other)
    (same : rootLabel tree = rootLabel other) : tree = other := by
  induction tree generalizing parent otherParent other with
  | leaf => exact ((rootLabel_eq_null otherRep).mp same.symm).symm
  | node color label entry left right leftUnique rightUnique =>
      cases other with
      | leaf =>
          have isNull : label = null := same
          exact absurd isNull (ne_null_of_view rep.1)
      | node otherColor otherLabel otherEntry otherLeft otherRight =>
          obtain rfl : label = otherLabel := same
          obtain ⟨here, leftRep, rightRep⟩ := rep
          obtain ⟨there, otherLeftRep, otherRightRep⟩ := otherRep
          rw [here] at there
          obtain ⟨rfl, rfl, leftEq, rightEq, _⟩ := Shown.mk.inj (Option.some.inj there)
          rw [leftUnique leftRep otherLeftRep leftEq, rightUnique rightRep otherRightRep rightEq]

/-- One comparison of the descent, at the frame above the child it chooses. -/
theorem bstUpsert_step {frame : PtrFrame} {key : Key} (value : Value) (fuel : Nat)
    (holds : Holds store (frame :: above) tree) (different : key ≠ frame.entry.1)
    (chosen : (if key < frame.entry.1 then Side.left else Side.right) = frame.side) :
    bstUpsert (fuel + 1) frame.label key value store =
      (if rootLabel tree = null then attach frame.side frame.label key value
        else bstUpsert fuel (rootLabel tree) key value : RbProg X Ptr) store := by
  obtain ⟨node, loaded, views⟩ := load_shown holds.repAbove.1
  have keyEq : node.key = frame.entry.1 := by rw [views.key, Shown.build_entry]
  have childEq : node.child frame.side = rootLabel tree := by rw [views.child, Shown.build_near]
  rw [bstUpsert, if_neg (ne_null_of_view holds.repAbove.1), bind_ok loaded, keyEq,
    if_neg different, chosen, childEq]

/-- The descent below the chosen child, or the new node in its place. -/
theorem bstUpsert_child {frame : PtrFrame} {key : Key} {value : Value} {fuel : Nat}
    (holds : Holds store (frame :: above) tree) (different : key ≠ frame.entry.1)
    (chosen : (if key < frame.entry.1 then Side.left else Side.right) = frame.side)
    (below : tree ≠ .leaf → ∃ address next,
      bstUpsert fuel (rootLabel tree) key value store = .ok (address, next) ∧
      next.aux = store.aux ∧
      Upserted next (store.heap.size + 1) key value address (locate key tree (frame :: above))) :
    ∃ address next, bstUpsert (fuel + 1) frame.label key value store = .ok (address, next) ∧
      next.aux = store.aux ∧
      Upserted next (store.heap.size + 1) key value address (locate key tree (frame :: above)) := by
  rw [bstUpsert_step value fuel holds different chosen]
  by_cases empty : tree = .leaf
  · subst empty
    obtain ⟨next, ran, aux, nextHolds⟩ := attach_ok holds key value
    exact ⟨store.heap.size + 1, next, ran, aux, rfl, nextHolds⟩
  · rw [if_neg fun isNull => empty ((rootLabel_eq_null holds.rep).mp isNull)]
    exact below empty

/-- `bst_upsert` finds the place of the key. -/
theorem bstUpsert_ok (key : Key) (value : Value) {fuel : Nat} (holds : Holds store above tree)
    (nonempty : tree ≠ .leaf) (bound : tree.height ≤ fuel) :
    ∃ address next, bstUpsert fuel (rootLabel tree) key value store = .ok (address, next) ∧
      next.aux = store.aux ∧
      Upserted next (store.heap.size + 1) key value address (locate key tree above) := by
  fun_induction locate key tree above generalizing fuel with
  | case1 => exact absurd rfl nonempty
  | case2 color label entry left right above same =>
      simp only [height] at bound
      obtain ⟨less, rfl⟩ : ∃ less, fuel = less + 1 := ⟨fuel - 1, by omega⟩
      obtain ⟨node, loaded, views⟩ := load_shown holds.rep.1
      obtain ⟨next, ran, kept, nextHolds⟩ := overwrite_ok holds value
      refine ⟨null, next, ?_, kept.aux, rfl, by rw [same]; exact nextHolds⟩
      have found : key = node.key := same.trans views.key.symm
      rw [bstUpsert, rootLabel, if_neg (ne_null_of_view holds.rep.1), bind_ok loaded, if_pos found,
        bind_ok ran]
      rfl
  | case3 color label entry left right above different less inductionHypothesis =>
      simp only [height] at bound
      obtain ⟨rest, rfl⟩ : ∃ rest, fuel = rest + 1 := ⟨fuel - 1, by omega⟩
      have atChild : Holds store (⟨.left, color, label, entry, right⟩ :: above) left :=
        holds_cons.mpr holds
      apply bstUpsert_child atChild different (if_pos less)
      intro nonempty
      exact inductionHypothesis atChild nonempty (by omega)
  | case4 color label entry left right above different notLess inductionHypothesis =>
      simp only [height] at bound
      obtain ⟨rest, rfl⟩ : ∃ rest, fuel = rest + 1 := ⟨fuel - 1, by omega⟩
      have atChild : Holds store (⟨.right, color, label, entry, left⟩ :: above) right :=
        holds_cons.mpr holds
      apply bstUpsert_child atChild different (if_neg notLess)
      intro nonempty
      exact inductionHypothesis atChild nonempty (by omega)

/-! ### Looking up -/

/-- `lookup` finds the node of a stored key, which carries the key's label, and leaves the result alone
for any other key. -/
theorem lookup_ok (key : Key) (result : Option Ptr) {parent fuel : Nat}
    (rep : Rep (viewAt store.heap) parent tree) (sorted : Sorted tree.entries)
    (bound : tree.height < fuel) :
    (∃ label shown, lookup fuel (rootLabel tree) key result store = .ok (some label, store) ∧
        viewAt store.heap label = some shown ∧ (label, (key, shown.entry.2)) ∈ tree.inorder ∧
        tree.entries.lookup key = some shown.entry.2) ∨
      (lookup fuel (rootLabel tree) key result store = .ok (result, store) ∧
        tree.entries.lookup key = none) := by
  induction tree generalizing parent fuel with
  | leaf =>
      obtain ⟨rest, rfl⟩ : ∃ rest, fuel = rest + 1 := ⟨fuel - 1, by omega⟩
      exact Or.inr ⟨rfl, rfl⟩
  | node color label entry left right leftFound rightFound =>
      obtain ⟨rest, rfl⟩ : ∃ rest, fuel = rest + 1 := ⟨fuel - 1, by omega⟩
      simp only [height] at bound
      obtain ⟨here, leftRep, rightRep⟩ := rep
      obtain ⟨node, loaded, views⟩ := load_shown here
      have keyEq : node.key = entry.1 := views.key
      have leftEq : node.left = rootLabel left := views.child .left
      have rightEq : node.right = rootLabel right := views.child .right
      have whole : entries (.node color label entry left right : PtrTree) =
          left.entries ++ ([entry] ++ right.entries) := by
        simp [entries, inorder]
      rw [whole] at sorted ⊢
      obtain ⟨leftSorted, restSorted, leftBelow⟩ := sorted_append.mp sorted
      obtain ⟨rightAbove, rightSorted⟩ := sorted_cons.mp restSorted
      rw [rootLabel, lookup, if_neg (ne_null_of_view here), bind_ok loaded, keyEq]
      rcases lt_trichotomy entry.1 key with above | same | below
      · rw [if_neg above.ne, if_neg above.not_gt, rightEq]
        have skipped : (left.entries ++ ([entry] ++ right.entries)).lookup key =
            right.entries.lookup key := by
          rw [← List.append_assoc]
          apply lookup_append_of_forall_ne
          intro other member
          rcases List.mem_append.mp member with inLeft | isEntry
          · exact ((leftBelow other inLeft entry List.mem_cons_self).trans above).ne
          · rw [List.mem_singleton.mp isEntry]
            exact above.ne
        rw [skipped]
        have shallower : right.height < rest := by omega
        rcases rightFound rightRep rightSorted shallower with
          ⟨found, shown, ran, view, member, result⟩ | none
        · refine Or.inl ⟨found, shown, ran, view, ?_, result⟩
          exact List.mem_append_right _ (List.mem_cons_of_mem _ member)
        · exact Or.inr none
      · rw [if_pos same]
        refine Or.inl ⟨label, _, rfl, here, ?_, ?_⟩
        · rw [← same]
          exact List.mem_append_right _ List.mem_cons_self
        · rw [lookup_append_of_forall_ne, List.singleton_append, lookup_cons, if_pos same.symm]
          intro other member
          rw [← same]
          exact (leftBelow other member entry List.mem_cons_self).ne
      · rw [if_neg below.ne', if_pos below, leftEq]
        have skipped : (left.entries ++ ([entry] ++ right.entries)).lookup key =
            left.entries.lookup key := by
          have greater : ∀ other ∈ [entry] ++ right.entries, key < other.1 := by
            intro other member
            rcases List.mem_cons.mp member with rfl | inRight
            · exact below
            · exact below.trans (rightAbove other inRight)
          rw [← List.nil_append (left.entries ++ ([entry] ++ right.entries))]
          apply lookup_middle
          · intro other member
            cases member
          · exact greater
        rw [skipped]
        have shallower : left.height < rest := by omega
        rcases leftFound leftRep leftSorted shallower with
          ⟨found, shown, ran, view, member, result⟩ | none
        · exact Or.inl ⟨found, shown, ran, view, List.mem_append_left _ member, result⟩
        · exact Or.inr none

/-! ### Whole stores -/

/-- The store holds a red-black search tree. -/
structure Stores (store : Store RbNode X) (tree : PtrTree) : Prop where
  holds : Holds store [] tree
  balanced : ∃ n, Balanced tree .black n
  sorted : Sorted tree.entries

/-- The tree after one more insert; its new node is the next one in the order of allocation. -/
def grow (tree : PtrTree) (pair : Key × Value) : PtrTree :=
  upsert (tree.labels.length + 1) pair.1 pair.2 tree

/-- The tree after a sequence of inserts. -/
def treeOf (pairs : List (Key × Value)) : PtrTree := pairs.foldl grow .leaf

theorem Stores.size (stores : Stores store tree) : store.heap.size = tree.labels.length := by
  rw [stores.holds.size, labelsAbove, List.append_nil]

theorem height_le_length (tree : PtrTree) : tree.height ≤ tree.labels.length := by
  induction tree with
  | leaf => exact Nat.le_refl 0
  | node color label entry left right leftBound rightBound =>
      simp only [labels, inorder, height, List.map_append, List.map_cons, List.length_append,
        List.length_cons] at leftBound rightBound ⊢
      omega

/-- A store without nodes. -/
theorem stores_empty (aux : X) : Stores { heap := Heap.empty, root := null, aux := aux } .leaf where
  holds := by
    constructor
    · rfl
    · trivial
    · trivial
    · exact List.nodup_nil
    · rfl
  balanced := ⟨0, .leaf⟩
  sorted := sorted_nil

section Insertion

variable {rebalance : Side → Ptr → Ptr → Ptr → RbProg X Ptr}

/-- The first node of a tree. -/
theorem insert_first (rebalances : Rebalances rebalance) (holds : Holds store [] .leaf) (key : Key)
    (value : Value) :
    ∃ next, insert rebalance key value store = .ok (1, next) ∧ next.aux = store.aux ∧
      Holds next [] (upsert (store.heap.size + 1) key value .leaf) := by
  obtain ⟨one, oneRan, oneAux, oneRoot, oneSize, oneViews⟩ := createNewNode_ok store key value
  obtain ⟨two, twoEq⟩ : ∃ two : Store RbNode X, two = { one with root := store.heap.size + 1 } :=
    ⟨_, rfl⟩
  have twoHolds : Holds two [] (.node .red (store.heap.size + 1) (key, value) .leaf .leaf) := by
    subst twoEq
    constructor
    · rfl
    · refine ⟨?_, trivial, trivial⟩
      rw [oneViews, Function.update_self]
      rfl
    · trivial
    · exact List.nodup_cons.mpr ⟨List.not_mem_nil, List.nodup_nil⟩
    · rw [oneSize, holds.size]
      rfl
  obtain ⟨next, ran, kept, nextHolds⟩ :=
    fixViolation_ok rebalances twoHolds (by simp) (.red .leaf .leaf) .root
  refine ⟨next, ?_, ?_, nextHolds⟩
  · have empty : store.root = null := holds.root
    have rooted : Prog.setRoot (store.heap.size + 1) one = .ok ((), two) := by
      rw [twoEq]
      rfl
    have fixed : fixViolation rebalance (store.heap.size + 1) two = .ok ((), next) := ran
    rw [insert, bind_ok (Prog.getRoot_ok store), if_pos empty, bind_ok oneRan, bind_ok rooted,
      bind_ok fixed]
    rfl
  · rw [kept.aux, twoEq, oneAux]

/-- `insert` is the insertion of the tree. -/
theorem insert_ok (rebalances : Rebalances rebalance) {n : Nat} (holds : Holds store [] tree)
    (balanced : Balanced tree .black n) (key : Key) (value : Value) :
    ∃ next, insert rebalance key value store = .ok (1, next) ∧ next.aux = store.aux ∧
      Holds next [] (upsert (store.heap.size + 1) key value tree) := by
  by_cases empty : tree = .leaf
  · subst empty
    exact insert_first rebalances holds key value
  · have rooted : store.root = rootLabel tree := holds.root
    have notNull : store.root ≠ null := by
      rw [rooted]
      exact fun isNull => empty ((rootLabel_eq_null holds.rep).mp isNull)
    have bound : tree.height ≤ store.heap.size := by
      rw [holds.size, labelsAbove, List.append_nil]
      exact height_le_length tree
    obtain ⟨address, middle, ran, aux, upserted⟩ := bstUpsert_ok key value holds empty bound
    rw [insert, bind_ok (Prog.getRoot_ok store), if_neg notNull, bind_ok (Prog.heapSize_ok store),
      rooted, bind_ok ran]
    obtain ⟨color, m, fits, placeBalanced⟩ := Fits.locate key .root balanced
    rcases upsert_cases (store.heap.size + 1) key value tree with
      ⟨above, located, _, result⟩ | ⟨above, _, label, old, left, right, located, _, result⟩
    · rw [located] at upserted fits placeBalanced
      obtain ⟨rfl, middleHolds⟩ := upserted
      cases placeBalanced with
      | leaf =>
          obtain ⟨next, fixed, kept, nextHolds⟩ :=
            fixViolation_ok rebalances middleHolds (by simp) (.red .leaf .leaf) fits
          refine ⟨next, ?_, by rw [kept.aux, aux], by rw [result]; exact nextHolds⟩
          have ran : fixViolation rebalance (store.heap.size + 1) middle = .ok ((), next) := fixed
          have notNull : store.heap.size + 1 ≠ null := Nat.succ_ne_zero _
          rw [if_neg notNull, bind_ok ran]
          rfl
    · rw [located] at upserted
      obtain ⟨rfl, middleHolds⟩ := upserted
      refine ⟨middle, ?_, aux, by rw [result]; exact holds_plug.mp middleHolds⟩
      rw [if_pos rfl]
      rfl

/-- Every insert grows the tree by the same rule. -/
theorem insert_refines (rebalances : Rebalances rebalance) (stores : Stores store tree) (key : Key)
    (value : Value) :
    ∃ next, insert rebalance key value store = .ok (1, next) ∧ next.aux = store.aux ∧
      Stores next (grow tree (key, value)) := by
  obtain ⟨n, balanced⟩ := stores.balanced
  obtain ⟨next, ran, aux, nextHolds⟩ := insert_ok rebalances stores.holds balanced key value
  rw [stores.size] at nextHolds
  refine ⟨next, ran, aux, nextHolds, balanced.upsert _ key value, ?_⟩
  rw [grow, entries_upsert stores.sorted]
  exact sorted_upsert stores.sorted

theorem entries_grow (sorted : Sorted tree.entries) (pair : Key × Value) :
    (grow tree pair).entries = SortedAssoc.upsert pair.1 pair.2 tree.entries :=
  entries_upsert sorted _ _ _

end Insertion

end StoredsBench.Rbtree
