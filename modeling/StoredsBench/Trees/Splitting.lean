/-
Module: StoredsBench.Trees.Splitting
Layer: Refinement
Purpose: Splitting a node on the heap.  A split changes the parent and the child and adds a sibling;
  once these three show the cut tree, everything below them is still in place.  `splitMiddle`, the
  split that moves the middle entry up, is run here for both classes.
Trusted boundary: none
Main exports: Holds.split, splitMiddle_ok, splitMiddle_refines
-/
import StoredsBench.Trees.Insertion

namespace StoredsBench.Trees

open Lib Lib.Multiway

variable {t : Nat} {X I : Type} {kind : Kind t I}

/-! ### What a split leaves in place -/

/-- The heap shows the trees below the root of a tree. -/
def RepBelow (kind : Kind t I) (heap : Heap (Node t X)) : {depth : Nat} → PtrTree I depth → Prop
  | 0, _ => True
  | _ + 1, tree => ∀ child ∈ tree.children, Rep kind heap child

theorem rep_iff {heap : Heap (Node t X)} {depth : Nat} {tree : PtrTree I depth} :
    Rep kind heap tree ↔ ShowsAt kind heap tree ∧ RepBelow kind heap tree := by
  cases depth with
  | zero => exact (and_iff_left trivial).symm
  | succ depth => exact Iff.rfl

theorem RepBelow.congr {heap after : Heap (Node t X)} {depth : Nat} {tree : PtrTree I depth}
    (below : RepBelow kind heap tree)
    (same : ∀ address ∈ labelsBelow tree, bodyAt after address = bodyAt heap address) :
    RepBelow kind after tree := by
  cases depth with
  | zero => trivial
  | succ depth =>
      intro child member
      exact (below child member).congr fun address inChild =>
        same address (List.mem_flatMap.mpr ⟨child, member, inChild⟩)

/-- The halves of a split share out the trees below the node. -/
theorem RepBelow.split {heap : Heap (Node t X)} {fresh depth : Nat}
    {tree lower upper : PtrTree I depth} {separator : I} (below : RepBelow kind heap tree)
    (splitEq : split kind.scheme fresh tree = some (lower, separator, upper)) :
    RepBelow kind heap lower ∧ RepBelow kind heap upper := by
  cases depth with
  | zero => exact ⟨trivial, trivial⟩
  | succ depth =>
      simp only [Multiway.split] at splitEq
      split at splitEq
      · cases splitEq
      · simp only [Option.some.injEq, Prod.mk.injEq] at splitEq
        obtain ⟨rfl, rfl, rfl⟩ := splitEq
        exact ⟨fun child member => below child (List.mem_of_mem_take member),
          fun child member => below child (List.mem_of_mem_drop member)⟩

section Assembly

variable {chain : LeafChain X} {store next : Store (Node t X) Unit} {front back : List Nat}
  {depth name : Nat} {before after : List I} {left right : List (PtrTree I depth)}
  {child lower upper : PtrTree I depth} {separator : I}

/-- A split adds the label of the sibling to those of the node. -/
theorem split_labels_perm {fresh : Nat}
    (splitEq : split kind.scheme fresh child = some (lower, separator, upper)) :
    (labels (mkNode name (before ++ separator :: after) (left ++ lower :: upper :: right))).Perm
      (fresh :: labels (mkNode name (before ++ after) (left ++ child :: right))) := by
  obtain ⟨lowerLabel, upperLabel, belowEq⟩ := split_labels splitEq
  rw [labels_mkNode, labels_mkNode, List.flatMap_cons, labels_eq lower, labels_eq upper,
    labels_eq child, lowerLabel, upperLabel, belowEq]
  have moved : (name :: (left.flatMap labels ++ (label child :: labelsBelow lower)) ++
      fresh :: (labelsBelow upper ++ right.flatMap labels)).Perm _ := List.perm_middle
  simpa using moved

/-- Once parent, child and sibling show the cut tree, the heap does. -/
theorem Holds.split
    (holds : Holds kind chain store front back
      (mkNode name (before ++ after) (left ++ child :: right)))
    (splitEq : Multiway.split kind.scheme (store.heap.size + 1) child =
      some (lower, separator, upper))
    (root : next.root = store.root) (size : next.heap.size = store.heap.size + 1)
    (nodeShown : ShowsAt kind next.heap
      (mkNode name (before ++ separator :: after) (left ++ lower :: upper :: right)))
    (lowerShown : ShowsAt kind next.heap lower) (upperShown : ShowsAt kind next.heap upper)
    (frame : ∀ address ≤ store.heap.size, address ≠ name → address ≠ label child →
      bodyAt next.heap address = bodyAt store.heap address)
    (chained : chain.holds (linksAt next.heap) (front ++ (leafLabels
      (mkNode name (before ++ separator :: after) (left ++ lower :: upper :: right)) ++ back))) :
    Holds kind chain next front back
        (mkNode name (before ++ separator :: after) (left ++ lower :: upper :: right)) ∧
      Step store next (mkNode name (before ++ after) (left ++ child :: right))
        (mkNode name (before ++ separator :: after) (left ++ lower :: upper :: right)) := by
  have perm : (labels (mkNode name (before ++ separator :: after)
      (left ++ lower :: upper :: right))).Perm ((store.heap.size + 1) ::
        labels (mkNode name (before ++ after) (left ++ child :: right))) :=
    split_labels_perm splitEq
  have bounds := holds.rep.bounds
  have nodup := holds.nodup
  obtain ⟨lowerLabel, upperLabel, belowEq⟩ := split_labels splitEq
  have childRep := holds.rep.2 child (by simp)
  have view := labels_mkNode name (before ++ after) left right child
  rw [view] at nodup
  rw [labels_eq child, belowEq] at nodup
  obtain ⟨nameFresh, restNodup⟩ := List.nodup_cons.mp nodup
  obtain ⟨_, childRightNodup, leftApart⟩ := List.nodup_append.mp restNodup
  obtain ⟨childNodup, _, rightApart⟩ := List.nodup_append.mp childRightNodup
  have childFresh := (List.nodup_cons.mp childNodup).1
  -- The nodes below the cut child and beside it are old and differ from the two changed ones.
  have framed : ∀ address, address ∈ left.flatMap labels ∨ address ∈ labelsBelow lower ∨
      address ∈ labelsBelow upper ∨ address ∈ right.flatMap labels →
      bodyAt next.heap address = bodyAt store.heap address := by
    intro address member
    refine frame address (bounds address ?_).2 ?_ ?_
    · rw [view, labels_eq child, belowEq]
      simp only [List.mem_cons, List.mem_append]
      tauto
    · rintro rfl
      refine nameFresh ?_
      simp only [List.mem_cons, List.mem_append]
      tauto
    · rintro rfl
      rcases member with inLeft | inLower | inUpper | inRight
      · exact leftApart _ inLeft (label child) (by simp) rfl
      · exact childFresh (by simp [inLower])
      · exact childFresh (by simp [inUpper])
      · exact rightApart (label child) (by simp) _ inRight rfl
  obtain ⟨lowerBelow, upperBelow⟩ := (rep_iff.mp childRep).2.split splitEq
  refine ⟨⟨⟨nodeShown, ?_⟩, ?_, chained⟩, root, by omega, ?_, ?_, ?_⟩
  · intro other member
    rcases List.mem_append.mp member with inLeft | rest
    · exact (holds.rep.2 other (by simp [inLeft])).congr fun address inOther =>
        framed address (Or.inl (List.mem_flatMap.mpr ⟨other, inLeft, inOther⟩))
    · rcases List.mem_cons.mp rest with rfl | rest
      · exact rep_iff.mpr ⟨lowerShown, lowerBelow.congr fun address inBelow =>
          framed address (Or.inr (Or.inl inBelow))⟩
      · rcases List.mem_cons.mp rest with rfl | inRight
        · exact rep_iff.mpr ⟨upperShown, upperBelow.congr fun address inBelow =>
            framed address (Or.inr (Or.inr (Or.inl inBelow)))⟩
        · exact (holds.rep.2 other (by simp [inRight])).congr fun address inOther =>
            framed address (Or.inr (Or.inr (Or.inr (List.mem_flatMap.mpr ⟨other, inRight, inOther⟩))))
  · refine perm.nodup_iff.mpr (List.nodup_cons.mpr ⟨fun member => ?_, holds.nodup⟩)
    have := (bounds _ member).2
    omega
  · rw [perm.length_eq, List.length_cons, size]
    omega
  · intro address member
    rcases List.mem_cons.mp (perm.mem_iff.mp member) with new | old
    · exact Or.inr (by omega)
    · exact Or.inl old
  · intro address bound outside
    refine frame address bound ?_ ?_
    · rintro rfl
      exact outside (label_mem_labels (mkNode address (before ++ after) (left ++ child :: right)))
    · rintro rfl
      refine outside ?_
      rw [view]
      simp [label_mem_labels child]

end Assembly

/-! ### The heap after a split -/

/-- The heap with a new node and two changed ones. -/
def regraft (heap : Heap (Node t X)) (child parent : Nat)
    (sibling childNode parentNode : Node t X) : Heap (Node t X) :=
  ((heap.push sibling).set child childNode).set parent parentNode

section Regraft

variable {heap : Heap (Node t X)} {child parent : Nat}
  {oldChild oldParent : Node t X}

theorem get?_regraft (sibling childNode parentNode : Node t X) (childLive : heap.get? child = some oldChild)
    (parentLive : heap.get? parent = some oldParent) (address : Nat) :
    (regraft heap child parent sibling childNode parentNode).get? address =
      if address = parent then some parentNode
      else if address = child then some childNode
      else if address = heap.size + 1 then some sibling
      else heap.get? address := by
  have childOld := Heap.ne_fresh_of_get? childLive
  have parentOld := Heap.ne_fresh_of_get? parentLive
  have childKept : (heap.push sibling).get? child = some oldChild := by
    rw [Heap.get?_push, if_neg childOld, childLive]
  obtain ⟨found, parentKept⟩ :
      ∃ found, ((heap.push sibling).set child childNode).get? parent = some found := by
    rw [Heap.get?_set childKept, Heap.get?_push, if_neg parentOld, parentLive]
    split <;> exact ⟨_, rfl⟩
  rw [regraft, Heap.get?_set parentKept, Heap.get?_set childKept, Heap.get?_push]

@[simp] theorem size_regraft (sibling childNode parentNode : Node t X) :
    (regraft heap child parent sibling childNode parentNode).size = heap.size + 1 := by
  simp [regraft]

/-- Chain pointers of older nodes survive when parent and child keep theirs. -/
theorem linksAt_regraft (sibling childNode parentNode : Node t X)
    (childLive : heap.get? child = some oldChild)
    (parentLive : heap.get? parent = some oldParent) (childKept : childNode.links = oldChild.links)
    (parentKept : parentNode.links = oldParent.links) {address : Nat} {links : X}
    (found : linksAt heap address = some links) :
    linksAt (regraft heap child parent sibling childNode parentNode) address = some links := by
  obtain ⟨object, live, rfl⟩ := Option.map_eq_some_iff.mp found
  rw [linksAt, get?_regraft _ _ _ childLive parentLive]
  by_cases isParent : address = parent
  · subst isParent
    rw [parentLive] at live
    rw [if_pos rfl, Option.map_some, parentKept, Option.some.inj live]
  · rw [if_neg isParent]
    by_cases isChild : address = child
    · subst isChild
      rw [childLive] at live
      rw [if_pos rfl, Option.map_some, childKept, Option.some.inj live]
    · rw [if_neg isChild, if_neg (Heap.ne_fresh_of_get? live), live, Option.map_some]

end Regraft

/-! ### Moving the middle entry up -/

/-- `splitMiddle` runs when its loops do. -/
theorem splitMiddle_ok {copyChildren : Bool} (links : X) {index child parent : Nat}
    {store : Store (Node t X) Unit} {childNode parentNode grown : Node t X}
    {entries : CArray Entry (2 * t - 1)} {children : CArray Ptr (2 * t)}
    (childLive : store.heap.get? child = some childNode)
    (parentLive : store.heap.get? parent = some parentNode) (different : parent ≠ child)
    (entriesRan : CArray.copyFrom childNode.entries t (t - 1) (CArray.unwritten _ _) = .ok entries)
    (childrenRan : (if copyChildren then
        CArray.copyFrom childNode.children t t (CArray.unwritten _ _)
      else pure (CArray.unwritten _ _)) = Except.ok children)
    (graftRan : graft index (store.heap.size + 1) (fun slots => do
        let middle ← childNode.entries.get (t - 1)
        slots.set index middle) parentNode = .ok grown) :
    splitMiddle copyChildren links index parent child store =
      .ok ((), { store with
        heap := regraft store.heap child parent
          { childNode with nk := t - 1, entries := entries, children := children, links := links }
          { childNode with nk := t - 1 } grown }) := by
  have childOld := Heap.ne_fresh_of_get? childLive
  have parentOld := Heap.ne_fresh_of_get? parentLive
  have pushed : ∀ node : Node t X, (store.heap.push node).get? (store.heap.size + 1) = some node :=
    fun node => by rw [Heap.get?_push, if_pos rfl]
  have childKept : ∀ node : Node t X, (store.heap.push node).get? child = some childNode :=
    fun node => by rw [Heap.get?_push, if_neg childOld, childLive]
  have childCut : ∀ node cut : Node t X,
      ((store.heap.push node).set child cut).get? child = some cut := fun node cut => by
    rw [Heap.get?_set (childKept node), if_pos rfl]
  have parentKept : ∀ node cut : Node t X,
      ((store.heap.push node).set child cut).get? parent = some parentNode := fun node cut => by
    rw [Heap.get?_set (childKept node), if_neg different, Heap.get?_push, if_neg parentOld,
      parentLive]
  rw [splitMiddle, bind_ok (Prog.load_ok childLive), createNode, bind_ok (Prog.malloc_ok _ store),
    bind_ok (Prog.modify_ok (pushed _) (show _ = Except.ok { childNode with
      nk := t - 1, entries := entries, children := children, links := links } by
      cases copyChildren with
      | false =>
          cases childrenRan
          simp only [entriesRan, bind, Except.bind, Bool.false_eq_true, if_false]
          rfl
      | true =>
          simp only [if_true] at childrenRan
          simp only [entriesRan, bind, Except.bind, if_true, childrenRan]
          rfl))]
  simp only [Heap.push_set]
  rw [bind_ok (Prog.modify_pure_ok _ (childKept _)), bind_ok (Prog.load_ok (childCut _ _))]
  exact Prog.modify_ok (parentKept _ _) graftRan

/-- The loops of `splitMiddle` cut `full` into nodes that show `lower` and `upper`, with an entry
that shows `separator` between them. -/
def CutsMiddle (kind : Kind t I) (copyChildren : Bool) (links : X) (full : Node t X) {depth : Nat}
    (lower : PtrTree I depth) (separator : I) (upper : PtrTree I depth) : Prop :=
  ∃ entries children entry,
    CArray.copyFrom full.entries t (t - 1) (CArray.unwritten _ _) = .ok entries ∧
    (if copyChildren then CArray.copyFrom full.children t t (CArray.unwritten _ _)
      else pure (CArray.unwritten _ _)) = Except.ok children ∧
    full.entries.get (t - 1) = .ok entry ∧ kind.viewItem entry = some separator ∧
    Shows kind { full with nk := t - 1 }.body lower ∧
    Shows kind
      { full with nk := t - 1, entries := entries, children := children, links := links }.body upper

/-- A full inner node is cut around its middle separator. -/
theorem cutsMiddle_inner {links : X} {full : Node t X} {fresh low depth : Nat}
    {child lower upper : PtrTree I (depth + 1)} {separator : I} (shows : Shows kind full.body child)
    (shape : Shape kind.scheme low child) (isFull : width child = kind.scheme.maxKeys)
    (splitEq : split kind.scheme fresh child = some (lower, separator, upper)) :
    CutsMiddle kind true links full lower separator upper := by
  have degree := kind.degree
  obtain ⟨isLeaf, nk, items, children⟩ := shows
  have itemsLength : child.items.length = 2 * t - 1 := by
    rw [← kind.maxKeys_eq]
    exact isFull
  have childrenLength : child.children.length = 2 * t := by
    have := shape.2.1
    omega
  simp only [split, kind.minDegree_eq] at splitEq
  split at splitEq
  · cases splitEq
  · rename_i middle high dropEq
    simp only [Option.some.injEq, Prod.mk.injEq] at splitEq
    obtain ⟨rfl, rfl, rfl⟩ := splitEq
    have highEq : (child.items.drop t).take (t - 1) = high := by
      have dropped : child.items.drop t = high := by
        rw [show t = t - 1 + 1 by omega, ← List.drop_drop, dropEq]
        rfl
      rw [dropped, List.take_of_length_le]
      have := congrArg List.length dropped
      simp only [List.length_drop] at this
      omega
    have kidsEq : ((child.children.map label).drop t).take t = (child.children.drop t).map label := by
      rw [List.take_of_length_le (by simp only [List.length_drop, List.length_map]; omega),
        List.map_drop]
    have middleAt : child.items[t - 1]? = some middle := by
      have := congrArg List.head? dropEq
      rwa [List.head?_drop] at this
    obtain ⟨copied, entriesRan, copiedShown⟩ :=
      CArray.copyFrom_prefix items (CArray.unwritten Entry (2 * t - 1))
        (show t + (t - 1) ≤ _ by omega)
    obtain ⟨kids, childrenRan, kidsShown⟩ :=
      CArray.copyFrom_prefix children (CArray.unwritten Ptr (2 * t))
        (show t + t ≤ (child.children.map label).length by rw [List.length_map]; omega)
    obtain ⟨entry, written, viewed⟩ := items _ _ middleAt
    refine ⟨copied, kids, entry, entriesRan, childrenRan, CArray.get_ok written, viewed,
      ⟨isLeaf, ?_, items.take (t - 1), ?_⟩, isLeaf, ?_, ?_, ?_⟩
    · show t - 1 = (child.items.take (t - 1)).length
      simp only [List.length_take]
      omega
    · have taken := children.take t
      rwa [← List.map_take] at taken
    · show t - 1 = high.length
      rw [← highEq]
      simp only [List.length_take, List.length_drop]
      omega
    · rwa [highEq] at copiedShown
    · rwa [kidsEq] at kidsShown

/-- `splitMiddle` does to the heap what `split` does to the tree. -/
theorem splitMiddle_refines {chain : LeafChain X} {store : Store (Node t X) Unit}
    {front back : List Nat} {depth name : Nat} {before after : List I}
    {left right : List (PtrTree I depth)} {child lower upper : PtrTree I depth} {separator : I}
    (copyChildren : Bool) (links : X)
    (holds : Holds kind chain store front back
      (mkNode name (before ++ after) (left ++ child :: right)))
    (leftAligned : left.length = before.length) (rightAligned : right.length = after.length)
    (room : (before ++ after).length < kind.scheme.maxKeys)
    (splitEq : split kind.scheme (store.heap.size + 1) child = some (lower, separator, upper))
    (cuts : ∀ full : Node t X, Shows kind full.body child →
      CutsMiddle kind copyChildren links full lower separator upper)
    (chained : ∀ heap : Heap (Node t X),
      (∀ address value, linksAt store.heap address = some value →
        linksAt heap address = some value) →
      chain.holds (linksAt heap) (front ++ (leafLabels
        (mkNode name (before ++ separator :: after) (left ++ lower :: upper :: right)) ++ back))) :
    ∃ next, splitMiddle copyChildren links before.length name (label child) store =
        .ok ((), next) ∧
      Holds kind chain next front back
        (mkNode name (before ++ separator :: after) (left ++ lower :: upper :: right)) ∧
      Step store next (mkNode name (before ++ after) (left ++ child :: right))
        (mkNode name (before ++ separator :: after) (left ++ lower :: upper :: right)) := by
  obtain ⟨lowerLabel, upperLabel, _⟩ := split_labels splitEq
  obtain ⟨parentNode, parentLive, parentShows⟩ := holds.rep.root
  have parentLive : store.heap.get? name = some parentNode := parentLive
  obtain ⟨childNode, childLive, childShows⟩ := (holds.rep.2 child (by simp)).root
  obtain ⟨entries, children, entry, entriesRan, childrenRan, middleRead, viewed, lowerShows,
    upperShows⟩ := cuts childNode childShows
  have different := holds.parent_ne_child
  obtain ⟨grown, graftRan, grownLinks, grownShows⟩ :=
    graft_ok kind (fun slots => do
        let middle ← childNode.entries.get (t - 1)
        slots.set before.length middle)
      parentShows leftAligned rightAligned room lowerLabel fun slots =>
        ⟨entry, by
          simp only [middleRead, bind, Except.bind]
          exact CArray.set_ok (by
            rw [← kind.maxKeys_eq]
            simp only [List.length_append] at room
            omega) _ _, viewed⟩
  rw [upperLabel] at graftRan
  have ran := splitMiddle_ok links childLive parentLive different entriesRan childrenRan
    graftRan
  have found := get?_regraft
    { childNode with nk := t - 1, entries := entries, children := children, links := links }
    { childNode with nk := t - 1 } grown childLive parentLive
  refine ⟨_, ran, holds.split splitEq rfl (size_regraft _ _ _) ⟨grown.body, ?_, grownShows⟩
    ⟨_, ?_, lowerShows⟩ ⟨_, ?_, upperShows⟩ ?_ (chained _ ?_)⟩
  · show Option.map Node.body _ = _
    rw [found]
    simp [label]
  · show Option.map Node.body _ = _
    rw [found, lowerLabel, if_neg different.symm, if_pos rfl]
    rfl
  · show Option.map Node.body _ = _
    rw [found, upperLabel, if_neg (Heap.ne_fresh_of_get? parentLive).symm,
      if_neg (Heap.ne_fresh_of_get? childLive).symm, if_pos rfl]
    rfl
  · intro address bound notParent notChild
    show Option.map Node.body _ = _
    rw [found, if_neg notParent, if_neg notChild, if_neg (by omega)]
    rfl
  · intro address value old
    exact linksAt_regraft _ { childNode with nk := t - 1 } grown childLive parentLive rfl grownLinks
      old

end StoredsBench.Trees
