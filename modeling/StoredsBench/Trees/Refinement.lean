/-
Module: StoredsBench.Trees.Refinement
Layer: Refinement
Purpose: The nodes on the heap show a multiway tree whose labels are their addresses.  `Rep` relates
  the two; it only depends on the nodes at those addresses and not on their chain pointers.  The
  insertion of both classes is proved here to do to the heap what `Multiway.insertNotFull` does to
  the tree, given that the class' own `split_node` does what `Multiway.split` does.
Trusted boundary: none
Main exports: Kind, Rep, Holds, Step, SplitRefines, insertNotFull_refines
-/
import StoredsBench.Trees.Node
import StoredsBench.Lib.Multiway.Labels
import Mathlib.Data.List.Perm.Subperm

namespace StoredsBench.Trees

open Lib Lib.Multiway

/-- What a class stores in its inner nodes, and how. -/
structure Kind (t : Nat) (I : Type) where
  scheme : Scheme Key I (Key × Value)
  /-- What an entry of an inner node shows. -/
  viewItem : Entry → Option I
  minDegree_eq : scheme.minDegree = t
  lawful : Lawful scheme
  entryKey_eq : scheme.entryKey = Prod.fst
  viewItem_key : ∀ entry item, viewItem entry = some item → entry.key = scheme.itemKey item
  /-- What overwriting the value of an entry does to what it shows. -/
  setItem : Value → I → I
  viewItem_copy : ∀ entry item value, viewItem entry = some item →
    viewItem { entry with value := entry.value.copyString value } = some (setItem value item)
  itemKey_set : ∀ value item, scheme.itemKey (setItem value item) = scheme.itemKey item
  carries_set : ∀ value item pair, scheme.carries item = some pair →
    scheme.carries (setItem value item) = some (pair.1, value)

/-- The trees shown by a heap: labels are addresses. -/
abbrev PtrTree (I : Type) (depth : Nat) := Tree Nat I (Key × Value) depth

/-- What an entry of a leaf shows. -/
def viewEntry (entry : Entry) : Option (Key × Value) :=
  entry.value.string?.map fun value => (entry.key, value)

theorem viewEntry_key {entry : Entry} {pair : Key × Value} (viewed : viewEntry entry = some pair) :
    entry.key = pair.1 := by
  obtain ⟨value, _, rfl⟩ := Option.map_eq_some_iff.mp viewed
  rfl

section Representation

variable {t : Nat} {X I : Type}

/-- A node without its chain pointers. -/
def Node.body (node : Node t X) : Node t Unit where
  isLeaf := node.isLeaf
  nk := node.nk
  entries := node.entries
  children := node.children
  links := ()

@[simp] theorem Node.body_isLeaf (node : Node t X) : node.body.isLeaf = node.isLeaf := rfl

@[simp] theorem Node.body_nk (node : Node t X) : node.body.nk = node.nk := rfl

@[simp] theorem Node.body_entries (node : Node t X) : node.body.entries = node.entries := rfl

@[simp] theorem Node.body_children (node : Node t X) : node.body.children = node.children := rfl

def bodyAt (heap : Heap (Node t X)) (address : Ptr) : Option (Node t Unit) :=
  (heap.get? address).map Node.body

def linksAt (heap : Heap (Node t X)) (address : Ptr) : Option X :=
  (heap.get? address).map Node.links

theorem bodyAt_set {heap : Heap (Node t X)} {address : Nat} {old : Node t X}
    (live : heap.get? address = some old) (node : Node t X) (other : Nat) :
    bodyAt (heap.set address node) other =
      if other = address then some node.body else bodyAt heap other := by
  simp only [bodyAt, Heap.get?_set live]
  split <;> rfl

/-- Writing a node back with its chain pointers changes no chain pointer. -/
theorem linksAt_set {heap : Heap (Node t X)} {address : Nat} {old node : Node t X}
    (live : heap.get? address = some old) (kept : node.links = old.links) :
    linksAt (heap.set address node) = linksAt heap := by
  funext other
  simp only [linksAt, Heap.get?_set live]
  split
  · rename_i same
    rw [same, live, Option.map_some, Option.map_some, kept]
  · rfl

theorem bodyAt_push (heap : Heap (Node t X)) (node : Node t X) {address : Nat}
    (old : address ≤ heap.size) : bodyAt (heap.push node) address = bodyAt heap address := by
  rw [bodyAt, Heap.get?_push, if_neg (by omega)]
  rfl

theorem linksAt_push {heap : Heap (Node t X)} (node : Node t X) {address : Nat} {links : X}
    (found : linksAt heap address = some links) :
    linksAt (heap.push node) address = some links := by
  obtain ⟨object, live, rfl⟩ := Option.map_eq_some_iff.mp found
  have old := Heap.ne_fresh_of_get? live
  rw [linksAt, Heap.get?_push, if_neg old, live, Option.map_some]

/-- A node shows the root of a tree: its kind, its key count, and the written part of its arrays. -/
def Shows (kind : Kind t I) (node : Node t Unit) : {depth : Nat} → PtrTree I depth → Prop
  | 0, leaf =>
      node.isLeaf = true ∧ node.nk = leaf.entries.length ∧
        CArray.Prefix viewEntry node.entries leaf.entries
  | _ + 1, tree =>
      node.isLeaf = false ∧ node.nk = tree.items.length ∧
        CArray.Prefix kind.viewItem node.entries tree.items ∧
        CArray.Prefix some node.children (tree.children.map label)

/-- The node at the label of a tree shows its root. -/
def ShowsAt (kind : Kind t I) (heap : Heap (Node t X)) {depth : Nat} (tree : PtrTree I depth) :
    Prop :=
  ∃ body, bodyAt heap (label tree) = some body ∧ Shows kind body tree

/-- The heap shows a tree at the addresses that are its labels. -/
def Rep (kind : Kind t I) (heap : Heap (Node t X)) : {depth : Nat} → PtrTree I depth → Prop
  | 0, leaf => ShowsAt kind heap leaf
  | _ + 1, tree => ShowsAt kind heap tree ∧ ∀ child ∈ tree.children, Rep kind heap child

variable {kind : Kind t I} {heap after : Heap (Node t X)}

theorem Rep.showsAt {depth : Nat} {tree : PtrTree I depth} (rep : Rep kind heap tree) :
    ShowsAt kind heap tree := by
  cases depth with
  | zero => exact rep
  | succ depth => exact rep.1

theorem Rep.root {depth : Nat} {tree : PtrTree I depth} (rep : Rep kind heap tree) :
    ∃ node, heap.get? (label tree) = some node ∧ Shows kind node.body tree := by
  obtain ⟨body, found, shows⟩ := rep.showsAt
  obtain ⟨node, live, rfl⟩ := Option.map_eq_some_iff.mp found
  exact ⟨node, live, shows⟩

theorem Shows.isLeaf {node : Node t Unit} {depth : Nat} {tree : PtrTree I depth}
    (shows : Shows kind node tree) : node.isLeaf = decide (depth = 0) := by
  cases depth with
  | zero => exact shows.1
  | succ depth => exact shows.1

theorem Shows.nk {node : Node t Unit} {depth : Nat} {tree : PtrTree I depth}
    (shows : Shows kind node tree) : node.nk = width tree := by
  cases depth with
  | zero => exact shows.2.1
  | succ depth => exact shows.2.1

theorem ShowsAt.congr {depth : Nat} {tree : PtrTree I depth} (shown : ShowsAt kind heap tree)
    (same : bodyAt after (label tree) = bodyAt heap (label tree)) : ShowsAt kind after tree := by
  obtain ⟨body, found, shows⟩ := shown
  exact ⟨body, same.trans found, shows⟩

/-- The tree a heap shows is determined by the bodies at its labels. -/
theorem Rep.congr : ∀ {depth : Nat} {tree : PtrTree I depth}, Rep kind heap tree →
    (∀ address ∈ labels tree, bodyAt after address = bodyAt heap address) → Rep kind after tree
  | 0, leaf, rep, same => ShowsAt.congr rep (same _ (label_mem_labels leaf))
  | depth + 1, tree, rep, same => by
      refine ⟨rep.1.congr (same _ (label_mem_labels tree)), ?_⟩
      intro child member
      exact (rep.2 child member).congr fun address inChild =>
        same address (List.mem_cons_of_mem _ (List.mem_flatMap.mpr ⟨child, member, inChild⟩))

/-- All labels of a shown tree are addresses in use. -/
theorem Rep.bounds : ∀ {depth : Nat} {tree : PtrTree I depth}, Rep kind heap tree →
    ∀ address ∈ labels tree, 0 < address ∧ address ≤ heap.size
  | 0, leaf, rep, address, member => by
      obtain ⟨node, live, _⟩ := rep.root
      rw [List.mem_singleton.mp member]
      exact Heap.bounds_of_get? live
  | depth + 1, tree, rep, address, member => by
      rcases List.mem_cons.mp member with here | below
      · obtain ⟨node, live, _⟩ := rep.root
        rw [here]
        exact Heap.bounds_of_get? live
      · obtain ⟨child, childMember, inChild⟩ := List.mem_flatMap.mp below
        exact (rep.2 child childMember).bounds address inChild

/-- A heap has allocated every node of the tree it shows. -/
theorem Rep.length_labels_le {depth : Nat} {tree : PtrTree I depth} (rep : Rep kind heap tree)
    (nodup : (labels tree).Nodup) : (labels tree).length ≤ heap.size :=
  Heap.length_le_size nodup rep.bounds

/-- A heap that shows a tree has allocated more objects than the tree is deep. -/
theorem Rep.depth_lt_size {depth low : Nat} {tree : PtrTree I depth} (rep : Rep kind heap tree)
    (nodup : (labels tree).Nodup) (shape : Shape kind.scheme low tree) : depth < heap.size :=
  Nat.lt_of_lt_of_le (depth_lt_length_labels shape) (rep.length_labels_le nodup)

end Representation

/-! ### Whole steps -/

/-- What a class maintains about the chain pointers of its leaves.  It speaks about allocated
nodes only, so that further allocations do not disturb it. -/
structure LeafChain (X : Type) where
  holds : (Nat → Option X) → List Nat → Prop
  stable : ∀ {links after : Nat → Option X} {leaves : List Nat},
    (∀ address value, links address = some value → after address = some value) →
    holds links leaves → holds after leaves

section Steps

variable {t : Nat} {X I : Type}

/-- The heap shows the tree, whose nodes are all distinct, and the chain runs through its leaves
between those of `front` and those of `back`. -/
structure Holds (kind : Kind t I) (chain : LeafChain X) (store : Store (Node t X) Unit)
    (front back : List Nat) {depth : Nat} (tree : PtrTree I depth) : Prop where
  rep : Rep kind store.heap tree
  nodup : (labels tree).Nodup
  chained : chain.holds (linksAt store.heap) (front ++ (leafLabels tree ++ back))

/-- A step from `tree` to `grown`: it allocates the new nodes of `grown` and no others, and it touches no
older node outside `tree`. -/
structure Step (before after : Store (Node t X) Unit) {depth height : Nat}
    (tree : PtrTree I depth) (grown : PtrTree I height) : Prop where
  root : after.root = before.root
  size : before.heap.size ≤ after.heap.size
  allocated : after.heap.size + (Multiway.labels tree).length =
    before.heap.size + (Multiway.labels grown).length
  labels : ∀ address ∈ labels grown, address ∈ labels tree ∨ before.heap.size < address
  frame : ∀ address ≤ before.heap.size, address ∉ Multiway.labels tree →
    bodyAt after.heap address = bodyAt before.heap address

variable {kind : Kind t I} {chain : LeafChain X} {store after : Store (Node t X) Unit}
  {front back : List Nat} {depth : Nat}

theorem Step.trans {middle : Store (Node t X) Unit} {tree first second : PtrTree I depth}
    (step : Step store middle tree first) (next : Step middle after first second) :
    Step store after tree second where
  root := next.root.trans step.root
  size := step.size.trans next.size
  allocated := by
    have first := step.allocated
    have second := next.allocated
    omega
  labels := by
    intro address member
    have size := step.size
    rcases next.labels address member with old | new
    · exact step.labels address old
    · exact Or.inr (by omega)
  frame := by
    intro address bound outside
    have size := step.size
    have outsideFirst : address ∉ Multiway.labels first := fun member => by
      rcases step.labels address member with old | new
      · exact outside old
      · omega
    rw [next.frame address (by omega) outsideFirst, step.frame address bound outside]

theorem Holds.child {name : Nat} {items : List I} {left right : List (PtrTree I depth)}
    {child : PtrTree I depth}
    (holds : Holds kind chain store front back (mkNode name items (left ++ child :: right))) :
    Holds kind chain store (front ++ left.flatMap leafLabels) (right.flatMap leafLabels ++ back)
      child where
  rep := holds.rep.2 child (by simp)
  nodup := nodup_child holds.nodup
  chained := by
    have chained := holds.chained
    rw [leafLabels_mkNode] at chained
    simpa only [List.append_assoc] using chained

theorem Holds.parent_ne_child {name : Nat} {items : List I} {left right : List (PtrTree I depth)}
    {child : PtrTree I depth}
    (holds : Holds kind chain store front back (mkNode name items (left ++ child :: right))) :
    name ≠ label child := by
  have nodup := holds.nodup
  rw [labels_mkNode] at nodup
  intro same
  exact (List.nodup_cons.mp nodup).1 (by rw [same]; simp [label_mem_labels])

/-- A step inside a child is a step of the node. -/
theorem Holds.replace {name : Nat} {items : List I} {left right : List (PtrTree I depth)}
    {child grown : PtrTree I depth}
    (holds : Holds kind chain store front back (mkNode name items (left ++ child :: right)))
    (step : Step store after child grown) (sameLabel : label grown = label child)
    (grownHolds : Holds kind chain after (front ++ left.flatMap leafLabels)
      (right.flatMap leafLabels ++ back) grown) :
    Holds kind chain after front back (mkNode name items (left ++ grown :: right)) ∧
      Step store after (mkNode name items (left ++ child :: right))
        (mkNode name items (left ++ grown :: right)) := by
  have bounds := holds.rep.bounds
  have nodup := holds.nodup
  rw [labels_mkNode] at nodup bounds
  obtain ⟨nameFresh, restNodup⟩ := List.nodup_cons.mp nodup
  obtain ⟨leftNodup, childRightNodup, leftApart⟩ := List.nodup_append.mp restNodup
  obtain ⟨childNodup, rightNodup, childApart⟩ := List.nodup_append.mp childRightNodup
  -- Nothing outside the child is touched, because it is old and has another address.
  have untouched : ∀ address ∈ name :: (left.flatMap labels ++ right.flatMap labels),
      address ∉ labels child ∧ address ∉ labels grown := by
    intro address member
    have outside : address ∉ labels child := by
      intro inChild
      simp only [List.mem_cons, List.mem_append] at member
      rcases member with here | inLeft | inRight
      · exact nameFresh (by rw [← here]; simp [inChild])
      · exact leftApart address inLeft address (by simp [inChild]) rfl
      · exact childApart address inChild address inRight rfl
    refine ⟨outside, fun inGrown => ?_⟩
    have bound := (bounds address (by
      simp only [List.mem_cons, List.mem_append] at member ⊢
      tauto)).2
    rcases step.labels address inGrown with old | new
    · exact outside old
    · omega
  have framed : ∀ address ∈ name :: (left.flatMap labels ++ right.flatMap labels),
      bodyAt after.heap address = bodyAt store.heap address := by
    intro address member
    refine step.frame address (bounds address ?_).2 (untouched address member).1
    simp only [List.mem_cons, List.mem_append] at member ⊢
    tauto
  refine ⟨⟨?_, ?_, ?_⟩, ⟨step.root, step.size, ?_, ?_, ?_⟩⟩
  · refine ⟨?_, ?_⟩
    · obtain ⟨body, found, shows⟩ := holds.rep.1
      refine ⟨body, (framed name (by simp)).trans found, shows.1, shows.2.1, shows.2.2.1, ?_⟩
      have shownChildren := shows.2.2.2
      simpa [sameLabel] using shownChildren
    · intro other member
      have sibling : other ∈ left ∨ other ∈ right → Rep kind after.heap other := by
        intro side
        refine (holds.rep.2 other (by simp; tauto)).congr fun address inOther => framed address ?_
        simp only [List.mem_cons, List.mem_append, List.mem_flatMap]
        exact Or.inr (side.imp (fun inLeft => ⟨other, inLeft, inOther⟩)
          fun inRight => ⟨other, inRight, inOther⟩)
      rcases List.mem_append.mp member with inLeft | rest
      · exact sibling (Or.inl inLeft)
      · rcases List.mem_cons.mp rest with here | inRight
        · rw [here]
          exact grownHolds.rep
        · exact sibling (Or.inr inRight)
  · rw [labels_mkNode]
    refine List.nodup_cons.mpr ⟨?_, List.nodup_append.mpr
      ⟨leftNodup, List.nodup_append.mpr ⟨grownHolds.nodup, rightNodup, ?_⟩, ?_⟩⟩
    · intro member
      simp only [List.mem_append] at member
      rcases member with inLeft | inGrown | inRight
      · exact nameFresh (by simp [inLeft])
      · exact (untouched name (by simp)).2 inGrown
      · exact nameFresh (by simp [inRight])
    · intro first inGrown second inRight same
      exact (untouched second (by simp [inRight])).2 (same ▸ inGrown)
    · intro first inLeft second member same
      rcases List.mem_append.mp member with inGrown | inRight
      · exact (untouched first (by simp [inLeft])).2 (same ▸ inGrown)
      · exact leftApart first inLeft second (by simp [inRight]) same
  · rw [leafLabels_mkNode]
    simpa only [List.append_assoc] using grownHolds.chained
  · have allocated := step.allocated
    simp only [labels_mkNode, List.length_cons, List.length_append]
    omega
  · intro address member
    rw [labels_mkNode] at member ⊢
    simp only [List.mem_cons, List.mem_append] at member ⊢
    rcases member with here | inLeft | inGrown | inRight
    · tauto
    · tauto
    · rcases step.labels address inGrown with old | new <;> tauto
    · tauto
  · intro address bound outside
    rw [labels_mkNode] at outside
    exact step.frame address bound fun inChild => outside (by simp [inChild])

end Steps

/-! ### The parts of `insert` -/

section Inserting

variable {t : Nat} {X : Type} {splitNode : Nat → Ptr → Ptr → TreeProg t X Unit}
  {updateIfFound : Nat → Ptr → Key → Value → TreeProg t X Bool} {links : X}

/-- The part of `insert` that follows an unsuccessful update. -/
def insertAbsent (splitNode : Nat → Ptr → Ptr → TreeProg t X Unit) (links : X) (depthBound : Nat)
    (root : Ptr) (key : Key) (value : Value) : TreeProg t X Int := do
  let rootContents ← Prog.load root
  if isNodeFull t rootContents.nk then
    let newRoot ← createNode false links
    Prog.modify newRoot fun node => do
      let children ← node.children.set 0 root
      return { node with children := children }
    splitNode 0 newRoot root
    let newContents ← Prog.load newRoot
    let separator ← Prog.lift (newContents.entries.get 0)
    let child ← Prog.lift (newContents.children.get (if separator.key < key then 1 else 0))
    insertNotFull splitNode depthBound child key value
    Prog.setRoot newRoot
    return 1
  else
    insertNotFull splitNode depthBound root key value
    return 1

/-- A split whose separator comes from another node. -/
theorem graft_choose {α : Type} {index : Nat} {sibling : Ptr} {source : Except Fault α}
    {place : α → CArray Entry (2 * t - 1) → Except Fault (CArray Entry (2 * t - 1))}
    {node changed : Node t X}
    (ran : graft index sibling (fun entries => do
      let value ← source
      place value entries) node = .ok changed) :
    ∃ value, source = .ok value ∧ graft index sibling (place value) node = .ok changed := by
  obtain ⟨room, roomRan, ran⟩ := except_bind_inv ran
  obtain ⟨grown, setRan, ran⟩ := except_bind_inv ran
  obtain ⟨shifted, shiftRan, ran⟩ := except_bind_inv ran
  obtain ⟨placed, placeRan, ran⟩ := except_bind_inv ran
  obtain ⟨value, chosen, placeRan⟩ := except_bind_inv placeRan
  refine ⟨value, chosen, ?_⟩
  rw [graft, except_bind_ok roomRan, except_bind_ok setRan, except_bind_ok shiftRan,
    except_bind_ok placeRan]
  exact ran

/-- `insert` on a store with a root. -/
theorem insert_of_root {store : Store (Node t X) Unit} (rooted : store.root ≠ null) (key : Key)
    (value : Value) :
    insert splitNode updateIfFound links key value store =
      (do
        let isUpdated ← updateIfFound store.heap.size store.root key value
        if isUpdated then return 1
        else insertAbsent splitNode links store.heap.size store.root key value) store := by
  rw [insert, bind_ok (Prog.getRoot_ok store), if_neg rooted, bind_ok (Prog.heapSize_ok store)]
  rfl

end Inserting

end StoredsBench.Trees
