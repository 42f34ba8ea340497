/-
Module: StoredsBench.Rbtree.Refinement
Layer: Refinement
Purpose: The nodes on the heap show a red-black tree whose labels are their addresses, with parent
  pointers to match.  `Holds` says so of a tree seen from one of its places, so that a write, a
  recolouring or a rotation at that place is one step from a tree to a tree.
Trusted boundary: none
Main exports: Shown, Rep, RepAbove, Holds, rotate_ok, setColor_ok, recolor_ok
-/
import StoredsBench.Rbtree.Node
import Mathlib.Logic.Function.Basic

namespace StoredsBench.Rbtree

open Lib Lib.RedBlack Lib.RedBlack.Tree

variable {X : Type}

/-- The trees shown by a heap: labels are addresses. -/
abbrev PtrTree := Tree Nat (Key × Value)

abbrev PtrFrame := Frame Nat (Key × Value)

/-! ### What a node shows -/

structure Shown where
  entry : Key × Value
  color : Color
  left : Nat
  right : Nat
  parent : Nat

namespace Shown

def child (shown : Shown) : Side → Nat
  | .left => shown.left
  | .right => shown.right

def withChild (side : Side) (address : Nat) (shown : Shown) : Shown :=
  match side with
  | .left => { shown with left := address }
  | .right => { shown with right := address }

/-- The children by side: `near` on `side`, `far` on the other one. -/
def build (side : Side) (entry : Key × Value) (color : Color) (near far parent : Nat) : Shown :=
  match side with
  | .left => ⟨entry, color, near, far, parent⟩
  | .right => ⟨entry, color, far, near, parent⟩

section Build

variable (side : Side) (entry : Key × Value) (color : Color) (near far parent other : Nat)

@[simp] theorem build_entry : (build side entry color near far parent).entry = entry := by
  cases side <;> rfl

@[simp] theorem build_color : (build side entry color near far parent).color = color := by
  cases side <;> rfl

@[simp] theorem build_parent : (build side entry color near far parent).parent = parent := by
  cases side <;> rfl

@[simp] theorem build_near : (build side entry color near far parent).child side = near := by
  cases side <;> rfl

@[simp] theorem build_far : (build side entry color near far parent).child side.other = far := by
  cases side <;> rfl

theorem build_left : (build side entry color near far parent).left =
    if side = .left then near else far := by
  cases side <;> rfl

@[simp] theorem build_withNear :
    (build side entry color near far parent).withChild side other =
      build side entry color other far parent := by
  cases side <;> rfl

@[simp] theorem build_withFar :
    (build side entry color near far parent).withChild side.other other =
      build side entry color near other parent := by
  cases side <;> rfl

theorem build_withParent :
    { build side entry color near far parent with parent := other } =
      build side entry color near far other := by
  cases side <;> rfl

end Build

end Shown

def RbNode.view (node : RbNode) : Option Shown :=
  node.value.string?.map fun value =>
    ⟨(node.key, value), node.color, node.left, node.right, node.parent⟩

def viewAt (heap : Heap RbNode) (address : Nat) : Option Shown :=
  (heap.get? address).bind RbNode.view

/-- The members of a node that shows `shown`. -/
structure Views (node : RbNode) (shown : Shown) : Prop where
  key : node.key = shown.entry.1
  value : node.value.string? = some shown.entry.2
  color : node.color = shown.color
  child : ∀ side, node.child side = shown.child side
  parent : node.parent = shown.parent

theorem views_of_view {node : RbNode} {shown : Shown} (viewed : node.view = some shown) :
    Views node shown := by
  obtain ⟨value, read, rfl⟩ := Option.map_eq_some_iff.mp viewed
  constructor
  · rfl
  · exact read
  · rfl
  · intro side
    cases side <;> rfl
  · rfl

theorem view_withChild (side : Side) (address : Nat) (node : RbNode) :
    (node.withChild side address).view = node.view.map (Shown.withChild side address) := by
  cases side <;> simp [RbNode.view, RbNode.withChild, Shown.withChild, Function.comp_def]

theorem view_withParent (address : Nat) (node : RbNode) :
    RbNode.view { node with parent := address } =
      node.view.map fun shown => { shown with parent := address } := by
  simp [RbNode.view, Function.comp_def]

theorem view_withColor (color : Color) (node : RbNode) :
    RbNode.view { node with color := color } =
      node.view.map fun shown => { shown with color := color } := by
  simp [RbNode.view, Function.comp_def]

/-- What no write changes. -/
structure Kept (before after : Store RbNode X) : Prop where
  aux : after.aux = before.aux
  size : after.heap.size = before.heap.size

theorem Kept.refl (store : Store RbNode X) : Kept store store := ⟨rfl, rfl⟩

theorem Kept.trans {first second third : Store RbNode X} (one : Kept first second)
    (two : Kept second third) : Kept first third :=
  ⟨two.aux.trans one.aux, two.size.trans one.size⟩

section Access

variable {store : Store RbNode X} {address : Nat} {shown : Shown}

theorem exists_live (found : viewAt store.heap address = some shown) :
    ∃ node, store.heap.get? address = some node ∧ node.view = some shown :=
  Option.bind_eq_some_iff.mp found

theorem ne_null_of_view (found : viewAt store.heap address = some shown) : address ≠ null := by
  obtain ⟨node, live, _⟩ := exists_live found
  exact Heap.ne_null_of_get? live

theorem load_shown (found : viewAt store.heap address = some shown) :
    ∃ node, Prog.load address store = .ok (node, store) ∧ Views node shown := by
  obtain ⟨node, live, viewed⟩ := exists_live found
  exact ⟨node, Prog.load_ok live, views_of_view viewed⟩

/-- A write to a node that shows something changes what it shows and nothing else. -/
theorem write_ok (found : viewAt store.heap address = some shown) (change : RbNode → RbNode)
    {changed : Shown} (agrees : ∀ node, node.view = some shown → (change node).view = some changed) :
    ∃ next, Prog.modify address (fun node => .ok (change node)) store = .ok ((), next) ∧
      Kept store next ∧ next.root = store.root ∧
      viewAt next.heap = Function.update (viewAt store.heap) address (some changed) := by
  obtain ⟨node, live, viewed⟩ := exists_live found
  refine ⟨_, Prog.modify_pure_ok change live, ⟨rfl, Heap.size_set _ _ _⟩, rfl, ?_⟩
  funext other
  rw [viewAt, Heap.get?_set live, Function.update_apply]
  split
  · exact agrees node viewed
  · rfl

theorem setChild_ok (found : viewAt store.heap address = some shown) (side : Side) (other : Nat) :
    ∃ next, Prog.modify address (fun node => .ok (node.withChild side other)) store =
        .ok ((), next) ∧ Kept store next ∧ next.root = store.root ∧
      viewAt next.heap =
        Function.update (viewAt store.heap) address (some (shown.withChild side other)) := by
  apply write_ok found
  intro node viewed
  rw [view_withChild, viewed]
  rfl

theorem setParent_ok (found : viewAt store.heap address = some shown) (other : Nat) :
    ∃ next, Prog.modify address (fun node => .ok { node with parent := other }) store =
        .ok ((), next) ∧ Kept store next ∧ next.root = store.root ∧
      viewAt next.heap =
        Function.update (viewAt store.heap) address (some { shown with parent := other }) := by
  apply write_ok found (fun node => { node with parent := other })
  intro node viewed
  rw [view_withParent, viewed]
  rfl

end Access

/-! ### Trees on the heap -/

/-- The pointer to a tree. -/
def rootLabel : PtrTree → Nat
  | .leaf => null
  | .node _ label _ _ _ => label

/-- Every node of the tree shows its entry, its colour, its children and its parent. -/
def Rep (views : Nat → Option Shown) (parent : Nat) : PtrTree → Prop
  | .leaf => True
  | .node color label entry left right =>
      views label = some ⟨entry, color, rootLabel left, rootLabel right, parent⟩ ∧
        Rep views label left ∧ Rep views label right

/-- The parent of a place. -/
def parentLabel : List PtrFrame → Nat
  | [] => null
  | frame :: _ => frame.label

/-- The frames above a place show themselves around what hangs there. -/
def RepAbove (views : Nat → Option Shown) (hole : Nat) : List PtrFrame → Prop
  | [] => True
  | frame :: above =>
      views frame.label = some (Shown.build frame.side frame.entry frame.color hole
        (rootLabel frame.sibling) (parentLabel above)) ∧
      Rep views frame.label frame.sibling ∧ RepAbove views frame.label above

def labelsAbove : List PtrFrame → List Nat
  | [] => []
  | frame :: above => frame.label :: (frame.sibling.labels ++ labelsAbove above)

section Trees

variable {views after : Nat → Option Shown} {parent hole : Nat} {tree near far : PtrTree}
  {above : List PtrFrame} (side : Side) (color : Color) (label : Nat) (entry : Key × Value)

theorem rep_build :
    Rep views parent (build side color label entry near far) ↔
      views label =
        some (Shown.build side entry color (rootLabel near) (rootLabel far) parent) ∧
      Rep views label near ∧ Rep views label far := by
  cases side with
  | left => exact Iff.rfl
  | right => exact and_congr_right fun _ => and_comm

@[simp] theorem rootLabel_build : rootLabel (build side color label entry near far) = label := by
  cases side <;> rfl

theorem build_other :
    build side.other color label entry far near = build side color label entry near far := by
  cases side <;> rfl

theorem labels_build :
    (build side color label entry near far).labels.Perm (label :: (near.labels ++ far.labels)) := by
  cases side with
  | left =>
      simp only [build, labels, inorder, List.map_append, List.map_cons]
      exact List.perm_middle
  | right =>
      simp only [build, labels, inorder, List.map_append, List.map_cons]
      exact List.perm_middle.trans (List.perm_append_comm.cons _)

theorem labels_around (frame : PtrFrame) (tree : PtrTree) :
    (frame.around tree).labels.Perm (frame.label :: (tree.labels ++ frame.sibling.labels)) :=
  labels_build _ _ _ _

/-- Only what the nodes of the tree show matters. -/
theorem Rep.congr (rep : Rep views parent tree)
    (same : ∀ other ∈ tree.labels, after other = views other) : Rep after parent tree := by
  induction tree generalizing parent with
  | leaf => trivial
  | node color label entry left right leftCongr rightCongr =>
      simp only [labels, inorder, List.map_append, List.map_cons, List.mem_append,
        List.mem_cons] at same
      obtain ⟨here, leftRep, rightRep⟩ := rep
      constructor
      · rw [same label (Or.inr (Or.inl rfl)), here]
      · constructor
        · exact leftCongr leftRep fun other member => same other (Or.inl member)
        · exact rightCongr rightRep fun other member => same other (Or.inr (Or.inr member))

theorem RepAbove.congr (rep : RepAbove views hole above)
    (same : ∀ other ∈ labelsAbove above, after other = views other) : RepAbove after hole above := by
  induction above generalizing hole with
  | nil => trivial
  | cons frame above inductionHypothesis =>
      simp only [labelsAbove, List.mem_cons, List.mem_append] at same
      obtain ⟨here, siblingRep, aboveRep⟩ := rep
      constructor
      · rw [same frame.label (Or.inl rfl), here]
      · constructor
        · exact siblingRep.congr fun other member => same other (Or.inr (Or.inl member))
        · exact inductionHypothesis aboveRep fun other member => same other (Or.inr (Or.inr member))

/-- A write elsewhere. -/
theorem Rep.write (rep : Rep views parent tree) {address : Nat} (outside : address ∉ tree.labels)
    (shown : Option Shown) : Rep (Function.update views address shown) parent tree := by
  apply rep.congr
  intro other member
  apply Function.update_of_ne
  rintro rfl
  exact outside member

theorem RepAbove.write (rep : RepAbove views hole above) {address : Nat}
    (outside : address ∉ labelsAbove above) (shown : Option Shown) :
    RepAbove (Function.update views address shown) hole above := by
  apply rep.congr
  intro other member
  apply Function.update_of_ne
  rintro rfl
  exact outside member

end Trees

/-- The store holds the tree with `tree` at the place below the frames `above`, and no other
objects. -/
structure Holds (store : Store RbNode X) (above : List PtrFrame) (tree : PtrTree) : Prop where
  root : store.root = rootLabel (plug above tree)
  rep : Rep (viewAt store.heap) (parentLabel above) tree
  repAbove : RepAbove (viewAt store.heap) (rootLabel tree) above
  nodup : (tree.labels ++ labelsAbove above).Nodup
  size : store.heap.size = (tree.labels ++ labelsAbove above).length

section Places

variable {store : Store RbNode X} {above : List PtrFrame} {tree : PtrTree}

/-- The labels do not depend on the place the tree is seen from. -/
theorem labels_place (frame : PtrFrame) (above : List PtrFrame) (tree : PtrTree) :
    (tree.labels ++ labelsAbove (frame :: above)).Perm
      ((frame.around tree).labels ++ labelsAbove above) := by
  refine List.Perm.trans ?_ ((labels_around frame tree).symm.append_right _)
  rw [labelsAbove, List.cons_append, List.append_assoc]
  exact List.perm_middle

/-- Going up by one frame. -/
theorem holds_cons {frame : PtrFrame} :
    Holds store (frame :: above) tree ↔ Holds store above (frame.around tree) := by
  have sameLabels := labels_place frame above tree
  constructor
  · intro holds
    obtain ⟨here, siblingRep, aboveRep⟩ := holds.repAbove
    constructor
    · exact holds.root
    · exact (rep_build _ _ _ _).mpr ⟨here, holds.rep, siblingRep⟩
    · rw [Frame.around, rootLabel_build]
      exact aboveRep
    · exact sameLabels.nodup_iff.mp holds.nodup
    · rw [holds.size, sameLabels.length_eq]
  · intro holds
    obtain ⟨here, treeRep, siblingRep⟩ := (rep_build _ _ _ _).mp holds.rep
    have aboveRep := holds.repAbove
    rw [Frame.around, rootLabel_build] at aboveRep
    constructor
    · exact holds.root
    · exact treeRep
    · exact ⟨here, siblingRep, aboveRep⟩
    · exact sameLabels.nodup_iff.mpr holds.nodup
    · rw [holds.size, sameLabels.length_eq]

/-- Going all the way up. -/
theorem holds_plug : Holds store above tree ↔ Holds store [] (plug above tree) := by
  induction above generalizing tree with
  | nil => exact Iff.rfl
  | cons frame above inductionHypothesis =>
      rw [holds_cons, inductionHypothesis]
      exact Iff.rfl

/-- The pointer to the whole tree changes only with a change at the root. -/
theorem rootLabel_plug {other : PtrTree} (same : above = [] → rootLabel other = rootLabel tree) :
    rootLabel (plug above other) = rootLabel (plug above tree) := by
  induction above generalizing tree other with
  | nil => exact same rfl
  | cons frame above inductionHypothesis =>
      apply inductionHypothesis
      intro _
      simp [Frame.around]

end Places

end StoredsBench.Rbtree
