/-
Module: StoredsBench.Rbtree.Dram
Layer: Model
Purpose: `RbtreeDram` of `storeds/rbtree/rbtree_dram.cc`.  `scan` only throws, `levelorder` only
  prints, and `destroy` is not part of this module.
Trusted boundary: human-reviewed spec
Main exports: RbtreeDram, RbtreeDram.rebalance, RbtreeDram.insert, RbtreeDram.read,
  RbtreeDram.backend
-/
import StoredsBench.Rbtree.Node

namespace StoredsBench

open Lib Lib.RedBlack Rbtree

/-- The state of an `RbtreeDram`: its nodes and the `root_p` member. -/
abbrev RbtreeDram := Store RbNode Unit

namespace RbtreeDram

/-- Programs of the class. -/
abbrev M (α : Type) := RbProg Unit α

/-- `init`: no root yet. -/
def init : RbtreeDram := { heap := Heap.empty, root := null, aux := () }

/-- `check`: aborts when the tree has no root. -/
def check : M Unit := do
  let root ← Prog.getRoot
  if root = null then Prog.fault .assertion else return ()

/-- `read`. -/
def read (key : Key) (result : Option Ptr) : M (Option Ptr) := do
  check
  let root ← Prog.getRoot
  let bound ← Prog.heapSize
  lookup (bound + 1) root key result

/-- The body of the loop of `fix_violation`.  After an inner rotation `parent_pt` is the promoted
node, and so is the next `current_node`. -/
def rebalance (side : Side) (current parent grandparent : Ptr) : M Ptr := do
  let grandparentContents ← Prog.load grandparent
  let uncle := grandparentContents.child side.other
  let redUncle ← isRed uncle
  if redUncle then
    recolor grandparent parent uncle
    return grandparent
  else
    let parent ← straighten side current parent
    rotate side.other grandparent
    swapColors parent grandparent
    return parent

/-- `fix_violation`. -/
def fixViolation : Ptr → M Unit := Rbtree.fixViolation rebalance

/-- `insert`. -/
def insert : Key → Value → M Int := Rbtree.insert rebalance

/-- `update`. -/
def update (key : Key) (value : Value) : M Int := do
  check
  insert key value

/-- `RbtreeDram` behind the `StoredsBase` interface. -/
def backend : Backend RbtreeDram where
  insert := fun key value state => (insert key value state).map Prod.snd
  read := fun key state => do
    let (slot, state) ← read key none state
    stringAt state slot

end RbtreeDram

end StoredsBench
