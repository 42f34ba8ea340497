/-
Module: StoredsBench.Rbtree.Pmem
Layer: Model
Purpose: `RbtreePmem` of `storeds/rbtree/rbtree_pmem.cc`, memory contents only: object ids are
  pointers and `pmemobj_persist` does nothing.  The in-memory copy `create_new_node` fills and frees
  again is not an object of the pool.
Trusted boundary: human-reviewed spec
Main exports: RbtreePmem, RbtreePmem.rebalance, RbtreePmem.insert, RbtreePmem.read,
  RbtreePmem.backend
-/
import StoredsBench.Rbtree.Node

namespace StoredsBench

open Lib Lib.RedBlack Rbtree

/-- The state of an `RbtreePmem`: its nodes, `root_p->root_node_oid`, and as `aux` the `root_oid`
member. -/
abbrev RbtreePmem := Store RbNode Ptr

namespace RbtreePmem

/-- Programs of the class. -/
abbrev M (α : Type) := RbProg Ptr α

/-- `init` on a new pool, whose zeroed root object is at `rootOid`. -/
def init (rootOid : Ptr) : RbtreePmem := { heap := Heap.empty, root := null, aux := rootOid }

/-- `check`: aborts without a root object. -/
def check : M Unit := do
  let rootOid ← Prog.getAux
  if rootOid = null then Prog.fault .assertion else return ()

/-- `read`. -/
def read (key : Key) (result : Option Ptr) : M (Option Ptr) := do
  check
  let root ← Prog.getRoot
  let bound ← Prog.heapSize
  lookup (bound + 1) root key result

/-- The body of the loop of `fix_violation`.  An inner rotation changes `parent_node_p` but leaves
`parent_node_oid`, the next `current_node_oid`, on the demoted node. -/
def rebalance (side : Side) (current parent grandparent : Ptr) : M Ptr := do
  let grandparentContents ← Prog.load grandparent
  let uncle := grandparentContents.child side.other
  let redUncle ← isRed uncle
  if redUncle then
    recolor grandparent parent uncle
    return grandparent
  else
    let promoted ← straighten side current parent
    rotate side.other grandparent
    swapColors promoted grandparent
    return parent

/-- `fix_violation`. -/
def fixViolation : Ptr → M Unit := Rbtree.fixViolation rebalance

/-- `insert`. -/
def insert (key : Key) (value : Value) : M Int := do
  check
  Rbtree.insert rebalance key value

/-- `update`. -/
def update (key : Key) (value : Value) : M Int := insert key value

/-- `RbtreePmem` behind the `StoredsBase` interface. -/
def backend : Backend RbtreePmem where
  insert := fun key value state => (insert key value state).map Prod.snd
  read := fun key state => do
    let (slot, state) ← read key none state
    stringAt state slot

end RbtreePmem

end StoredsBench
