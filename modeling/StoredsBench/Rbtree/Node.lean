/-
Module: StoredsBench.Rbtree.Node
Layer: Model
Purpose: The node of `rbtree_common.h` and the functions whose text is the same in `RbtreeDram` and
  `RbtreePmem`, an object id taken for a pointer.  The mirrored functions and branches are one
  definition with the side as a parameter; `X` is what else a class keeps.  Loops take a bound on
  their iterations and fault when it is used up.
Trusted boundary: human-reviewed spec
Main exports: RbNode, createNewNode, lookup, rotate, bstUpsert, fixLoop, fixViolation, insert
-/
import StoredsBench.Interface
import StoredsBench.Lib.RedBlack

namespace StoredsBench.Rbtree

open Lib Lib.RedBlack

/-- `struct rbtree_dram_node` and `struct rbtree_pmem_node`. -/
structure RbNode where
  key : Key
  value : ValueSlot
  left : Ptr
  right : Ptr
  parent : Ptr
  color : Color
deriving DecidableEq

def RbNode.child (node : RbNode) : Side → Ptr
  | .left => node.left
  | .right => node.right

def RbNode.withChild (side : Side) (address : Ptr) (node : RbNode) : RbNode :=
  match side with
  | .left => { node with left := address }
  | .right => { node with right := address }

/-- Programs over a heap of such nodes, entered through the pointer to the root node. -/
abbrev RbProg (X α : Type) := Prog RbNode X α

variable {X : Type}

/-- `create_new_node`: a red node without neighbours. -/
def createNewNode (key : Key) (value : Value) : RbProg X Ptr :=
  Prog.malloc
    { key := key
      value := (CharArray.unwritten DEFAULT_VALUE_LEN).copyString value
      left := null
      right := null
      parent := null
      color := .red }

/-- `lookup`.  The result is the node whose value it points to; it stays as it was when the key is
not there. -/
def lookup : (fuel : Nat) → Ptr → Key → (result : Option Ptr) → RbProg X (Option Ptr)
  | 0, _, _, _ => Prog.fault .diverged
  | fuel + 1, current, key, result => do
      if current = null then return result
      else
        let contents ← Prog.load current
        if contents.key = key then return some current
        else if contents.key > key then lookup fuel contents.left key result
        else lookup fuel contents.right key result

/-! ### Rotation -/

/-- `if (child != NULL) child->parent = parent`. -/
def reparent (child parent : Ptr) : RbProg X Unit :=
  if child ≠ null then Prog.modify child fun node => .ok { node with parent := parent }
  else return ()

/-- Put `new` where `old` hangs: at the root, or as the child of `parent` that `old` was. -/
def replaceChild (parent old new : Ptr) : RbProg X Unit :=
  if parent = null then Prog.setRoot new
  else do
    let contents ← Prog.load parent
    if old = contents.left then Prog.modify parent fun node => .ok { node with left := new }
    else Prog.modify parent fun node => .ok { node with right := new }

/-- `rotate_left` and `rotate_right`: the child on the other side goes up. -/
def rotate (side : Side) (ptr : Ptr) : RbProg X Unit := do
  let contents ← Prog.load ptr
  let promoted := contents.child side.other
  let promotedContents ← Prog.load promoted
  Prog.modify ptr fun node => .ok (node.withChild side.other (promotedContents.child side))
  reparent (promotedContents.child side) ptr
  let contents ← Prog.load ptr
  Prog.modify promoted fun node => .ok { node with parent := contents.parent }
  replaceChild contents.parent ptr promoted
  Prog.modify promoted fun node => .ok (node.withChild side ptr)
  Prog.modify ptr fun node => .ok { node with parent := promoted }

/-- `rotate_left`. -/
def rotateLeft : Ptr → RbProg X Unit := rotate .left

/-- `rotate_right`. -/
def rotateRight : Ptr → RbProg X Unit := rotate .right

/-! ### Insertion -/

/-- Hang a new node below `current`. -/
def attach (side : Side) (current : Ptr) (key : Key) (value : Value) : RbProg X Ptr := do
  let newNode ← createNewNode key value
  Prog.modify current fun node => .ok (node.withChild side newNode)
  Prog.modify newNode fun node => .ok { node with parent := current }
  return newNode

/-- `bst_upsert`: the new node, or `NULL` when the value of a stored key was overwritten. -/
def bstUpsert : (fuel : Nat) → Ptr → Key → Value → RbProg X Ptr
  | 0, _, _, _ => Prog.fault .diverged
  | fuel + 1, current, key, value => do
      if current = null then Prog.fault .assertion
      else
        let contents ← Prog.load current
        if key = contents.key then
          Prog.modify current fun node => .ok { node with value := node.value.copyString value }
          return null
        else
          let side := if key < contents.key then Side.left else Side.right
          if contents.child side = null then attach side current key value
          else bstUpsert fuel (contents.child side) key value

def setColor (color : Color) (address : Ptr) : RbProg X Unit :=
  Prog.modify address fun node => .ok { node with color := color }

/-- `uncle != NULL && uncle->color == RED`. -/
def isRed (address : Ptr) : RbProg X Bool :=
  if address = null then return false
  else do
    let contents ← Prog.load address
    return contents.color = .red

/-- The case of a red uncle. -/
def recolor (grandparent parent uncle : Ptr) : RbProg X Unit := do
  setColor .red grandparent
  setColor .black parent
  setColor .black uncle

/-- The rotation that turns an inner `current` outwards.  The result is what is the parent then. -/
def straighten (side : Side) (current parent : Ptr) : RbProg X Ptr := do
  let parentContents ← Prog.load parent
  if current = parentContents.child side.other then
    rotate side parent
    let contents ← Prog.load parent
    return contents.parent
  else return parent

/-- Exchange the colours of the parent and the grandparent. -/
def swapColors (parent grandparent : Ptr) : RbProg X Unit := do
  let parentContents ← Prog.load parent
  let grandparentContents ← Prog.load grandparent
  setColor grandparentContents.color parent
  setColor parentContents.color grandparent

/-- The loop of `fix_violation`.  `rebalance` is its body for a parent on the given side of the
grandparent; it takes the current node, the parent and the grandparent and returns the next current
node. -/
def fixLoop (rebalance : Side → Ptr → Ptr → Ptr → RbProg X Ptr) :
    (fuel : Nat) → Ptr → RbProg X Unit
  | 0, _ => Prog.fault .diverged
  | fuel + 1, current => do
      let root ← Prog.getRoot
      if current = root then return ()
      else
        let contents ← Prog.load current
        if contents.color = .black then return ()
        else
          let parentContents ← Prog.load contents.parent
          if parentContents.color = .red then
            let grandparentContents ← Prog.load parentContents.parent
            let side := if contents.parent = grandparentContents.left then Side.left else Side.right
            let next ← rebalance side current contents.parent parentContents.parent
            fixLoop rebalance fuel next
          else return ()

/-- `fix_violation`.  It is called with a reference to the root pointer for the first node of a
tree; its loop does nothing then, so that the aliasing does not show. -/
def fixViolation (rebalance : Side → Ptr → Ptr → Ptr → RbProg X Ptr) (current : Ptr) :
    RbProg X Unit := do
  let bound ← Prog.heapSize
  fixLoop rebalance (bound + 1) current
  let root ← Prog.getRoot
  setColor .black root

/-- `insert`. -/
def insert (rebalance : Side → Ptr → Ptr → Ptr → RbProg X Ptr) (key : Key) (value : Value) :
    RbProg X Int := do
  let root ← Prog.getRoot
  if root = null then
    let root ← createNewNode key value
    Prog.setRoot root
    fixViolation rebalance root
    return 1
  else
    let bound ← Prog.heapSize
    let newNode ← bstUpsert bound root key value
    if newNode = null then return 1
    else
      fixViolation rebalance newNode
      return 1

/-- The string a returned pointer denotes. -/
def stringAt (store : Store RbNode X) : Option Ptr → Except Fault (Option Value)
  | none => .ok none
  | some address =>
      match store.heap.get? address with
      | none => .error .invalidPointer
      | some node =>
          match node.value.string? with
          | none => .error .unterminated
          | some value => .ok (some value)

end StoredsBench.Rbtree
