/-
Module: StoredsBench.Rbtree.Pool
Layer: Model
Purpose: `RbtreePmem` of `storeds/rbtree/rbtree_pmem.cc` and `RbtreePmemTx` of `rbtree_pmem_tx.cc` with
  the calls to PMDK they make.  Some calls of `pmemobj_persist` in the plain class are given the address
  of a local object id; these reach nothing in the pool and are left out.  Contents of fresh nodes are
  arbitrary, and so is what lies behind an object.
Trusted boundary: human-reviewed spec
Main exports: RbPlace, RbPool, RbPool.rotate, RbPool.rebalance, RbPool.fixViolation, RbPool.bstUpsert,
  RbPool.insert, RbtreePmem.pool, RbtreePmemTx.pool
-/
import StoredsBench.Rbtree.Pmem
import StoredsBench.Pmem

namespace StoredsBench

open Lib Lib.RedBlack Rbtree

namespace Rbtree

/-- The members of `struct rbtree_pmem_node`. -/
inductive RbField where
  | key
  | valueByte (offset : Nat)
  | left
  | right
  | parent
  | color
deriving DecidableEq

/-- The order of the members. -/
def RbField.rank : RbField → Nat
  | .key => 0
  | .valueByte _ => 1
  | .left => 2
  | .right => 3
  | .parent => 4
  | .color => 5

/-- The places of a pool: `root_node_oid`, and the members of nodes. -/
abbrev RbPlace := ObjectPlace Unit RbField

/-- `RED` and `BLACK`. -/
def colorByte : Color → UInt8
  | .red => 0
  | .black => 1

/-- What a member of a node holds. -/
def RbNode.content (node : RbNode) : RbField → Content
  | .key => .word (some node.key)
  | .valueByte offset => .byte (node.value.bytes.getD offset none)
  | .left => .pointer (some node.left)
  | .right => .pointer (some node.right)
  | .parent => .pointer (some node.parent)
  | .color => .byte (some (colorByte node.color))

/-- What `root_p` points to. -/
def readRoot (store : Store RbNode Ptr) (_ : Unit) : Option Content := some (.pointer (some store.root))

/-- The persistent memory of the classes. -/
def readPool : Store RbNode Ptr → RbPlace → Option Content := readObjects readRoot RbNode.content

/-- `&node->left` or `&node->right`. -/
def childField : Side → RbField
  | .left => .left
  | .right => .right

/-- The first `count` bytes of the value of the node at an address. -/
def stringBytes (address : Ptr) (count : Nat) : RbPlace → Bool
  | .node other (.valueByte offset) => other == address && decide (offset < count)
  | _ => false

/-- The members of the node at an address from this one on. -/
def tailBytes (address : Ptr) (field : RbField) : RbPlace → Bool
  | .node other otherField => other == address && decide (field.rank ≤ otherField.rank)
  | .root _ => false

/-- The calls a class makes, what its allocator leaves in the object at an address, and what lies
within the size of a node from a place on, the object of the place apart. -/
structure RbPool where
  mode : Mode
  garbage : Ptr → RbNode
  behind : RbPlace → RbPlace → Bool

/-- Programs over the nodes of a pool; beside them is the `root_oid` member. -/
abbrev RbPmemProg (α : Type) := PmemProg RbNode Ptr RbPlace α

/-- The state of a class with the trail of its effects. -/
abbrev RbPmem := Store RbNode (Journal RbNode Ptr RbPlace)

/-- A new pool after `init`. -/
def newPool (rootOid : Ptr) : RbPmem where
  heap := Heap.empty
  root := null
  aux := { side := rootOid, running := false, trail := [] }

/-- A store to one member of a node. -/
def storeField (field : RbField) (change : RbNode → RbNode) (address : Ptr) : RbPmemProg Unit :=
  perform (fun _ => .store (fieldBytes address field)) (Prog.modify address fun node => .ok (change node))

def storeChild (side : Side) (child : Ptr) : Ptr → RbPmemProg Unit :=
  storeField (childField side) (RbNode.withChild side child)

def storeParent (parent : Ptr) : Ptr → RbPmemProg Unit :=
  storeField .parent fun node => { node with parent := parent }

def storeColor (color : Color) : Ptr → RbPmemProg Unit :=
  storeField .color fun node => { node with color := color }

/-- `memcpy(node->value, value, strlen(value) + 1)`. -/
def storeValue (value : Value) (address : Ptr) : RbPmemProg Unit :=
  perform (fun _ => .store (stringBytes address (value.chars.length + 1)))
    (Prog.modify address fun node => .ok { node with value := node.value.copyString value })

/-- `memcpy(node, in_memory_node, sizeof(struct rbtree_pmem_node))`. -/
def storeNode (contents : RbNode) (address : Ptr) : RbPmemProg Unit :=
  perform (fun _ => .store (nodeBytes address)) (Prog.modify address fun _ => .ok contents)

/-- `root_p->root_node_oid = root`. -/
def storeRoot (root : Ptr) : RbPmemProg Unit :=
  perform (fun _ => .store (memberBytes ())) (Prog.setRoot root)

namespace RbPool

/-- As many bytes from a member on as a node has. -/
def rangeFrom (pool : RbPool) (address : Ptr) (field : RbField) (place : RbPlace) : Bool :=
  tailBytes address field place || pool.behind (.node address field) place

/-- As many bytes from `root_p->root_node_oid` on as a node has. -/
def rootRange (pool : RbPool) (place : RbPlace) : Bool :=
  memberBytes () place || pool.behind (.root ()) place

variable (pool : RbPool)

/-- `create_new_node`: the node is filled outside of the pool and copied into the new object. -/
def createNewNode (key : Key) (value : Value) : RbPmemProg Ptr := do
  let newNode ← pool.mode.allocate pool.garbage
  pool.mode.addRange (nodeBytes newNode)
  storeNode
    { key := key
      value := (CharArray.unwritten DEFAULT_VALUE_LEN).copyString value
      left := null
      right := null
      parent := null
      color := .red } newNode
  return newNode

/-! ### Rotation -/

/-- `if (child != NULL) child->parent = parent`. -/
def reparent (child parent : Ptr) : RbPmemProg Unit :=
  if child ≠ null then do
    pool.mode.addRange (nodeBytes child)
    storeParent parent child
    pool.mode.persist (pool.rangeFrom child .parent)
  else return ()

/-- Put `new` at the root of the tree. -/
def replaceRoot (new : Ptr) : RbPmemProg Unit := do
  let root ← Prog.getRoot
  -- The root node, not the pointer to it.
  pool.mode.addRange (nodeBytes root)
  storeRoot new
  pool.mode.persist pool.rootRange

/-- Put `new` where `old` hangs below `parent`. -/
def replaceBelow (parent old new : Ptr) : RbPmemProg Unit := do
  pool.mode.addRange (nodeBytes parent)
  let contents ← Prog.load parent
  if old = contents.left then
    storeChild .left new parent
    pool.mode.persist (pool.rangeFrom parent .left)
  else
    storeChild .right new parent
    pool.mode.persist (pool.rangeFrom parent .right)

def replaceChild (parent old new : Ptr) : RbPmemProg Unit :=
  if parent = null then pool.replaceRoot new else pool.replaceBelow parent old new

/-- `rotate_left` and `rotate_right`: the child on the other side goes up. -/
def rotate (side : Side) (ptr : Ptr) : RbPmemProg Unit := do
  pool.mode.addRange (nodeBytes ptr)
  let contents ← Prog.load ptr
  let promoted := contents.child side.other
  pool.mode.addRange (nodeBytes promoted)
  let promotedContents ← Prog.load promoted
  storeChild side.other (promotedContents.child side) ptr
  pool.reparent (promotedContents.child side) ptr
  let contents ← Prog.load ptr
  storeParent contents.parent promoted
  pool.replaceChild contents.parent ptr promoted
  storeChild side ptr promoted
  storeParent promoted ptr

/-! ### Insertion -/

/-- Hang a new node below `current`. -/
def attach (side : Side) (current : Ptr) (key : Key) (value : Value) : RbPmemProg Ptr :=
  pool.mode.transaction do
    pool.mode.addRange (nodeBytes current)
    let newNode ← pool.createNewNode key value
    storeChild side newNode current
    storeParent current newNode
    pool.mode.persist (pool.rangeFrom current (childField side))
    return newNode

/-- Overwrite the value of a stored key. -/
def overwrite (current : Ptr) (value : Value) : RbPmemProg Unit :=
  pool.mode.transaction do
    pool.mode.addRange (nodeBytes current)
    storeValue value current
    pool.mode.persist (stringBytes current (value.chars.length + 1))

/-- `bst_upsert`. -/
def bstUpsert : (fuel : Nat) → Ptr → Key → Value → RbPmemProg Ptr
  | 0, _, _, _ => Prog.fault .diverged
  | fuel + 1, current, key, value => do
      if current = null then Prog.fault .assertion
      else
        let contents ← Prog.load current
        if key = contents.key then
          pool.overwrite current value
          return null
        else
          let side := if key < contents.key then Side.left else Side.right
          if contents.child side = null then pool.attach side current key value
          else bstUpsert fuel (contents.child side) key value

/-- The case of a red uncle. -/
def recolor (grandparent parent uncle : Ptr) : RbPmemProg Unit := do
  pool.mode.addRange (nodeBytes uncle)
  storeColor .red grandparent
  storeColor .black parent
  storeColor .black uncle
  pool.mode.persist (nodeBytes grandparent)
  pool.mode.persist (nodeBytes parent)
  pool.mode.persist (nodeBytes uncle)

/-- The rotation that turns an inner `current` outwards.  The result is what is the parent then. -/
def straighten (side : Side) (current parent : Ptr) : RbPmemProg Ptr := do
  let parentContents ← Prog.load parent
  if current = parentContents.child side.other then
    pool.rotate side parent
    let contents ← Prog.load parent
    return contents.parent
  else return parent

/-- Exchange the colours of the parent and the grandparent. -/
def swapColors (parent grandparent : Ptr) : RbPmemProg Unit := do
  let parentContents ← Prog.load parent
  let grandparentContents ← Prog.load grandparent
  storeColor grandparentContents.color parent
  storeColor parentContents.color grandparent

/-- The rotations, and the exchange of colours. -/
def turn (side : Side) (current parent grandparent : Ptr) : RbPmemProg Unit := do
  let promoted ← pool.straighten side current parent
  pool.rotate side.other grandparent
  swapColors promoted grandparent

/-- The body of the loop of `fix_violation`, a transaction of its own in the `Tx` class. -/
def rebalance (side : Side) (current parent grandparent : Ptr) : RbPmemProg Ptr :=
  pool.mode.transaction do
    pool.mode.addRange (nodeBytes parent)
    pool.mode.addRange (nodeBytes grandparent)
    let grandparentContents ← Prog.load grandparent
    let uncle := grandparentContents.child side.other
    let redUncle ← isRed uncle
    if redUncle then
      pool.recolor grandparent parent uncle
      return grandparent
    else
      pool.turn side current parent grandparent
      return parent

/-- The end of `fix_violation`, another transaction in the `Tx` class. -/
def blackenRoot : RbPmemProg Unit :=
  pool.mode.transaction do
    let root ← Prog.getRoot
    pool.mode.addRange (nodeBytes root)
    storeColor .black root
    pool.mode.persist (nodeBytes root)

/-- `fix_violation`. -/
def fixViolation (current : Ptr) : RbPmemProg Unit := do
  let bound ← Prog.heapSize
  fixLoop pool.rebalance (bound + 1) current
  pool.blackenRoot

/-- The first node of a tree. -/
def createRoot (key : Key) (value : Value) : RbPmemProg Ptr :=
  pool.mode.transaction do
    pool.mode.addRange (memberBytes ())
    let root ← pool.createNewNode key value
    storeRoot root
    return root

/-- `insert`. -/
def insert (key : Key) (value : Value) : RbPmemProg Int := do
  onMemory RbtreePmem.check
  let root ← Prog.getRoot
  if root = null then
    let root ← pool.createRoot key value
    pool.fixViolation root
    return 1
  else
    let bound ← Prog.heapSize
    let newNode ← pool.bstUpsert bound root key value
    if newNode = null then return 1
    else
      pool.fixViolation newNode
      return 1

/-- A class behind the `StoredsBase` interface; reading makes no calls to PMDK. -/
def backend : Backend RbPmem where
  insert := fun key value state => (pool.insert key value state).map Prod.snd
  read := fun key state => RbtreePmem.backend.read key (memory state)

end RbPool

end Rbtree

/-- The calls of `RbtreePmem`. -/
def RbtreePmem.pool (garbage : Ptr → RbNode) (behind : RbPlace → RbPlace → Bool) : RbPool where
  mode := .persistent
  garbage := garbage
  behind := behind

/-- The calls of `RbtreePmemTx`. -/
def RbtreePmemTx.pool (garbage : Ptr → RbNode) (behind : RbPlace → RbPlace → Bool) : RbPool where
  mode := .transactional
  garbage := garbage
  behind := behind

end StoredsBench
