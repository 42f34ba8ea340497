/-
Module: StoredsBench.Trees.Pmem
Layer: Model
Purpose: What the B-tree and B+-tree classes for persistent memory share.  Contents of fresh objects
  are arbitrary, and so is what lies behind the pool's root object.
Trusted boundary: human-reviewed spec
Main exports: Place, Pool, createNode, splitMiddle, insertNotFull, insert, init, PmemTree
-/
import StoredsBench.Trees.Node
import StoredsBench.Pmem

namespace StoredsBench

open Lib

/-- The members of a node. -/
inductive NodeField where
  | isLeaf
  | nk
  | key (index : Nat)
  | valueByte (index offset : Nat)
  | pointer (index : Nat)
  | links
deriving DecidableEq

/-- The places of a pool: its `root_node_oid`, the members of nodes, and those of the records that
some classes keep values in. -/
inductive Place where
  | poolRoot
  | node (address : Ptr) (field : NodeField)
  | recordKey (address : Ptr)
  | recordByte (address : Ptr) (offset : Nat)
deriving DecidableEq

/-- The bytes of the node at an address. -/
def wholeNode (address : Ptr) : Place → Bool
  | .node other _ => other == address
  | _ => false

/-- The first `count` bytes of the value in a slot. -/
def valueBytes (address : Ptr) (index count : Nat) : Place → Bool
  | .node other (.valueByte slot offset) =>
      other == address && slot == index && decide (offset < count)
  | _ => false

/-- The bytes of `root_p->root_node_oid`. -/
def poolRoot (place : Place) : Bool := place == .poolRoot

namespace Trees

/-- The calls a class makes, what its allocator leaves in the object at an address, and what lies
within the size of a node from the pool's root object on, that object apart. -/
structure Pool (N : Type) where
  mode : Mode
  garbage : Ptr → N
  behindRoot : Place → Bool

/-- `root_p` or `&root_p->root_node_oid` with the size of a node. -/
def Pool.rootRange {N : Type} (pool : Pool N) (place : Place) : Bool :=
  poolRoot place || pool.behindRoot place

/-- Programs over the nodes of a pool. -/
abbrev PmemTreeProg (t : Nat) (X α : Type) := PmemProg (Node t X) Unit Place α

/-- The state of a class: the nodes, the pool's `root_node_oid`, and the trail of effects. -/
abbrev PmemTree (t : Nat) (X : Type) := Store (Node t X) (Journal (Node t X) Unit Place)

variable {t : Nat} {X : Type}

/-- Stores to members of the node at an address. -/
def storeNode (address : Ptr) (change : Node t X → Except Fault (Node t X)) :
    PmemTreeProg t X Unit :=
  perform (fun _ => .store (wholeNode address)) (Prog.modify address change)

/-- `root_p->root_node_oid = root`. -/
def storeRoot (root : Ptr) : PmemTreeProg t X Unit :=
  perform (fun _ => .store poolRoot) (Prog.setRoot root)

/-- `create_node`: the arrays of the new node hold what the allocator left there. -/
def Pool.createNode (pool : Pool (Node t X)) (isLeaf : Bool) (links : X) : PmemTreeProg t X Ptr :=
  perform (fun address => .allocate (wholeNode address)) do
    let size ← Prog.heapSize
    Prog.malloc { pool.garbage (size + 1) with isLeaf := isLeaf, nk := 0, links := links }

/-- A new pool before `init`. -/
def newPool : PmemTree t X where
  heap := Heap.empty
  root := null
  aux := { side := (), running := false, trail := [] }

/-- `init` on a new pool: the root is an empty leaf. -/
def init (pool : Pool (Node t X)) (links : X) : PmemTreeProg t X Unit := do
  pool.mode.transaction do
    pool.mode.addRange poolRoot
    let root ← pool.createNode true links
    storeRoot root
  pool.mode.persist pool.rootRange

/-- A split that moves the middle entry of the child up: `BTreePmem::split_node`, and the inner case
of `BPlusTreePmem::split_node`. -/
def Pool.splitMiddle (pool : Pool (Node t X)) (copyChildren : Bool) (links : X) (index : Nat)
    (parent child : Ptr) : PmemTreeProg t X Unit := do
  let childContents ← Prog.load child
  let sibling ← pool.createNode childContents.isLeaf links
  pool.mode.addRange (wholeNode child)
  pool.mode.addRange (wholeNode sibling)
  storeNode sibling fun node => do
    let entries ← CArray.copyFrom childContents.entries t (t - 1) node.entries
    let children ←
      if copyChildren then CArray.copyFrom childContents.children t t node.children
      else pure node.children
    return { node with nk := t - 1, entries := entries, children := children }
  storeNode child fun node => .ok { node with nk := t - 1 }
  let childContents ← Prog.load child
  storeNode parent <| graft index sibling fun entries => do
    let middle ← childContents.entries.get (t - 1)
    entries.set index middle
  pool.mode.persist (wholeNode sibling)
  pool.mode.persist (wholeNode child)
  pool.mode.persist (wholeNode parent)

/-- `insert_not_full`. -/
def Pool.insertNotFull (pool : Pool (Node t X))
    (splitNode : Nat → Ptr → Ptr → PmemTreeProg t X Unit) :
    (fuel : Nat) → Ptr → Key → Value → PmemTreeProg t X Unit
  | 0, _, _, _ => Prog.fault .diverged
  | fuel + 1, node, key, value => do
      let contents ← Prog.load node
      if contents.isLeaf then
        storeNode node (insertIntoLeaf key value)
        pool.mode.persist (wholeNode node)
      else
        let index ← Prog.lift
          (contents.entries.scanDown (fun entry => decide (key < entry.key)) contents.nk)
        let child ← Prog.lift (contents.children.get index)
        let childContents ← Prog.load child
        if isNodeFull t childContents.nk then
          splitNode index node child
          let contents ← Prog.load node
          let separator ← Prog.lift (contents.entries.get index)
          let child ← Prog.lift
            (contents.children.get (if separator.key < key then index + 1 else index))
          pool.mode.transaction do
            pool.mode.addRange (wholeNode child)
            insertNotFull pool splitNode fuel child key value
        else
          pool.mode.transaction do
            pool.mode.addRange (wholeNode child)
            insertNotFull pool splitNode fuel child key value

/-- `memcpy(entries[index].value, value, strlen(value) + 1)` on the node at an address. -/
def copyInto (address : Ptr) (index : Nat) (value : Value) : PmemTreeProg t X Unit :=
  perform (fun _ => .store (valueBytes address index (value.chars.length + 1)))
    (Prog.modify address fun node => do
      let entries ← copyValue node.entries index value
      return { node with entries := entries })

/-- What `update_if_found` does once it has found the slot: the `Tx` classes snapshot as many bytes
as the old value has characters, the plain ones persist what they copied. -/
def Pool.overwrite (pool : Pool (Node t X)) (address : Ptr) (index : Nat) (value : Value) :
    PmemTreeProg t X Unit :=
  match pool.mode with
  | .transactional =>
      transaction do
        let contents ← Prog.load address
        let entry ← Prog.lift (contents.entries.get index)
        match entry.value.string? with
        | none => Prog.fault .unterminated
        | some old =>
            addRange (valueBytes address index old.chars.length)
            copyInto address index value
  | _ => do
      copyInto address index value
      pool.mode.persist (valueBytes address index (value.chars.length + 1))

/-- `update_if_found` after its search. -/
def Pool.overwriteFound (pool : Pool (Node t X)) (value : Value) :
    Option SlotRef → PmemTreeProg t X Bool
  | none => return false
  | some slot => do
      pool.overwrite slot.node slot.index value
      return true

/-- The branch of `insert` for a full root. -/
def Pool.insertBelowNewRoot (pool : Pool (Node t X))
    (splitNode : Nat → Ptr → Ptr → PmemTreeProg t X Unit) (links : X) (depthBound : Nat) (root : Ptr)
    (key : Key) (value : Value) : PmemTreeProg t X Unit := do
  let newRoot ← pool.createNode false links
  pool.mode.addRange (wholeNode newRoot)
  storeNode newRoot fun node => do
    let children ← node.children.set 0 root
    return { node with children := children }
  splitNode 0 newRoot root
  let newContents ← Prog.load newRoot
  let separator ← Prog.lift (newContents.entries.get 0)
  let child ← Prog.lift (newContents.children.get (if separator.key < key then 1 else 0))
  pool.mode.addRange (wholeNode child)
  pool.insertNotFull splitNode depthBound child key value
  pool.mode.persist (wholeNode newRoot)
  pool.mode.addRange pool.rootRange
  storeRoot newRoot
  pool.mode.persist (wholeNode newRoot)

/-- The part of `insert` that follows an unsuccessful update. -/
def Pool.insertNew (pool : Pool (Node t X)) (splitNode : Nat → Ptr → Ptr → PmemTreeProg t X Unit)
    (links : X) (depthBound : Nat) (root : Ptr) (key : Key) (value : Value) :
    PmemTreeProg t X Unit := do
  let rootContents ← Prog.load root
  if isNodeFull t rootContents.nk then
    pool.mode.transaction (pool.insertBelowNewRoot splitNode links depthBound root key value)
  else
    pool.mode.transaction do
      -- The bytes at the pool's root object, not those of the root node.
      pool.mode.addRange pool.rootRange
      pool.insertNotFull splitNode depthBound root key value

/-- `insert`. -/
def Pool.insert (pool : Pool (Node t X)) (splitNode : Nat → Ptr → Ptr → PmemTreeProg t X Unit)
    (updateIfFound : (fuel : Nat) → Ptr → Key → Value → PmemTreeProg t X Bool) (links : X)
    (key : Key) (value : Value) : PmemTreeProg t X Int := do
  let root ← Prog.getRoot
  let depthBound ← Prog.heapSize
  let isUpdated ← updateIfFound depthBound root key value
  if isUpdated then return 1
  else
    pool.insertNew splitNode links depthBound root key value
    return 1

end Trees

end StoredsBench
