/-
Module: StoredsBench.Trees.Node
Layer: Model
Purpose: What `btree_common.h` and `bplustree_common.h` have in common: nodes with a fixed array of
  entries and a fixed array of children, and the functions whose text is the same in both classes.
  `t` is the minimum degree, `X` the members only one of the classes has (the leaf chain pointers).
  Slots of a fresh node are unwritten and reading one faults.  The recursive functions take the
  number of objects ever allocated as a bound on their depth and fault when it is used up.
Trusted boundary: human-reviewed spec
Main exports: Entry, Node, createNode, isNodeFull, setKey, copyValue, graft, splitMiddle,
  insertNotFull, insert, SlotRef, stringAt
-/
import StoredsBench.Interface
import StoredsBench.Lib.CArray

namespace StoredsBench.Trees

open Lib

/-- `struct entry` and `struct bplustree_entry`. -/
structure Entry where
  key : Key
  value : ValueSlot
deriving DecidableEq

/-- `struct btree_dram_node` and `struct bplustree_dram_node`; the latter has `next` and
`previous` as its `links`. -/
structure Node (t : Nat) (X : Type) where
  isLeaf : Bool
  nk : Nat
  entries : CArray Entry (2 * t - 1)
  children : CArray Ptr (2 * t)
  links : X
deriving DecidableEq

/-- Programs over a heap of such nodes, entered through `root`. -/
abbrev TreeProg (t : Nat) (X α : Type) := Prog (Node t X) Unit α

variable {t : Nat} {X : Type}

/-- `is_node_full`: the node holds the maximum number of keys. -/
def isNodeFull (t nk : Nat) : Bool := nk == 2 * t - 1

/-- `create_node`: allocate a node; its arrays stay unwritten. -/
def createNode (isLeaf : Bool) (links : X) : TreeProg t X Ptr :=
  Prog.malloc
    { isLeaf := isLeaf
      nk := 0
      entries := CArray.unwritten _ _
      children := CArray.unwritten _ _
      links := links }

/-- `entries[index].key = key`; the value bytes of the slot stay as they are. -/
def setKey {capacity : Nat} (entries : CArray Entry capacity) (index : Nat) (key : Key) :
    Except Fault (CArray Entry capacity) :=
  match entries.at? index with
  | some entry => entries.set index { entry with key := key }
  | none => entries.set index { key := key, value := CharArray.unwritten _ }

/-- `memcpy(entries[index].value, value, strlen(value) + 1)`. -/
def copyValue {capacity : Nat} (entries : CArray Entry capacity) (index : Nat) (value : Value) :
    Except Fault (CArray Entry capacity) := do
  let entry ← entries.get index
  entries.set index { entry with value := entry.value.copyString value }

/-- `i < nk && key == entries[i].key`. -/
def keyMatches (node : Node t X) (index : Nat) (key : Key) : Except Fault Bool :=
  if index < node.nk then do
    let entry ← node.entries.get index
    return key == entry.key
  else return false

/-- The linear search every descent starts with. -/
def lowerIndexOf (node : Node t X) (key : Key) : Except Fault Nat :=
  node.entries.scanUp (fun entry => decide (entry.key < key)) node.nk

/-- What every split does to the parent: make room for a child at `index + 1` and for an entry at
`index`, fill both, and count the new key.  `place` fills the entry. -/
def graft (index : Nat) (sibling : Ptr)
    (place : CArray Entry (2 * t - 1) → Except Fault (CArray Entry (2 * t - 1)))
    (parent : Node t X) : Except Fault (Node t X) := do
  let children ← CArray.shiftUp (index + 1) (parent.nk - index) parent.children
  let children ← children.set (index + 1) sibling
  let entries ← CArray.shiftUp index (parent.nk - index) parent.entries
  let entries ← place entries
  return { parent with children := children, entries := entries, nk := parent.nk + 1 }

/-- A split that moves the middle entry of the child up: `BTreeDram::split_node`, and the inner
case of `BPlusTreeDram::split_node`. -/
def splitMiddle (copyChildren : Bool) (links : X) (index : Nat) (parent child : Ptr) :
    TreeProg t X Unit := do
  let childContents ← Prog.load child
  let sibling ← createNode childContents.isLeaf links
  Prog.modify sibling fun node => do
    let entries ← CArray.copyFrom childContents.entries t (t - 1) node.entries
    let children ←
      if copyChildren then CArray.copyFrom childContents.children t t node.children
      else pure node.children
    return { node with nk := t - 1, entries := entries, children := children }
  Prog.modify child fun node => .ok { node with nk := t - 1 }
  let childContents ← Prog.load child
  Prog.modify parent <| graft index sibling fun entries => do
    let middle ← childContents.entries.get (t - 1)
    entries.set index middle

/-- The leaf case of `insert_not_full`: shift the larger entries up and fill the gap. -/
def insertIntoLeaf (key : Key) (value : Value) (node : Node t X) : Except Fault (Node t X) := do
  let (index, entries) ←
    CArray.shiftUpWhile (fun entry => decide (key < entry.key)) node.nk node.entries
  let entries ← setKey entries index key
  let entries ← copyValue entries index value
  return { node with entries := entries, nk := node.nk + 1 }

/-- `insert_not_full`.  The index is the source's `i + 1`, so that its `i = -1` is `0` here. -/
def insertNotFull (splitNode : Nat → Ptr → Ptr → TreeProg t X Unit) :
    (fuel : Nat) → Ptr → Key → Value → TreeProg t X Unit
  | 0, _, _, _ => Prog.fault .diverged
  | fuel + 1, node, key, value => do
      let contents ← Prog.load node
      if contents.isLeaf then
        Prog.modify node (insertIntoLeaf key value)
      else
        let index ← Prog.lift
          (contents.entries.scanDown (fun entry => decide (key < entry.key)) contents.nk)
        let child ← Prog.lift (contents.children.get index)
        let childContents ← Prog.load child
        if isNodeFull t childContents.nk then
          splitNode index node child
          let contents ← Prog.load node
          let separator ← Prog.lift (contents.entries.get index)
          let child ← Prog.lift
            (contents.children.get (if separator.key < key then index + 1 else index))
          insertNotFull splitNode fuel child key value
        else
          insertNotFull splitNode fuel child key value

/-- `insert`: create the root, update in place, or insert below a root that has room. -/
def insert (splitNode : Nat → Ptr → Ptr → TreeProg t X Unit)
    (updateIfFound : (fuel : Nat) → Ptr → Key → Value → TreeProg t X Bool) (links : X)
    (key : Key) (value : Value) : TreeProg t X Int := do
  let root ← Prog.getRoot
  if root = null then
    let root ← createNode true links
    Prog.setRoot root
    Prog.modify root fun node => do
      let entries ← setKey node.entries 0 key
      let entries ← copyValue entries 0 value
      return { node with entries := entries, nk := 1 }
    return 1
  else
    let depthBound ← Prog.heapSize
    let isUpdated ← updateIfFound depthBound root key value
    if isUpdated then
      return 1
    else
      let rootContents ← Prog.load root
      if isNodeFull t rootContents.nk then
        let newRoot ← createNode false links
        Prog.modify newRoot fun node => do
          let children ← node.children.set 0 root
          return { node with children := children }
        splitNode 0 newRoot root
        let newContents ← Prog.load newRoot
        let separator ← Prog.lift (newContents.entries.get 0)
        let child ← Prog.lift
          (newContents.children.get (if separator.key < key then 1 else 0))
        insertNotFull splitNode depthBound child key value
        Prog.setRoot newRoot
        return 1
      else
        insertNotFull splitNode depthBound root key value
        return 1

/-- A `char *` to the value of an entry, as `search` returns it; `none` is `NULL`. -/
structure SlotRef where
  node : Ptr
  index : Nat
deriving DecidableEq

/-- The string a returned pointer denotes. -/
def stringAt (store : Store (Node t X) Unit) : Option SlotRef → Except Fault (Option Value)
  | none => .ok none
  | some slot =>
      match store.heap.get? slot.node with
      | none => .error .invalidPointer
      | some node => do
          let entry ← node.entries.get slot.index
          match entry.value.string? with
          | none => .error .unterminated
          | some value => .ok (some value)

end StoredsBench.Trees
