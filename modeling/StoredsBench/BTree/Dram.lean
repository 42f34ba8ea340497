/-
Module: StoredsBench.BTree.Dram
Layer: Model
Purpose: `BTreeDram` of `storeds/btree/btree_dram.cc`, function by function.  `scan` throws in the
  source and `destroy` is not part of this module.
Trusted boundary: human-reviewed spec
Main exports: BTreeDram, BTreeDram.search, BTreeDram.read, BTreeDram.splitNode,
  BTreeDram.insertNotFull, BTreeDram.updateIfFound, BTreeDram.insert, BTreeDram.backend
-/
import StoredsBench.Trees.Node

namespace StoredsBench

open Lib Trees

/-- `BTREE_MIN_DEGREE`. -/
def BTREE_MIN_DEGREE : Nat := 9

/-- The state of a `BTreeDram`: its nodes and the `root` member. -/
abbrev BTreeDram := Store (Node BTREE_MIN_DEGREE Unit) Unit

namespace BTreeDram

/-- Programs of the class. -/
abbrev M (α : Type) := TreeProg BTREE_MIN_DEGREE Unit α

/-- `init`: no root yet. -/
def init : BTreeDram := { heap := Heap.empty, root := null, aux := () }

/-- `check`: aborts when the tree has no root. -/
def check : M Unit := do
  let root ← Prog.getRoot
  if root = null then Prog.fault .assertion else return ()

/-- `search`: the value of `key` below `current`, or `NULL`. -/
def search : (fuel : Nat) → Ptr → Key → M (Option SlotRef)
  | 0, _, _ => Prog.fault .diverged
  | fuel + 1, current, key => do
      let contents ← Prog.load current
      let index ← Prog.lift (lowerIndexOf contents key)
      let found ← Prog.lift (keyMatches contents index key)
      if found then return some { node := current, index := index }
      else if contents.isLeaf then return none
      else
        let child ← Prog.lift (contents.children.get index)
        search fuel child key

/-- `read`: the pointer `search` finds. -/
def read (key : Key) : M (Option SlotRef) := do
  check
  let root ← Prog.getRoot
  let depthBound ← Prog.heapSize
  search depthBound root key

/-- `split_node`: `child`, the full child `index` of `parent`, keeps its lower entries; a new
sibling gets the upper ones and the parent the middle one. -/
def splitNode (index : Nat) (parent child : Ptr) : M Unit := do
  let childContents ← Prog.load child
  splitMiddle (!childContents.isLeaf) () index parent child

/-- `insert_not_full`. -/
def insertNotFull : (fuel : Nat) → Ptr → Key → Value → M Unit := Trees.insertNotFull splitNode

/-- `update_if_found`: overwrite the value of `key` if it is stored below `current`. -/
def updateIfFound : (fuel : Nat) → Ptr → Key → Value → M Bool
  | 0, _, _, _ => Prog.fault .diverged
  | fuel + 1, current, key, value => do
      let contents ← Prog.load current
      let index ← Prog.lift (lowerIndexOf contents key)
      let found ← Prog.lift (keyMatches contents index key)
      if found then
        Prog.modify current fun node => do
          let entries ← copyValue node.entries index value
          return { node with entries := entries }
        return true
      else if contents.isLeaf then return false
      else
        let child ← Prog.lift (contents.children.get index)
        updateIfFound fuel child key value

/-- `insert`. -/
def insert : Key → Value → M Int := Trees.insert splitNode updateIfFound ()

/-- `BTreeDram` behind the `StoredsBase` interface. -/
def backend : Backend BTreeDram where
  insert := fun key value state => (insert key value state).map Prod.snd
  read := fun key state => do
    let (slot, state) ← read key state
    stringAt state slot

end BTreeDram

end StoredsBench
