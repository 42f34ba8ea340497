/-
Module: StoredsBench.Linkedlist.Dram
Layer: Model
Purpose: `LinkedlistDram` of `storeds/linkedlist/linkedlist_dram.cc`.  `insert` appends a node without
  looking for the key, and leaves the `next` member of the node unwritten.  `scan` only throws, and
  `destroy` is not part of this module.
Trusted boundary: human-reviewed spec
Main exports: LinkedlistDram, LinkedlistDram.insert, LinkedlistDram.read, LinkedlistDram.update,
  LinkedlistDram.backend
-/
import StoredsBench.Lists.Node

namespace StoredsBench

open Lib Lists

/-- The state of a `LinkedlistDram`: its nodes, the `head` member, and as `aux` the `tail` member. -/
abbrev LinkedlistDram := Store ListNode Ptr

namespace LinkedlistDram

/-- Programs of the class. -/
abbrev M (α : Type) := ListProg Ptr α

/-- `init`. -/
def init : LinkedlistDram := { heap := Heap.empty, root := null, aux := null }

/-- `check`: aborts on an empty list. -/
def check : M Unit := do
  let head ← Prog.getRoot
  if head = null then Prog.fault .assertion else return ()

/-- `read`: the node whose value the result points to, null when there is none. -/
def read (key : Key) : M Ptr := do
  check
  let head ← Prog.getRoot
  let bound ← Prog.heapSize
  findNode key (bound + 1) head

/-- `update`. -/
def update (key : Key) (value : Value) : M Int := do
  check
  let head ← Prog.getRoot
  let bound ← Prog.heapSize
  let found ← findNode key (bound + 1) head
  if found ≠ null then
    setValue value found
    return 1
  else return 1

/-- `create_node`. -/
def createNode (key : Key) (value : Value) : M Ptr := do
  let node ← Prog.malloc ListNode.unwritten
  setEntry key value node
  return node

/-- `insert`. -/
def insert (key : Key) (value : Value) : M Int := do
  let node ← createNode key value
  let head ← Prog.getRoot
  if head = null then
    Prog.setRoot node
    Prog.setAux node
    return 1
  else
    let tail ← Prog.getAux
    setNext node tail
    Prog.setAux node
    return 1

/-- `LinkedlistDram` behind the `StoredsBase` interface. -/
def backend : Backend LinkedlistDram where
  insert := fun key value state => (insert key value state).map Prod.snd
  read := fun key state => do
    let (node, state) ← read key state
    stringAt state node

end LinkedlistDram

end StoredsBench
