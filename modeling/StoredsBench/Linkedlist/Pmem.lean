/-
Module: StoredsBench.Linkedlist.Pmem
Layer: Model
Purpose: `LinkedlistPmem` and `LinkedlistPmemTx` of `storeds/linkedlist/linkedlist_pmem.cc` and
  `linkedlist_pmem_tx.cc`.  The classes `HlPmem` and `HlPmemTx` append to the same kind of list; `I`
  is what they keep beside it in volatile memory.  `scan` only throws, and `destroy` is not part of
  this module.
Trusted boundary: human-reviewed spec
Main exports: RootMember, LinkedlistPmem, appendNode, LinkedlistPmem.insert, LinkedlistPmem.update,
  LinkedlistPmem.read
-/
import StoredsBench.Lists.Pmem

namespace StoredsBench

open Lib Lists

namespace Linkedlist

/-- The members of `struct ll_pmem_root`. -/
inductive RootMember where
  | head
  | tail
deriving DecidableEq

/-- What is kept beside the nodes: `root_p->tail`, and volatile members of the class. -/
structure ListSide (I : Type) where
  tail : Ptr
  index : I

/-- The nodes, `root_p->head` and what is kept beside them, with the trail of effects. -/
abbrev PmemList (I : Type) := ListPmem RootMember (ListSide I)

/-- Programs of the classes. -/
abbrev M (I α : Type) := ListPmemProg RootMember (ListSide I) α

variable {I : Type}

/-- A new pool: `pmemobj_root` returns a zeroed object. -/
def newPool (index : I) : PmemList I where
  heap := Heap.empty
  root := null
  aux := { side := { tail := null, index := index }, running := false, trail := [] }

/-- What the members of the root object hold. -/
def readRoot (store : Store ListNode (ListSide I)) : RootMember → Option Content
  | .head => some (.pointer store.root)
  | .tail => some (.pointer store.aux.tail)

/-- The persistent memory of the classes. -/
def readPool : Store ListNode (ListSide I) → ListPlace RootMember → Option Content :=
  readPlace readRoot

/-- The bytes of the root object. -/
def rootBytes (place : ListPlace RootMember) : Bool :=
  memberBytes .head place || memberBytes .tail place

def getTail : M I Ptr := fun store => .ok (store.aux.side.tail, store)

/-- `root_p->head = node`. -/
def storeHead (node : Ptr) : M I Unit :=
  perform (fun _ => .store (memberBytes .head)) (Prog.setRoot node)

/-- `root_p->tail = node`. -/
def storeTail (node : Ptr) : M I Unit :=
  perform (fun _ => .store (memberBytes .tail)) fun store =>
    .ok ((), { store with aux := { store.aux with tail := node } })

/-- The new node becomes the only one. -/
def linkFirst (pool : ListPool RootMember) (node : Ptr) : M I Unit := do
  pool.mode.addRange rootBytes
  storeHead node
  storeTail node
  pool.mode.persist rootBytes

/-- The new node follows the last one: `tail->next = node; root_p->tail = tail->next`. -/
def linkBehind (pool : ListPool RootMember) (node : Ptr) : M I Unit := do
  let tail ← getTail
  pool.mode.addRange (nodeBytes tail)
  storeNext node tail
  let contents ← Prog.load tail
  let next ← Prog.lift (written contents.next)
  storeTail next
  pool.mode.persist (pool.rangeFrom .tail)

/-- `insert` of the linked lists, and the part of `insert` of the hash lists that enters a new node
into the list.  The result is the node. -/
def appendNode (pool : ListPool RootMember) (key : Key) (value : Value) : M I Ptr :=
  pool.mode.transaction do
    let node ← pool.createNode key value
    let head ← Prog.getRoot
    if head = null then linkFirst pool node else linkBehind pool node
    return node

end Linkedlist

open Linkedlist

/-- The state of a `LinkedlistPmem`. -/
abbrev LinkedlistPmem := PmemList Unit

namespace LinkedlistPmem

/-- `check`: aborts on an empty list. -/
def check : Linkedlist.M Unit Unit := do
  let head ← Prog.getRoot
  if head = null then Prog.fault .assertion else return ()

/-- `read`: the node whose value the result points to, null when there is none. -/
def read (key : Key) : Linkedlist.M Unit Ptr := do
  check
  let head ← Prog.getRoot
  let bound ← Prog.heapSize
  findNode key (bound + 1) head

/-- `update`. -/
def update (pool : ListPool RootMember) (key : Key) (value : Value) : Linkedlist.M Unit Int := do
  check
  let head ← Prog.getRoot
  let bound ← Prog.heapSize
  let found ← findNode key (bound + 1) head
  if found ≠ null then
    pool.overwrite value found
    pool.mode.persist (stringBytes found (value.chars.length + 1))
    return 1
  else return 1

/-- `insert`. -/
def insert (pool : ListPool RootMember) (key : Key) (value : Value) : Linkedlist.M Unit Int := do
  let _ ← appendNode pool key value
  return 1

/-- The calls that change a list. -/
inductive ListCall where
  | insert (key : Key) (value : Value)
  | update (key : Key) (value : Value)

/-- One call. -/
def call (pool : ListPool RootMember) : ListCall → Linkedlist.M Unit Int
  | .insert key value => insert pool key value
  | .update key value => update pool key value

/-- Calls one after another. -/
def run (pool : ListPool RootMember) : List ListCall → Linkedlist.M Unit Unit
  | [] => return ()
  | first :: rest => do
      let _ ← call pool first
      run pool rest

end LinkedlistPmem

end StoredsBench
