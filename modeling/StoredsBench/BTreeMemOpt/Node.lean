/-
Module: StoredsBench.BTreeMemOpt.Node
Layer: Model
Purpose: The B-tree of `storeds/btree_mem_opt`: `BTDram` of `bt_dram.cc`, `BTPmem` of `bt_pmem.cc` and
  `BTPmemTx` of `bt_pmem_tx.cc`.  The slots of a node are pointers to entries, and every comparison of
  a key follows one.  The three classes differ in the PMDK calls they make and in how they start.
Trusted boundary: human-reviewed spec
Main exports: BT.Node, BT.search, BT.splitNode, BT.insertNotFull, BT.updateIfFound, BT.insertNew,
  BTDram.insert, BTDram.backend, BTPmem.insert, BTPmemTx.pool
-/
import StoredsBench.MemOpt.Pool

namespace StoredsBench

open Lib MemOpt

/-- `BT_MIN_DEGREE`. -/
def BT_MIN_DEGREE : Nat := 9

/-- `BT_MAX_KEYS`. -/
def BT_MAX_KEYS : Nat := 2 * BT_MIN_DEGREE - 1

/-- `BT_MAX_CHILDREN`. -/
def BT_MAX_CHILDREN : Nat := 2 * BT_MIN_DEGREE

namespace BT

/-- `struct bt_dram_node` and `struct bt_pmem_node`. -/
structure Node where
  isLeaf : Bool
  nk : Nat
  entries : CArray Ptr BT_MAX_KEYS
  children : CArray Ptr BT_MAX_CHILDREN
deriving DecidableEq

/-- `struct bt_entry`. -/
structure Entry where
  key : Key
  value : ValueSlot
deriving DecidableEq

instance entryValued : Valued Entry where
  slot := Entry.value
  setSlot := fun entry slot => { entry with value := slot }
  slot_setSlot := fun _ _ => rfl

/-- The state of a class. -/
abbrev State := PoolState Node Entry

/-- Programs of a class. -/
abbrev M (α : Type) := PoolProg Node Entry α

/-- Programs that only read. -/
abbrev Reads (α : Type) := Prog Node (Heap Entry) α

/-- `is_node_full`. -/
def isNodeFull (nk : Nat) : Bool := nk == BT_MAX_KEYS

/-- `entries[index]->key`. -/
def keyAt (entries : CArray Ptr BT_MAX_KEYS) (index : Nat) : Reads Key := do
  let address ← Prog.lift (entries.get index)
  let entry ← Prog.loadBeside address
  return entry.key

/-- `while (i < nk && key > entries[i]->key) i += 1`, with `remaining = nk - i`. -/
def lowerIndexFrom (entries : CArray Ptr BT_MAX_KEYS) (key : Key) :
    (remaining index : Nat) → Reads Nat
  | 0, index => return index
  | remaining + 1, index => do
      let other ← keyAt entries index
      if other < key then lowerIndexFrom entries key remaining (index + 1) else return index

def lowerIndexOf (node : Node) (key : Key) : Reads Nat := lowerIndexFrom node.entries key node.nk 0

/-- `while (i >= 0 && entries[i]->key > key) i -= 1`, with `i + 1` for the source's `i`. -/
def upperIndexOf (entries : CArray Ptr BT_MAX_KEYS) (key : Key) : Nat → Reads Nat
  | 0 => return 0
  | stop + 1 => do
      let other ← keyAt entries stop
      if key < other then upperIndexOf entries key stop else return stop + 1

/-- The same loop with `entries[i + 1] = entries[i]` in its body. -/
def shiftLarger (key : Key) : Nat → CArray Ptr BT_MAX_KEYS → Reads (Nat × CArray Ptr BT_MAX_KEYS)
  | 0, entries => return (0, entries)
  | stop + 1, entries => do
      let other ← keyAt entries stop
      if key < other then
        let moved ← Prog.lift do
          let address ← entries.get stop
          entries.set (stop + 1) address
        shiftLarger key stop moved
      else return (stop + 1, entries)

/-- `i < nk && key == entries[i]->key`. -/
def keyMatches (node : Node) (index : Nat) (key : Key) : Reads Bool :=
  if index < node.nk then do
    let other ← keyAt node.entries index
    return key == other
  else return false

/-- `search`: the entry of `key` below `current`, or `NULL`. -/
def search : (fuel : Nat) → Ptr → Key → Reads (Option Ptr)
  | 0, _, _ => Prog.fault .diverged
  | fuel + 1, current, key => do
      let contents ← Prog.load current
      let index ← lowerIndexOf contents key
      let found ← keyMatches contents index key
      if found then
        let entry ← Prog.lift (contents.entries.get index)
        return some entry
      else if contents.isLeaf then return none
      else
        let child ← Prog.lift (contents.children.get index)
        search fuel child key

/-- The search from the root. -/
def searchFromRoot (key : Key) : Reads (Option Ptr) := do
  let root ← Prog.getRoot
  let depthBound ← Prog.heapSize
  search depthBound root key

variable (pool : Pool Node Entry)

/-- `create_node`. -/
def createNode (isLeaf : Bool) : M Ptr :=
  pool.allocateNode fun node => { node with isLeaf := isLeaf, nk := 0 }

/-- `create_entry`. -/
def createEntry (key : Key) (value : Value) : M Ptr := do
  let entry ← pool.allocateRecord
  storeRecord (recordKey entry) entry fun contents => { contents with key := key }
  copyInto entry value
  return entry

/-- `update_if_found`. -/
def updateIfFound : (fuel : Nat) → Ptr → Key → Value → M Bool
  | 0, _, _, _ => Prog.fault .diverged
  | fuel + 1, current, key, value => do
      let contents ← Prog.load current
      let index ← onMemory (lowerIndexOf contents key)
      let found ← onMemory (keyMatches contents index key)
      if found then
        let entry ← Prog.lift (contents.entries.get index)
        pool.overwrite entry value
        return true
      else if contents.isLeaf then return false
      else
        let child ← Prog.lift (contents.children.get index)
        updateIfFound fuel child key value

/-- What `split_node` does to the parent: make room for a child at `index + 1` and for an entry at
`index`, fill both, and count the new key. -/
def graft (index : Nat) (sibling middle : Ptr) (parent : Node) : Except Fault Node := do
  let children ← CArray.shiftUp (index + 1) (parent.nk - index) parent.children
  let children ← children.set (index + 1) sibling
  let entries ← CArray.shiftUp index (parent.nk - index) parent.entries
  let entries ← entries.set index middle
  return { parent with children := children, entries := entries, nk := parent.nk + 1 }

/-- `split_node`. -/
def splitNode (index : Nat) (parent child : Ptr) : M Unit := do
  let childContents ← Prog.load child
  let sibling ← createNode pool childContents.isLeaf
  pool.mode.addRange (wholeNode child)
  pool.mode.addRange (wholeNode sibling)
  storeNode sibling fun node => do
    let entries ← CArray.copyFrom childContents.entries BT_MIN_DEGREE (BT_MIN_DEGREE - 1) node.entries
    let children ←
      if childContents.isLeaf then pure node.children
      else CArray.copyFrom childContents.children BT_MIN_DEGREE BT_MIN_DEGREE node.children
    return { node with nk := BT_MIN_DEGREE - 1, entries := entries, children := children }
  storeNode child fun node => .ok { node with nk := BT_MIN_DEGREE - 1 }
  let childContents ← Prog.load child
  let middle ← Prog.lift (childContents.entries.get (BT_MIN_DEGREE - 1))
  storeNode parent (graft index sibling middle)
  pool.mode.persist (wholeNode sibling)
  pool.mode.persist (wholeNode child)
  pool.mode.persist (wholeNode parent)

/-- The leaf case of `insert_not_full`: shift the pointers to larger entries up and fill the gap with
the pointer to a new entry. -/
def insertIntoLeaf (address : Ptr) (contents : Node) (key : Key) (value : Value) : M Unit := do
  let (index, entries) ← onMemory (shiftLarger key contents.nk contents.entries)
  storeNode address fun node => .ok { node with entries := entries }
  let entry ← createEntry pool key value
  storeNode address fun node => do
    let entries ← node.entries.set index entry
    return { node with entries := entries, nk := node.nk + 1 }
  pool.mode.persist (wholeNode address)

/-- `insert_not_full`.  The index is the source's `i + 1`, so that its `i = -1` is `0` here. -/
def insertNotFull : (fuel : Nat) → Ptr → Key → Value → M Unit
  | 0, _, _, _ => Prog.fault .diverged
  | fuel + 1, node, key, value => do
      let contents ← Prog.load node
      if contents.isLeaf then insertIntoLeaf pool node contents key value
      else
        let index ← onMemory (upperIndexOf contents.entries key contents.nk)
        let child ← Prog.lift (contents.children.get index)
        let childContents ← Prog.load child
        if isNodeFull childContents.nk then
          splitNode pool index node child
          let contents ← Prog.load node
          let separator ← onMemory (keyAt contents.entries index)
          let child ← Prog.lift
            (contents.children.get (if separator < key then index + 1 else index))
          pool.mode.transaction do
            pool.mode.addRange (wholeNode child)
            insertNotFull fuel child key value
        else
          pool.mode.transaction do
            pool.mode.addRange (wholeNode child)
            insertNotFull fuel child key value

/-- The branch of `insert` for a full root. -/
def insertBelowNewRoot (depthBound : Nat) (root : Ptr) (key : Key) (value : Value) : M Unit := do
  let newRoot ← createNode pool false
  pool.mode.addRange (wholeNode newRoot)
  storeNode newRoot fun node => do
    let children ← node.children.set 0 root
    return { node with children := children }
  splitNode pool 0 newRoot root
  let newContents ← Prog.load newRoot
  let separator ← onMemory (keyAt newContents.entries 0)
  let child ← Prog.lift (newContents.children.get (if separator < key then 1 else 0))
  pool.mode.addRange (wholeNode child)
  insertNotFull pool depthBound child key value
  pool.mode.persist (wholeNode newRoot)
  pool.mode.addRange pool.rootRange
  storeRoot newRoot
  pool.mode.persist (wholeNode newRoot)

/-- The part of `insert` that follows an unsuccessful update. -/
def insertNew (depthBound : Nat) (root : Ptr) (key : Key) (value : Value) : M Unit := do
  let rootContents ← Prog.load root
  if isNodeFull rootContents.nk then
    pool.mode.transaction (insertBelowNewRoot pool depthBound root key value)
  else
    pool.mode.transaction do
      -- The bytes at the pool's root object, not those of the root node.
      pool.mode.addRange pool.rootRange
      insertNotFull pool depthBound root key value

/-- `insert` on a tree with a root: all of it in `BTPmem` and `BTPmemTx`. -/
def insertBelowRoot (key : Key) (value : Value) : M Int := do
  let root ← Prog.getRoot
  let depthBound ← Prog.heapSize
  let isUpdated ← updateIfFound pool depthBound root key value
  if isUpdated then return 1
  else
    insertNew pool depthBound root key value
    return 1

end BT

namespace BTDram

open BT

/-- `BTDram` makes no PMDK calls; its memory is what `malloc` returns. -/
def pool (garbage : Ptr → Node) (garbageEntry : Ptr → Entry) : Pool Node Entry where
  mode := .volatile
  garbage := garbage
  garbageRecord := garbageEntry
  behindRoot := fun _ => false

/-- `init`: no root yet. -/
def init : State := newState

/-- `check`: aborts when the tree has no root. -/
def check : Reads Unit := do
  let root ← Prog.getRoot
  if root = null then Prog.fault .assertion else return ()

/-- `read`: the pointer `search` finds. -/
def read (key : Key) : Reads (Option Ptr) := do
  check
  searchFromRoot key

variable (pool : Pool Node Entry)

/-- `insert`. -/
def insert (key : Key) (value : Value) : M Int := do
  let root ← Prog.getRoot
  if root = null then
    let root ← createNode pool true
    storeRoot root
    let entry ← createEntry pool key value
    storeNode root fun node => do
      let entries ← node.entries.set 0 entry
      return { node with entries := entries, nk := 1 }
    return 1
  else insertBelowRoot pool key value

/-- `BTDram` behind the `StoredsBase` interface; its `scan` only throws. -/
def backend : Backend State where
  insert := fun key value state => (insert pool key value state).map Prod.snd
  read := fun key state => do
    let (found, final) ← read key (memory state)
    stringAt final found

end BTDram

namespace BTPmem

open BT

/-- The calls of `BTPmem`. -/
def pool (garbage : Ptr → Node) (garbageEntry : Ptr → Entry) (behindRoot : Place → Bool) :
    Pool Node Entry where
  mode := .persistent
  garbage := garbage
  garbageRecord := garbageEntry
  behindRoot := behindRoot

variable (pool : Pool Node Entry)

/-- `init` on a new pool: the root is an empty leaf. -/
def init : M Unit := do
  pool.mode.transaction do
    pool.mode.addRange poolRoot
    let root ← createNode pool true
    storeRoot root
  pool.mode.persist pool.rootRange

/-- `insert`. -/
def insert : Key → Value → M Int := insertBelowRoot pool

/-- `BTPmem` and `BTPmemTx` behind the `StoredsBase` interface. -/
def backend : Backend State where
  insert := fun key value state => (insert pool key value state).map Prod.snd
  read := fun key state => do
    let (found, final) ← searchFromRoot key (memory state)
    stringAt final found

end BTPmem

namespace BTPmemTx

open BT

/-- The calls of `BTPmemTx`. -/
def pool (garbage : Ptr → Node) (garbageEntry : Ptr → Entry) (behindRoot : Place → Bool) :
    Pool Node Entry where
  mode := .transactional
  garbage := garbage
  garbageRecord := garbageEntry
  behindRoot := behindRoot

end BTPmemTx

end StoredsBench
