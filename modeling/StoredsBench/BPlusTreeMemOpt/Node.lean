/-
Module: StoredsBench.BPlusTreeMemOpt.Node
Layer: Model
Purpose: The B+-tree of `storeds/bplustree_mem_opt`: `BPDram` of `bp_dram.cc`, `BPPmem` of `bp_pmem.cc`
  and `BPPmemTx` of `bp_pmem_tx.cc`.  A node has an array of keys and an array of pointers, which lead
  to children in inner nodes and to records in leaves.  The three classes differ in the PMDK calls they
  make and in how they start.
Trusted boundary: human-reviewed spec
Main exports: BP.Pointer, BP.Node, BP.search, BP.scanFromRoot, BP.splitNode, BP.insertNotFull,
  BP.updateIfFound, BP.insertNew, BPDram.insert, BPDram.rangeBackend, BPPmem.insert, BPPmemTx.pool
-/
import StoredsBench.MemOpt.Pool

namespace StoredsBench

open Lib MemOpt

/-- `BP_MIN_DEGREE`. -/
def BP_MIN_DEGREE : Nat := 9

/-- `BP_MAX_KEYS`. -/
def BP_MAX_KEYS : Nat := 2 * BP_MIN_DEGREE - 1

/-- `BP_MAX_CHILDREN`. -/
def BP_MAX_CHILDREN : Nat := 2 * BP_MIN_DEGREE

namespace BP

/-- What the `pointers` of a node hold: `void *` in memory, `PMEMoid` in a pool. -/
inductive Pointer where
  | node (address : Ptr)
  | record (address : Ptr)
deriving DecidableEq

/-- The cast to a node; nothing else may be followed as one. -/
def Pointer.asNode : Pointer → Except Fault Ptr
  | .node address => .ok address
  | .record _ => .error .invalidPointer

/-- The cast to a record. -/
def Pointer.asRecord : Pointer → Except Fault Ptr
  | .record address => .ok address
  | .node _ => .error .invalidPointer

/-- `struct bp_dram_node` and `struct bp_pmem_node`. -/
structure Node where
  isLeaf : Bool
  nk : Nat
  keys : CArray Key BP_MAX_KEYS
  pointers : CArray Pointer BP_MAX_CHILDREN
  next : Ptr
  previous : Ptr
deriving DecidableEq

/-- `struct bp_record`. -/
abbrev Record := ValueSlot

instance recordValued : Valued Record where
  slot := fun record => record
  setSlot := fun _ slot => slot
  slot_setSlot := fun _ _ => rfl

/-- The state of a class. -/
abbrev State := PoolState Node Record

/-- Programs of a class. -/
abbrev M (α : Type) := PoolProg Node Record α

/-- Programs that only read. -/
abbrev Reads (α : Type) := Prog Node (Heap Record) α

/-- `is_node_full`. -/
def isNodeFull (nk : Nat) : Bool := nk == BP_MAX_KEYS

/-- `while (i < nk && key > keys[i]) i += 1`. -/
def lowerIndexOf (node : Node) (key : Key) : Except Fault Nat :=
  node.keys.scanUp (fun other => decide (other < key)) node.nk

/-- `i < nk && key == keys[i]`. -/
def keyMatches (node : Node) (index : Nat) (key : Key) : Except Fault Bool :=
  if index < node.nk then do
    let other ← node.keys.get index
    return key == other
  else return false

/-- The child `pointers[index]` leads to. -/
def childAt (node : Node) (index : Nat) : Except Fault Ptr := do
  let pointer ← node.pointers.get index
  pointer.asNode

/-- The record `pointers[index]` leads to. -/
def recordAt (node : Node) (index : Nat) : Except Fault Ptr := do
  let pointer ← node.pointers.get index
  pointer.asRecord

/-- `search`: the record of `key` below `current`, or `NULL`. -/
def search : (fuel : Nat) → Ptr → Key → Reads (Option Ptr)
  | 0, _, _ => Prog.fault .diverged
  | fuel + 1, current, key => do
      let contents ← Prog.load current
      let index ← Prog.lift (lowerIndexOf contents key)
      let found ← Prog.lift (keyMatches contents index key)
      if contents.isLeaf then
        if found then
          let record ← Prog.lift (recordAt contents index)
          return some record
        else return none
      else
        let child ← Prog.lift (childAt contents (if found then index + 1 else index))
        search fuel child key

/-- The search from the root. -/
def searchFromRoot (key : Key) : Reads (Option Ptr) := do
  let root ← Prog.getRoot
  let depthBound ← Prog.heapSize
  search depthBound root key

/-- The descent of `scan`. -/
def scanDescend : (fuel : Nat) → Ptr → Key → Reads Ptr
  | 0, _, _ => Prog.fault .diverged
  | fuel + 1, current, key => do
      if current = null then return current
      else
        let contents ← Prog.load current
        if contents.isLeaf then return current
        else
          let index ← Prog.lift (lowerIndexOf contents key)
          let child ← Prog.lift (childAt contents index)
          scanDescend fuel child key

/-- The inner loop of `scan`: append the keys of one leaf from `index` on with the values of their
records and count them.  The results are as in `BPlusTreeDram.scanLeaf`. -/
def scanLeaf (contents : Node) (len : Int) :
    (remaining index : Nat) → (count : Int) → List (Key × Value) →
      Reads (List (Key × Value) × Int × Bool)
  | 0, _, count, result => return (result, count, false)
  | remaining + 1, index, count, result => do
      let other ← Prog.lift (contents.keys.get index)
      let record ← Prog.lift (recordAt contents index)
      let value ← valueOf record
      let result := result ++ [(other, value)]
      if count + 1 = len then return (result, count + 1, true)
      else scanLeaf contents len remaining (index + 1) (count + 1) result

/-- The forward scan through the leaf chain. -/
def scanChain (len : Int) :
    (fuel : Nat) → Ptr → (index : Nat) → (count : Int) → List (Key × Value) →
      Reads (List (Key × Value))
  | 0, _, _, _, _ => Prog.fault .diverged
  | fuel + 1, current, index, count, result => do
      if current = null then return result
      else
        let contents ← Prog.load current
        let (result, count, reached) ← scanLeaf contents len (contents.nk - index) index count result
        if reached || count = len then return result
        else scanChain len fuel contents.next 0 count result

/-- `scan` behind its `check`: the pairs appended to `result`. -/
def scanFromRoot (key : Key) (len : Int) : Reads (List (Key × Value)) := do
  let root ← Prog.getRoot
  let bound ← Prog.heapSize
  let leaf ← scanDescend bound root key
  if leaf = null then return []
  else
    let contents ← Prog.load leaf
    let index ← Prog.lift (lowerIndexOf contents key)
    scanChain len (bound + 1) leaf index 0 []

variable (pool : Pool Node Record)

/-- `create_node`. -/
def createNode (isLeaf : Bool) : M Ptr :=
  pool.allocateNode fun node =>
    { node with isLeaf := isLeaf, nk := 0, next := null, previous := null }

/-- `create_record`. -/
def createRecord (value : Value) : M Ptr := do
  let record ← pool.allocateRecord
  copyInto record value
  return record

/-- `update_if_found`. -/
def updateIfFound : (fuel : Nat) → Ptr → Key → Value → M Bool
  | 0, _, _, _ => Prog.fault .diverged
  | fuel + 1, current, key, value => do
      let contents ← Prog.load current
      let index ← Prog.lift (lowerIndexOf contents key)
      let found ← Prog.lift (keyMatches contents index key)
      if contents.isLeaf then
        if found then
          let record ← Prog.lift (recordAt contents index)
          pool.overwrite record value
          return true
        else return false
      else
        let child ← Prog.lift (childAt contents (if found then index + 1 else index))
        updateIfFound fuel child key value

/-- What every split does to the parent: make room for a child at `index + 1` and for a key at
`index`, fill both, and count the new key. -/
def graft (index : Nat) (sibling : Ptr) (separator : Key) (parent : Node) : Except Fault Node := do
  let pointers ← CArray.shiftUp (index + 1) (parent.nk - index) parent.pointers
  let pointers ← pointers.set (index + 1) (.node sibling)
  let keys ← CArray.shiftUp index (parent.nk - index) parent.keys
  let keys ← keys.set index separator
  return { parent with pointers := pointers, keys := keys, nk := parent.nk + 1 }

/-- The end of the leaf case of `split_node`: link the new leaf in behind the one that was split. -/
def linkSibling (child sibling : Ptr) : M Unit := do
  let childContents ← Prog.load child
  storeNode sibling fun node => .ok { node with next := childContents.next }
  let siblingContents ← Prog.load sibling
  if siblingContents.next ≠ null then
    pool.mode.addRange (wholeNode siblingContents.next)
    storeNode siblingContents.next fun node => .ok { node with previous := sibling }
    pool.mode.persist (wholeNode siblingContents.next)
  storeNode child fun node => .ok { node with next := sibling }
  storeNode sibling fun node => .ok { node with previous := child }

/-- The leaf case of `split_node`. -/
def splitLeafNode (index : Nat) (parent child : Ptr) : M Unit := do
  let childContents ← Prog.load child
  let sibling ← createNode pool childContents.isLeaf
  pool.mode.addRange (wholeNode child)
  pool.mode.addRange (wholeNode sibling)
  storeNode sibling fun node => do
    let keys ← CArray.copyFrom childContents.keys (BP_MIN_DEGREE - 1) BP_MIN_DEGREE node.keys
    let pointers ←
      CArray.copyFrom childContents.pointers (BP_MIN_DEGREE - 1) BP_MIN_DEGREE node.pointers
    return { node with nk := BP_MIN_DEGREE, keys := keys, pointers := pointers }
  storeNode child fun node => .ok { node with nk := BP_MIN_DEGREE - 1 }
  let siblingContents ← Prog.load sibling
  let first ← Prog.lift (siblingContents.keys.get 0)
  storeNode parent (graft index sibling first)
  linkSibling pool child sibling
  pool.mode.persist (wholeNode sibling)
  pool.mode.persist (wholeNode child)
  pool.mode.persist (wholeNode parent)

/-- The inner case of `split_node`. -/
def splitInnerNode (index : Nat) (parent child : Ptr) : M Unit := do
  let childContents ← Prog.load child
  let sibling ← createNode pool childContents.isLeaf
  pool.mode.addRange (wholeNode child)
  pool.mode.addRange (wholeNode sibling)
  storeNode sibling fun node => do
    let keys ← CArray.copyFrom childContents.keys BP_MIN_DEGREE (BP_MIN_DEGREE - 1) node.keys
    let pointers ← CArray.copyFrom childContents.pointers BP_MIN_DEGREE BP_MIN_DEGREE node.pointers
    return { node with nk := BP_MIN_DEGREE - 1, keys := keys, pointers := pointers }
  storeNode child fun node => .ok { node with nk := BP_MIN_DEGREE - 1 }
  let childContents ← Prog.load child
  let middle ← Prog.lift (childContents.keys.get (BP_MIN_DEGREE - 1))
  storeNode parent (graft index sibling middle)
  pool.mode.persist (wholeNode sibling)
  pool.mode.persist (wholeNode child)
  pool.mode.persist (wholeNode parent)

/-- `split_node`. -/
def splitNode (index : Nat) (parent child : Ptr) : M Unit := do
  let childContents ← Prog.load child
  if childContents.isLeaf then splitLeafNode pool index parent child
  else splitInnerNode pool index parent child

/-- The leaf case of `insert_not_full`: shift the larger keys and their records up and fill the
gap with the key and a new record. -/
def insertIntoLeaf (address : Ptr) (contents : Node) (key : Key) (value : Value) : M Unit := do
  let (index, keys, pointers) ← Prog.lift
    (CArray.shiftBothUpWhile (fun other => decide (key < other)) contents.nk contents.keys
      contents.pointers)
  storeNode address fun node => do
    let keys ← keys.set index key
    return { node with keys := keys, pointers := pointers }
  let record ← createRecord pool value
  storeNode address fun node => do
    let pointers ← node.pointers.set index (.record record)
    return { node with pointers := pointers, nk := node.nk + 1 }
  pool.mode.persist (wholeNode address)

/-- `insert_not_full`.  The index is the source's `i + 1`, so that its `i = -1` is `0` here. -/
def insertNotFull : (fuel : Nat) → Ptr → Key → Value → M Unit
  | 0, _, _, _ => Prog.fault .diverged
  | fuel + 1, node, key, value => do
      let contents ← Prog.load node
      if contents.isLeaf then insertIntoLeaf pool node contents key value
      else
        let index ← Prog.lift
          (contents.keys.scanDown (fun other => decide (key < other)) contents.nk)
        let child ← Prog.lift (childAt contents index)
        let childContents ← Prog.load child
        if isNodeFull childContents.nk then
          splitNode pool index node child
          let contents ← Prog.load node
          let separator ← Prog.lift (contents.keys.get index)
          let child ← Prog.lift (childAt contents (if separator < key then index + 1 else index))
          pool.mode.transaction do
            pool.mode.addRange (wholeNode child)
            insertNotFull fuel child key value
        else
          pool.mode.transaction do
            pool.mode.addRange (wholeNode child)
            insertNotFull fuel child key value

/-- The branch of `insert` for a full root. -/
def insertBelowNewRoot (depthBound : Nat) (root : Ptr) (key : Key) (value : Value) : M Unit := do
  let newRoot ← createNode pool false
  pool.mode.addRange (wholeNode newRoot)
  storeNode newRoot fun node => do
    let pointers ← node.pointers.set 0 (.node root)
    return { node with pointers := pointers }
  splitNode pool 0 newRoot root
  let newContents ← Prog.load newRoot
  let separator ← Prog.lift (newContents.keys.get 0)
  let child ← Prog.lift (childAt newContents (if separator < key then 1 else 0))
  pool.mode.addRange (wholeNode child)
  insertNotFull pool depthBound child key value
  pool.mode.persist (wholeNode newRoot)
  pool.mode.addRange pool.rootRange
  storeRoot newRoot
  pool.mode.persist (wholeNode newRoot)

/-- The part of `insert` that follows an unsuccessful update. -/
def insertNew (depthBound : Nat) (root : Ptr) (key : Key) (value : Value) : M Unit := do
  let rootContents ← Prog.load root
  if isNodeFull rootContents.nk then
    pool.mode.transaction (insertBelowNewRoot pool depthBound root key value)
  else
    pool.mode.transaction do
      -- The bytes at the pool's root object, not those of the root node.
      pool.mode.addRange pool.rootRange
      insertNotFull pool depthBound root key value

/-- `insert` on a tree with a root: all of it in `BPPmem` and `BPPmemTx`. -/
def insertBelowRoot (key : Key) (value : Value) : M Int := do
  let root ← Prog.getRoot
  let depthBound ← Prog.heapSize
  let isUpdated ← updateIfFound pool depthBound root key value
  if isUpdated then return 1
  else
    insertNew pool depthBound root key value
    return 1

end BP

namespace BPDram

open BP

/-- `BPDram` makes no PMDK calls; its memory is what `malloc` returns. -/
def pool (garbage : Ptr → Node) (garbageRecord : Ptr → Record) : Pool Node Record where
  mode := .volatile
  garbage := garbage
  garbageRecord := garbageRecord
  behindRoot := fun _ => false

/-- `init`: no root yet. -/
def init : State := newState

/-- `check`: aborts when the tree has no root. -/
def check : Reads Unit := do
  let root ← Prog.getRoot
  if root = null then Prog.fault .assertion else return ()

/-- `read`: the pointer `search` finds. -/
def read (key : Key) : Reads (Option Ptr) := do
  check
  searchFromRoot key

/-- `scan`. -/
def scan (key : Key) (len : Int) : Reads (List (Key × Value)) := do
  check
  scanFromRoot key len

variable (pool : Pool Node Record)

/-- `insert`. -/
def insert (key : Key) (value : Value) : M Int := do
  let root ← Prog.getRoot
  if root = null then
    let root ← createNode pool true
    storeRoot root
    storeNode root fun node => do
      let keys ← node.keys.set 0 key
      return { node with keys := keys }
    let record ← createRecord pool value
    storeNode root fun node => do
      let pointers ← node.pointers.set 0 (.record record)
      return { node with pointers := pointers, nk := 1 }
    return 1
  else insertBelowRoot pool key value

/-- `BPDram` behind the `StoredsBase` interface. -/
def rangeBackend : RangeBackend State where
  insert := fun key value state => (insert pool key value state).map Prod.snd
  read := fun key state => do
    let (found, final) ← read key (memory state)
    stringAt final found
  scan := fun key len state => (scan key len (memory state)).map Prod.fst

end BPDram

namespace BPPmem

open BP

/-- The calls of `BPPmem`. -/
def pool (garbage : Ptr → Node) (garbageRecord : Ptr → Record) (behindRoot : Place → Bool) :
    Pool Node Record where
  mode := .persistent
  garbage := garbage
  garbageRecord := garbageRecord
  behindRoot := behindRoot

variable (pool : Pool Node Record)

/-- `init` on a new pool: the root is an empty leaf. -/
def init : M Unit := do
  pool.mode.transaction do
    pool.mode.addRange poolRoot
    let root ← createNode pool true
    storeRoot root
  pool.mode.persist pool.rootRange

/-- `insert`. -/
def insert : Key → Value → M Int := insertBelowRoot pool

/-- `BPPmem` and `BPPmemTx` behind the `StoredsBase` interface. -/
def rangeBackend : RangeBackend State where
  insert := fun key value state => (insert pool key value state).map Prod.snd
  read := fun key state => do
    let (found, final) ← searchFromRoot key (memory state)
    stringAt final found
  scan := fun key len state => (scanFromRoot key len (memory state)).map Prod.fst

end BPPmem

namespace BPPmemTx

open BP

/-- The calls of `BPPmemTx`. -/
def pool (garbage : Ptr → Node) (garbageRecord : Ptr → Record) (behindRoot : Place → Bool) :
    Pool Node Record where
  mode := .transactional
  garbage := garbage
  garbageRecord := garbageRecord
  behindRoot := behindRoot

end BPPmemTx

end StoredsBench
