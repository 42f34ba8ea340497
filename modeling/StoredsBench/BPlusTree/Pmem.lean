/-
Module: StoredsBench.BPlusTree.Pmem
Layer: Model
Purpose: `BPlusTreePmem` of `storeds/bplustree/bplustree_pmem.cc` and `BPlusTreePmemTx` of
  `bplustree_pmem_tx.cc`.  Searching and scanning only read and are those of `BPlusTreeDram`; the two
  classes differ in the PMDK calls they make.
Trusted boundary: human-reviewed spec
Main exports: BPlusTreePmem, BPlusTreePmem.splitNode, BPlusTreePmem.updateIfFound,
  BPlusTreePmem.insert, BPlusTreePmem.read, BPlusTreePmem.scan, BPlusTreePmem.backend
-/
import StoredsBench.BPlusTree.Dram
import StoredsBench.Trees.Pmem

namespace StoredsBench

open Lib Trees

/-- The state of a `BPlusTreePmem` or a `BPlusTreePmemTx`. -/
abbrev BPlusTreePmem := PmemTree BPLUSTREE_MIN_DEGREE BPlusTreeDram.Links

namespace BPlusTreePmem

open BPlusTreeDram (Links)

/-- Programs of the class. -/
abbrev M (α : Type) := PmemTreeProg BPLUSTREE_MIN_DEGREE Links α

/-- The calls of `BPlusTreePmem`. -/
def pool (garbage : Ptr → Node BPLUSTREE_MIN_DEGREE Links) (behindRoot : Place → Bool) :
    Pool (Node BPLUSTREE_MIN_DEGREE Links) where
  mode := .persistent
  garbage := garbage
  behindRoot := behindRoot

variable (pool : Pool (Node BPLUSTREE_MIN_DEGREE Links))

/-- `init` on a new pool. -/
def init : M Unit := Trees.init pool Links.null

/-- `search`. -/
def search (fuel : Nat) (current : Ptr) (key : Key) : M (Option SlotRef) :=
  onMemory (BPlusTreeDram.search fuel current key)

/-- `read`; the pool's root object that `check` looks for is there after `init`. -/
def read (key : Key) : M (Option SlotRef) := do
  let root ← Prog.getRoot
  let depthBound ← Prog.heapSize
  search depthBound root key

/-- `scan`: the pairs appended to `result`. -/
def scan (key : Key) (len : Int) : M (List (Key × Value)) := onMemory do
  let root ← Prog.getRoot
  let bound ← Prog.heapSize
  let leaf ← BPlusTreeDram.scanDescend bound root key
  if leaf = null then return []
  else
    let contents ← Prog.load leaf
    let index ← Prog.lift (lowerIndexOf contents key)
    BPlusTreeDram.scanChain len (bound + 1) leaf index 0 []

/-- The end of the leaf case of `split_node`: link the new leaf in behind the one that was split. -/
def linkSibling (child sibling : Ptr) : M Unit := do
  let childContents ← Prog.load child
  storeNode sibling fun node =>
    .ok { node with links := { node.links with next := childContents.links.next } }
  let siblingContents ← Prog.load sibling
  if siblingContents.links.next ≠ null then
    pool.mode.addRange (wholeNode siblingContents.links.next)
    storeNode siblingContents.links.next fun node =>
      .ok { node with links := { node.links with previous := sibling } }
    pool.mode.persist (wholeNode siblingContents.links.next)
  storeNode child fun node =>
    .ok { node with links := { node.links with next := sibling } }
  storeNode sibling fun node =>
    .ok { node with links := { node.links with previous := child } }

/-- The leaf case of `split_node`. -/
def splitLeafNode (index : Nat) (parent child : Ptr) : M Unit := do
  let childContents ← Prog.load child
  let sibling ← pool.createNode childContents.isLeaf Links.null
  pool.mode.addRange (wholeNode child)
  pool.mode.addRange (wholeNode sibling)
  storeNode sibling fun node => do
    let entries ← CArray.copyFrom childContents.entries (BPLUSTREE_MIN_DEGREE - 1)
      BPLUSTREE_MIN_DEGREE node.entries
    return { node with nk := BPLUSTREE_MIN_DEGREE, entries := entries }
  storeNode child fun node => .ok { node with nk := BPLUSTREE_MIN_DEGREE - 1 }
  let siblingContents ← Prog.load sibling
  storeNode parent <| graft index sibling fun entries => do
    let first ← siblingContents.entries.get 0
    setKey entries index first.key
  linkSibling pool child sibling
  pool.mode.persist (wholeNode sibling)
  pool.mode.persist (wholeNode child)
  pool.mode.persist (wholeNode parent)

/-- `split_node`. -/
def splitNode (index : Nat) (parent child : Ptr) : M Unit := do
  let childContents ← Prog.load child
  if childContents.isLeaf then splitLeafNode pool index parent child
  else pool.splitMiddle true Links.null index parent child

/-- `update_if_found`. -/
def updateIfFound : (fuel : Nat) → Ptr → Key → Value → M Bool
  | 0, _, _, _ => Prog.fault .diverged
  | fuel + 1, current, key, value => do
      let contents ← Prog.load current
      let index ← Prog.lift (lowerIndexOf contents key)
      let found ← Prog.lift (keyMatches contents index key)
      if contents.isLeaf then
        if found then
          pool.overwrite current index value
          return true
        else return false
      else
        let child ← Prog.lift (contents.children.get (if found then index + 1 else index))
        updateIfFound fuel child key value

/-- `insert`. -/
def insert : Key → Value → M Int := pool.insert (splitNode pool) (updateIfFound pool) Links.null

/-- `BPlusTreePmem` behind the `StoredsBase` interface. -/
def backend : Backend BPlusTreePmem where
  insert := fun key value state => (insert pool key value state).map Prod.snd
  read := fun key state => do
    let (slot, state) ← read key state
    stringAt (memory state) slot

/-- With its range scan. -/
def rangeBackend : RangeBackend BPlusTreePmem where
  toBackend := backend pool
  scan := fun key len state => (scan key len state).map Prod.fst

end BPlusTreePmem

namespace BPlusTreePmemTx

open BPlusTreeDram (Links)

/-- The calls of `BPlusTreePmemTx`. -/
def pool (garbage : Ptr → Node BPLUSTREE_MIN_DEGREE Links) (behindRoot : Place → Bool) :
    Pool (Node BPLUSTREE_MIN_DEGREE Links) where
  mode := .transactional
  garbage := garbage
  behindRoot := behindRoot

end BPlusTreePmemTx

end StoredsBench
