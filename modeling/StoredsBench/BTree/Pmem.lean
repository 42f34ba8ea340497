/-
Module: StoredsBench.BTree.Pmem
Layer: Model
Purpose: `BTreePmem` of `storeds/btree/btree_pmem.cc` and `BTreePmemTx` of `btree_pmem_tx.cc`.  The
  search only reads and is that of `BTreeDram`; the two classes differ in the PMDK calls they make.
Trusted boundary: human-reviewed spec
Main exports: BTreePmem, BTreePmem.splitNode, BTreePmem.updateIfFound, BTreePmem.insert,
  BTreePmem.read, BTreePmem.backend, BTreePmemTx.insert, BTreePmemTx.backend
-/
import StoredsBench.BTree.Dram
import StoredsBench.Trees.Pmem

namespace StoredsBench

open Lib Trees

/-- The state of a `BTreePmem` or a `BTreePmemTx`. -/
abbrev BTreePmem := PmemTree BTREE_MIN_DEGREE Unit

namespace BTreePmem

/-- Programs of the class. -/
abbrev M (α : Type) := PmemTreeProg BTREE_MIN_DEGREE Unit α

/-- The calls of `BTreePmem`. -/
def pool (garbage : Ptr → Node BTREE_MIN_DEGREE Unit) (behindRoot : Place → Bool) :
    Pool (Node BTREE_MIN_DEGREE Unit) where
  mode := .persistent
  garbage := garbage
  behindRoot := behindRoot

variable (pool : Pool (Node BTREE_MIN_DEGREE Unit))

/-- `init` on a new pool. -/
def init : M Unit := Trees.init pool ()

/-- `search`. -/
def search (fuel : Nat) (current : Ptr) (key : Key) : M (Option SlotRef) :=
  onMemory (BTreeDram.search fuel current key)

/-- `read`; the pool's root object that `check` looks for is there after `init`. -/
def read (key : Key) : M (Option SlotRef) := do
  let root ← Prog.getRoot
  let depthBound ← Prog.heapSize
  search depthBound root key

/-- `split_node`. -/
def splitNode (index : Nat) (parent child : Ptr) : M Unit := do
  let childContents ← Prog.load child
  pool.splitMiddle (!childContents.isLeaf) () index parent child

/-- `update_if_found`. -/
def updateIfFound : (fuel : Nat) → Ptr → Key → Value → M Bool
  | 0, _, _, _ => Prog.fault .diverged
  | fuel + 1, current, key, value => do
      let contents ← Prog.load current
      let index ← Prog.lift (lowerIndexOf contents key)
      let found ← Prog.lift (keyMatches contents index key)
      if found then
        pool.overwrite current index value
        return true
      else if contents.isLeaf then return false
      else
        let child ← Prog.lift (contents.children.get index)
        updateIfFound fuel child key value

/-- `insert`. -/
def insert : Key → Value → M Int := pool.insert (splitNode pool) (updateIfFound pool) ()

/-- `BTreePmem` behind the `StoredsBase` interface. -/
def backend : Backend BTreePmem where
  insert := fun key value state => (insert pool key value state).map Prod.snd
  read := fun key state => do
    let (slot, state) ← read key state
    stringAt (memory state) slot

end BTreePmem

namespace BTreePmemTx

/-- The calls of `BTreePmemTx`. -/
def pool (garbage : Ptr → Node BTREE_MIN_DEGREE Unit) (behindRoot : Place → Bool) :
    Pool (Node BTREE_MIN_DEGREE Unit) where
  mode := .transactional
  garbage := garbage
  behindRoot := behindRoot

end BTreePmemTx

end StoredsBench
