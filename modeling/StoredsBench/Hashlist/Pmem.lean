/-
Module: StoredsBench.Hashlist.Pmem
Layer: Model
Purpose: `HlPmem` and `HlPmemTx` of `storeds/hashlist/hl_pmem.cc` and `hl_pmem_tx.cc`: a persistent
  linked list with a hash table of its nodes in volatile memory.  The chains of the table are lists,
  first entry first.  `scan` only throws, and `destroy` is not part of this module.
Trusted boundary: human-reviewed spec
Main exports: HlEntry, HlTable, HlPmem, HlPmem.init, HlPmem.insert, HlPmem.read
-/
import StoredsBench.Linkedlist.Pmem
import StoredsBench.Hashmap.Dram

namespace StoredsBench

open Lib Lists Linkedlist Hashmap

/-- `struct hl_dram_entry`. -/
structure HlEntry where
  key : Key
  ll_p : Ptr
deriving DecidableEq

/-- `struct dram_hashlist` with its `struct hl_dram_buckets`. -/
structure HlTable where
  coefficients : HashCoefficients
  bucket : List (List HlEntry)

/-- The state of an `HlPmem`: the list and, as `index`, what `hl_root_p` points to. -/
abbrev HlPmem := PmemList HlTable

namespace HlPmem

/-- Programs of the class. -/
abbrev M (α : Type) := Linkedlist.M HlTable α

/-- The table `init` makes: all buckets are empty. -/
def newTable (coefficients : HashCoefficients) : HlTable where
  coefficients := coefficients
  bucket := List.replicate coefficients.nbuckets.toNat []

/-- `init` on a new pool. -/
def init (coefficients : HashCoefficients) : HlPmem := newPool (newTable coefficients)

/-- `hash_function`. -/
def hashFunction (coefficients : HashCoefficients) (value : Key) : UInt64 :=
  HtDram.hashFunction coefficients value

def getTable : M HlTable := fun store => .ok (store.aux.side.index, store)

def setTable (table : HlTable) : M Unit :=
  onMemory fun store => .ok ((), { store with aux := { store.aux with index := table } })

/-- `buckets_p->bucket[index]`. -/
def bucketAt (table : HlTable) (index : UInt64) : Except Fault (List HlEntry) :=
  match table.bucket[index.toNat]? with
  | some entries => .ok entries
  | none => .error .outOfBounds

/-- The loop over the entries of a bucket. -/
def findEntry (key : Key) (entries : List HlEntry) : Option HlEntry :=
  entries.find? fun entry => entry.key = key

/-- `read`: the node whose value the result points to, null when there is none. -/
def read (key : Key) : M Ptr := do
  let table ← getTable
  let entries ← Prog.lift (bucketAt table (hashFunction table.coefficients key))
  match findEntry key entries with
  | some entry => return entry.ll_p
  | none => return null

/-- `new_hash_entry`, and the two assignments behind its call. -/
def enter (key : Key) (node : Ptr) : M Unit := do
  let table ← getTable
  let index := hashFunction table.coefficients key
  let entries ← Prog.lift (bucketAt table index)
  setTable { table with bucket := table.bucket.set index.toNat ({ key := key, ll_p := node } :: entries) }

/-- `insert`: `HlPmemTx` overwrites a value inside a transaction, `HlPmem` with a plain `memcpy`. -/
def insert (pool : ListPool RootMember) (key : Key) (value : Value) : M Int := do
  let table ← getTable
  let entries ← Prog.lift (bucketAt table (hashFunction table.coefficients key))
  match findEntry key entries with
  | some entry =>
      pool.overwrite value entry.ll_p
      return 1
  | none =>
      let node ← appendNode pool key value
      enter key node
      return 1

/-- `update`. -/
def update (pool : ListPool RootMember) : Key → Value → M Int := insert pool

end HlPmem

end StoredsBench
