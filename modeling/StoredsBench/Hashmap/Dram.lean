/-
Module: StoredsBench.Hashmap.Dram
Layer: Model
Purpose: `HtDram` of `storeds/hashmap/ht_dram.cc`.  The table with its coefficients and buckets is the
  state beside the entries.  `init` draws the coefficients with `rand()` and takes fixed values for
  the modulus and the number of buckets; here they are parameters, of which only what `init` makes
  sure of is known.  `print` only prints, `scan` only throws, `reinit` does nothing, and `destroy`
  is not part of this module.
Trusted boundary: human-reviewed spec
Main exports: HashCoefficients, HtTable, HtDram, HtDram.hashFunction, HtDram.insert, HtDram.read,
  HtDram.backend
-/
import StoredsBench.Lists.Node

namespace StoredsBench

open Lib Lists

namespace Hashmap

/-- The members of `struct dram_hashtable` and `struct dram_buckets` that determine the hash
function.  `init` draws `a` until it is not zero. -/
structure HashCoefficients where
  a : UInt32
  b : UInt32
  p : UInt64
  nbuckets : UInt64
  a_ne_zero : a ≠ 0
  p_pos : 0 < p
  nbuckets_pos : 0 < nbuckets

/-- `struct dram_hashtable` with its `struct dram_buckets`. -/
structure HtTable where
  coefficients : HashCoefficients
  bucket : List Ptr

end Hashmap

open Hashmap

/-- The state of an `HtDram`: its entries and, as `aux`, what `root_p` points to. -/
abbrev HtDram := Store ListNode (Option HtTable)

namespace HtDram

/-- Programs of the class. -/
abbrev M (α : Type) := ListProg (Option HtTable) α

/-- `hash_function`, in wrap-around 64-bit arithmetic. -/
def hashFunction (coefficients : HashCoefficients) (value : Key) : UInt64 :=
  ((value * coefficients.a.toUInt64 + coefficients.b.toUInt64) % coefficients.p) %
    coefficients.nbuckets

/-- `init`: all buckets are empty. -/
def init (coefficients : HashCoefficients) : HtDram where
  heap := Heap.empty
  root := null
  aux := some
    { coefficients := coefficients
      bucket := List.replicate coefficients.nbuckets.toNat null }

/-- `check`: aborts without a table; the result is the table. -/
def check : M HtTable := do
  let root ← Prog.getAux
  match root with
  | none => Prog.fault .assertion
  | some table => return table

/-- `buckets_p->bucket[index]`. -/
def bucketAt (table : HtTable) (index : UInt64) : Except Fault Ptr :=
  match table.bucket[index.toNat]? with
  | some entry => .ok entry
  | none => .error .outOfBounds

/-- `buckets_p->bucket[index] = entry_p`. -/
def setBucket (table : HtTable) (index : UInt64) (entry : Ptr) : M Unit :=
  if index.toNat < table.bucket.length then
    Prog.setAux (some { table with bucket := table.bucket.set index.toNat entry })
  else Prog.fault .outOfBounds

/-- `read`: the entry whose value the result points to, null when there is none. -/
def read (key : Key) : M Ptr := do
  let table ← check
  let first ← Prog.lift (bucketAt table (hashFunction table.coefficients key))
  let bound ← Prog.heapSize
  findNode key (bound + 1) first

/-- `new_entry`.  Its `next` is first set to another new object. -/
def newEntry (key : Key) (value : Value) : M Ptr := do
  let entry ← Prog.malloc ListNode.unwritten
  setEntry key value entry
  let next ← Prog.malloc ListNode.unwritten
  setNext next entry
  return entry

/-- `insert`. -/
def insert (key : Key) (value : Value) : M Int := do
  let table ← check
  let first ← Prog.lift (bucketAt table (hashFunction table.coefficients key))
  let bound ← Prog.heapSize
  let found ← findNode key (bound + 1) first
  if found ≠ null then
    setValue value found
    return 1
  else
    let entry ← newEntry key value
    let first ← Prog.lift (bucketAt table (hashFunction table.coefficients key))
    setNext first entry
    setBucket table (hashFunction table.coefficients key) entry
    return 1

/-- `update`. -/
def update : Key → Value → M Int := insert

/-- `HtDram` behind the `StoredsBase` interface. -/
def backend : Backend HtDram where
  insert := fun key value state => (insert key value state).map Prod.snd
  read := fun key state => do
    let (entry, state) ← read key state
    stringAt state entry

end HtDram

end StoredsBench
