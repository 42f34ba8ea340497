/-
Module: StoredsBench.Hashmap.Pmem
Layer: Model
Purpose: `HtPmem` and `HtPmemTx` of `storeds/hashmap/ht_pmem.cc` and `ht_pmem_tx.cc`.  Like the table
  of `HtDram`, except that a new entry gets its `next` member only once and that the loop of `read`
  goes on behind a match.  `print` only prints, `scan` only throws, `reinit` does nothing, and
  `destroy` is not part of this module.
Trusted boundary: human-reviewed spec
Main exports: HtPmem, HtPmem.init, HtPmem.insert, HtPmem.read
-/
import StoredsBench.Lists.Pmem
import StoredsBench.Hashmap.Dram

namespace StoredsBench

open Lib Lists Hashmap

/-- The members of `struct pmem_hashtable` and `struct pmem_buckets`. -/
inductive HtMember where
  | a
  | b
  | p
  | nbuckets
  | bucket (index : Nat)
deriving DecidableEq

/-- The state of an `HtPmem`: its entries and, as `side`, what `root_p` points to. -/
abbrev HtPmem := ListPmem HtMember (Option HtTable)

namespace HtPmem

/-- Programs of the class. -/
abbrev M (α : Type) := ListPmemProg HtMember (Option HtTable) α

/-- What the members of the table hold. -/
def readRoot (store : Store ListNode (Option HtTable)) : HtMember → Option Content
  | .a => store.aux.map fun table => .word (some table.coefficients.a.toUInt64)
  | .b => store.aux.map fun table => .word (some table.coefficients.b.toUInt64)
  | .p => store.aux.map fun table => .word (some table.coefficients.p)
  | .nbuckets => store.aux.map fun table => .word (some table.coefficients.nbuckets)
  | .bucket index =>
      store.aux.bind fun table => table.bucket[index]?.map fun entry => .pointer (some entry)

/-- The persistent memory of the class. -/
def readPool : Store ListNode (Option HtTable) → ListPlace HtMember → Option Content :=
  readPlace readRoot

/-- `init` on a new pool. -/
def init (coefficients : HashCoefficients) : HtPmem where
  heap := Heap.empty
  root := null
  aux := { side := (HtDram.init coefficients).aux, running := false, trail := [] }

/-- `hash_function`. -/
def hashFunction (coefficients : HashCoefficients) (value : Key) : UInt64 :=
  HtDram.hashFunction coefficients value

/-- `check`: aborts without buckets; the result is the table. -/
def check : M HtTable := onMemory HtDram.check

/-- `buckets_p->bucket[index] = entry_oid`. -/
def storeBucket (index : UInt64) (entry : Ptr) : M Unit :=
  perform (fun _ => .store (memberBytes (.bucket index.toNat))) do
    let table ← HtDram.check
    HtDram.setBucket table index entry

/-- `for (entry = first; entry != NULL; entry = entry->next) if (entry->key == key) result = entry;` -/
def findLast (key : Key) : (fuel : Nat) → (entry result : Ptr) → M Ptr
  | 0, _, _ => Prog.fault .diverged
  | fuel + 1, entry, result => do
      if entry = null then return result
      else
        let contents ← Prog.load entry
        let entryKey ← Prog.lift (written contents.key)
        let next ← Prog.lift (written contents.next)
        findLast key fuel next (if entryKey = key then entry else result)

/-- `read`: the entry whose value the result points to, null when there is none. -/
def read (key : Key) : M Ptr := do
  let table ← check
  let first ← Prog.lift (HtDram.bucketAt table (hashFunction table.coefficients key))
  let bound ← Prog.heapSize
  findLast key (bound + 1) first null

/-- The class on a pool with these contents. -/
def opened (contents : Store ListNode (Option HtTable)) : HtPmem where
  heap := contents.heap
  root := contents.root
  aux := { side := contents.aux, running := false, trail := [] }

/-- The string that `read` returns on a pool with these contents. -/
def answer (key : Key) (contents : Store ListNode (Option HtTable)) : Except Fault (Option Value) := do
  let (entry, store) ← read key (opened contents)
  stringAt store entry

/-- `insert`. -/
def insert (pool : ListPool HtMember) (key : Key) (value : Value) : M Int := do
  let table ← check
  let index := hashFunction table.coefficients key
  let first ← Prog.lift (HtDram.bucketAt table index)
  let bound ← Prog.heapSize
  let found ← findNode key (bound + 1) first
  if found ≠ null then
    pool.overwrite value found
    pool.mode.persist (stringBytes found (value.chars.length + 1))
    return 1
  else
    pool.mode.transaction do
      pool.mode.addRange (pool.rangeFrom (.bucket index.toNat))
      let entry ← pool.createNode key value
      storeNext first entry
      storeBucket index entry
      pool.mode.persist (pool.rangeFrom (.bucket index.toNat))
    return 1

/-- `update`. -/
def update (pool : ListPool HtMember) : Key → Value → M Int := insert pool

end HtPmem

end StoredsBench
