/-
Module: StoredsBench.Array.Pmem
Layer: Model
Purpose: `ArrayPmem` and `ArrayPmemTx` of `storeds/array/array_pmem.cc` and `array_pmem_tx.cc`.  The
  pool has arrays and the pointer to the present one in its root object.  `init` goes on alike behind
  `pmemobj_create` and behind `pmemobj_open`, and allocates one more array each time; what the
  allocator leaves in it is arbitrary.  `print_toid` and `destroy` are not part of this module.
Trusted boundary: human-reviewed spec
Main exports: Elements, ArrayPlace, ArrayPool, ArrayPmem, ArrayPmem.init, ArrayPmem.insert,
  ArrayPmem.update, ArrayPmem.read, ArrayPmem.scan, ArrayPmem.readPool, ArrayCall, ArrayPmem.sessions
-/
import StoredsBench.Array.Dram
import StoredsBench.Pmem

namespace StoredsBench

open Lib

/-- An array of `struct array_pmem_elm`. -/
structure Elements where
  slots : List ValueSlot
  length_eq : slots.length = ARRAY_SIZE

/-- One byte of the value of one element. -/
structure ElementByte where
  index : Nat
  offset : Nat
deriving DecidableEq

/-- The places of a pool; the only member of its root object is `array`. -/
abbrev ArrayPlace := ObjectPlace Unit ElementByte

namespace Elements

/-- The array as `ArrayDram` has it. -/
def asArray (elements : Elements) : ArrayDram := { array := elements.slots }

/-- The array with one element changed. -/
def put (elements : Elements) (index : Nat) (slot : ValueSlot) : Elements where
  slots := elements.slots.set index slot
  length_eq := by rw [List.length_set, elements.length_eq]

/-- What a byte of the array holds. -/
def content (elements : Elements) (byte : ElementByte) : Content :=
  .byte ((elements.slots[byte.index]?.bind fun slot => slot.bytes[byte.offset]?).join)

end Elements

/-- The calls a class makes, and what its allocator leaves in the array at an address. -/
structure ArrayPool where
  mode : Mode
  garbage : Ptr → Elements

/-- The pool of `ArrayPmem`, and that of `ArrayPmemTx`. -/
def ArrayPool.plain (garbage : Ptr → Elements) : ArrayPool :=
  { mode := .persistent, garbage := garbage }

def ArrayPool.tx (garbage : Ptr → Elements) : ArrayPool :=
  { mode := .transactional, garbage := garbage }

/-- The state of an `ArrayPmem` or `ArrayPmemTx` with the trail of its effects. -/
abbrev ArrayPmem := Store Elements (Journal Elements Unit ArrayPlace)

/-- The public methods that use an array. -/
inductive ArrayCall where
  | insert (key : Key) (value : Value)
  | update (key : Key) (value : Value)
  | read (key : Key)
  | scan (key : Key) (len : Int)
deriving DecidableEq

/-- What they deliver; the result of `read` points to a slot. -/
inductive ArrayReply where
  | done
  | slot (contents : ValueSlot)
  | pairs (found : List (Nat × Value))
deriving DecidableEq

namespace ArrayPmem

open ArrayDram (offset)

/-- Programs of the classes. -/
abbrev M (α : Type) := PmemProg Elements Unit ArrayPlace α

/-- `root_p->array`. -/
def readRoot (store : Store Elements Unit) (_member : Unit) : Option Content :=
  some (.pointer (some store.root))

/-- What a place of the pool holds; `none` is a place of no object. -/
def readPool : Store Elements Unit → ArrayPlace → Option Content :=
  readObjects readRoot Elements.content

/-- The bytes of one element. -/
def elementBytes (array : Ptr) (index : Nat) : ArrayPlace → Bool
  | .node other byte => other == array && byte.index == index
  | .root _ => false

/-- The first `count` bytes of one element. -/
def stringBytes (array : Ptr) (index count : Nat) : ArrayPlace → Bool
  | .node other byte => other == array && byte.index == index && decide (byte.offset < count)
  | .root _ => false

/-- A pool file that was just created. -/
def newPool : ArrayPmem where
  heap := Heap.empty
  root := null
  aux := { side := (), running := false, trail := [] }

/-- `root_p->array = array`. -/
def storeArray (array : Ptr) : M Unit :=
  perform (fun _ => .store (memberBytes ())) (Prog.setRoot array)

/-- `strcpy` to a slot of the array. -/
def copyTo (value : Value) (index : Nat) (elements : Elements) : Except Fault Elements := do
  let slot ← elements.asArray.slotAt index
  return elements.put index (slot.copyString value)

/-- `strcpy(ptr->value, value)`. -/
def storeValue (value : Value) (array : Ptr) (index : Nat) : M Unit :=
  perform (fun _ => .store (stringBytes array index (value.chars.length + 1)))
    (Prog.modify array (copyTo value index))

/-- `check`. -/
def check : M Unit := do
  let array ← Prog.getRoot
  if array = null then Prog.fault .assertion else return ()

/-- `init`.  `pmemobj_alloc` stores the address durably where it is told to. -/
def init (pool : ArrayPool) : M Int := do
  pool.mode.transaction do
    pool.mode.addRange (memberBytes ())
    let array ← pool.mode.allocate pool.garbage
    storeArray array
    pool.mode.persist (memberBytes ())
  check
  return 1

/-- `insert`. -/
def insert (pool : ArrayPool) (key : Key) (value : Value) : M Int := do
  check
  pool.mode.transaction do
    let array ← Prog.getRoot
    pool.mode.addRange (elementBytes array (offset key))
    storeValue value array (offset key)
    pool.mode.persist (elementBytes array (offset key))
  return 1

/-- `update`: the old value is copied to a local buffer first. -/
def update (pool : ArrayPool) (key : Key) (value : Value) : M Int := do
  check
  pool.mode.transaction do
    let array ← Prog.getRoot
    let elements ← Prog.load array
    let slot ← Prog.lift (elements.asArray.slotAt (offset key))
    let _dummyRead ← Prog.lift (ArrayDram.stringOf slot)
    pool.mode.addRange (elementBytes array (offset key))
    storeValue value array (offset key)
    pool.mode.persist (elementBytes array (offset key))
  return 1

/-- `read`: the slot the result points to. -/
def read (key : Key) : M ValueSlot := do
  check
  let array ← Prog.getRoot
  let elements ← Prog.load array
  Prog.lift (elements.asArray.slotAt (offset key))

/-- `scan`: the pairs appended to `result`. -/
def scan (key : Key) (len : Int) : M (List (Nat × Value)) := do
  check
  let array ← Prog.getRoot
  let elements ← Prog.load array
  Prog.lift (elements.asArray.scanFrom (min len.toNat ARRAY_SIZE) (offset key))

/-- One call. -/
def serve (pool : ArrayPool) : ArrayCall → M ArrayReply
  | .insert key value => do
      let _ ← insert pool key value
      return .done
  | .update key value => do
      let _ ← update pool key value
      return .done
  | .read key => do
      let slot ← read key
      return .slot slot
  | .scan key len => do
      let found ← scan key len
      return .pairs found

/-- Calls one after another. -/
def serveAll (pool : ArrayPool) : List ArrayCall → M (List ArrayReply)
  | [] => return []
  | call :: rest => do
      let reply ← serve pool call
      let replies ← serveAll pool rest
      return reply :: replies

/-- Sessions one after another: each opens the pool, which calls `init`, and makes its calls. -/
def sessions (pool : ArrayPool) : List (List ArrayCall) → M (List (List ArrayReply))
  | [] => return []
  | calls :: rest => do
      let _ ← init pool
      let replies ← serveAll pool calls
      let others ← sessions pool rest
      return replies :: others

end ArrayPmem

/-! ### The same calls in volatile memory -/

namespace ArrayDram

/-- One call. -/
def serve : ArrayCall → ArrayDram → Except Fault (ArrayReply × ArrayDram)
  | .insert key value, state => do
      let next ← insert key value state
      return (.done, next)
  | .update key value, state => do
      let next ← update key value state
      return (.done, next)
  | .read key, state => do
      let slot ← read key state
      return (.slot slot, state)
  | .scan key len, state => do
      let found ← scan key len state
      return (.pairs found, state)

/-- Calls one after another. -/
def serveAll : List ArrayCall → ArrayDram → Except Fault (List ArrayReply)
  | [], _ => .ok []
  | call :: rest, state => do
      let (reply, next) ← serve call state
      let replies ← serveAll rest next
      return reply :: replies

end ArrayDram

end StoredsBench
