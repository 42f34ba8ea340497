/-
Module: StoredsBench.MemOpt.Pool
Layer: Model
Purpose: What the classes of `bplustree_mem_opt` and `btree_mem_opt` share.  Their nodes hold keys or
  pointers only, and values lie in records of their own, so the memory has a second heap.  As for the
  other trees a `Mode` says which PMDK calls a class makes, and what an allocator leaves in a fresh
  node or record is arbitrary.
Trusted boundary: human-reviewed spec
Main exports: MemOpt.Pool, MemOpt.storeNode, MemOpt.storeRoot, MemOpt.createRecord, MemOpt.overwrite
-/
import StoredsBench.Trees.Pmem

namespace StoredsBench

open Lib

/-- The bytes of the record at an address. -/
def wholeRecord (address : Ptr) : Place → Bool
  | .recordKey other => other == address
  | .recordByte other _ => other == address
  | _ => false

/-- The first `count` bytes of the value in the record at an address. -/
def recordBytes (address count : Nat) : Place → Bool
  | .recordByte other offset => other == address && decide (offset < count)
  | _ => false

/-- The `key` member of the record at an address. -/
def recordKey (address : Ptr) (place : Place) : Bool := place == .recordKey address

namespace MemOpt

/-- The calls a class makes, what its allocator leaves in a node and in a record, and what lies within
the size of a node from the pool's root object on, that object apart. -/
structure Pool (N R : Type) where
  mode : Mode
  garbage : Ptr → N
  garbageRecord : Ptr → R
  behindRoot : Place → Bool

variable {N R α : Type}

/-- `root_p` or `&root_p->root_node_oid` with the size of a node. -/
def Pool.rootRange (pool : Pool N R) (place : Place) : Bool :=
  poolRoot place || pool.behindRoot place

/-- Programs over nodes and records. -/
abbrev PoolProg (N R α : Type) := PmemProg N (Heap R) Place α

/-- The state of a class: nodes, records, the pointer to the root, and the trail of effects. -/
abbrev PoolState (N R : Type) := Store N (Journal N (Heap R) Place)

/-- Nothing is allocated yet. -/
def newState : PoolState N R where
  heap := Heap.empty
  root := null
  aux := { side := Heap.empty, running := false, trail := [] }

/-- Stores to members of the node at an address. -/
def storeNode (address : Ptr) (change : N → Except Fault N) : PoolProg N R Unit :=
  perform (fun _ => .store (wholeNode address)) (Prog.modify address change)

/-- The store to the pointer to the root. -/
def storeRoot (root : Ptr) : PoolProg N R Unit :=
  perform (fun _ => .store poolRoot) (Prog.setRoot root)

/-- Allocate a node and initialise some of its members. -/
def Pool.allocateNode (pool : Pool N R) (initialise : N → N) : PoolProg N R Ptr :=
  perform (fun address => .allocate (wholeNode address)) do
    let size ← Prog.heapSize
    Prog.malloc (initialise (pool.garbage (size + 1)))

/-- Allocate a record. -/
def Pool.allocateRecord (pool : Pool N R) : PoolProg N R Ptr :=
  perform (fun address => .allocate (wholeRecord address)) (Prog.mallocBeside pool.garbageRecord)

/-- Stores to the record at an address. -/
def storeRecord (range : Place → Bool) (address : Ptr) (change : R → R) : PoolProg N R Unit :=
  perform (fun _ => .store range) (Prog.modifyBeside address change)

/-- Records with a value. -/
class Valued (R : Type) where
  slot : R → ValueSlot
  setSlot : R → ValueSlot → R
  slot_setSlot : ∀ record value, slot (setSlot record value) = value

open Valued

/-- `memcpy(record->value, value, strlen(value) + 1)`. -/
def copyInto [Valued R] (address : Ptr) (value : Value) : PoolProg N R Unit :=
  storeRecord (recordBytes address (value.chars.length + 1)) address fun record =>
    setSlot record ((slot record).copyString value)

/-- What `update_if_found` does once it has found the record: the `Tx` classes snapshot as many bytes
as the old value has characters, the plain ones persist what they copied. -/
def Pool.overwrite [Valued R] (pool : Pool N R) (address : Ptr) (value : Value) : PoolProg N R Unit :=
  match pool.mode with
  | .transactional =>
      transaction do
        let record ← onMemory (Prog.loadBeside address)
        match (slot record).string? with
        | none => Prog.fault .unterminated
        | some old =>
            addRange (recordBytes address old.chars.length)
            copyInto address value
  | _ => do
      copyInto address value
      pool.mode.persist (recordBytes address (value.chars.length + 1))

/-- `update_if_found` after its search. -/
def Pool.overwriteFound [Valued R] (pool : Pool N R) (value : Value) :
    Option Ptr → PoolProg N R Bool
  | none => return false
  | some record => do
      pool.overwrite record value
      return true

/-- The string in a record. -/
def valueOf [Valued R] (address : Ptr) : Prog N (Heap R) Value := do
  let record ← Prog.loadBeside address
  match (slot record).string? with
  | none => Prog.fault .unterminated
  | some value => return value

/-- The string a pointer that `search` returned denotes. -/
def stringAt [Valued R] (store : Store N (Heap R)) : Option Ptr → Except Fault (Option Value)
  | none => .ok none
  | some address => (valueOf address store).map fun result => some result.1

end MemOpt

end StoredsBench
