/-
Module: StoredsBench.Skiplist.Pmem
Layer: Model
Purpose: `SkiplistPmem` and `SkiplistPmemTx` of `storeds/skiplist/skiplist_pmem.cc` and
  `skiplist_pmem_tx.cc`.  Their pool has the nodes and the pointer to the head node in its root
  object; the outcomes of `rand()` lie beside it.  Both loop through the levels as `SkiplistDram` does;
  new objects have arbitrary contents.  The range of a `next` slot is as long as a node, so it has the
  slots behind it and whatever lies behind the node.  `remove_free` and `destroy` are not part of this
  module.
Trusted boundary: human-reviewed spec
Main exports: SkField, SkPool, SkPool.Zeroed, SkPool.bare, SkiplistPmem, SkiplistPmem.init,
  SkiplistPmem.insertNode, SkiplistPmem.insert, SkiplistPmem.readPool
-/
import StoredsBench.Skiplist.Dram
import StoredsBench.Pmem

namespace StoredsBench

open Lib

namespace Skiplist

/-- The members of a node. -/
inductive SkField where
  | key
  | valueByte (offset : Nat)
  | next (level : Nat)
deriving DecidableEq

/-- The places of a pool; the only member of its root object is `root_node_oid`. -/
abbrev SkPlace := ObjectPlace Unit SkField

/-- What a member of a node holds. -/
def SkNode.content (node : SkNode) : SkField → Content
  | .key => .word node.entry.key
  | .valueByte offset => .byte (node.entry.value.bytes.getD offset none)
  | .next level => .pointer (node.next.at? level)

/-- `root_p->root_node_oid`. -/
def readRoot (store : SkiplistDram) (_member : Unit) : Option Content :=
  some (.pointer (some store.root))

/-- `&node->entry` with the size of an entry. -/
def entryBytes (address : Ptr) : SkPlace → Bool
  | .node other .key => other == address
  | .node other (.valueByte _) => other == address
  | _ => false

/-- The first `count` bytes of the value of the node at an address. -/
def stringBytes (address : Ptr) (count : Nat) : SkPlace → Bool
  | .node other (.valueByte offset) => other == address && decide (offset < count)
  | _ => false

/-- The slots of a node from a level on. -/
def slotsFrom (address : Ptr) (level : Nat) : SkPlace → Bool
  | .node other (.next index) => other == address && decide (level ≤ index)
  | _ => false

/-- What the allocator leaves in the object at an address, and what lies within the size of a node
from a `next` slot on, the slots of the same node apart. -/
structure SkPool where
  garbage : Ptr → SkNode
  behind : Ptr → Nat → SkPlace → Bool

/-- The first object has null pointers, as in a pool file that was just created. -/
def SkPool.Zeroed (pool : SkPool) : Prop :=
  ∀ level < SKIPLIST_LEVELS_NUM, (pool.garbage 1).next.at? level = some null

/-- A node with this key and zeros otherwise. -/
def SkNode.zeros (key : Key) : SkNode where
  entry :=
    { key := some key
      value := ⟨List.replicate DEFAULT_VALUE_LEN (some 0), List.length_replicate⟩ }
  next := ⟨List.replicate SKIPLIST_LEVELS_NUM (some null), List.length_replicate⟩

/-- A pool of such objects with nothing behind them. -/
def SkPool.bare (key : Key) : SkPool where
  garbage := fun _ => SkNode.zeros key
  behind := fun _ _ _ => false

theorem SkPool.zeroed_bare (key : Key) : (SkPool.bare key).Zeroed := by
  intro level inside
  simp [SkPool.bare, SkNode.zeros, CArray.at?, inside]

/-- `&node->next[level]` with the size of a node. -/
def SkPool.rangeFrom (pool : SkPool) (address : Ptr) (level : Nat) (place : SkPlace) : Bool :=
  slotsFrom address level place || pool.behind address level place

end Skiplist

open Skiplist

/-- The state of a `SkiplistPmem` or `SkiplistPmemTx` with the trail of its effects. -/
abbrev SkiplistPmem := Store SkNode (Journal SkNode Outcomes SkPlace)

namespace SkiplistPmem

/-- Programs of the classes. -/
abbrev M (α : Type) := PmemProg SkNode Outcomes SkPlace α

/-- What a place of the pool holds; `none` is a place of no object. -/
def readPool : SkiplistDram → SkPlace → Option Content := readObjects readRoot SkNode.content

/-- A new pool before `init`. -/
def blank (outcomes : Outcomes) : SkiplistPmem where
  heap := Heap.empty
  root := null
  aux := { side := outcomes, running := false, trail := [] }

/-- `root_p->root_node_oid = node`. -/
def storeRoot (node : Ptr) : M Unit :=
  perform (fun _ => .store (memberBytes ())) (Prog.setRoot node)

/-- `node->entry.key = key`. -/
def storeKey (key : Key) (node : Ptr) : M Unit :=
  perform (fun _ => .store (fieldBytes node .key)) <| Prog.modify node fun contents =>
    .ok { contents with entry := { contents.entry with key := some key } }

/-- `memcpy(node->entry.value, value, strlen(value) + 1)`. -/
def storeValue (value : Value) (node : Ptr) : M Unit :=
  perform (fun _ => .store (stringBytes node (value.chars.length + 1)))
    (SkiplistDram.overwrite node value)

/-- `node->next[level] = next`. -/
def storeNext (level : Nat) (next node : Ptr) : M Unit :=
  perform (fun _ => .store (fieldBytes node (.next level)))
    (Prog.modify node (SkNode.setNext level next))

/-- `check`: aborts without a root object, which every opened pool has. -/
def check : M Unit := return ()

/-- `init`.  `pmemobj_alloc` stores the address durably where it is told to. -/
def init (mode : Mode) (pool : SkPool) : M Int := do
  mode.transaction do
    mode.addRange (memberBytes ())
    let head ← mode.allocate pool.garbage
    storeRoot head
    mode.persist (memberBytes ())
  check
  return 1

/-- The body of the loop of `insert_node`.  The plain class persists its local variable `new_node_oid`,
which is no place of the pool, and the range of the slot before the new node. -/
def linkIn (mode : Mode) (pool : SkPool) (newNode : Ptr) (path : Path) (level : Nat) : M Unit := do
  let previous ← Prog.lift (path.get level)
  mode.addRange (pool.rangeFrom previous level)
  let next ← onMemory (SkiplistDram.nextOnPath path level)
  storeNext level next newNode
  storeNext level newNode previous
  mode.persist fun _ => false
  mode.persist (pool.rangeFrom previous level)

/-- The loop of `insert_node` from `level` on. -/
def insertNodeFrom (mode : Mode) (pool : SkPool) (newNode : Ptr) (path : Path) : (fuel level : Nat) → M Unit
  | 0, _ => Prog.fault .diverged
  | fuel + 1, level => do
      linkIn mode pool newNode path level
      if level + 1 < SKIPLIST_LEVELS_NUM then
        let outcome ← onMemory SkiplistDram.rand
        if outcome % 2 = 0 then insertNodeFrom mode pool newNode path fuel (level + 1) else return ()
      else return ()

/-- `insert_node`. -/
def insertNode (mode : Mode) (pool : SkPool) (newNode : Ptr) (path : Path) : M Unit :=
  insertNodeFrom mode pool newNode path SKIPLIST_LEVELS_NUM SKIPLIST_BASE_LEVEL

/-- The branch of `insert` for a key that is stored. -/
def overwrite (mode : Mode) (value : Value) (node : Ptr) : M Unit := do
  mode.transaction do
    mode.addRange (entryBytes node)
    storeValue value node
  mode.persist (nodeBytes node)

/-- The branch of `insert` for a key that is not stored. -/
def insertNew (mode : Mode) (pool : SkPool) (key : Key) (value : Value) (path : Path) : M Unit :=
  mode.transaction do
    let newNode ← mode.allocate pool.garbage
    storeKey key newNode
    storeValue value newNode
    insertNode mode pool newNode path

/-- `insert`. -/
def insert (mode : Mode) (pool : SkPool) (key : Key) (value : Value) : M Int := do
  check
  let path ← onMemory (SkiplistDram.find key)
  let possibleFound ← onMemory (SkiplistDram.nextOnPath path SKIPLIST_BASE_LEVEL)
  let found ← onMemory (SkiplistDram.hasKey possibleFound key)
  if found then
    overwrite mode value possibleFound
    return 1
  else
    insertNew mode pool key value path
    return 1

/-- `update`. -/
def update (mode : Mode) (pool : SkPool) : Key → Value → M Int := insert mode pool

/-- `read`. -/
def read (key : Key) (result : Option Ptr) : M (Option Ptr) := do
  check
  let path ← onMemory (SkiplistDram.find key)
  let possibleFound ← onMemory (SkiplistDram.nextOnPath path SKIPLIST_BASE_LEVEL)
  let found ← onMemory (SkiplistDram.hasKey possibleFound key)
  if found then return some possibleFound else return result

/-- `scan`: the pairs appended to `result`. -/
def scan (key : Key) (len : Int) : M (List (Key × Value)) := do
  check
  let path ← onMemory (SkiplistDram.find key)
  let possibleFound ← onMemory (SkiplistDram.nextOnPath path SKIPLIST_BASE_LEVEL)
  let size ← Prog.heapSize
  onMemory (SkiplistDram.scanFrom len (size + 1) possibleFound 0 [])

end SkiplistPmem

end StoredsBench
