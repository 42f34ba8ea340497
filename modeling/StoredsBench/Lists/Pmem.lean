/-
Module: StoredsBench.Lists.Pmem
Layer: Model
Purpose: The nodes of `ht_common.h` and `linkedlist_common.h` in a pool: the places they consist of,
  the stores to their members, and the allocation of one.  Contents of fresh nodes are arbitrary, and
  so is what lies behind the members of the pool's root object.
Trusted boundary: human-reviewed spec
Main exports: ListPlace, ListNode.content, ListPool, ListPool.createNode, readPlace
-/
import StoredsBench.Lists.Node
import StoredsBench.Pmem

namespace StoredsBench.Lists

open Lib

/-- The members of a node. -/
inductive ListField where
  | key
  | valueByte (offset : Nat)
  | next
deriving DecidableEq

/-- The places of a pool: the members `R` nodes are entered through, and the members of nodes. -/
abbrev ListPlace (R : Type) := ObjectPlace R ListField

/-- What a member of a node holds. -/
def ListNode.content (node : ListNode) : ListField → Content
  | .key => .word node.key
  | .valueByte offset => .byte (node.value.bytes.getD offset none)
  | .next => .pointer node.next

/-- The first `count` bytes of the value of the node at an address. -/
def stringBytes {R : Type} (address : Ptr) (count : Nat) : ListPlace R → Bool
  | .node other (.valueByte offset) => other == address && decide (offset < count)
  | _ => false

/-- The calls a class makes, what its allocator leaves in the object at an address, and what lies
within the size of a node from a member of the root object on, that member apart. -/
structure ListPool (R : Type) where
  mode : Mode
  garbage : Ptr → ListNode
  behind : R → ListPlace R → Bool

/-- The pool of a plain class, and that of a `Tx` class. -/
def ListPool.plain {R : Type} (garbage : Ptr → ListNode) (behind : R → ListPlace R → Bool) :
    ListPool R :=
  { mode := .persistent, garbage := garbage, behind := behind }

def ListPool.tx {R : Type} (garbage : Ptr → ListNode) (behind : R → ListPlace R → Bool) :
    ListPool R :=
  { mode := .transactional, garbage := garbage, behind := behind }

/-- Programs over the nodes of a pool; `Y` is the memory beside them. -/
abbrev ListPmemProg (R Y α : Type) := PmemProg ListNode Y (ListPlace R) α

/-- The state of a class with the trail of its effects. -/
abbrev ListPmem (R Y : Type) := Store ListNode (Journal ListNode Y (ListPlace R))

variable {R Y : Type}

/-- As many bytes from a member of the root object on as a node has. -/
def ListPool.rangeFrom [DecidableEq R] (pool : ListPool R) (member : R) (place : ListPlace R) : Bool :=
  memberBytes member place || pool.behind member place

/-- `node->key = key`. -/
def storeKey (key : Key) (node : Ptr) : ListPmemProg R Y Unit :=
  perform (fun _ => .store (fieldBytes node .key))
    (Prog.modify node fun contents => .ok { contents with key := some key })

/-- `memcpy(node->value, value, strlen(value) + 1)`. -/
def storeValue (value : Value) (node : Ptr) : ListPmemProg R Y Unit :=
  perform (fun _ => .store (stringBytes node (value.chars.length + 1))) (setValue value node)

/-- `node->next = next`. -/
def storeNext (next : Ptr) (node : Ptr) : ListPmemProg R Y Unit :=
  perform (fun _ => .store (fieldBytes node .next)) (setNext next node)

/-- `create_node` and `create_ll_node`: the `next` member keeps what the allocator left there. -/
def ListPool.createNode (pool : ListPool R) (key : Key) (value : Value) : ListPmemProg R Y Ptr := do
  let node ← pool.mode.allocate pool.garbage
  storeKey key node
  storeValue value node
  return node

/-- A value is overwritten: the `Tx` classes do it in a transaction with a snapshot of the node. -/
def ListPool.overwrite (pool : ListPool R) (value : Value) (node : Ptr) : ListPmemProg R Y Unit :=
  pool.mode.transaction do
    pool.mode.addRange (nodeBytes node)
    storeValue value node

/-- What a place of the pool holds, when `readRoot` reads the members of the root object; `none` is a
place of no object. -/
def readPlace (readRoot : Store ListNode Y → R → Option Content) :
    Store ListNode Y → ListPlace R → Option Content :=
  readObjects readRoot ListNode.content

end StoredsBench.Lists
