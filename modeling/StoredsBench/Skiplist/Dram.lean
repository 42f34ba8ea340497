/-
Module: StoredsBench.Skiplist.Dram
Layer: Model
Purpose: `SkiplistDram` of `storeds/skiplist/skiplist_dram.cc`.  The state carries the outcomes the
  calls of `rand()` will have, so that what holds for every state holds for every sequence of coin
  flips.  Fields `malloc` leaves uninitialised are unwritten: the entry of the head and the `next`
  slots above the height of a node.  Loops over a list take a bound on their iterations and fault
  when it is used up.  `print` only prints, and `destroy` is not part of this module.
Trusted boundary: human-reviewed spec
Main exports: SkNode, SkiplistDram, SkiplistDram.find, SkiplistDram.insertNode,
  SkiplistDram.removeNode, SkiplistDram.backend
-/
import StoredsBench.Interface
import StoredsBench.Lib.CArray
import Mathlib.Data.Stream.Defs

namespace StoredsBench

open Lib

namespace Skiplist

/-- Number of levels in a skip list. -/
def SKIPLIST_LEVELS_NUM : Nat := 16

def SKIPLIST_BASE_LEVEL : Nat := 0

/-- `struct sk_entry`; `none` marks a key nothing was ever stored to. -/
structure SkEntry where
  key : Option Key
  value : ValueSlot

/-- `struct sk_dram_node`. -/
structure SkNode where
  entry : SkEntry
  next : CArray Ptr SKIPLIST_LEVELS_NUM

/-- What `malloc` returns. -/
def SkNode.unwritten : SkNode where
  entry := { key := none, value := CharArray.unwritten DEFAULT_VALUE_LEN }
  next := CArray.unwritten Ptr SKIPLIST_LEVELS_NUM

/-- `node->entry.key`. -/
def SkNode.key (node : SkNode) : Except Fault Key :=
  match node.entry.key with
  | some key => .ok key
  | none => .error .uninitialised

/-- `node->next[level] = address`. -/
def SkNode.setNext (level : Nat) (address : Ptr) (node : SkNode) : Except Fault SkNode := do
  let next ← node.next.set level address
  return { node with next := next }

/-- The array `find` fills: the node to go on from, on every level. -/
abbrev Path := CArray Ptr SKIPLIST_LEVELS_NUM

/-- The outcomes of the calls of `rand()` to come. -/
abbrev Outcomes := Stream' Nat

end Skiplist

open Skiplist

/-- The state of a `SkiplistDram`: its nodes, the `head` member and what `rand()` will return. -/
abbrev SkiplistDram := Store SkNode Outcomes

namespace SkiplistDram

/-- Programs of the class. -/
abbrev M (α : Type) := Prog SkNode Outcomes α

/-- `rand()`. -/
def rand : M Nat := do
  let outcomes ← Prog.getAux
  Prog.setAux outcomes.tail
  return outcomes.head

/-- `check`: aborts without a head. -/
def check : M Unit := do
  let head ← Prog.getRoot
  if head = null then Prog.fault .assertion else return ()

/-- The state before `init`: `head` is `NULL`. -/
def blank (outcomes : Outcomes) : SkiplistDram :=
  { heap := Heap.empty, root := null, aux := outcomes }

/-- The loop of `init`. -/
def clearNext (head : Ptr) : (remaining level : Nat) → M Unit
  | 0, _ => return ()
  | remaining + 1, level => do
      Prog.modify head (SkNode.setNext level null)
      clearNext head remaining (level + 1)

/-- `init`. -/
def init : M Int := do
  let head ← Prog.malloc SkNode.unwritten
  Prog.setRoot head
  clearNext head SKIPLIST_LEVELS_NUM 0
  check
  return 1

/-- The inner loop of `find`. -/
def walk (level : Nat) (key : Key) : (fuel : Nat) → (active current : Ptr) → M Ptr
  | 0, _, _ => Prog.fault .diverged
  | fuel + 1, active, current => do
      if current = null then return active
      else
        let contents ← Prog.load current
        let currentKey ← Prog.lift contents.key
        if currentKey < key then
          let next ← Prog.lift (contents.next.get level)
          walk level key fuel current next
        else return active

/-- The outer loop of `find`, for the levels below `levels`. -/
def findBelow (bound : Nat) (key : Key) : (levels : Nat) → (active : Ptr) → Path → M Path
  | 0, _, path => return path
  | level + 1, active, path => do
      let contents ← Prog.load active
      let current ← Prog.lift (contents.next.get level)
      let active ← walk level key bound active current
      let path ← Prog.lift (path.set level active)
      findBelow bound key level active path

/-- `find`. -/
def find (key : Key) : M Path := do
  let head ← Prog.getRoot
  let size ← Prog.heapSize
  findBelow (size + 1) key SKIPLIST_LEVELS_NUM head (CArray.unwritten Ptr SKIPLIST_LEVELS_NUM)

/-- `path[level]->next[level]`. -/
def nextOnPath (path : Path) (level : Nat) : M Ptr := do
  let node ← Prog.lift (path.get level)
  let contents ← Prog.load node
  Prog.lift (contents.next.get level)

/-- `node != NULL && node->entry.key == key`. -/
def hasKey (node : Ptr) (key : Key) : M Bool :=
  if node = null then return false
  else do
    let contents ← Prog.load node
    let nodeKey ← Prog.lift contents.key
    return nodeKey = key

/-- `read`.  The result is the node whose value it points to; it stays as it was when the key is
not there. -/
def read (key : Key) (result : Option Ptr) : M (Option Ptr) := do
  check
  let path ← find key
  let possibleFound ← nextOnPath path SKIPLIST_BASE_LEVEL
  let found ← hasKey possibleFound key
  if found then return some possibleFound else return result

/-- The loop of `scan`. -/
def scanFrom (len : Int) :
    (fuel : Nat) → Ptr → (count : Int) → List (Key × Value) → M (List (Key × Value))
  | 0, _, _, _ => Prog.fault .diverged
  | fuel + 1, possibleFound, count, result => do
      if possibleFound = null then return result
      else
        let contents ← Prog.load possibleFound
        let key ← Prog.lift contents.key
        match contents.entry.value.string? with
        | none => Prog.fault .unterminated
        | some value =>
            if count + 1 = len then return result ++ [(key, value)]
            else
              let next ← Prog.lift (contents.next.get SKIPLIST_BASE_LEVEL)
              scanFrom len fuel next (count + 1) (result ++ [(key, value)])

/-- `scan`: the pairs appended to `result`. -/
def scan (key : Key) (len : Int) : M (List (Key × Value)) := do
  check
  let path ← find key
  let possibleFound ← nextOnPath path SKIPLIST_BASE_LEVEL
  let size ← Prog.heapSize
  scanFrom len (size + 1) possibleFound 0 []

/-- The body of the loop of `insert_node`. -/
def linkIn (newNode : Ptr) (path : Path) (level : Nat) : M Unit := do
  let next ← nextOnPath path level
  Prog.modify newNode (SkNode.setNext level next)
  let previous ← Prog.lift (path.get level)
  Prog.modify previous (SkNode.setNext level newNode)

/-- The loop of `insert_node` from `level` on.  `rand()` is called on every level but the last. -/
def insertNodeFrom (newNode : Ptr) (path : Path) : (fuel level : Nat) → M Unit
  | 0, _ => Prog.fault .diverged
  | fuel + 1, level => do
      linkIn newNode path level
      if level + 1 < SKIPLIST_LEVELS_NUM then
        let outcome ← rand
        if outcome % 2 = 0 then insertNodeFrom newNode path fuel (level + 1) else return ()
      else return ()

/-- `insert_node`. -/
def insertNode (newNode : Ptr) (path : Path) : M Unit :=
  insertNodeFrom newNode path SKIPLIST_LEVELS_NUM SKIPLIST_BASE_LEVEL

/-- The node `insert` allocates, before it is linked in. -/
def newNodeContents (key : Key) (value : Value) : SkNode :=
  { SkNode.unwritten with
    entry :=
      { key := some key
        value := (CharArray.unwritten DEFAULT_VALUE_LEN).copyString value } }

/-- `strcpy(node->entry.value, value)`. -/
def overwrite (node : Ptr) (value : Value) : M Unit :=
  Prog.modify node fun contents =>
    .ok { contents with entry := { contents.entry with value := contents.entry.value.copyString value } }

/-- `insert`. -/
def insert (key : Key) (value : Value) : M Int := do
  check
  let path ← find key
  let possibleFound ← nextOnPath path SKIPLIST_BASE_LEVEL
  let found ← hasKey possibleFound key
  if found then
    overwrite possibleFound value
    return 1
  else
    let newNode ← Prog.malloc (newNodeContents key value)
    insertNode newNode path
    return 1

/-- `update`. -/
def update : Key → Value → M Int := insert

/-- `next[level] != NULL && next[level]->entry.key == possible_remove->entry.key`, both `next`
pointers those of `path[level]`. -/
def sameKey (next possibleRemove : Ptr) : M Bool :=
  if next = null then return false
  else do
    let nextContents ← Prog.load next
    let nextKey ← Prog.lift nextContents.key
    let contents ← Prog.load possibleRemove
    let key ← Prog.lift contents.key
    return nextKey = key

/-- `path[level]->next[level] = possible_remove->next[level]`. -/
def bypass (path : Path) (level : Nat) (possibleRemove : Ptr) : M Unit := do
  let contents ← Prog.load possibleRemove
  let next ← Prog.lift (contents.next.get level)
  let previous ← Prog.lift (path.get level)
  Prog.modify previous (SkNode.setNext level next)

/-- The body of the loop of `remove_node`. -/
def unlinkAt (path : Path) (possibleRemove : Ptr) (level : Nat) : M Unit := do
  let next ← nextOnPath path level
  let same ← sameKey next possibleRemove
  if same then bypass path level possibleRemove else return ()

/-- The loop of `remove_node`. -/
def unlinkFrom (path : Path) (possibleRemove : Ptr) : (remaining level : Nat) → M Unit
  | 0, _ => return ()
  | remaining + 1, level => do
      unlinkAt path possibleRemove level
      unlinkFrom path possibleRemove remaining (level + 1)

/-- `remove_node`. -/
def removeNode (path : Path) : M Unit := do
  let possibleRemove ← nextOnPath path SKIPLIST_BASE_LEVEL
  unlinkFrom path possibleRemove SKIPLIST_LEVELS_NUM SKIPLIST_BASE_LEVEL
  Prog.free possibleRemove

/-- `remove_free`. -/
def removeFree (key : Key) : M Unit := do
  let path ← find key
  let possibleRemove ← nextOnPath path SKIPLIST_BASE_LEVEL
  let found ← hasKey possibleRemove key
  if found then removeNode path else return ()

/-- The string a returned pointer denotes. -/
def stringAt (store : SkiplistDram) : Option Ptr → Except Fault (Option Value)
  | none => .ok none
  | some address =>
      match store.heap.get? address with
      | none => .error .invalidPointer
      | some node =>
          match node.entry.value.string? with
          | none => .error .unterminated
          | some value => .ok (some value)

/-- `SkiplistDram` behind the `StoredsBase` interface. -/
def backend : Backend SkiplistDram where
  insert := fun key value state => (insert key value state).map Prod.snd
  read := fun key state => do
    let (slot, state) ← read key none state
    stringAt state slot

end SkiplistDram

end StoredsBench
