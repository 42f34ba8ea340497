/-
Module: StoredsBench.Linkedlist.DramCas
Layer: Model
Purpose: `LinkedlistDram_CAS` of `storeds/linkedlist/linkedlist_dram_concurrent_lockfree.cc`: `insert`
  called by any number of threads.  Every load and store of memory that other threads see is a step of
  its own, and so is `__sync_bool_compare_and_swap`.  The new node is filled in one step, when no other
  thread knows it.  What `insert` prints, `read`, `update` and `destroy` are not part of this module.
Trusted boundary: human-reviewed spec
Main exports: LlDramNode, LinkedlistDramCAS, Pc, Place, act, Act, Concurrent
-/
import StoredsBench.Interface
import StoredsBench.Lib.Interleaving

namespace StoredsBench

open Lib

/-- The size of a value slot, which this file defines on its own. -/
def LinkedlistDramCAS.DEFAULT_VALUE_LEN : Nat := 101

/-- The values that fit into it. -/
abbrev LinkedlistDramCAS.Value := CString LinkedlistDramCAS.DEFAULT_VALUE_LEN

/-- `struct ll_dram_node`. -/
structure LlDramNode where
  key : Key
  value : CharArray LinkedlistDramCAS.DEFAULT_VALUE_LEN
  next : Ptr
  flag : Ptr

/-- The nodes, the `int`s that their `flag` members point to, and the members of the class.
`inserted` are the nodes whose `insert` has returned 1. -/
structure LinkedlistDramCAS where
  nodes : Heap LlDramNode
  flags : Heap Int
  head : Ptr
  tail : Ptr
  inserted : List Ptr

namespace LinkedlistDramCAS

/-- `init`. -/
def init : LinkedlistDramCAS where
  nodes := Heap.empty
  flags := Heap.empty
  head := null
  tail := null
  inserted := []

/-! ### Accesses -/

def nextAt (list : LinkedlistDramCAS) (node : Ptr) : Option Ptr :=
  (list.nodes.get? node).map LlDramNode.next

def keyAt (list : LinkedlistDramCAS) (node : Ptr) : Option Key :=
  (list.nodes.get? node).map LlDramNode.key

def flagAt (list : LinkedlistDramCAS) (node : Ptr) : Option Ptr :=
  (list.nodes.get? node).map LlDramNode.flag

/-- `node->next = next`. -/
def setNext (list : LinkedlistDramCAS) (node next : Ptr) : Option LinkedlistDramCAS := do
  let contents ← list.nodes.get? node
  return { list with nodes := list.nodes.set node { contents with next := next } }

/-- `node->flag = new int(0)`. -/
def renewFlag (list : LinkedlistDramCAS) (node : Ptr) : Option LinkedlistDramCAS := do
  let contents ← list.nodes.get? node
  return {
    list with
    flags := list.flags.push 0
    nodes := list.nodes.set node { contents with flag := list.flags.size + 1 } }

/-- `__sync_bool_compare_and_swap(flag, 0, 1)`. -/
def compareAndSwap (list : LinkedlistDramCAS) (flag : Ptr) : Option (Bool × LinkedlistDramCAS) := do
  let stored ← list.flags.get? flag
  if stored = 0 then return (true, { list with flags := list.flags.set flag 1 })
  else return (false, list)

/-- `malloc` of a node whose `next` member holds `garbage`, with the key, the value and a new flag. -/
def createNode (list : LinkedlistDramCAS) (key : Key) (value : Value) (garbage : Ptr) :
    LinkedlistDramCAS :=
  { list with
    flags := list.flags.push 0
    nodes := list.nodes.push {
      key := key
      value := (CharArray.unwritten DEFAULT_VALUE_LEN).copyString value
      next := garbage
      flag := list.flags.size + 1 } }

/-! ### `insert` -/

/-- `uint64_key` and `new_node` of a call. -/
structure Call where
  uint64Key : Key
  newNode : Ptr

/-- The next access of a call, with what it has loaded before. -/
inductive Pc where
  /-- `head == NULL` -/
  | testHead
  /-- `tail = new_node` of the first node -/
  | storeFirstTail
  /-- `head = new_node` of the first node -/
  | storeFirstHead
  /-- `uint64_key < head->key` -/
  | loadHead
  | compareHead (head : Ptr)
  /-- `prev_head = head` -/
  | loadPrevHead
  /-- `head->flag` -/
  | loadFlagHead (prevHead : Ptr)
  | loadHeadFlag (prevHead head : Ptr)
  | casHead (prevHead flag : Ptr)
  /-- `new_node->next = head` -/
  | loadNewNext (prevHead : Ptr)
  | storeNewNext (prevHead head : Ptr)
  /-- `head = new_node` -/
  | storeHead (prevHead : Ptr)
  /-- `prev_head->flag = new int(0)` -/
  | renewHead (prevHead : Ptr)
  /-- `uint64_key > tail->key` -/
  | loadTail
  | compareTail (tail : Ptr)
  /-- `prev_tail = tail` -/
  | loadPrevTail
  /-- `tail->flag` -/
  | loadFlagTail (prevTail : Ptr)
  | loadTailFlag (prevTail tail : Ptr)
  | casTail (prevTail flag : Ptr)
  /-- `tail->next = new_node` -/
  | loadLast (prevTail : Ptr)
  | storeLastNext (prevTail tail : Ptr)
  /-- `tail = new_node` -/
  | storeTail (prevTail : Ptr)
  /-- `prev_tail->flag = new int(0)` -/
  | renewTail (prevTail : Ptr)
  /-- `temp = head` -/
  | loadTemp
  /-- `temp->next != NULL` -/
  | testNext (temp : Ptr)
  /-- `temp->key <= uint64_key` -/
  | compareTemp (temp : Ptr)
  /-- `temp->next->key >= uint64_key` -/
  | loadTempNext (temp : Ptr)
  | compareNext (temp next : Ptr)
  /-- `next_node = temp->next` -/
  | loadNextNode (temp : Ptr)
  /-- `temp->flag` -/
  | loadTempFlag (temp nextNode : Ptr)
  | casTemp (temp nextNode flag : Ptr)
  /-- `new_node->next = next_node` -/
  | storeNextNode (temp nextNode : Ptr)
  /-- `temp->next = new_node` -/
  | storeTempNext (temp : Ptr)
  /-- `temp->flag = new int(0)` -/
  | renewTemp (temp : Ptr)
  /-- `temp = temp->next` -/
  | advance (temp : Ptr)

/-- Where a thread is: outside of `insert`, or inside of a call. -/
inductive Place where
  | idle
  | inside (call : Call) (pc : Pc)

/-- `return 1`. -/
def returnsOne (list : LinkedlistDramCAS) (call : Call) : LinkedlistDramCAS × Place :=
  ({ list with inserted := call.newNode :: list.inserted }, .idle)

/-- The access at `pc`; `none` where it follows a pointer to nothing. -/
def act (list : LinkedlistDramCAS) (call : Call) : Pc → Option (LinkedlistDramCAS × Place)
  | .testHead =>
      if list.head = null then some (list, .inside call .storeFirstTail)
      else some (list, .inside call .loadHead)
  | .storeFirstTail => some ({ list with tail := call.newNode }, .inside call .storeFirstHead)
  | .storeFirstHead => some (returnsOne { list with head := call.newNode } call)
  | .loadHead => some (list, .inside call (.compareHead list.head))
  | .compareHead head => do
      let key ← list.keyAt head
      if call.uint64Key < key then return (list, .inside call .loadPrevHead)
      else return (list, .inside call .loadTail)
  | .loadPrevHead => some (list, .inside call (.loadFlagHead list.head))
  | .loadFlagHead prevHead => some (list, .inside call (.loadHeadFlag prevHead list.head))
  | .loadHeadFlag prevHead head => do
      let flag ← list.flagAt head
      return (list, .inside call (.casHead prevHead flag))
  | .casHead prevHead flag => do
      let (raceResult, list) ← list.compareAndSwap flag
      if raceResult then return (list, .inside call (.loadNewNext prevHead)) else return (list, .idle)
  | .loadNewNext prevHead => some (list, .inside call (.storeNewNext prevHead list.head))
  | .storeNewNext prevHead head => do
      let list ← list.setNext call.newNode head
      return (list, .inside call (.storeHead prevHead))
  | .storeHead prevHead => some ({ list with head := call.newNode }, .inside call (.renewHead prevHead))
  | .renewHead prevHead => do
      let list ← list.renewFlag prevHead
      return returnsOne list call
  | .loadTail => some (list, .inside call (.compareTail list.tail))
  | .compareTail tail => do
      let key ← list.keyAt tail
      if call.uint64Key > key then return (list, .inside call .loadPrevTail)
      else return (list, .inside call .loadTemp)
  | .loadPrevTail => some (list, .inside call (.loadFlagTail list.tail))
  | .loadFlagTail prevTail => some (list, .inside call (.loadTailFlag prevTail list.tail))
  | .loadTailFlag prevTail tail => do
      let flag ← list.flagAt tail
      return (list, .inside call (.casTail prevTail flag))
  | .casTail prevTail flag => do
      let (raceResult, list) ← list.compareAndSwap flag
      if raceResult then return (list, .inside call (.loadLast prevTail)) else return (list, .idle)
  | .loadLast prevTail => some (list, .inside call (.storeLastNext prevTail list.tail))
  | .storeLastNext prevTail tail => do
      let list ← list.setNext tail call.newNode
      return (list, .inside call (.storeTail prevTail))
  | .storeTail prevTail => some ({ list with tail := call.newNode }, .inside call (.renewTail prevTail))
  | .renewTail prevTail => do
      let list ← list.renewFlag prevTail
      return returnsOne list call
  | .loadTemp => some (list, .inside call (.testNext list.head))
  | .testNext temp => do
      let next ← list.nextAt temp
      if next ≠ null then return (list, .inside call (.compareTemp temp)) else return (list, .idle)
  | .compareTemp temp => do
      let key ← list.keyAt temp
      if key ≤ call.uint64Key then return (list, .inside call (.loadTempNext temp))
      else return (list, .inside call (.advance temp))
  | .loadTempNext temp => do
      let next ← list.nextAt temp
      return (list, .inside call (.compareNext temp next))
  | .compareNext temp next => do
      let key ← list.keyAt next
      if key ≥ call.uint64Key then return (list, .inside call (.loadNextNode temp))
      else return (list, .inside call (.advance temp))
  | .loadNextNode temp => do
      let nextNode ← list.nextAt temp
      return (list, .inside call (.loadTempFlag temp nextNode))
  | .loadTempFlag temp nextNode => do
      let flag ← list.flagAt temp
      return (list, .inside call (.casTemp temp nextNode flag))
  | .casTemp temp nextNode flag => do
      let (raceResult, list) ← list.compareAndSwap flag
      if raceResult then return (list, .inside call (.storeNextNode temp nextNode))
      else return (list, .inside call (.advance temp))
  | .storeNextNode temp nextNode => do
      let list ← list.setNext call.newNode nextNode
      return (list, .inside call (.storeTempNext temp))
  | .storeTempNext temp => do
      let list ← list.setNext temp call.newNode
      return (list, .inside call (.renewTemp temp))
  | .renewTemp temp => do
      let list ← list.renewFlag temp
      return returnsOne list call
  | .advance temp => do
      let next ← list.nextAt temp
      return (list, .inside call (.testNext next))

/-- A step of one thread: it calls `insert`, or goes on with its call. -/
inductive Act : LinkedlistDramCAS → Place → LinkedlistDramCAS → Place → Prop where
  | call (list : LinkedlistDramCAS) (key : Key) (value : Value) (garbage : Ptr) :
      Act list .idle (list.createNode key value garbage)
        (.inside ⟨key, list.nodes.size + 1⟩ .testHead)
  | access {list list' : LinkedlistDramCAS} {call : Call} {pc : Pc} {place : Place} :
      list.act call pc = some (list', place) → Act list (.inside call pc) list' place

/-- Threads that share one list. -/
abbrev Concurrent (T : Type) := Threads T LinkedlistDramCAS Place

/-- Before the first call. -/
def Concurrent.start (T : Type) : Concurrent T where
  shared := init
  thread := fun _ => .idle

end LinkedlistDramCAS

end StoredsBench
