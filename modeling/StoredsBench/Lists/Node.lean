/-
Module: StoredsBench.Lists.Node
Layer: Model
Purpose: The nodes of `ht_common.h` and `linkedlist_common.h`, which have the same members, and the
  loop over a list of them that `HtDram` and `LinkedlistDram` share.  `none` marks members nothing
  was ever stored to.  The loop takes a bound on its iterations and faults when it is used up.
Trusted boundary: human-reviewed spec
Main exports: ListNode, findNode, setNext, setValue
-/
import StoredsBench.Interface

namespace StoredsBench.Lists

open Lib

/-- `struct dram_entry` and `struct ll_dram_node`. -/
structure ListNode where
  key : Option Key
  value : ValueSlot
  next : Option Ptr

/-- What `malloc` returns. -/
def ListNode.unwritten : ListNode :=
  { key := none, value := CharArray.unwritten DEFAULT_VALUE_LEN, next := none }

/-- Reading a member. -/
def written {α : Type} : Option α → Except Fault α
  | some contents => .ok contents
  | none => .error .uninitialised

/-- Programs over a heap of such nodes. -/
abbrev ListProg (X α : Type) := Prog ListNode X α

variable {X : Type}

/-- `while (node != NULL) { if (node->key == key) break; node = node->next; }` -/
def findNode (key : Key) : (fuel : Nat) → (node : Ptr) → ListProg X Ptr
  | 0, _ => Prog.fault .diverged
  | fuel + 1, node => do
      if node = null then return null
      else
        let contents ← Prog.load node
        let nodeKey ← Prog.lift (written contents.key)
        if nodeKey = key then return node
        else
          let next ← Prog.lift (written contents.next)
          findNode key fuel next

/-- `node->key = key` and `strcpy(node->value, value)`. -/
def setEntry (key : Key) (value : Value) (node : Ptr) : ListProg X Unit :=
  Prog.modify node fun contents =>
    .ok { contents with key := some key, value := contents.value.copyString value }

/-- `strcpy(node->value, value)`. -/
def setValue (value : Value) (node : Ptr) : ListProg X Unit :=
  Prog.modify node fun contents => .ok { contents with value := contents.value.copyString value }

/-- `node->next = next`. -/
def setNext (next : Ptr) (node : Ptr) : ListProg X Unit :=
  Prog.modify node fun contents => .ok { contents with next := some next }

/-- The string a returned pointer denotes; a null pointer is no result. -/
def stringAt (store : Store ListNode X) (node : Ptr) : Except Fault (Option Value) :=
  if node = null then .ok none
  else
    match store.heap.get? node with
    | none => .error .invalidPointer
    | some contents =>
        match contents.value.string? with
        | none => .error .unterminated
        | some value => .ok (some value)

end StoredsBench.Lists
