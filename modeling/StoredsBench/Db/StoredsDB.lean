/-
Module: StoredsBench.Db.StoredsDB
Layer: Model
Purpose: `StoredsDB::Read` of `db/storeds_db.cc` over the backends in volatile memory.  The pointer it
  hands to a backend is not initialised; a backend assigns it, with `NULL` for a missing key, or
  assigns it for a stored key only.
Trusted boundary: human-reviewed spec
Main exports: OutParameter, StoredsBase, StoredsDB.read
-/
import StoredsBench.BTree.Dram
import StoredsBench.BPlusTree.Dram
import StoredsBench.Rbtree.Dram
import StoredsBench.Skiplist.Dram
import StoredsBench.Hashmap.Dram

namespace StoredsBench

open Lib

/-- What the parameter `void *&result` of `read` holds. -/
inductive OutParameter where
  | uninitialised
  | null
  | string (value : Value)

/-- `read` of a backend: it gets the parameter and leaves it with a new content. -/
structure StoredsBase (S : Type) where
  read : Key → OutParameter → S → Except Fault (OutParameter × S)

namespace OutParameter

/-- `result = search(...)`. -/
def assign (_result : OutParameter) : Option Value → OutParameter
  | none => .null
  | some value => .string value

/-- `result = ...` in the branch for a key that was found. -/
def assignFound (result : OutParameter) : Option Value → OutParameter
  | none => result
  | some value => .string value

end OutParameter

/-- `BTreeDram::read`. -/
def BTreeDram.storeds : StoredsBase BTreeDram where
  read := fun key result state => do
    let (slot, state) ← BTreeDram.read key state
    let value ← Trees.stringAt state slot
    return (result.assign value, state)

/-- `BPlusTreeDram::read`. -/
def BPlusTreeDram.storeds : StoredsBase BPlusTreeDram where
  read := fun key result state => do
    let (slot, state) ← BPlusTreeDram.read key state
    let value ← Trees.stringAt state slot
    return (result.assign value, state)

/-- `RbtreeDram::read`. -/
def RbtreeDram.storeds : StoredsBase RbtreeDram where
  read := fun key result state => do
    let (slot, state) ← RbtreeDram.read key none state
    let value ← Rbtree.stringAt state slot
    return (result.assignFound value, state)

/-- `SkiplistDram::read`. -/
def SkiplistDram.storeds : StoredsBase SkiplistDram where
  read := fun key result state => do
    let (slot, state) ← SkiplistDram.read key none state
    let value ← SkiplistDram.stringAt state slot
    return (result.assignFound value, state)

/-- `HtDram::read`. -/
def HtDram.storeds : StoredsBase HtDram where
  read := fun key result state => do
    let (entry, state) ← HtDram.read key state
    let value ← Lists.stringAt state entry
    return (result.assignFound value, state)

namespace StoredsDB

/-- `DB::kOK`. -/
def kOK : Int := 0

/-- `Read`: the code and the pairs in `result`, which it clears first. -/
def read {S : Type} (storeds : StoredsBase S) (key : Key) (state : S) :
    Except Fault (Int × List (Key × OutParameter) × S) := do
  let dummy := OutParameter.uninitialised
  let (dummy, state) ← storeds.read key dummy state
  return (kOK, [(key, dummy)], state)

end StoredsDB

end StoredsBench
