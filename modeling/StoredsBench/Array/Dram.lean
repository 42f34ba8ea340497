/-
Module: StoredsBench.Array.Dram
Layer: Model
Purpose: `ArrayDram` of `storeds/array/array_dram.cc`.  A key addresses the slot of its remainder, so
  that keys with one remainder share a slot.  `check` never fails once `init` got its memory.
Trusted boundary: human-reviewed spec
Main exports: ArrayDram, ArrayDram.insert, ArrayDram.read, ArrayDram.scan, ArrayDram.backend
-/
import StoredsBench.Interface

namespace StoredsBench

open Lib

/-- `ARRAY_SIZE`. -/
def ARRAY_SIZE : Nat := 1000000

/-- The state of an `ArrayDram`: its `array` member. -/
structure ArrayDram where
  array : List ValueSlot

namespace ArrayDram

/-- `init`: memory that nothing was stored to. -/
def init : ArrayDram := { array := List.replicate ARRAY_SIZE (CharArray.unwritten DEFAULT_VALUE_LEN) }

/-- `(int) (key % ARRAY_SIZE)`. -/
def offset (key : Key) : Nat := key.toNat % ARRAY_SIZE

/-- `array[index]`. -/
def slotAt (state : ArrayDram) (index : Nat) : Except Fault ValueSlot :=
  match state.array[index]? with
  | some slot => .ok slot
  | none => .error .outOfBounds

/-- The string a slot holds. -/
def stringOf (slot : ValueSlot) : Except Fault Value :=
  match slot.string? with
  | some value => .ok value
  | none => .error .unterminated

/-- `insert`. -/
def insert (key : Key) (value : Value) (state : ArrayDram) : Except Fault ArrayDram := do
  let slot ← state.slotAt (offset key)
  return { array := state.array.set (offset key) (slot.copyString value) }

/-- `update`: the old value is copied to a local buffer first. -/
def update (key : Key) (value : Value) (state : ArrayDram) : Except Fault ArrayDram := do
  let slot ← state.slotAt (offset key)
  let _dummyRead ← stringOf slot
  return { array := state.array.set (offset key) (slot.copyString value) }

/-- `read`: the slot the result points to. -/
def read (key : Key) (state : ArrayDram) : Except Fault ValueSlot := state.slotAt (offset key)

/-- The loop of `scan` for `remaining` slots from `index` on. -/
def scanFrom (state : ArrayDram) :
    (remaining index : Nat) → Except Fault (List (Nat × Value))
  | 0, _ => .ok []
  | remaining + 1, index => do
      let slot ← state.slotAt index
      let value ← stringOf slot
      let rest ← scanFrom state remaining (index + 1)
      return (index, value) :: rest

/-- `scan`: the pairs appended to `result`.  The loop ends after `len` or `ARRAY_SIZE` rounds,
wherever it started. -/
def scan (key : Key) (len : Int) (state : ArrayDram) : Except Fault (List (Nat × Value)) :=
  state.scanFrom (min len.toNat ARRAY_SIZE) (offset key)

/-- `ArrayDram` behind the `StoredsBase` interface. -/
def backend : Backend ArrayDram where
  insert := insert
  read := fun key state => do
    let slot ← state.read key
    let value ← stringOf slot
    return some value

end ArrayDram

end StoredsBench
