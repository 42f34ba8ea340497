/-
Module: StoredsBench.Core.Utils
Layer: Model
Purpose: The hash function of `core/utils.h`, in 64-bit arithmetic that wraps around.
Trusted boundary: human-reviewed spec
Main exports: fnvHash64, hash
-/
namespace StoredsBench.Core

def kFNVOffsetBasis64 : UInt64 := 0xCBF29CE484222325

def kFNVPrime64 : UInt64 := 1099511628211

/-- The variables of the loop of `FNVHash64`. -/
structure FnvState where
  val : UInt64
  hash : UInt64
deriving DecidableEq

/-- An octet goes into the hash. -/
def fnvRound (hash octet : UInt64) : UInt64 := (hash ^^^ octet) * kFNVPrime64

/-- The body of the loop. -/
def fnvStep (state : FnvState) : FnvState where
  val := state.val >>> 8
  hash := fnvRound state.hash (state.val &&& 0x00ff)

/-- The loop. -/
def fnvLoop : (rounds : Nat) → FnvState → FnvState
  | 0, state => state
  | rounds + 1, state => fnvLoop rounds (fnvStep state)

/-- `FNVHash64`. -/
def fnvHash64 (val : UInt64) : UInt64 := (fnvLoop 8 { val := val, hash := kFNVOffsetBasis64 }).hash

/-- `Hash`. -/
def hash (val : UInt64) : UInt64 := fnvHash64 val

end StoredsBench.Core
