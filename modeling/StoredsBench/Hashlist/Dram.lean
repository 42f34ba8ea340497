/-
Module: StoredsBench.Hashlist.Dram
Layer: Model
Purpose: `HlDram` of `storeds/hashlist/hl_dram.cc`.  Its text is that of `HlPmem` without the calls to
  PMDK, on nodes that `malloc` returns.  `scan` only throws, and `destroy` is not part of this module.
Trusted boundary: human-reviewed spec
Main exports: HlDram, HlDram.init, HlDram.insert, HlDram.read
-/
import StoredsBench.Hashlist.Pmem

namespace StoredsBench

open Lib Lists Linkedlist Hashmap

/-- The state of an `HlDram`: `head`, `tail` and the nodes, and as `index` what `root_p` points to. -/
abbrev HlDram := HlPmem

namespace HlDram

/-- `malloc` leaves anything in a new node. -/
def allocator (garbage : Ptr → ListNode) : ListPool RootMember where
  mode := .volatile
  garbage := garbage
  behind := fun _ _ => false

/-- `init`. -/
def init (coefficients : HashCoefficients) : HlDram := HlPmem.init coefficients

/-- `read`: the node whose value the result points to, null when there is none. -/
def read : Key → HlPmem.M Ptr := HlPmem.read

/-- `insert`: with `create_ll_node`, whose `next` member stays as `malloc` left it. -/
def insert (garbage : Ptr → ListNode) : Key → Value → HlPmem.M Int := HlPmem.insert (allocator garbage)

/-- `update`. -/
def update (garbage : Ptr → ListNode) : Key → Value → HlPmem.M Int := insert garbage

end HlDram

end StoredsBench
