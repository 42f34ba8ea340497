/-
Module: StoredsBench.BPlusTree.Dram
Layer: Model
Purpose: `BPlusTreeDram` of `storeds/bplustree/bplustree_dram.cc`, function by function.  `destroy`
  is not part of this module, and `print_leaf_chain` only prints.
Trusted boundary: human-reviewed spec
Main exports: BPlusTreeDram, BPlusTreeDram.search, BPlusTreeDram.read, BPlusTreeDram.scan,
  BPlusTreeDram.splitNode, BPlusTreeDram.insertNotFull, BPlusTreeDram.updateIfFound,
  BPlusTreeDram.insert, BPlusTreeDram.backend
-/
import StoredsBench.Trees.Node

namespace StoredsBench

open Lib Trees

/-- `BPLUSTREE_MIN_DEGREE`. -/
def BPLUSTREE_MIN_DEGREE : Nat := 9

namespace BPlusTreeDram

/-- The leaf chain members `next` and `previous` of a node. -/
structure Links where
  next : Ptr
  previous : Ptr
deriving DecidableEq

end BPlusTreeDram

/-- The state of a `BPlusTreeDram`: its nodes and the `root` member. -/
abbrev BPlusTreeDram := Store (Node BPLUSTREE_MIN_DEGREE BPlusTreeDram.Links) Unit

namespace BPlusTreeDram

/-- Programs of the class. -/
abbrev M (α : Type) := TreeProg BPLUSTREE_MIN_DEGREE Links α

/-- `new_node_p->next = new_node_p->previous = NULL`. -/
def Links.null : Links := { next := Lib.null, previous := Lib.null }

/-- `init`: no root yet. -/
def init : BPlusTreeDram := { heap := Heap.empty, root := null, aux := () }

/-- `check`: aborts when the tree has no root. -/
def check : M Unit := do
  let root ← Prog.getRoot
  if root = null then Prog.fault .assertion else return ()

/-- The descent of `scan`: the child before the first separator that is not below the key. -/
def scanDescend : (fuel : Nat) → Ptr → Key → M Ptr
  | 0, _, _ => Prog.fault .diverged
  | fuel + 1, current, key => do
      if current = null then return current
      else
        let contents ← Prog.load current
        if contents.isLeaf then return current
        else
          let index ← Prog.lift (lowerIndexOf contents key)
          let child ← Prog.lift (contents.children.get index)
          scanDescend fuel child key

/-- The inner loop of `scan`: append the entries of one leaf from `index` on and count them.
The results are the count and whether the requested length was reached. -/
def scanLeaf (entries : CArray Entry (2 * BPLUSTREE_MIN_DEGREE - 1)) (len : Int) :
    (remaining index : Nat) → (count : Int) → List (Key × Value) →
      Except Fault (List (Key × Value) × Int × Bool)
  | 0, _, count, result => .ok (result, count, false)
  | remaining + 1, index, count, result => do
      let entry ← entries.get index
      match entry.value.string? with
      | none => .error .unterminated
      | some value =>
          let result := result ++ [(entry.key, value)]
          if count + 1 = len then .ok (result, count + 1, true)
          else scanLeaf entries len remaining (index + 1) (count + 1) result

/-- The forward scan through the leaf chain. -/
def scanChain (len : Int) :
    (fuel : Nat) → Ptr → (index : Nat) → (count : Int) → List (Key × Value) →
      M (List (Key × Value))
  | 0, _, _, _, _ => Prog.fault .diverged
  | fuel + 1, current, index, count, result => do
      if current = null then return result
      else
        let contents ← Prog.load current
        let (result, count, reached) ←
          Prog.lift (scanLeaf contents.entries len (contents.nk - index) index count result)
        if reached || count = len then return result
        else scanChain len fuel contents.links.next 0 count result

/-- `scan`: the pairs appended to `result`. -/
def scan (key : Key) (len : Int) : M (List (Key × Value)) := do
  check
  let root ← Prog.getRoot
  let bound ← Prog.heapSize
  let leaf ← scanDescend bound root key
  if leaf = null then return []
  else
    let contents ← Prog.load leaf
    let index ← Prog.lift (lowerIndexOf contents key)
    scanChain len (bound + 1) leaf index 0 []

/-- `search`: the value of `key` below `current`, or `NULL`. -/
def search : (fuel : Nat) → Ptr → Key → M (Option SlotRef)
  | 0, _, _ => Prog.fault .diverged
  | fuel + 1, current, key => do
      let contents ← Prog.load current
      let index ← Prog.lift (lowerIndexOf contents key)
      let found ← Prog.lift (keyMatches contents index key)
      if contents.isLeaf then
        if found then return some { node := current, index := index } else return none
      else
        let child ← Prog.lift (contents.children.get (if found then index + 1 else index))
        search fuel child key

/-- `read`: the pointer `search` finds. -/
def read (key : Key) : M (Option SlotRef) := do
  check
  let root ← Prog.getRoot
  let depthBound ← Prog.heapSize
  search depthBound root key

/-- `update_if_found`: overwrite the value of `key` if a leaf below `current` stores it. -/
def updateIfFound : (fuel : Nat) → Ptr → Key → Value → M Bool
  | 0, _, _, _ => Prog.fault .diverged
  | fuel + 1, current, key, value => do
      let contents ← Prog.load current
      let index ← Prog.lift (lowerIndexOf contents key)
      let found ← Prog.lift (keyMatches contents index key)
      if contents.isLeaf then
        if found then
          Prog.modify current fun node => do
            let entries ← copyValue node.entries index value
            return { node with entries := entries }
          return true
        else return false
      else
        let child ← Prog.lift (contents.children.get (if found then index + 1 else index))
        updateIfFound fuel child key value

/-- The end of the leaf case of `split_node`: link the new leaf in behind the one that was split. -/
def linkSibling (child sibling : Ptr) : M Unit := do
  let childContents ← Prog.load child
  Prog.modify sibling fun node =>
    .ok { node with links := { node.links with next := childContents.links.next } }
  let siblingContents ← Prog.load sibling
  if siblingContents.links.next ≠ null then
    Prog.modify siblingContents.links.next fun node =>
      .ok { node with links := { node.links with previous := sibling } }
  Prog.modify child fun node =>
    .ok { node with links := { node.links with next := sibling } }
  Prog.modify sibling fun node =>
    .ok { node with links := { node.links with previous := child } }

/-- The leaf case of `split_node`: the sibling gets the upper `BPLUSTREE_MIN_DEGREE` entries, the
parent a copy of its first key, and the sibling is linked in behind the child. -/
def splitLeafNode (index : Nat) (parent child : Ptr) : M Unit := do
  let childContents ← Prog.load child
  let sibling ← createNode childContents.isLeaf Links.null
  Prog.modify sibling fun node => do
    let entries ← CArray.copyFrom childContents.entries (BPLUSTREE_MIN_DEGREE - 1)
      BPLUSTREE_MIN_DEGREE node.entries
    return { node with nk := BPLUSTREE_MIN_DEGREE, entries := entries }
  Prog.modify child fun node => .ok { node with nk := BPLUSTREE_MIN_DEGREE - 1 }
  let siblingContents ← Prog.load sibling
  Prog.modify parent <| graft index sibling fun entries => do
    let first ← siblingContents.entries.get 0
    setKey entries index first.key
  linkSibling child sibling

/-- `split_node`. -/
def splitNode (index : Nat) (parent child : Ptr) : M Unit := do
  let childContents ← Prog.load child
  if childContents.isLeaf then splitLeafNode index parent child
  else splitMiddle true Links.null index parent child

/-- `insert_not_full`. -/
def insertNotFull : (fuel : Nat) → Ptr → Key → Value → M Unit := Trees.insertNotFull splitNode

/-- `insert`. -/
def insert : Key → Value → M Int := Trees.insert splitNode updateIfFound Links.null

/-- `BPlusTreeDram` behind the `StoredsBase` interface. -/
def backend : Backend BPlusTreeDram where
  insert := fun key value state => (insert key value state).map Prod.snd
  read := fun key state => do
    let (slot, state) ← read key state
    stringAt state slot

/-- With its range scan. -/
def rangeBackend : RangeBackend BPlusTreeDram where
  toBackend := backend
  scan := fun key len state => (scan key len state).map Prod.fst

end BPlusTreeDram

end StoredsBench
