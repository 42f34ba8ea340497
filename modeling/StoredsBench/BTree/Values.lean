/-
Module: StoredsBench.BTree.Values
Layer: Model
Purpose: `BTreeDram::insert` for values of any length.  The three copies of the value are `memcpy` of
  `strlen(value) + 1` bytes to an address inside a node, so the arrays of a node are taken as the bytes
  they occupy: entries of a key and `DEFAULT_VALUE_LEN` characters one behind the other, and the child
  pointers behind them.
Trusted boundary: human-reviewed spec
Main exports: BTreeDram.slotLayout, BTreeDram.arrays, BTreeDram.memcpyValue, BTreeDram.confined,
  BTreeDram.Texts.insertNotFull, BTreeDram.Texts.updateIfFound, BTreeDram.Texts.insert
-/
import StoredsBench.Lib.Bytes
import StoredsBench.BTree.Dram

namespace StoredsBench.BTreeDram

open Lib Trees

/-- The nodes of the class. -/
abbrev TreeNode := Node BTREE_MIN_DEGREE Unit

/-- A `struct entry` that may not have been written. -/
def slotLayout : Layout (Option Entry) where
  size := Layout.word.size + DEFAULT_VALUE_LEN
  encode := fun slot =>
    Layout.word.encode (slot.map Entry.key) ++
      (Layout.chars DEFAULT_VALUE_LEN).encode
        (match slot with
          | none => CharArray.unwritten _
          | some entry => entry.value)
  decode := fun cells =>
    (Layout.word.decode (cells.take Layout.word.size)).map fun key =>
      { key := key, value := (Layout.chars DEFAULT_VALUE_LEN).decode (cells.drop Layout.word.size) }
  length_encode := by
    intro slot
    rw [List.length_append, Layout.length_encode, Layout.length_encode]
    rfl
  decode_encode := by
    intro slot
    rw [List.take_left' (Layout.word.length_encode _), List.drop_left' (Layout.word.length_encode _),
      Layout.decode_encode, Layout.decode_encode]
    cases slot with
    | none => rfl
    | some entry => rfl

/-- The arrays `entries` and `children` of a node. -/
def arrays : Layout (CArray Entry (2 * BTREE_MIN_DEGREE - 1) × CArray Ptr (2 * BTREE_MIN_DEGREE)) :=
  (slotLayout.array _).pair (Layout.pointer.array _)

/-- Where `entries[index].value` starts. -/
def valueOffset (index : Nat) : Nat := index * slotLayout.size + Layout.word.size

/-- `memcpy(entries[index].value, value, strlen(value) + 1)`, to an entry whose key is written.  The
header of the node lies in front of the arrays. -/
def memcpyValue (index : Nat) (text : Text) (node : TreeNode) : Except Fault TreeNode := do
  let _ ← node.entries.get index
  let cells ← overwrite text.cells (valueOffset index) (arrays.encode (node.entries, node.children))
  let (entries, children) := arrays.decode cells
  return { node with entries := entries, children := children }

/-- The same copy where it may write to bytes of `entries[index].value` only, and this is the entry
for `key`. -/
def confined (key : Key) (index : Nat) (text : Text) (node : TreeNode) : Except Fault TreeNode := do
  let entry ← node.entries.get index
  if entry.key = key ∧
      valueOffset index + text.cells.length ≤ valueOffset index + DEFAULT_VALUE_LEN then
    memcpyValue index text node
  else .error .outOfBounds

namespace Texts

variable (copy : Nat → Text → TreeNode → Except Fault TreeNode)

/-- The leaf case of `insert_not_full`. -/
def insertIntoLeaf (key : Key) (text : Text) (node : TreeNode) : Except Fault TreeNode := do
  let (index, entries) ←
    CArray.shiftUpWhile (fun entry => decide (key < entry.key)) node.nk node.entries
  let entries ← setKey entries index key
  let node ← copy index text { node with entries := entries }
  return { node with nk := node.nk + 1 }

/-- `insert_not_full`. -/
def insertNotFull : (fuel : Nat) → Ptr → Key → Text → M Unit
  | 0, _, _, _ => Prog.fault .diverged
  | fuel + 1, node, key, text => do
      let contents ← Prog.load node
      if contents.isLeaf then
        Prog.modify node (insertIntoLeaf copy key text)
      else
        let index ← Prog.lift
          (contents.entries.scanDown (fun entry => decide (key < entry.key)) contents.nk)
        let child ← Prog.lift (contents.children.get index)
        let childContents ← Prog.load child
        if isNodeFull BTREE_MIN_DEGREE childContents.nk then
          splitNode index node child
          let contents ← Prog.load node
          let separator ← Prog.lift (contents.entries.get index)
          let child ← Prog.lift
            (contents.children.get (if separator.key < key then index + 1 else index))
          insertNotFull fuel child key text
        else
          insertNotFull fuel child key text

/-- `update_if_found`. -/
def updateIfFound : (fuel : Nat) → Ptr → Key → Text → M Bool
  | 0, _, _, _ => Prog.fault .diverged
  | fuel + 1, current, key, text => do
      let contents ← Prog.load current
      let index ← Prog.lift (lowerIndexOf contents key)
      let found ← Prog.lift (keyMatches contents index key)
      if found then
        Prog.modify current (copy index text)
        return true
      else if contents.isLeaf then return false
      else
        let child ← Prog.lift (contents.children.get index)
        updateIfFound fuel child key text

/-- `insert`. -/
def insert (key : Key) (text : Text) : M Int := do
  let root ← Prog.getRoot
  if root = null then
    let root ← createNode true ()
    Prog.setRoot root
    Prog.modify root fun node => do
      let entries ← setKey node.entries 0 key
      let node ← copy 0 text { node with entries := entries }
      return { node with nk := 1 }
    return 1
  else
    let depthBound ← Prog.heapSize
    let isUpdated ← updateIfFound copy depthBound root key text
    if isUpdated then
      return 1
    else
      let rootContents ← Prog.load root
      if isNodeFull BTREE_MIN_DEGREE rootContents.nk then
        let newRoot ← createNode false ()
        Prog.modify newRoot fun node => do
          let children ← node.children.set 0 root
          return { node with children := children }
        splitNode 0 newRoot root
        let newContents ← Prog.load newRoot
        let separator ← Prog.lift (newContents.entries.get 0)
        let child ← Prog.lift
          (newContents.children.get (if separator.key < key then 1 else 0))
        insertNotFull copy depthBound child key text
        Prog.setRoot newRoot
        return 1
      else
        insertNotFull copy depthBound root key text
        return 1

end Texts

/-- Inserts of strings one after another, as `StoredsDB::Insert` issues them for the fields. -/
def insertTexts (pairs : List (Key × Text)) (store : BTreeDram) : Except Fault BTreeDram :=
  pairs.foldlM
    (fun store pair => (Texts.insert memcpyValue pair.1 pair.2 store).map Prod.snd) store

end StoredsBench.BTreeDram
