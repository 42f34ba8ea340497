/-
Module: StoredsBench.BTree.ValueFrame
Layer: Correctness
Purpose: What the copy of a value writes.  A string of fewer than `DEFAULT_VALUE_LEN` bytes stays in the
  value array of its entry, and the functions on bytes are those of `BTreeDram` then.  A longer one goes
  on over the key of the next entry.
Trusted boundary: none
Main exports: value_copy_framed_iff
-/
import StoredsBench.BTree.Values
import StoredsBench.BTree.Correctness
import StoredsBench.Lib.ArrayRelation

namespace StoredsBench.BTreeDram

open Lib Lib.Multiway Lib.SortedAssoc Trees

variable {copy : Nat → Text → TreeNode → Except Fault TreeNode} {text : Text} {value : Value}

/-! ### Strings that fit -/

/-- Into the entry for `key` the value is copied as `BTreeDram` does it. -/
def Copies (key : Key) (copy : Nat → Text → TreeNode → Except Fault TreeNode) (text : Text)
    (value : Value) : Prop :=
  ∀ {index : Nat} {node : TreeNode} {entry : Entry}, node.entries.get index = .ok entry →
    entry.key = key → copy index text node = do
      let entries ← copyValue node.entries index value
      return { node with entries := entries }

/-- A copy into the value of a written slot. -/
theorem overwrite_slot (entry : Entry) (same : text.chars = value.chars) :
    overwrite text.cells Layout.word.size (slotLayout.encode (some entry)) =
      .ok (slotLayout.encode (some { entry with value := entry.value.copyString value })) :=
  overwrite_behind (Layout.word.encode (some entry.key))
    (Layout.overwrite_chars entry.value value same)

/-- What the copy of a string that fits makes of a node. -/
theorem memcpyValue_eq (same : text.chars = value.chars) {index : Nat} {node : TreeNode} {entry : Entry}
    (read : node.entries.get index = .ok entry) :
    memcpyValue index text node = .ok { node with
      entries := node.entries.put index { entry with value := entry.value.copyString value } } := by
  have stored := CArray.at?_of_get read
  have ran : overwrite text.cells (valueOffset index) (arrays.encode (node.entries, node.children)) =
      .ok (arrays.encode
        (node.entries.put index { entry with value := entry.value.copyString value }, node.children)) :=
    Layout.overwrite_pair _ _ (Layout.overwrite_array stored (overwrite_slot entry same))
  rw [memcpyValue, except_bind_ok read, except_bind_ok ran, arrays.decode_encode]
  rfl

theorem memcpyValue_copies (key : Key) (same : text.chars = value.chars) :
    Copies key memcpyValue text value := by
  intro index node entry read _
  have inside := CArray.lt_of_at? (CArray.at?_of_get read)
  rw [memcpyValue_eq same read, copyValue, except_bind_ok read, CArray.set_ok inside]
  rfl

theorem confined_copies (key : Key) (same : text.chars = value.chars) :
    Copies key (confined key) text value := by
  intro index node entry read isKey
  have inside : valueOffset index + text.cells.length ≤ valueOffset index + DEFAULT_VALUE_LEN := by
    rw [text.length_cells, same]
    exact Nat.add_le_add_left value.fits _
  rw [confined, except_bind_ok read, if_pos ⟨isKey, inside⟩]
  exact memcpyValue_copies key same read isKey

/-- A string that does not leave its value array fits into it. -/
theorem fits_of_confined {key : Key} {index : Nat} {node changed : TreeNode}
    (ran : confined key index text node = .ok changed) : text.chars.length < DEFAULT_VALUE_LEN := by
  obtain ⟨entry, _, ran⟩ := except_bind_inv ran
  split at ran
  · next inside =>
      rw [text.length_cells] at inside
      exact Nat.le_of_add_le_add_left inside.2
  · cases ran

/-- The slot whose key was stored holds this key. -/
theorem get_of_setKey {capacity index : Nat} {key : Key} {entries keyed : CArray Entry capacity}
    (ran : setKey entries index key = .ok keyed) : ∃ entry, keyed.get index = .ok entry ∧ entry.key = key := by
  unfold setKey at ran
  split at ran
  · next entry _ =>
      obtain ⟨inside, rfl⟩ := CArray.eq_put_of_set ran
      exact ⟨_, CArray.get_ok ((CArray.at?_put entries inside _ index).trans (if_pos rfl)), rfl⟩
  · obtain ⟨inside, rfl⟩ := CArray.eq_put_of_set ran
    exact ⟨_, CArray.get_ok ((CArray.at?_put entries inside _ index).trans (if_pos rfl)), rfl⟩

/-- The slot that matched holds the key. -/
theorem get_of_keyMatches {node : TreeNode} {index : Nat} {key : Key}
    (ran : keyMatches node index key = .ok true) :
    ∃ entry, node.entries.get index = .ok entry ∧ entry.key = key := by
  unfold keyMatches at ran
  split at ran
  · obtain ⟨entry, read, found⟩ := except_bind_inv ran
    exact ⟨entry, read, (beq_iff_eq.mp (Except.ok.inj found)).symm⟩
  · cases ran

namespace Texts

variable {key : Key}

/-- The copy behind the store of the key. -/
def place (copy : Nat → Text → TreeNode → Except Fault TreeNode) (index : Nat) (key : Key) (text : Text)
    (node : TreeNode) : Except Fault TreeNode := do
  let entries ← setKey node.entries index key
  copy index text { node with entries := entries }

theorem place_eq (copies : Copies key copy text value) (index : Nat) (node : TreeNode) :
    place copy index key text node = do
      let entries ← setKey node.entries index key
      let entries ← copyValue entries index value
      return { node with entries := entries } := by
  rw [place]
  cases keySet : setKey node.entries index key with
  | error fault => rfl
  | ok keyed =>
      obtain ⟨entry, read, isKey⟩ := get_of_setKey keySet
      have copied : copy index text { node with entries := keyed } = do
          let entries ← copyValue keyed index value
          return { node with entries := entries } := copies read isKey
      exact copied

theorem insertIntoLeaf_eq (copies : Copies key copy text value) (node : TreeNode) :
    insertIntoLeaf copy key text node = Trees.insertIntoLeaf key value node := by
  have placed : insertIntoLeaf copy key text node = do
      let shifted ← CArray.shiftUpWhile (fun entry => decide (key < entry.key)) node.nk node.entries
      let node ← place copy shifted.1 key text { node with entries := shifted.2 }
      return { node with nk := node.nk + 1 } := by
    simp only [insertIntoLeaf, place, bind_assoc]
  rw [placed, Trees.insertIntoLeaf]
  simp only [place_eq copies, bind_assoc, pure_bind]

theorem insertNotFull_eq (copies : Copies key copy text value) (fuel : Nat) (node : Ptr) :
    insertNotFull copy fuel node key text = BTreeDram.insertNotFull fuel node key value := by
  induction fuel generalizing node with
  | zero => rfl
  | succ fuel inductionHypothesis =>
      have leaf : insertIntoLeaf copy key text = Trees.insertIntoLeaf key value :=
        funext (insertIntoLeaf_eq copies)
      have deeper : ∀ child, insertNotFull copy fuel child key text =
          Trees.insertNotFull splitNode fuel child key value := inductionHypothesis
      rw [BTreeDram.insertNotFull, insertNotFull, Trees.insertNotFull]
      simp only [leaf, deeper]

/-- A change of a node that was just read. -/
theorem modify_congr {address : Ptr} {store : BTreeDram} {contents : TreeNode}
    {change other : TreeNode → Except Fault TreeNode} (live : store.heap.get? address = some contents)
    (same : change contents = other contents) :
    Prog.modify address change store = Prog.modify address other store := by
  simp only [Prog.modify, live, same]

theorem updateIfFound_eq (copies : Copies key copy text value) (fuel : Nat) (current : Ptr) :
    updateIfFound copy fuel current key text = BTreeDram.updateIfFound fuel current key value := by
  induction fuel generalizing current with
  | zero => rfl
  | succ fuel inductionHypothesis =>
      funext store
      rw [updateIfFound, BTreeDram.updateIfFound]
      cases live : store.heap.get? current with
      | none => simp [Prog.load, live, bind, StateT.bind, Except.bind]
      | some contents =>
          rw [bind_ok (Prog.load_ok live), bind_ok (Prog.load_ok live)]
          cases lowered : lowerIndexOf contents key with
          | error fault => rfl
          | ok index =>
              rw [bind_ok (Prog.lift_ok rfl store), bind_ok (Prog.lift_ok rfl store)]
              cases tested : keyMatches contents index key with
              | error fault => rfl
              | ok found =>
                  rw [bind_ok (Prog.lift_ok rfl store), bind_ok (Prog.lift_ok rfl store)]
                  cases found with
                  | false => simp only [inductionHypothesis, if_neg Bool.false_ne_true]
                  | true =>
                      obtain ⟨entry, read, isKey⟩ := get_of_keyMatches tested
                      have same : Prog.modify current (copy index text) store =
                          Prog.modify current (fun node => do
                            let entries ← copyValue node.entries index value
                            return { node with entries := entries }) store :=
                        modify_congr live (copies read isKey)
                      simp only [if_pos, bind, StateT.bind, same]

/-- On strings that fit the functions are those of `BTreeDram`. -/
theorem insert_eq (copies : Copies key copy text value) :
    insert copy key text = BTreeDram.insert key value := by
  have below : ∀ fuel node, insertNotFull copy fuel node key text =
      Trees.insertNotFull splitNode fuel node key value := insertNotFull_eq copies
  have first : (fun node : TreeNode => do
      let entries ← setKey node.entries 0 key
      let node ← copy 0 text { node with entries := entries }
      return { node with nk := 1 }) = fun node => do
        let node ← place copy 0 key text node
        return { node with nk := 1 } := by
    funext node
    rw [place, bind_assoc]
  rw [insert, BTreeDram.insert, Trees.insert, first]
  simp only [place_eq copies, below, updateIfFound_eq copies, bind_assoc, pure_bind]

/-! ### Strings that leave the value array -/

theorem fits_of_insertIntoLeaf {node changed : TreeNode}
    (ran : insertIntoLeaf (confined key) key text node = .ok changed) : text.chars.length < DEFAULT_VALUE_LEN := by
  obtain ⟨⟨index, entries⟩, _, ran⟩ := except_bind_inv ran
  obtain ⟨entries, _, ran⟩ := except_bind_inv ran
  obtain ⟨node, copied, _⟩ := except_bind_inv ran
  exact fits_of_confined copied

theorem fits_of_insertNotFull {fuel : Nat} {node : Ptr} {store after : BTreeDram}
    {result : Unit} (ran : insertNotFull (confined key) fuel node key text store = .ok (result, after)) :
    text.chars.length < DEFAULT_VALUE_LEN := by
  induction fuel generalizing node store with
  | zero => cases ran
  | succ fuel inductionHypothesis =>
      rw [insertNotFull] at ran
      obtain ⟨contents, _, _, ran⟩ := bind_ok_inv ran
      split at ran
      · obtain ⟨_, _, _, inserted, _⟩ := Prog.modify_inv ran
        exact fits_of_insertIntoLeaf inserted
      · obtain ⟨index, _, _, ran⟩ := bind_ok_inv ran
        obtain ⟨child, _, _, ran⟩ := bind_ok_inv ran
        obtain ⟨childContents, _, _, ran⟩ := bind_ok_inv ran
        split at ran
        · obtain ⟨_, _, _, ran⟩ := bind_ok_inv ran
          obtain ⟨_, _, _, ran⟩ := bind_ok_inv ran
          obtain ⟨_, _, _, ran⟩ := bind_ok_inv ran
          obtain ⟨_, _, _, ran⟩ := bind_ok_inv ran
          exact inductionHypothesis ran
        · exact inductionHypothesis ran

theorem fits_of_updateIfFound {fuel : Nat} {current : Ptr} {store after : BTreeDram}
    (ran : updateIfFound (confined key) fuel current key text store = .ok (true, after)) :
    text.chars.length < DEFAULT_VALUE_LEN := by
  induction fuel generalizing current store with
  | zero => cases ran
  | succ fuel inductionHypothesis =>
      rw [updateIfFound] at ran
      obtain ⟨contents, _, _, ran⟩ := bind_ok_inv ran
      obtain ⟨index, _, _, ran⟩ := bind_ok_inv ran
      obtain ⟨found, _, _, ran⟩ := bind_ok_inv ran
      split at ran
      · obtain ⟨_, _, modified, _⟩ := bind_ok_inv ran
        obtain ⟨_, _, _, copied, _⟩ := Prog.modify_inv modified
        exact fits_of_confined copied
      · split at ran
        · cases ran
        · obtain ⟨child, _, _, ran⟩ := bind_ok_inv ran
          exact inductionHypothesis ran

/-- Whichever path an insert takes, it copies the value. -/
theorem fits_of_insert {store after : BTreeDram} {result : Int}
    (ran : insert (confined key) key text store = .ok (result, after)) :
    text.chars.length < DEFAULT_VALUE_LEN := by
  rw [insert] at ran
  obtain ⟨root, _, _, ran⟩ := bind_ok_inv ran
  split at ran
  · obtain ⟨root, _, _, ran⟩ := bind_ok_inv ran
    obtain ⟨_, _, _, ran⟩ := bind_ok_inv ran
    obtain ⟨_, _, modified, _⟩ := bind_ok_inv ran
    obtain ⟨_, _, _, copied, _⟩ := Prog.modify_inv modified
    obtain ⟨_, _, copied⟩ := except_bind_inv copied
    obtain ⟨_, copied, _⟩ := except_bind_inv copied
    exact fits_of_confined copied
  · obtain ⟨depthBound, _, _, ran⟩ := bind_ok_inv ran
    obtain ⟨isUpdated, _, updated, ran⟩ := bind_ok_inv ran
    cases isUpdated with
    | true => exact fits_of_updateIfFound updated
    | false =>
        obtain ⟨rootContents, _, _, ran⟩ := bind_ok_inv ran
        split at ran
        · obtain ⟨newRoot, _, _, ran⟩ := bind_ok_inv ran
          obtain ⟨_, _, _, ran⟩ := bind_ok_inv ran
          obtain ⟨_, _, _, ran⟩ := bind_ok_inv ran
          obtain ⟨_, _, _, ran⟩ := bind_ok_inv ran
          obtain ⟨_, _, _, ran⟩ := bind_ok_inv ran
          obtain ⟨_, _, _, ran⟩ := bind_ok_inv ran
          obtain ⟨_, _, inserted, _⟩ := bind_ok_inv ran
          exact fits_of_insertNotFull inserted
        · obtain ⟨_, _, inserted, _⟩ := bind_ok_inv ran
          exact fits_of_insertNotFull inserted

end Texts

/-! ### The frame -/

/-- The header, the child pointers, the keys and the other entries of the node are as before. -/
structure KeepsRest (index : Nat) (node changed : TreeNode) : Prop where
  isLeaf : changed.isLeaf = node.isLeaf
  nk : changed.nk = node.nk
  children : changed.children = node.children
  keys : ∀ other, (changed.entries.at? other).map Entry.key = (node.entries.at? other).map Entry.key
  entries : ∀ other, other ≠ index → changed.entries.at? other = node.entries.at? other

/-- The insert writes the string to the value array of the entry for `key` only: it runs as well where
every copy is confined to it, a copy of this string keeps the rest of a node, and what was read for
another key still is. -/
structure Framed (key : Key) (text : Text) (store : BTreeDram) : Prop where
  confined : ∃ result next, Texts.insert memcpyValue key text store = .ok (result, next) ∧
    Texts.insert (confined key) key text store = .ok (result, next) ∧
    ∀ other, other ≠ key → ∀ value, backend.read other store = .ok value →
      backend.read other next = .ok value
  keeps : ∀ index node changed, memcpyValue index text node = .ok changed → KeepsRest index node changed

theorem keepsRest_of_fits (same : text.chars = value.chars) {index : Nat} {node changed : TreeNode}
    (ran : memcpyValue index text node = .ok changed) : KeepsRest index node changed := by
  obtain ⟨entry, read, _⟩ := except_bind_inv ran
  have stored := CArray.at?_of_get read
  have inside := CArray.lt_of_at? stored
  rw [memcpyValue_eq same read] at ran
  cases ran
  refine ⟨rfl, rfl, rfl, ?_, ?_⟩
  · intro other
    rw [CArray.at?_put node.entries inside]
    split
    · next here =>
        rw [here, stored]
        rfl
    · rfl
  · intro other different
    rw [CArray.at?_put node.entries inside, if_neg different]

/-- A string as a value. -/
def valueOf (text : Text) (fits : text.chars.length < DEFAULT_VALUE_LEN) : Value :=
  ⟨text.chars, text.noNul, fits⟩

/-- No root yet, or the entries of a tree. -/
def Reached (store : BTreeDram) : Prop := store = init ∨ ∃ entries, ShowsMap kind chain store entries

theorem exists_result {key : Key} {store next : BTreeDram}
    (ran : backend.insert key value store = .ok next) :
    ∃ result, insert key value store = .ok (result, next) := by
  obtain ⟨⟨result, _⟩, inserted, rfl⟩ := map_ok_inv (show (insert key value store).map Prod.snd = .ok next from ran)
  exact ⟨result, inserted⟩

/-- Every insert of `BTreeDram` keeps what other keys read. -/
theorem insert_reached {store : BTreeDram} (reached : Reached store) (key : Key) (value : Value) :
    ∃ result next, insert key value store = .ok (result, next) ∧ Reached next ∧
      ∀ other, other ≠ key → ∀ found, backend.read other store = .ok found →
        backend.read other next = .ok found := by
  have represents := implements.represents serves
  rcases reached with rfl | ⟨entries, shows⟩
  · obtain ⟨next, ran, shows⟩ :=
      implements.insert_first serves (show init.root = null from rfl) key value
    obtain ⟨result, inserted⟩ := exists_result ran
    refine ⟨result, next, inserted, Or.inr ⟨_, shows⟩, ?_⟩
    intro other _ found read
    cases read
  · obtain ⟨next, ran, nextShows⟩ := represents.insert key value shows
    obtain ⟨result, inserted⟩ := exists_result ran
    refine ⟨result, next, inserted, Or.inr ⟨_, nextShows⟩, ?_⟩
    intro other different found read
    rw [represents.read other shows] at read
    rw [represents.read other nextShows, lookup_upsert_of_ne different, read]

/-- The step: a string that fits is inserted within its frame. -/
theorem insert_framed {store : BTreeDram} (reached : Reached store) (key : Key)
    (fits : text.chars.length < DEFAULT_VALUE_LEN) :
    Framed key text store ∧
      ∃ result next, Texts.insert memcpyValue key text store = .ok (result, next) ∧ Reached next := by
  have same : text.chars = (valueOf text fits).chars := rfl
  obtain ⟨result, next, inserted, nextReached, others⟩ := insert_reached reached key (valueOf text fits)
  have ran := Texts.insert_eq (memcpyValue_copies key same)
  have ranConfined := Texts.insert_eq (confined_copies key same)
  rw [← ran] at inserted
  refine ⟨⟨⟨result, next, inserted, ?_, others⟩, ?_⟩, result, next, inserted, nextReached⟩
  · rw [ranConfined, ← ran]
    exact inserted
  · intro index node changed copied
    exact keepsRest_of_fits same copied

/-- The run: so do all of them. -/
theorem insertTexts_reached (history : List (Key × Text)) {store : BTreeDram} (reached : Reached store)
    (fit : ∀ pair ∈ history, pair.2.chars.length < DEFAULT_VALUE_LEN) :
    ∃ after, insertTexts history store = .ok after ∧ Reached after := by
  induction history generalizing store with
  | nil => exact ⟨store, rfl, reached⟩
  | cons pair history inductionHypothesis =>
      obtain ⟨fits, restFit⟩ := List.forall_mem_cons.mp fit
      obtain ⟨_, result, next, ran, nextReached⟩ := insert_framed reached pair.1 fits
      obtain ⟨after, restRan, afterReached⟩ := inductionHypothesis nextReached restFit
      refine ⟨after, ?_, afterReached⟩
      rw [insertTexts, List.foldlM_cons, ran]
      exact restRan

/-- In every tree that inserts of strings of fewer than 128 bytes reach, an insert of any string writes
within its frame if and only if the string has fewer than 128 bytes. -/
theorem value_copy_framed_iff (history : List (Key × Text))
    (fit : ∀ pair ∈ history, pair.2.chars.length < DEFAULT_VALUE_LEN) (key : Key) (text : Text) :
    ∃ store, insertTexts history init = .ok store ∧
      (Framed key text store ↔ text.chars.length < DEFAULT_VALUE_LEN) := by
  obtain ⟨store, ran, reached⟩ := insertTexts_reached history (Or.inl rfl) fit
  refine ⟨store, ran, ?_⟩
  constructor
  · intro framed
    obtain ⟨result, next, _, inserted, _⟩ := framed.confined
    exact Texts.fits_of_insert inserted
  · intro fits
    exact (insert_framed reached key fits).1

theorem value_copy_framed_short : ∃ store, insertTexts [(257, ⟨[67, 67], by decide⟩)] init = .ok store ∧
    Framed 1 ⟨[67], by decide⟩ store := by
  obtain ⟨store, ran, framed⟩ :=
    value_copy_framed_iff [(257, ⟨[67, 67], by decide⟩)] (by decide) 1 ⟨[67], by decide⟩
  exact ⟨store, ran, framed.mpr (by decide)⟩

/-- An update with 128 characters ends the string in the key of the next entry: 257 becomes 256. -/
theorem value_copy_next_key :
    (do
      let store ← insertTexts [(257, ⟨[67, 67], by decide⟩), (1, ⟨[67], by decide⟩)] init
      let before ← backend.read 257 store
      let (_, next) ← Texts.insert memcpyValue 1 ⟨List.replicate 128 67, by decide⟩ store
      let after ← backend.read 257 next
      return (before.map CString.chars, after) : Except Fault (Option (List UInt8) × Option Value)) =
      .ok (some [67, 67], none) := by
  decide +kernel

end StoredsBench.BTreeDram
