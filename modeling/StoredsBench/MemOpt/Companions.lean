/-
Module: StoredsBench.MemOpt.Companions
Layer: Refinement
Purpose: A tree with its values in records beside a tree that has them in its nodes, over whole calls.
  The nodes of the one stand for those of the other at the same addresses, and the ledger lists the
  keys in the order of their first insertion.  What this needs of a class is stated once, and inserts
  and reads follow for every class that has it.
Trusted boundary: none
Main exports: MemOpt.Stands, MemOpt.KeepsRecords, MemOpt.Companions, MemOpt.insert_new, MemOpt.Companions.insert,
  MemOpt.Companions.searches, MemOpt.Companions.reads
-/
import StoredsBench.MemOpt.Ledger
import StoredsBench.Trees.Map

namespace StoredsBench.MemOpt

open Lib Lib.Multiway Lib.SortedAssoc Trees Valued Tagged

variable {t : Nat} {X I N R : Type} [Valued R] [Tagged R]

/-- The two memories, node by node; `records` are the records of the second. -/
abbrev Stands (objects : List Key → Node t X → N → Prop) (owners : List Key) (records : Heap R)
    (store : Store (Node t X) Unit) (memory : Store N (Heap R)) : Prop :=
  Same (objects owners) (fun _ heap => heap = records) store memory

/-- What the functions of a class with records do beside those of the class without. -/
structure KeepsRecords (objects : List Key → Node t X → N → Prop) (pool : Pool N R)
    (splitNode : Nat → Ptr → Ptr → TreeProg t X Unit)
    (search : Nat → Ptr → Key → TreeProg t X (Option SlotRef)) (links : X)
    (searchThere : Nat → Ptr → Key → Prog N (Heap R) (Option Ptr))
    (updateThere : Nat → Ptr → Key → Value → PoolProg N R Bool)
    (insertNewThere : Nat → Ptr → Key → Value → PoolProg N R Unit)
    (insertThere : Key → Value → PoolProg N R Int) (newRecord : Heap R → Key → Value → R) : Prop where
  /-- The nodes do not depend on the values. -/
  ignores : ∀ {owners : List Key} {node : Node t X} {other : N} {index : Nat} {value : Value}
    {placed : CArray Entry (2 * t - 1)}, objects owners node other →
    copyValue node.entries index value = .ok placed →
    objects owners { node with entries := placed } other
  searches : ∀ {owners : List Key} {records : Heap R}, Tags owners records → ∀ fuel current key,
    Simulates (Stands objects owners records) (search fuel current key) (searchThere fuel current key)
      fun slot found store memory => Finds owners key slot found ∧
        Stands objects owners records store memory
  updates : ∀ fuel current key value, updateThere fuel current key value =
    onMemory (searchThere fuel current key) >>= pool.overwriteFound value
  inserts : ∀ {owners : List Key} {records : Heap R}, Tags owners records →
    records.size = owners.length → ∀ depthBound root key value,
    Simulates (Unlogged (Stands objects owners records))
      (insertAbsent splitNode links depthBound root key value)
      (insertNewThere depthBound root key value)
      fun result _ => Unlogged fun store memory => result = 1 ∧
        Stands objects (owners ++ [key]) (records.push (newRecord records key value)) store memory
  calls : ∀ key value, insertThere key value = do
    let root ← Prog.getRoot
    let depthBound ← Prog.heapSize
    let isUpdated ← updateThere depthBound root key value
    if isUpdated then return 1
    else
      insertNewThere depthBound root key value
      return 1
  tagged : ∀ records key value, tag (newRecord records key value) key
  written : ∀ records key value, (slot (newRecord records key value)).string? = some value

/-- A tree with its values in the nodes, a tree with records that stands for it, and the keys of the
records. -/
structure Companions (kind : Kind t I) (chain : LeafChain X)
    (objects : List Key → Node t X → N → Prop) (owners : List Key) (entries : List (Key × Value))
    (store : Store (Node t X) Unit) (state : PoolState N R) : Prop where
  shows : ShowsMap kind chain store entries
  stands : Stands objects owners (memory state).aux store (memory state)
  ledger : Ledger owners entries (memory state).aux

variable {kind : Kind t I} {chain : LeafChain X} {objects : List Key → Node t X → N → Prop}
  {pool : Pool N R} {splitNode : Nat → Ptr → Ptr → TreeProg t X Unit}
  {search : Nat → Ptr → Key → TreeProg t X (Option SlotRef)}
  {updateIfFound : Nat → Ptr → Key → Value → TreeProg t X Bool} {links : X}
  {searchThere : Nat → Ptr → Key → Prog N (Heap R) (Option Ptr)}
  {updateThere : Nat → Ptr → Key → Value → PoolProg N R Bool}
  {insertNewThere : Nat → Ptr → Key → Value → PoolProg N R Unit}
  {insertThere : Key → Value → PoolProg N R Int} {newRecord : Heap R → Key → Value → R}
  {owners : List Key} {entries : List (Key × Value)} {store next : Store (Node t X) Unit}
  {state : PoolState N R}

/-- An overwritten value has no counterpart in the nodes. -/
theorem KeepsRecords.overwrite (keeps : KeepsRecords objects pool splitNode search links searchThere
      updateThere insertNewThere insertThere newRecord) {slot : SlotRef} {value : Value}
    {other : Store N (Heap R)} {records : Heap R} (stands : Stands objects owners records store other)
    (ran : (Trees.overwrite slot value : TreeProg t X Unit) store = .ok ((), next)) :
    Stands objects owners records next other := by
  obtain ⟨node, changed, live, changeRan, rfl⟩ := Prog.modify_inv ran
  obtain ⟨placed, copyRan, made⟩ := except_bind_inv changeRan
  cases made
  exact ⟨stands.heap.set_first live fun _ related => keeps.ignores related copyRan, stands.root,
    stands.aux⟩

/-- What the search for a key finds in both trees. -/
theorem Companions.searches (companions : Companions kind chain objects owners entries store state)
    (implements : Implements kind chain splitNode search updateIfFound links)
    (keeps : KeepsRecords objects pool splitNode search links searchThere updateThere insertNewThere
      insertThere newRecord) (key : Key) :
    ∃ slot found after, search store.heap.size store.root key store = .ok (slot, store) ∧
      searchThere (memory state).heap.size (memory state).root key (memory state) = .ok (found, after) ∧
      Trees.stringAt store slot = .ok (entries.lookup key) ∧ Finds owners key slot found ∧
      Stands objects owners (memory state).aux store after := by
  obtain ⟨⟨depth, tree, stores, rfl⟩, stands, ledger⟩ := companions
  obtain ⟨slot, ran, denotes⟩ := search_lookup implements.searches stores key
  obtain ⟨found, after, ranThere, finds, stillStands⟩ :=
    keeps.searches ledger.tags _ _ key stands ran
  rw [← stands.heap.size, ← stands.root] at ranThere
  exact ⟨slot, found, after, ran, ranThere, denotes, finds, stillStands⟩

/-- A search with records leads to the value of the map. -/
theorem Companions.reads (companions : Companions kind chain objects owners entries store state)
    (implements : Implements kind chain splitNode search updateIfFound links)
    (keeps : KeepsRecords objects pool splitNode search links searchThere updateThere insertNewThere
      insertThere newRecord) (key : Key) :
    ∃ found after,
      searchThere (memory state).heap.size (memory state).root key (memory state) = .ok (found, after) ∧
      MemOpt.stringAt after found = .ok (entries.lookup key) := by
  obtain ⟨slot, found, after, _, searchRan, denotes, finds, stands⟩ :=
    companions.searches implements keeps key
  refine ⟨found, after, searchRan, ?_⟩
  have recordsEq : after.aux = (memory state).aux := stands.aux
  have ledger : Ledger owners entries after.aux := recordsEq ▸ companions.ledger
  cases slot with
  | none =>
      obtain rfl : found = none := finds
      exact denotes
  | some slot =>
      obtain ⟨record, rfl, owned⟩ := finds
      obtain ⟨value, found, read⟩ := ledger.valueOf_ok owned
      rw [MemOpt.stringAt, read, found]
      rfl

/-- The records of all keys but one hold what they held. -/
def OthersKept (owners : List Key) (key : Key) (records later : Heap R) : Prop :=
  ∀ record other, OwnedBy owners record other → other ≠ key → later.get? record = records.get? record

omit [Valued R] [Tagged R] in
theorem othersKept_push {records : Heap R} (level : records.size = owners.length) (key : Key)
    (object : R) : OthersKept owners key records (records.push object) := by
  intro record other owned _
  rw [Heap.get?_push, level, if_neg (Nat.ne_of_lt (Nat.lt_succ_of_le owned.le_length))]

omit [Valued R] [Tagged R] in
theorem othersKept_set {records : Heap R} {record : Ptr} {key : Key} {object : R}
    (owned : OwnedBy owners record key) (live : records.get? record = some object) (changed : R) :
    OthersKept owners key records (records.set record changed) := by
  intro other stored owns different
  rw [Heap.get?_set live, if_neg]
  rintro rfl
  exact different (owned.key_eq owns)

/-- Both trees insert a new key, and the ledger lists it. -/
theorem insert_new (implements : Implements kind chain splitNode search updateIfFound links)
    (keeps : KeepsRecords objects pool splitNode search links searchThere updateThere insertNewThere
      insertThere newRecord) (stands : Stands objects owners (memory state).aux store (memory state))
    (ledger : Ledger owners entries (memory state).aux) (rooted : store.root ≠ null) {key : Key}
    {value : Value} (searchRan : search store.heap.size store.root key store = .ok (none, store))
    (ran : Trees.insert splitNode updateIfFound links key value store = .ok (1, next))
    (absent : entries.lookup key = none) (nextShows : ShowsMap kind chain next (upsert key value entries)) :
    ∃ final, insertThere key value state = .ok (1, final) ∧
      Companions kind chain objects (owners ++ [key]) (upsert key value entries) next final ∧
      OthersKept owners key (memory state).aux (memory final).aux := by
  obtain ⟨found, after, searchThereRan, finds, stillStands⟩ :=
    keeps.searches ledger.tags _ _ key stands searchRan
  obtain rfl : found = none := finds
  have sameRoot : state.root = store.root := stands.root
  have sameSize : state.heap.size = store.heap.size := stands.heap.size
  rw [← sameRoot, ← sameSize] at searchThereRan
  rw [insert_of_root rooted] at ran
  obtain ⟨updated, middle, updateRan, ran⟩ := bind_ok_inv ran
  rw [implements.updates, bind_ok searchRan] at updateRan
  cases updateRan
  have searched : onMemory (searchThere state.heap.size state.root key) state =
      .ok (none, withMemory state after) := onMemory_ok searchThereRan
  have missed : (onMemory (searchThere state.heap.size state.root key) >>=
      pool.overwriteFound value) state = .ok (false, withMemory state after) := bind_ok searched
  obtain ⟨_, final, insertRan, _, finalStands⟩ := keeps.inserts ledger.tags
    ledger.level store.heap.size store.root key value
    (show Unlogged (Stands objects owners (memory state).aux) store (withMemory state after) from
      stillStands) ran
  rw [← sameRoot, ← sameSize] at insertRan
  have recordsAfter : (memory final).aux = _ := finalStands.aux
  refine ⟨final, ?_, ⟨nextShows, ?_, ?_⟩, ?_⟩
  · rw [keeps.calls, bind_ok (Prog.getRoot_ok state), bind_ok (Prog.heapSize_ok state), keeps.updates,
      bind_ok missed]
    simp only [Bool.false_eq_true, if_false]
    rw [bind_ok insertRan]
    rfl
  · rw [recordsAfter]
    exact finalStands
  · rw [recordsAfter]
    exact ledger.append absent (keeps.tagged _ _ _) (keeps.written _ _ _)
  · rw [recordsAfter]
    exact othersKept_push ledger.level key _

/-- Both trees insert, the ledger grows exactly when the key is new, and no record of another key
changes. -/
theorem Companions.insert (companions : Companions kind chain objects owners entries store state)
    (implements : Implements kind chain splitNode search updateIfFound links)
    (keeps : KeepsRecords objects pool splitNode search links searchThere updateThere insertNewThere
      insertThere newRecord) (key : Key) (value : Value) :
    ∃ next final, Trees.insert splitNode updateIfFound links key value store = .ok (1, next) ∧
      insertThere key value state = .ok (1, final) ∧
      Companions kind chain objects (if key ∈ owners then owners else owners ++ [key])
        (upsert key value entries) next final ∧
      OthersKept owners key (memory state).aux (memory final).aux := by
  obtain ⟨slot, found, after, searchRan, searchThereRan, denotes, finds, stands⟩ :=
    companions.searches implements keeps key
  obtain ⟨next, ran, nextShows⟩ := insert_refines implements companions.shows key value
  have rooted : store.root ≠ null := by
    obtain ⟨depth, tree, stores, _⟩ := companions.shows
    exact stores.root_ne_null
  refine ⟨next, ?_⟩
  have whole := ran
  cases slot with
  | none =>
      have absent : entries.lookup key = none := (Except.ok.inj denotes).symm
      rw [if_neg (companions.ledger.not_mem absent)]
      obtain ⟨final, inserted, grown⟩ := insert_new implements keeps companions.stands
        companions.ledger rooted searchRan ran absent nextShows
      exact ⟨final, whole, inserted, grown⟩
  | some slot =>
      rw [insert_of_root rooted] at ran
      obtain ⟨updated, middle, updateRan, ran⟩ := bind_ok_inv ran
      rw [implements.updates, bind_ok searchRan] at updateRan
      have searched : onMemory (searchThere state.heap.size state.root key) state =
          .ok (found, withMemory state after) := onMemory_ok searchThereRan
      rw [keeps.calls, bind_ok (Prog.getRoot_ok state), bind_ok (Prog.heapSize_ok state), keeps.updates]
      have recordsEq : after.aux = (memory state).aux := stands.aux
      obtain ⟨record, rfl, owned⟩ := finds
      obtain ⟨object, old, live, holds, _⟩ := companions.ledger.values owned
      obtain ⟨_, _, overwritten, rest⟩ := bind_ok_inv updateRan
      cases rest
      cases ran
      have stillStands := keeps.overwrite stands overwritten
      have liveThere : (memory (withMemory state after)).aux.get? record = some object := by
        rw [memory_withMemory, recordsEq]
        exact live
      obtain ⟨final, overwrittenThere, finalEq⟩ := overwrite_memory pool liveThere holds value
      have updated : (onMemory (searchThere state.heap.size state.root key) >>=
          pool.overwriteFound value) state = .ok (true, final) := by
        rw [bind_ok searched, Pool.overwriteFound, bind_ok overwrittenThere]
        rfl
      refine ⟨final, whole, ?_, ?_, ?_⟩
      · rw [bind_ok updated]
        rfl
      · rw [if_pos owned.mem]
        refine ⟨nextShows, ?_, ?_⟩
        · rw [finalEq]
          exact ⟨stillStands.heap, stillStands.root, rfl⟩
        · rw [finalEq, memory_withMemory, recordsEq]
          exact companions.ledger.overwrite owned live value
      · rw [finalEq, memory_withMemory, recordsEq]
        exact othersKept_set owned live _

end StoredsBench.MemOpt
