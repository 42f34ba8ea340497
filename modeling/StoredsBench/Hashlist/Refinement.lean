/-
Module: StoredsBench.Hashlist.Refinement
Layer: Refinement
Purpose: The hash index of `HlPmem` and `HlPmemTx` leads from every key of the list to its node, and
  `insert` keeps it so: a stored key gets a new value in its node, another key a new last node.
Trusted boundary: none
Main exports: Indexed, upserted, insert_eq_found, insert_eq_missing, insert_runsTo
-/
import StoredsBench.Hashlist.Pmem
import StoredsBench.Hashmap.Refinement
import StoredsBench.Linkedlist.PmemRefinement

namespace StoredsBench.Hashlist

open Lib Lib.SortedAssoc Lists Linkedlist Hashmap

/-- The first cell of a key. -/
def cellOf (key : Key) (cells : List Cell) : Option Cell := cells.find? fun cell => cell.entry.1 = key

/-- The keys of a list, first node first. -/
def keys (cells : List Cell) : List Key := cells.map fun cell => cell.entry.1

/-- The list after an insert; a new node is at `fresh`. -/
def upserted (key : Key) (value : Value) (fresh : Ptr) (cells : List Cell) : List Cell :=
  match cellOf key cells with
  | some cell => cells.map (overwritten cell.label value)
  | none => cells ++ [⟨fresh, (key, value)⟩]

/-- The index finds the node of every key, and no node for other keys. -/
structure Indexed (table : HlTable) (cells : List Cell) : Prop where
  size : table.bucket.length = table.coefficients.nbuckets.toNat
  finds : ∀ key entries, table.bucket[home table.coefficients key]? = some entries →
    (HlPmem.findEntry key entries).map HlEntry.ll_p = (cellOf key cells).map Cell.label

section Cells

variable {key other : Key} {value : Value} {fresh : Ptr} {cells : List Cell} {cell : Cell}

theorem cellOf_eq_none_iff : cellOf key cells = none ↔ key ∉ keys cells := by
  simp [cellOf, keys]

theorem key_cellOf (found : cellOf key cells = some cell) : cell.entry.1 = key := by
  simpa using List.find?_some found

theorem mem_of_cellOf (found : cellOf key cells = some cell) : cell ∈ cells :=
  List.mem_of_find?_eq_some found

theorem keys_overwritten (address : Ptr) (value : Value) (cells : List Cell) :
    keys (cells.map (overwritten address value)) = keys cells := by
  simp [keys, Function.comp_def]

theorem label_cellOf_overwritten (address : Ptr) (value : Value) (key : Key) (cells : List Cell) :
    (cellOf key (cells.map (overwritten address value))).map Cell.label =
      (cellOf key cells).map Cell.label := by
  simp [cellOf, List.find?_map, Function.comp_def]

theorem cellOf_append (key : Key) (cells : List Cell) (cell : Cell) :
    cellOf key (cells ++ [cell]) = (cellOf key cells).or (if cell.entry.1 = key then some cell else none) := by
  rw [cellOf, List.find?_append, cellOf]
  congr 1
  by_cases same : cell.entry.1 = key
  · simp [same]
  · simp [same]

theorem upserted_found (found : cellOf key cells = some cell) :
    upserted key value fresh cells = cells.map (overwritten cell.label value) := by
  simp only [upserted, found]

theorem upserted_missing (missing : cellOf key cells = none) :
    upserted key value fresh cells = cells ++ [⟨fresh, (key, value)⟩] := by
  simp only [upserted, missing]

/-- A new key comes last; a stored one stays where it is. -/
theorem keys_upserted (key : Key) (value : Value) (fresh : Ptr) (cells : List Cell) :
    keys (upserted key value fresh cells) = if key ∈ keys cells then keys cells else keys cells ++ [key] := by
  cases found : cellOf key cells with
  | none =>
      rw [upserted_missing found, if_neg (cellOf_eq_none_iff.mp found), keys, List.map_append]
      rfl
  | some cell =>
      have stored : key ∈ keys cells := by
        rw [← key_cellOf found]
        exact List.mem_map_of_mem (mem_of_cellOf found)
      rw [upserted_found found, keys_overwritten, if_pos stored]

theorem nodup_keys_upserted (key : Key) (value : Value) (fresh : Ptr) (distinct : (keys cells).Nodup) :
    (keys (upserted key value fresh cells)).Nodup := by
  rw [keys_upserted]
  split
  · exact distinct
  · rename_i missing
    rw [List.nodup_append]
    refine ⟨distinct, by simp, ?_⟩
    rintro stored member _ isKey rfl
    rw [List.mem_singleton] at isKey
    rw [isKey] at member
    exact missing member

/-- The list stays short only when no other key is stored. -/
theorem length_upserted_le_one_iff (distinct : (keys cells).Nodup) :
    (upserted key value fresh cells).length ≤ 1 ↔ ∀ stored ∈ keys cells, stored = key := by
  have length : (upserted key value fresh cells).length =
      (if key ∈ keys cells then keys cells else keys cells ++ [key]).length := by
    rw [← keys_upserted key value fresh cells, keys, List.length_map]
  rw [length]
  split
  · rename_i stored
    constructor
    · intro short other member
      cases keysEq : keys cells with
      | nil => simp [keysEq] at member
      | cons first rest =>
          rw [keysEq] at short stored member
          have restEq : rest = [] := by simpa using short
          rw [restEq] at stored member
          rw [List.mem_singleton.mp member, List.mem_singleton.mp stored]
    · intro same
      cases keysEq : keys cells with
      | nil => simp
      | cons first rest =>
          rw [keysEq] at same distinct
          cases rest with
          | nil => simp
          | cons second rest =>
              have firstEq := same first List.mem_cons_self
              have secondEq := same second (List.mem_cons_of_mem _ List.mem_cons_self)
              simp [firstEq, secondEq] at distinct
  · rename_i missing
    cases keysEq : keys cells with
    | nil => simp
    | cons first rest =>
        rw [keysEq] at missing
        constructor
        · intro short
          simp at short
        · intro same
          exfalso
          apply missing
          rw [← same first List.mem_cons_self]
          exact List.mem_cons_self

end Cells

/-! ### The index -/

section Index

variable {table : HlTable} {cells : List Cell} {key : Key}

theorem Indexed.bucket (indexed : Indexed table cells) (key : Key) :
    ∃ entries, table.bucket[home table.coefficients key]? = some entries ∧
      HlPmem.bucketAt table (HlPmem.hashFunction table.coefficients key) = .ok entries := by
  have inside : home table.coefficients key < table.bucket.length := by
    rw [indexed.size]
    exact home_lt table.coefficients key
  have found := List.getElem?_eq_getElem inside
  refine ⟨_, found, ?_⟩
  have atHome : table.bucket[(HlPmem.hashFunction table.coefficients key).toNat]? = _ := found
  simp only [HlPmem.bucketAt, atHome]

/-- The table `init` makes is the index of the empty list. -/
theorem indexed_newTable (coefficients : HashCoefficients) : Indexed (HlPmem.newTable coefficients) [] where
  size := List.length_replicate
  finds := by
    intro key entries found
    have member := List.mem_of_getElem? found
    rw [List.eq_of_mem_replicate member]
    rfl

theorem Indexed.overwritten (indexed : Indexed table cells) (address : Ptr) (value : Value) :
    Indexed table (cells.map (overwritten address value)) where
  size := indexed.size
  finds := by
    intro key entries found
    rw [label_cellOf_overwritten]
    exact indexed.finds key entries found

/-- The table with an entry for a new node. -/
def entered (table : HlTable) (key : Key) (node : Ptr) (entries : List HlEntry) : HlTable :=
  { table with
    bucket := table.bucket.set (home table.coefficients key) ({ key := key, ll_p := node } :: entries) }

theorem Indexed.entered (indexed : Indexed table cells) {entries : List HlEntry}
    (here : table.bucket[home table.coefficients key]? = some entries)
    (missing : cellOf key cells = none) (node : Ptr) (value : Value) :
    Indexed (entered table key node entries) (cells ++ [⟨node, (key, value)⟩]) where
  size := List.length_set.trans indexed.size
  finds := by
    intro other others found
    rw [cellOf_append]
    have inside : home table.coefficients key < table.bucket.length := by
      rw [indexed.size]
      exact home_lt table.coefficients key
    have read : (if home table.coefficients key = home table.coefficients other then
        some ({ key := key, ll_p := node } :: entries)
        else table.bucket[home table.coefficients other]?) = some others := by
      rw [← found, Hashlist.entered, List.getElem?_set]
      simp [inside]
    by_cases sameKey : key = other
    · subst sameKey
      rw [if_pos rfl] at read
      cases read
      simp [HlPmem.findEntry, missing]
    · rw [if_neg sameKey, Option.or_none]
      by_cases sameHome : home table.coefficients key = home table.coefficients other
      · rw [if_pos sameHome] at read
        cases read
        rw [sameHome] at here
        rw [← indexed.finds other entries here]
        simp [HlPmem.findEntry, sameKey]
      · rw [if_neg sameHome] at read
        exact indexed.finds other others read

end Index

/-! ### Inserting -/

section Inserting

variable {store : HlPmem} {cells : List Cell} {key : Key} {value : Value} {cell : Cell}

/-- The pool holds a list, and the index belongs to it. -/
structure Holds (store : Store ListNode (ListSide HlTable)) (cells : List Cell) : Prop where
  shows : Shows store cells
  indexed : Indexed store.aux.index cells
  distinct : (keys cells).Nodup

theorem init_holds (coefficients : HashCoefficients) : Holds (memory (HlPmem.init coefficients)) [] where
  shows := Or.inl ⟨rfl, rfl, rfl⟩
  indexed := indexed_newTable coefficients
  distinct := List.nodup_nil

theorem Indexed.search {table : HlTable} (indexed : Indexed table cells) (key : Key) :
    ∃ entries, table.bucket[home table.coefficients key]? = some entries ∧
      HlPmem.bucketAt table (HlPmem.hashFunction table.coefficients key) = .ok entries ∧
      (HlPmem.findEntry key entries).map HlEntry.ll_p = (cellOf key cells).map Cell.label := by
  obtain ⟨entries, found, atBucket⟩ := indexed.bucket key
  exact ⟨entries, found, atBucket, indexed.finds key entries found⟩

/-- The insert of a key with an entry overwrites the value of its node. -/
theorem insert_eq_found (pool : ListPool RootMember) (indexed : Indexed store.aux.side.index cells)
    (found : cellOf key cells = some cell) :
    HlPmem.insert pool key value store =
      (do pool.overwrite value cell.label; return 1 : HlPmem.M Int) store := by
  obtain ⟨entries, _, atBucket, finds⟩ := indexed.search key
  rw [found, Option.map_some, Option.map_eq_some_iff] at finds
  obtain ⟨entry, entryFound, sameNode⟩ := finds
  have table : HlPmem.getTable store = .ok (store.aux.side.index, store) := rfl
  rw [HlPmem.insert, bind_ok table, bind_ok (Prog.lift_ok atBucket store), entryFound]
  dsimp only
  rw [sameNode]

/-- The insert of another key appends a node and enters it into the index. -/
theorem insert_eq_missing (pool : ListPool RootMember) (indexed : Indexed store.aux.side.index cells)
    (missing : cellOf key cells = none) :
    HlPmem.insert pool key value store =
      (do
        let node ← appendNode pool key value
        HlPmem.enter key node
        return 1 : HlPmem.M Int) store := by
  obtain ⟨entries, _, atBucket, finds⟩ := indexed.search key
  rw [missing, Option.map_none, Option.map_eq_none_iff] at finds
  have table : HlPmem.getTable store = .ok (store.aux.side.index, store) := rfl
  rw [HlPmem.insert, bind_ok table, bind_ok (Prog.lift_ok atBucket store), finds]

theorem enter_ok {entries : List HlEntry}
    (here : store.aux.side.index.bucket[home store.aux.side.index.coefficients key]? = some entries)
    (node : Ptr) :
    HlPmem.enter key node store = .ok ((), withMemory store { memory store with
      aux := { (memory store).aux with index := entered store.aux.side.index key node entries } }) := by
  have atHome : store.aux.side.index.bucket[
      (HlPmem.hashFunction store.aux.side.index.coefficients key).toNat]? = some entries := here
  have atBucket : HlPmem.bucketAt store.aux.side.index
      (HlPmem.hashFunction store.aux.side.index.coefficients key) = .ok entries := by
    simp only [HlPmem.bucketAt, atHome]
  have table : HlPmem.getTable store = .ok (store.aux.side.index, store) := rfl
  rw [HlPmem.enter, bind_ok table, bind_ok (Prog.lift_ok atBucket store)]
  rfl

/-- The index is not part of the pool. -/
theorem readPool_withIndex (memory : Store ListNode (ListSide HlTable)) (table : HlTable) :
    readPool { memory with aux := { memory.aux with index := table } } = readPool memory := by
  funext place
  cases place with
  | root member => cases member <;> rfl
  | node address field => rfl

theorem enter_inv {node : Ptr} {final : HlPmem} (ran : HlPmem.enter key node store = .ok ((), final)) :
    final.aux.trail = store.aux.trail ∧ final.aux.running = store.aux.running ∧
      readPool (memory final) = readPool (memory store) := by
  obtain ⟨table, tabled, tableRan, afterTable⟩ := bind_ok_inv ran
  cases tableRan
  obtain ⟨entries, bucketed, bucketRan, setRan⟩ := bind_ok_inv afterTable
  obtain ⟨_, rfl⟩ := Prog.lift_inv bucketRan
  cases setRan
  exact ⟨rfl, rfl, readPool_withIndex _ _⟩

/-- The node of an indexed key gets the new value; nothing else changes. -/
theorem insert_stored (pool : ListPool RootMember) {all : List Cell} (shows : Shows (memory store) all)
    (indexed : Indexed store.aux.side.index cells) (found : cellOf key cells = some cell)
    (member : cell ∈ all) (value : Value) :
    ∃ final, HlPmem.insert pool key value store = .ok (1, final) ∧
      Shows (memory final) (all.map (overwritten cell.label value)) ∧
      (memory final).aux = (memory store).aux ∧ final.heap.size = store.heap.size ∧
      nextAt final.heap = nextAt store.heap := by
  obtain ⟨after, ran, kept, nexts, _⟩ := setValue_ok (shows.shown cell member) value
  obtain ⟨final, overwritten, finalEq⟩ := overwrite_runsTo pool ran store rfl
  have heap : final.heap = after.heap := congrArg Store.heap finalEq
  refine ⟨final, ?_, ?_, ?_, ?_, ?_⟩
  · rw [insert_eq_found pool indexed found, bind_ok overwritten]
    rfl
  · rw [finalEq]
    exact setValue_shows shows ran
  · rw [finalEq, kept.aux]
  · rw [heap]
    exact kept.size
  · rw [heap, nexts]
    rfl

/-- Another key gets a node behind the others, and the bucket of the key an entry for it. -/
theorem insert_new (pool : ListPool RootMember) {all : List Cell} (shows : Shows (memory store) all)
    (indexed : Indexed store.aux.side.index cells) (missing : cellOf key cells = none) (value : Value) :
    ∃ final entries, HlPmem.insert pool key value store = .ok (1, final) ∧
      store.aux.side.index.bucket[home store.aux.side.index.coefficients key]? = some entries ∧
      Shows (memory final) (all ++ [⟨store.heap.size + 1, (key, value)⟩]) ∧
      (memory final).aux.index = entered store.aux.side.index key (store.heap.size + 1) entries ∧
      final.heap.size = store.heap.size + 1 ∧
      nextAt final.heap (store.heap.size + 1) = (pool.garbage (store.heap.size + 1)).next := by
  obtain ⟨after, runs, showsAfter, index, size, next⟩ := appendNode_runsTo pool shows key value
  obtain ⟨middle, appended, middleEq⟩ := runs store rfl
  obtain ⟨entries, here, _⟩ := indexed.search key
  have heap : middle.heap = after.heap := congrArg Store.heap middleEq
  have sameIndex : middle.aux.side.index = store.aux.side.index :=
    (congrArg (fun memory => memory.aux.index) middleEq).trans index
  have middleHere : middle.aux.side.index.bucket[home middle.aux.side.index.coefficients key]? =
      some entries := by rw [sameIndex, here]
  have enteredRan := enter_ok middleHere (store.heap.size + 1)
  have ran : HlPmem.insert pool key value store = .ok (1, withMemory middle { memory middle with
      aux := { (memory middle).aux with
        index := entered middle.aux.side.index key (store.heap.size + 1) entries } }) := by
    rw [insert_eq_missing pool indexed missing, bind_ok appended]
    exact (bind_ok enteredRan).trans rfl
  refine ⟨_, entries, ran, here, ?_, ?_, ?_, ?_⟩
  · rw [memory_withMemory, middleEq]
    exact showsAfter.congr (readPool_withIndex after _)
  · rw [memory_withMemory, sameIndex]
  · exact (congrArg Heap.size heap).trans size
  · exact (congrArg (fun heap => nextAt heap (store.heap.size + 1)) heap).trans next

theorem insert_ok (pool : ListPool RootMember) (holds : Holds (memory store) cells) (key : Key)
    (value : Value) :
    ∃ final, HlPmem.insert pool key value store = .ok (1, final) ∧
      Holds (memory final) (upserted key value (store.heap.size + 1) cells) := by
  have distinct := nodup_keys_upserted key value (store.heap.size + 1) holds.distinct
  cases found : cellOf key cells with
  | some cell =>
      rw [upserted_found found] at distinct ⊢
      obtain ⟨final, ran, shows, sameAux, _⟩ := insert_stored pool holds.shows holds.indexed found
        (mem_of_cellOf found) value
      refine ⟨final, ran, shows, ?_, distinct⟩
      rw [sameAux]
      exact holds.indexed.overwritten cell.label value
  | none =>
      rw [upserted_missing found] at distinct ⊢
      obtain ⟨final, entries, ran, here, shows, index, _⟩ := insert_new pool holds.shows holds.indexed
        found value
      refine ⟨final, ran, shows, ?_, distinct⟩
      rw [index]
      exact holds.indexed.entered here found (store.heap.size + 1) value

end Inserting

end StoredsBench.Hashlist
