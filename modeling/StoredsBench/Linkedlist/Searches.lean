/-
Module: StoredsBench.Linkedlist.Searches
Layer: Correctness
Purpose: Where the searches of the linked lists end.  `create_node` leaves the `next` member of the
  last node as the allocator returned it, so that a search ends at a stored key only.
Trusted boundary: none
Main exports: ListClass, SearchesEnd, list_searches_end_iff
-/
import StoredsBench.Linkedlist.PmemRefinement

namespace StoredsBench

open Lib Lists Linkedlist LinkedlistPmem

namespace Linkedlist

/-- The operations of a class of lists.  `search` is the loop of `read` and `update` with a bound on
its iterations. -/
structure ListClass (S : Type) where
  init : S
  insert : Key → Value → S → Except Fault S
  update : Key → Value → S → Except Fault S
  read : Key → S → Except Fault Ptr
  search : Key → Nat → S → Except Fault Ptr

/-- The keys that calls insert, in order. -/
def insertedKeys : List ListCall → List Key
  | [] => []
  | .insert key _ :: rest => key :: insertedKeys rest
  | .update _ _ :: rest => insertedKeys rest

/-- The updates ask for keys inserted before only. -/
def UpdatesStored : (stored : List Key) → List ListCall → Prop
  | _, [] => True
  | stored, .insert key _ :: rest => UpdatesStored (stored ++ [key]) rest
  | stored, .update key _ :: rest => key ∈ stored ∧ UpdatesStored stored rest

namespace ListClass

variable {S : Type}

/-- Calls one after another. -/
def run (list : ListClass S) : List ListCall → S → Except Fault S
  | [], store => .ok store
  | .insert key value :: rest, store => do
      let next ← list.insert key value store
      list.run rest next
  | .update key value :: rest, store => do
      let next ← list.update key value store
      list.run rest next

/-- `read` and `update` of a key end, and their loop visits no more than `count` nodes.  It visits as
many nodes as it has iterations; one more evaluation of its condition finds the null pointer. -/
structure SearchEnds (list : ListClass S) (count : Nat) (key : Key) (store : S) : Prop where
  loop : (∃ node, node ≠ null ∧ list.search key count store = .ok node) ∨
    list.search key (count + 1) store = .ok null
  read : ∃ node, list.read key store = .ok node
  update : ∀ value, ∃ after, list.update key value store = .ok after

/-- All searches of the calls end, and so does one for the key behind them, after visiting at most as
many nodes as were inserted.  A link nothing was stored to is a fault to follow. -/
def SearchesEnd (list : ListClass S) (calls : List ListCall) (key : Key) : Prop :=
  ∃ store, list.run calls list.init = .ok store ∧
    list.SearchEnds (insertedKeys calls).length key store

/-- The operations on stores that show a list with these keys. -/
structure Searching (list : ListClass S) (shows : S → List Key → Prop) : Prop where
  init : shows list.init []
  insert : ∀ {store stored} key value, shows store stored →
    ∃ after, list.insert key value store = .ok after ∧ shows after (stored ++ [key])
  update : ∀ {store stored key} value, shows store stored → key ∈ stored →
    ∃ after, list.update key value store = .ok after ∧ shows after stored
  ends : ∀ {store stored key}, shows store stored → key ∈ stored →
    list.SearchEnds stored.length key store

/-- The loop faults behind a list without the key. -/
structure Faulting (list : ListClass S) (shows : S → List Key → Prop) : Prop where
  read : ∀ {store stored key}, shows store stored → key ∉ stored →
    ∀ node, list.read key store ≠ .ok node
  update : ∀ {store stored key}, shows store stored → key ∉ stored →
    ∀ value after, list.update key value store ≠ .ok after

variable {list : ListClass S} {shows : S → List Key → Prop} {calls : List ListCall}

/-- Calls that ask for stored keys run to their end. -/
theorem Searching.run_ok (searching : Searching list shows) {store : S} {stored : List Key}
    (shown : shows store stored) (asks : UpdatesStored stored calls) :
    ∃ after, list.run calls store = .ok after ∧ shows after (stored ++ insertedKeys calls) := by
  induction calls generalizing store stored with
  | nil => exact ⟨store, rfl, by simpa [insertedKeys] using shown⟩
  | cons call rest inductionHypothesis =>
      cases call with
      | insert key value =>
          obtain ⟨next, ran, nextShown⟩ := searching.insert key value shown
          obtain ⟨after, restRan, afterShown⟩ := inductionHypothesis nextShown asks
          refine ⟨after, ?_, by simpa [insertedKeys] using afterShown⟩
          simpa only [run, ran, bind, Except.bind] using restRan
      | update key value =>
          obtain ⟨member, restAsks⟩ := asks
          obtain ⟨next, ran, nextShown⟩ := searching.update value shown member
          obtain ⟨after, restRan, afterShown⟩ := inductionHypothesis nextShown restAsks
          refine ⟨after, ?_, afterShown⟩
          simpa only [run, ran, bind, Except.bind] using restRan

/-- Calls that run to their end have asked for stored keys. -/
theorem Faulting.asks (faulting : Faulting list shows) (searching : Searching list shows) {store after : S}
    {stored : List Key} (shown : shows store stored) (ran : list.run calls store = .ok after) :
    UpdatesStored stored calls := by
  induction calls generalizing store stored with
  | nil => trivial
  | cons call rest inductionHypothesis =>
      cases call with
      | insert key value =>
          obtain ⟨next, nextRan, nextShown⟩ := searching.insert key value shown
          simp only [run, nextRan, bind, Except.bind] at ran
          exact inductionHypothesis nextShown ran
      | update key value =>
          by_cases member : key ∈ stored
          · obtain ⟨next, nextRan, nextShown⟩ := searching.update value shown member
            simp only [run, nextRan, bind, Except.bind] at ran
            exact ⟨member, inductionHypothesis nextShown ran⟩
          · cases updated : list.update key value store with
            | error fault => simp [run, updated, bind, Except.bind] at ran
            | ok next => exact absurd updated (faulting.update shown member value next)

theorem Searching.searchesEnd (searching : Searching list shows) {key : Key}
    (asks : UpdatesStored [] calls) (member : key ∈ insertedKeys calls) :
    list.SearchesEnd calls key := by
  obtain ⟨store, ran, shown⟩ := searching.run_ok searching.init asks
  rw [List.nil_append] at shown
  exact ⟨store, ran, searching.ends shown member⟩

theorem Faulting.searchesEnd_inv (faulting : Faulting list shows) (searching : Searching list shows)
    {key : Key} (ended : list.SearchesEnd calls key) :
    UpdatesStored [] calls ∧ key ∈ insertedKeys calls := by
  obtain ⟨store, ran, ends⟩ := ended
  have asks := faulting.asks searching searching.init ran
  refine ⟨asks, ?_⟩
  obtain ⟨after, afterRan, shown⟩ := searching.run_ok searching.init asks
  rw [ran] at afterRan
  cases afterRan
  rw [List.nil_append] at shown
  by_contra missing
  obtain ⟨node, read⟩ := ends.read
  exact faulting.read shown missing node read

end ListClass

end Linkedlist

/-! ### `LinkedlistDram` -/

namespace LinkedlistDram

/-- `LinkedlistDram` as a class of lists. -/
def listClass : ListClass LinkedlistDram where
  init := init
  insert := fun key value store => (insert key value store).map Prod.snd
  update := fun key value store => (update key value store).map Prod.snd
  read := fun key store => (read key store).map Prod.fst
  search := fun key bound store => (findNode key bound store.root store).map Prod.fst

/-- A list with these keys, or none.  The pointer of its last node is unwritten. -/
def Shown (store : LinkedlistDram) (stored : List Key) : Prop :=
  (stored = [] ∧ store = init) ∨ ∃ front last, Holds store front last ∧
    stored = (front ++ [last]).map (fun cell => cell.entry.1) ∧ nextAt store.heap last.label = none

variable {store : LinkedlistDram} {front : List Cell} {last : Cell} {key : Key}

theorem mem_of_key (member : key ∈ (front ++ [last]).map fun cell => cell.entry.1) :
    ∃ cell ∈ front ++ [last], cell.entry.1 = key := List.mem_map.mp member

/-- The search of a key that is not stored follows the unwritten pointer. -/
theorem Holds.findNode_absent (holds : Holds store front last)
    (unwritten : nextAt store.heap last.label = none)
    (missing : key ∉ (front ++ [last]).map fun cell => cell.entry.1) (fuel : Nat) (found : Ptr)
    (after : LinkedlistDram) : findNode key fuel store.root store ≠ .ok (found, after) := by
  apply findNode_unwritten holds.leads holds.shown _ unwritten
  intro cell member same
  exact missing (List.mem_map.mpr ⟨cell, member, same⟩)

theorem update_eq (rooted : store.root ≠ null) (key : Key) (value : Value) :
    update key value store =
      (do
        let found ← findNode key (store.heap.size + 1) store.root
        if found ≠ null then
          setValue value found
          return 1
        else return 1 : M Int) store := by
  rw [update, bind_ok (check_ok rooted), bind_ok (Prog.getRoot_ok store),
    bind_ok (Prog.heapSize_ok store)]

/-- An update of a stored key gives its first node a new value. -/
theorem update_ok (holds : Holds store front last)
    (stored : ∃ cell ∈ front ++ [last], cell.entry.1 = key) (value : Value) :
    ∃ after address, update key value store = .ok (1, after) ∧
      setValue value address store = .ok ((), after) := by
  obtain ⟨before, cell, rest, split, _, _, search⟩ := holds.findNode_stored stored
  have found := search (store.heap.size + 1) (Nat.le_succ_of_le holds.length_le)
  have here : entryAt store.heap cell.label = some cell.entry := by
    apply holds.shown
    rw [split]
    exact List.mem_append_right _ List.mem_cons_self
  obtain ⟨after, ran, _⟩ := setValue_ok here value
  refine ⟨after, cell.label, ?_, ran⟩
  rw [update_eq holds.root_ne_null, bind_ok found, if_pos (ne_null_of_entry here), bind_ok ran]
  rfl

theorem searching : ListClass.Searching listClass Shown where
  init := Or.inl ⟨rfl, rfl⟩
  insert := by
    rintro store stored key value (⟨rfl, rfl⟩ | ⟨front, last, holds, rfl, _⟩)
    · obtain ⟨after, ran, afterHolds, unwritten⟩ := insert_first key value
      refine ⟨after, ?_, Or.inr ⟨[], _, afterHolds, rfl, unwritten⟩⟩
      simp only [listClass, ran]
      rfl
    · obtain ⟨after, ran, afterHolds, unwritten⟩ := insert_ok holds key value
      refine ⟨after, ?_, Or.inr ⟨_, _, afterHolds, ?_, unwritten⟩⟩
      · simp only [listClass, ran]
        rfl
      · simp
  update := by
    rintro store stored key value (⟨rfl, rfl⟩ | ⟨front, last, holds, rfl, unwritten⟩) member
    · cases member
    · obtain ⟨after, address, ran, copied⟩ := update_ok holds (mem_of_key member) value
      refine ⟨after, ?_, Or.inr ⟨_, _, holds_setValue holds copied, ?_, ?_⟩⟩
      · simp only [listClass, ran]
        rfl
      · rw [← keys_overwritten address value, List.map_append]
        rfl
      · rw [nextAt_setValue copied, label_overwritten, unwritten]
  ends := by
    rintro store stored key (⟨rfl, rfl⟩ | ⟨front, last, holds, rfl, _⟩) member
    · cases member
    · obtain ⟨before, cell, rest, split, _, _, search⟩ := holds.findNode_stored (mem_of_key member)
      have here : entryAt store.heap cell.label = some cell.entry := by
        apply holds.shown
        rw [split]
        exact List.mem_append_right _ List.mem_cons_self
      have found := search (store.heap.size + 1) (Nat.le_succ_of_le holds.length_le)
      constructor
      · refine Or.inl ⟨cell.label, ne_null_of_entry here, ?_⟩
        simp only [listClass, search _ (List.length_map _).ge]
        rfl
      · refine ⟨cell.label, ?_⟩
        simp only [listClass, read_eq holds.root_ne_null, found]
        rfl
      · intro value
        obtain ⟨after, _, ran, _⟩ := update_ok holds (mem_of_key member) value
        refine ⟨after, ?_⟩
        simp only [listClass, ran]
        rfl

theorem faulting : ListClass.Faulting listClass Shown where
  read := by
    rintro store stored key (⟨rfl, rfl⟩ | ⟨front, last, holds, rfl, unwritten⟩) missing node ran
    · cases ran
    · simp only [listClass, read_eq holds.root_ne_null] at ran
      obtain ⟨⟨found, after⟩, searched, _⟩ := map_ok_inv ran
      exact holds.findNode_absent unwritten missing _ _ _ searched
  update := by
    rintro store stored key (⟨rfl, rfl⟩ | ⟨front, last, holds, rfl, unwritten⟩) missing value after ran
    · cases ran
    · simp only [listClass, update_eq holds.root_ne_null] at ran
      obtain ⟨⟨result, updated⟩, updatedRan, _⟩ := map_ok_inv ran
      obtain ⟨found, middle, searched, _⟩ := bind_ok_inv updatedRan
      exact holds.findNode_absent unwritten missing _ _ _ searched

end LinkedlistDram

/-! ### `LinkedlistPmem` and `LinkedlistPmemTx` -/

namespace LinkedlistPmem

/-- The classes on a pool as classes of lists. -/
def listClass (pool : ListPool RootMember) : ListClass LinkedlistPmem where
  init := newPool ()
  insert := fun key value store => (insert pool key value store).map Prod.snd
  update := fun key value store => (update pool key value store).map Prod.snd
  read := fun key store => (read key store).map Prod.fst
  search := fun key bound store => (findNode key bound store.root store).map Prod.fst

/-- A list with these keys.  The pointer of its last node is what the allocator left there. -/
def Shown (pool : ListPool RootMember) (store : LinkedlistPmem) (stored : List Key) : Prop :=
  ∃ cells, Shows (memory store) cells ∧ stored = cells.map (fun cell => cell.entry.1) ∧
    ∀ last ∈ cells.getLast?, nextAt store.heap last.label = (pool.garbage last.label).next

variable {pool : ListPool RootMember} {store : LinkedlistPmem} {stored : List Key} {key : Key}

/-- A search of the nodes is a search of the same list in volatile memory. -/
theorem findNode_iff {found : Ptr} {fuel : Nat} :
    findNode key fuel store.root store = .ok (found, store) ↔
      findNode key fuel (asDram (memory store)).root (asDram (memory store)) =
        .ok (found, asDram (memory store)) := by
  have same : (asDram (memory store)).heap = store.heap := rfl
  constructor
  · exact findNode_of_heap _ same
  · exact findNode_of_heap _ same.symm

theorem read_eq (rooted : store.root ≠ null) (key : Key) :
    read key store = findNode key (store.heap.size + 1) store.root store := by
  have checked : check store = .ok ((), store) := by
    rw [check, bind_ok (Prog.getRoot_ok store), if_neg rooted]
    rfl
  rw [read, bind_ok checked, bind_ok (Prog.getRoot_ok store), bind_ok (Prog.heapSize_ok store)]

theorem update_eq (rooted : store.root ≠ null) (key : Key) (value : Value) :
    update pool key value store =
      (do
        let found ← findNode key (store.heap.size + 1) store.root
        if found ≠ null then
          pool.overwrite value found
          pool.mode.persist (stringBytes found (value.chars.length + 1))
          return 1
        else return 1 : Linkedlist.M Unit Int) store := by
  have checked : check store = .ok ((), store) := by
    rw [check, bind_ok (Prog.getRoot_ok store), if_neg rooted]
    rfl
  rw [update, bind_ok checked, bind_ok (Prog.getRoot_ok store), bind_ok (Prog.heapSize_ok store)]

/-- The first node of a stored key. -/
theorem Shown.search (shown : Shown pool store stored) (member : key ∈ stored) :
    ∃ address entry, store.root ≠ null ∧ entryAt store.heap address = some entry ∧
      stored.length ≤ store.heap.size ∧
      ∀ fuel, stored.length ≤ fuel → findNode key fuel store.root store = .ok (address, store) := by
  obtain ⟨cells, shows, rfl, _⟩ := shown
  rcases shows with ⟨rfl, _⟩ | ⟨front, last, rfl, holds⟩
  · cases member
  · obtain ⟨before, cell, rest, split, _, _, search⟩ :=
      holds.findNode_stored (LinkedlistDram.mem_of_key member)
    refine ⟨cell.label, cell.entry, holds.root_ne_null, ?_, ?_, ?_⟩
    · apply holds.shown
      rw [split]
      exact List.mem_append_right _ List.mem_cons_self
    · rw [List.length_map]
      exact holds.length_le
    · intro fuel bound
      rw [List.length_map] at bound
      exact findNode_iff.mpr (search fuel bound)

/-- The search of a key that is not stored reads the pointer the allocator left. -/
theorem Shown.search_absent (shown : Shown pool store stored) (missing : key ∉ stored)
    (rooted : store.root ≠ null) (unwritten : ∀ address, (pool.garbage address).next = none)
    (fuel : Nat) (found : Ptr) (after : LinkedlistPmem) :
    findNode key fuel store.root store ≠ .ok (found, after) := by
  obtain ⟨cells, shows, rfl, rest⟩ := shown
  intro searched
  obtain ⟨rfl, _⟩ := findNode_inv searched
  rcases shows with ⟨_, root, _⟩ | ⟨front, last, rfl, holds⟩
  · exact rooted root
  · have lastUnwritten := rest last (by simp)
    rw [unwritten] at lastUnwritten
    exact holds.findNode_absent lastUnwritten missing fuel found _ (findNode_iff.mp searched)

/-- On an empty list both operations abort. -/
theorem root_ne_null_of_read {node : Ptr} {after : LinkedlistPmem}
    (ran : read key store = .ok (node, after)) : store.root ≠ null := by
  intro root
  obtain ⟨_, _, checked, _⟩ := bind_ok_inv ran
  rw [check, bind_ok (Prog.getRoot_ok store), if_pos root] at checked
  cases checked

theorem root_ne_null_of_update {value : Value} {result : Int} {after : LinkedlistPmem}
    (ran : update pool key value store = .ok (result, after)) : store.root ≠ null := by
  intro root
  obtain ⟨_, _, checked, _⟩ := bind_ok_inv ran
  rw [check, bind_ok (Prog.getRoot_ok store), if_pos root] at checked
  cases checked

theorem update_ok (shown : Shown pool store stored) (member : key ∈ stored) (value : Value) :
    ∃ after, update pool key value store = .ok (1, after) ∧ Shown pool after stored := by
  obtain ⟨address, entry, rooted, here, size, search⟩ := shown.search member
  have found := search (store.heap.size + 1) (Nat.le_succ_of_le size)
  have hereMemory : entryAt (memory store).heap address = some entry := here
  obtain ⟨copied, copyRan, _⟩ := setValue_ok hereMemory value
  have runs : RunsTo (do
      pool.overwrite value address
      pool.mode.persist (stringBytes address (value.chars.length + 1))
      return 1 : Linkedlist.M Unit Int) (memory store) 1 copied := by
    apply (overwrite_runsTo pool copyRan).bind
    apply (pool.mode.runsTo_persist _ _).bind
    exact RunsTo.pure _ _
  obtain ⟨after, ran, afterEq⟩ := runs store rfl
  refine ⟨after, ?_, ?_⟩
  · rw [update_eq rooted, bind_ok found, if_pos (ne_null_of_entry here)]
    exact ran
  · obtain ⟨cells, shows, rfl, rest⟩ := shown
    refine ⟨_, ?_, (keys_overwritten address value cells).symm, ?_⟩
    · rw [afterEq]
      exact setValue_shows shows copyRan
    · intro last isLast
      rw [List.getLast?_map, Option.mem_def, Option.map_eq_some_iff] at isLast
      obtain ⟨old, wasLast, rfl⟩ := isLast
      have heap : after.heap = copied.heap := congrArg Store.heap afterEq
      rw [heap, nextAt_setValue copyRan, label_overwritten]
      exact rest old wasLast

theorem searching (pool : ListPool RootMember) :
    ListClass.Searching (listClass pool) (Shown pool) where
  init := ⟨[], Or.inl ⟨rfl, rfl, rfl⟩, rfl, fun last isLast => by cases isLast⟩
  insert := by
    rintro store stored key value ⟨cells, shows, rfl, _⟩
    obtain ⟨appended, runs, appendedShows, _, _, next⟩ := appendNode_runsTo pool shows key value
    obtain ⟨after, ran, afterEq⟩ := runs store rfl
    refine ⟨after, ?_, _, by rw [afterEq]; exact appendedShows, by simp, ?_⟩
    · have inserted : insert pool key value store = .ok (1, after) := by
        rw [insert, bind_ok ran]
        rfl
      simp only [listClass, inserted]
      rfl
    · intro last isLast
      rw [List.getLast?_concat] at isLast
      cases isLast
      have heap : after.heap = appended.heap := congrArg Store.heap afterEq
      rw [heap]
      exact next
  update := by
    intro store stored key value shown member
    obtain ⟨after, ran, afterShown⟩ := update_ok shown member value
    refine ⟨after, ?_, afterShown⟩
    simp only [listClass, ran]
    rfl
  ends := by
    intro store stored key shown member
    obtain ⟨address, entry, rooted, here, size, search⟩ := shown.search member
    constructor
    · refine Or.inl ⟨address, ne_null_of_entry here, ?_⟩
      simp only [listClass, search stored.length (Nat.le_refl _)]
      rfl
    · refine ⟨address, ?_⟩
      simp only [listClass, read_eq rooted, search (store.heap.size + 1) (Nat.le_succ_of_le size)]
      rfl
    · intro value
      obtain ⟨after, ran, _⟩ := update_ok shown member value
      refine ⟨after, ?_⟩
      simp only [listClass, ran]
      rfl

theorem faulting (unwritten : ∀ address, (pool.garbage address).next = none) :
    ListClass.Faulting (listClass pool) (Shown pool) where
  read := by
    intro store stored key shown missing node ran
    obtain ⟨⟨found, after⟩, readRan, _⟩ := map_ok_inv ran
    have rooted := root_ne_null_of_read readRan
    rw [read_eq rooted] at readRan
    exact shown.search_absent missing rooted unwritten _ _ _ readRan
  update := by
    intro store stored key shown missing value after ran
    obtain ⟨⟨result, updated⟩, updateRan, _⟩ := map_ok_inv ran
    have rooted := root_ne_null_of_update updateRan
    rw [update_eq rooted] at updateRan
    obtain ⟨found, middle, searched, _⟩ := bind_ok_inv updateRan
    exact shown.search_absent missing rooted unwritten _ _ _ searched

/-- Whatever the allocator leaves in new nodes, the searches end, just when all keys are stored. -/
theorem searches_end_iff (kind : (Ptr → ListNode) → (RootMember → ListPlace RootMember → Bool) →
      ListPool RootMember) (same : ∀ garbage behind, (kind garbage behind).garbage = garbage)
    (calls : List ListCall) (key : Key) :
    (∀ garbage behind, (listClass (kind garbage behind)).SearchesEnd calls key) ↔
      UpdatesStored [] calls ∧ key ∈ insertedKeys calls := by
  constructor
  · intro ended
    have unwritten : ∀ address, ((kind (fun _ => ListNode.unwritten) fun _ _ => false).garbage
        address).next = none := by
      intro address
      rw [same]
      rfl
    exact (faulting unwritten).searchesEnd_inv (searching _) (ended _ _)
  · rintro ⟨asks, member⟩ garbage behind
    exact (searching _).searchesEnd asks member

end LinkedlistPmem

/-- `read` and `update` of the linked lists end, behind any calls and with any contents of fresh
memory, if and only if the key and the keys of all earlier updates are stored.  Otherwise they follow
the pointer of the last node, to which no insert has stored anything. -/
theorem list_searches_end_iff (calls : List ListCall) (key : Key) :
    (LinkedlistDram.listClass.SearchesEnd calls key ↔
        UpdatesStored [] calls ∧ key ∈ insertedKeys calls) ∧
      ((∀ garbage behind,
          (LinkedlistPmem.listClass (ListPool.plain garbage behind)).SearchesEnd calls key) ↔
        UpdatesStored [] calls ∧ key ∈ insertedKeys calls) ∧
      ((∀ garbage behind,
          (LinkedlistPmem.listClass (ListPool.tx garbage behind)).SearchesEnd calls key) ↔
        UpdatesStored [] calls ∧ key ∈ insertedKeys calls) := by
  constructor
  · constructor
    · exact LinkedlistDram.faulting.searchesEnd_inv LinkedlistDram.searching
    · rintro ⟨asks, member⟩
      exact LinkedlistDram.searching.searchesEnd asks member
  · constructor
    · exact LinkedlistPmem.searches_end_iff ListPool.plain (fun _ _ => rfl) calls key
    · exact LinkedlistPmem.searches_end_iff ListPool.tx (fun _ _ => rfl) calls key

/-- A search for a second key in a list of one. -/
theorem list_search_unended :
    ∃ value : Value, ¬ LinkedlistDram.listClass.SearchesEnd [.insert 1 value] 2 ∧
      ¬ (∀ garbage behind,
        (LinkedlistPmem.listClass (ListPool.plain garbage behind)).SearchesEnd [.insert 1 value] 2) ∧
      ¬ (∀ garbage behind,
        (LinkedlistPmem.listClass (ListPool.tx garbage behind)).SearchesEnd [.insert 1 value] 2) := by
  refine ⟨⟨[97], by decide, by decide⟩, ?_, ?_, ?_⟩
  · intro ended
    exact absurd (LinkedlistDram.faulting.searchesEnd_inv LinkedlistDram.searching ended).2 (by decide)
  · intro ended
    have stored := (LinkedlistPmem.searches_end_iff ListPool.plain (fun _ _ => rfl) _ _).mp ended
    exact absurd stored.2 (by decide)
  · intro ended
    have stored := (LinkedlistPmem.searches_end_iff ListPool.tx (fun _ _ => rfl) _ _).mp ended
    exact absurd stored.2 (by decide)

end StoredsBench
