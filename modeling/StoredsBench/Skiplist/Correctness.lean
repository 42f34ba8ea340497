/-
Module: StoredsBench.Skiplist.Correctness
Layer: Correctness
Purpose: `SkiplistDram` is a finite map whatever the coin flips are, and keeps its levels linked, in
  order and nested under inserts and removals.
Trusted boundary: none
Main exports: init_ok, scan_ok, skiplistDram_finite_map, skiplistDram_levels, skiplistDram_scan
-/
import StoredsBench.Skiplist.Update

namespace StoredsBench.SkiplistDram

open Lib Lib.SortedAssoc Skiplist

/-! ### Initialisation -/

/-- The loop of `init` writes the pointers from `index` on. -/
theorem clearNext_ok {store : SkiplistDram} {remaining index : Nat} {node : SkNode}
    (live : store.heap.get? store.root = some node)
    (cleared : ∀ level < index, linkAt store.heap level store.root = some null)
    (levels : index + remaining = SKIPLIST_LEVELS_NUM) :
    ∃ after, clearNext store.root remaining index store = .ok ((), after) ∧
      after.root = store.root ∧
      ∀ level < SKIPLIST_LEVELS_NUM, linkAt after.heap level store.root = some null := by
  induction remaining generalizing store index node with
  | zero =>
      obtain rfl : index = SKIPLIST_LEVELS_NUM := levels
      exact ⟨store, rfl, rfl, cleared⟩
  | succ remaining inductionHypothesis =>
      have inside : index < SKIPLIST_LEVELS_NUM := by omega
      obtain ⟨next, ran, relinked⟩ := setNext_ok live inside null
      have nextCleared : ∀ level < index + 1, linkAt next.heap level store.root = some null := by
        intro level inside
        rw [relinked.links]
        by_cases isIndex : level = index
        · rw [if_pos ⟨isIndex, rfl⟩]
        · rw [if_neg fun both => isIndex both.1]
          exact cleared level (by omega)
      obtain ⟨nextNode, nextLive, _⟩ := exists_link (nextCleared index (Nat.lt_succ_self index))
      rw [← relinked.root] at nextCleared nextLive
      obtain ⟨after, restRan, root, afterCleared⟩ :=
        inductionHypothesis nextLive nextCleared (by omega)
      rw [relinked.root] at restRan root afterCleared
      refine ⟨after, ?_, root, afterCleared⟩
      rw [clearNext, bind_ok ran, restRan]

/-- `init` makes an empty skip list. -/
theorem init_ok (outcomes : Outcomes) :
    ∃ fresh, init (blank outcomes) = .ok (1, fresh) ∧ Holds fresh [] := by
  obtain ⟨store, storeEq⟩ : ∃ store : SkiplistDram, store =
      { heap := Heap.empty.push SkNode.unwritten, root := 1, aux := outcomes } := ⟨_, rfl⟩
  have live : store.heap.get? store.root = some SkNode.unwritten := by
    rw [storeEq]
    rfl
  obtain ⟨fresh, cleared, root, links⟩ := clearNext_ok live
    (fun level inside => absurd inside (Nat.not_lt_zero level)) (Nat.zero_add SKIPLIST_LEVELS_NUM)
  rw [← root] at links
  have holds : Holds fresh [] := by
    constructor
    · exact fun index inside => linkedAfter_nil.mpr (links index inside)
    · exact fun tower member => by cases member
    · exact fun _ tower member => by cases member
    · exact fun tower member => by cases member
    · exact List.nodup_cons.mpr ⟨List.not_mem_nil, List.nodup_nil⟩
    · exact sorted_nil
  refine ⟨fresh, ?_, holds⟩
  have allocated : Prog.malloc SkNode.unwritten (blank outcomes) =
      .ok (1, { heap := Heap.empty.push SkNode.unwritten, root := null, aux := outcomes }) := rfl
  have rooted : Prog.setRoot 1
      { heap := Heap.empty.push SkNode.unwritten, root := null, aux := outcomes } =
      .ok ((), store) := by
    rw [storeEq]
    rfl
  have loop : clearNext 1 SKIPLIST_LEVELS_NUM 0 store = .ok ((), fresh) := by
    rw [storeEq] at cleared ⊢
    exact cleared
  rw [init, bind_ok allocated, bind_ok rooted, bind_ok loop, bind_ok holds.check_ok]
  rfl

/-! ### Reading -/

section Reading

variable {store : SkiplistDram} {towers : List Tower}

/-- `read` delivers the node of a stored key. -/
theorem read_slot (holds : Holds store towers) (key : Key) :
    (∃ tower ∈ towers, tower.entry.1 = key ∧ read key none store = .ok (some tower.label, store)) ∨
      ((∀ tower ∈ towers, tower.entry.1 ≠ key) ∧ read key none store = .ok (none, store)) := by
  obtain ⟨low, rest, path, rfl, below, found, finds, next, place⟩ := locate_ok holds key
  rcases place with ⟨tower, higher, rfl, rfl, above, stored⟩ | ⟨above, missing⟩
  · refine Or.inl ⟨tower, List.mem_append_right low List.mem_cons_self, rfl, ?_⟩
    rw [read, bind_ok holds.check_ok, bind_ok found, bind_ok next, labels, List.map_cons,
      List.headD_cons, bind_ok stored]
    rfl
  · refine Or.inr ⟨?_, ?_⟩
    · intro tower member
      rcases List.mem_append.mp member with inLow | inRest
      · exact (below tower inLow).ne
      · exact (above tower inRest).ne'
    · rw [read, bind_ok holds.check_ok, bind_ok found, bind_ok next, bind_ok missing]
      rfl

theorem read_ok (holds : Holds store towers) (key : Key) :
    backend.read key store = .ok ((entries towers).lookup key) := by
  rcases read_slot holds key with ⟨tower, member, rfl, ran⟩ | ⟨missing, ran⟩
  · obtain ⟨node, live, _, valueRead⟩ := exists_entry (holds.shown tower member)
    simp only [backend, ran, bind, Except.bind, stringAt, live, valueRead]
    rw [lookup_of_mem holds.sorted (List.mem_map_of_mem member)]
  · simp only [backend, ran, bind, Except.bind, stringAt]
    rw [lookup_eq_none_of_forall_ne]
    intro entry member
    obtain ⟨tower, isTower, rfl⟩ := List.mem_map.mp member
    exact missing tower isTower

/-- What the loop of `scan` still appends: `len` is only reached from below. -/
def scanned (len count : Int) (entries : List (Key × Value)) : List (Key × Value) :=
  if count < len then entries.take (len - count).toNat else entries

theorem scanned_nil (len count : Int) : scanned len count [] = [] := by
  rw [scanned, List.take_nil, ite_self]

theorem scanned_cons (len count : Int) (entry : Key × Value) (entries : List (Key × Value)) :
    scanned len count (entry :: entries) =
      if count + 1 = len then [entry] else entry :: scanned len (count + 1) entries := by
  simp only [scanned]
  by_cases last : count + 1 = len
  · have one : (len - count).toNat = 1 := by omega
    rw [if_pos last, if_pos (by omega), one]
    rfl
  · rw [if_neg last]
    by_cases more : count < len
    · have rest : (len - count).toNat = (len - (count + 1)).toNat + 1 := by omega
      rw [if_pos more, if_pos (by omega), rest, List.take_succ_cons]
    · rw [if_neg more, if_neg (by omega)]

/-- The loop of `scan` runs through the towers of the base level. -/
theorem scanFrom_ok {len count : Int} {first fuel : Nat} {rest : List Tower}
    (result : List (Key × Value))
    (linked : Linked (linkAt store.heap SKIPLIST_BASE_LEVEL) first (labels rest))
    (shown : ∀ tower ∈ rest, entryAt store.heap tower.label = some tower.entry)
    (bound : rest.length < fuel) :
    scanFrom len fuel first count result store =
      .ok (result ++ scanned len count (entries rest), store) := by
  induction rest generalizing first fuel count result with
  | nil =>
      obtain ⟨fuel, rfl⟩ := Nat.exists_eq_succ_of_ne_zero (Nat.ne_of_gt bound)
      have isNull : first = null := linked
      rw [scanFrom, if_pos isNull, entries, List.map_nil, scanned_nil, List.append_nil]
      rfl
  | cons tower rest inductionHypothesis =>
      obtain ⟨fuel, rfl⟩ := Nat.exists_eq_succ_of_ne_zero (Nat.ne_of_gt (Nat.zero_lt_of_lt bound))
      obtain ⟨rfl, notNull, following, followed, restLinked⟩ := linked
      obtain ⟨node, live, keyRead, valueRead⟩ := exists_entry (shown tower List.mem_cons_self)
      obtain ⟨same, sameLive, slot⟩ := exists_link followed
      obtain rfl : same = node := Option.some.inj (sameLive.symm.trans live)
      rw [scanFrom, if_neg notNull, bind_ok (Prog.load_ok live), bind_ok (Prog.lift_ok keyRead _),
        valueRead, entries, List.map_cons, scanned_cons]
      by_cases last : count + 1 = len
      · rw [if_pos last]
        simp only [if_pos last]
        rfl
      · simp only [if_neg last]
        rw [bind_ok (Prog.lift_ok (CArray.get_ok slot) _),
          inductionHypothesis _ restLinked
            (fun other member => shown other (List.mem_cons_of_mem _ member))
            (Nat.lt_of_succ_lt_succ bound), List.append_assoc]
        rfl

/-- `scan` delivers the entries from the key on, `len` of them when `len` is positive. -/
theorem scan_ok (holds : Holds store towers) (key : Key) (len : Int) :
    scan key len store = .ok (scanned len 0 (fromKey key (entries towers)), store) := by
  obtain ⟨low, rest, rfl, below, above⟩ := exists_cut key holds.sorted
  obtain ⟨path, found, finds⟩ := find_ok holds below above
  have linked := holds.linked SKIPLIST_BASE_LEVEL (by decide)
  rw [level_base fun tower member => (holds.tall tower member).1, labels_append] at linked
  obtain ⟨first, _, restLinked⟩ := linked.behind
  have isFirst := restLinked.eq_headD
  subst isFirst
  have bound : rest.length < store.heap.size + 1 := by
    have whole := holds.length_le
    rw [List.length_append] at whole
    omega
  rw [scan, bind_ok holds.check_ok, bind_ok found, bind_ok (nextOnPath_base holds finds),
    bind_ok (Prog.heapSize_ok store),
    scanFrom_ok [] restLinked (fun tower member => holds.shown tower (List.mem_append_right low member))
      bound, entries_append, fromKey_append_of_lt _ (forall_entries (· < key) below),
    fromKey_of_forall_ge (forall_entries (key ≤ ·) above)]
  rfl

end Reading

/-! ### Whole runs -/

/-- Stores show the entries of their towers. -/
theorem represents :
    Represents backend fun store entries => ∃ towers, Holds store towers ∧
      Skiplist.entries towers = entries where
  insert := by
    rintro store _ key value ⟨towers, holds, rfl⟩
    obtain ⟨after, towers', ran, afterHolds, entriesEq, _⟩ := insert_ok holds key value
    refine ⟨after, ?_, towers', afterHolds, entriesEq⟩
    simp only [backend, ran]
    rfl
  read := by
    rintro store _ key ⟨towers, holds, rfl⟩
    exact read_ok holds key

/-- For all outcomes of `rand()`, every sequence of inserts and reads on a fresh skip list runs to
its end, and each read returns the value of the most recent insert for its key; an insert never
changes what another key reads. -/
theorem skiplistDram_finite_map (outcomes : Outcomes) (calls : List Call) :
    ∃ fresh store, init (blank outcomes) = .ok (1, fresh) ∧
      backend.run calls fresh = .ok (answers calls, store) ∧ backend.MapAfter calls store := by
  obtain ⟨fresh, initialised, holds⟩ := init_ok outcomes
  obtain ⟨store, ran, shown⟩ := represents.run_ok calls [] ⟨[], holds, rfl⟩
  exact ⟨fresh, store, initialised, ran, represents.mapAfter shown⟩

/-- The operations that change the levels. -/
inductive Operation where
  | insert (key : Key) (value : Value)
  | removeFree (key : Key)

/-- Perform operations one after another. -/
def perform : List Operation → M Unit
  | [] => return ()
  | .insert key value :: rest => do
      let _ ← insert key value
      perform rest
  | .removeFree key :: rest => do
      removeFree key
      perform rest

/-- The entries that operations leave on top of `entries`. -/
def contentsAfter (operations : List Operation) (entries : List (Key × Value)) :
    List (Key × Value) :=
  operations.foldl
    (fun entries operation =>
      match operation with
      | .insert key value => upsert key value entries
      | .removeFree key => entries.filter fun entry => entry.1 ≠ key)
    entries

/-- The value of the last operation for a key, where that one is an insert. -/
def latest (key : Key) (operations : List Operation) : Option Value :=
  operations.foldl
    (fun value operation =>
      match operation with
      | .insert other new => if other = key then some new else value
      | .removeFree other => if other = key then none else value)
    none

theorem lookup_filter_ne (key other : Key) (entries : List (Key × Value)) :
    (entries.filter fun entry => entry.1 ≠ other).lookup key =
      if other = key then none else entries.lookup key := by
  induction entries with
  | nil => simp
  | cons entry rest inductionHypothesis =>
      by_cases removed : entry.1 = other
      · rw [List.filter_cons_of_neg (by simpa using removed), inductionHypothesis, lookup_cons]
        split
        · rfl
        · rename_i different
          rw [if_neg fun same => different (removed.symm.trans same.symm)]
      · rw [List.filter_cons_of_pos (by simpa using removed), lookup_cons, inductionHypothesis,
          lookup_cons]
        by_cases same : other = key
        · rw [if_pos same, if_pos same, if_neg fun found => removed (found.symm.trans same.symm)]
        · rw [if_neg same, if_neg same]

theorem lookup_contentsAfter (key : Key) (operations : List Operation) :
    (contentsAfter operations []).lookup key = latest key operations := by
  induction operations using List.reverseRecOn with
  | nil => rfl
  | append_singleton past operation inductionHypothesis =>
      cases operation with
      | insert other value =>
          simp only [contentsAfter, latest, List.foldl_append, List.foldl_cons, List.foldl_nil]
          rw [lookup_upsert, ← contentsAfter, inductionHypothesis, latest]
          simp only [eq_comm]
      | removeFree other =>
          simp only [contentsAfter, latest, List.foldl_append, List.foldl_cons, List.foldl_nil]
          rw [lookup_filter_ne, ← contentsAfter, inductionHypothesis, latest]

theorem perform_ok {store : SkiplistDram} {towers : List Tower} (operations : List Operation)
    (holds : Holds store towers) :
    ∃ after towers', perform operations store = .ok ((), after) ∧ Holds after towers' ∧
      entries towers' = contentsAfter operations (entries towers) ∧
      (Accounted store towers → Accounted after towers') := by
  induction operations generalizing store towers with
  | nil => exact ⟨store, towers, rfl, holds, rfl, id⟩
  | cons operation rest inductionHypothesis =>
      cases operation with
      | insert key value =>
          obtain ⟨next, nextTowers, ran, nextHolds, nextEntries, _, accounts⟩ :=
            insert_ok holds key value
          obtain ⟨after, towers', restRan, afterHolds, afterEntries, restAccounts⟩ :=
            inductionHypothesis nextHolds
          rw [nextEntries] at afterEntries
          exact ⟨after, towers', by rw [perform, bind_ok ran, restRan], afterHolds, afterEntries,
            fun accounted => restAccounts (accounts accounted)⟩
      | removeFree key =>
          obtain ⟨next, ran, nextHolds, _, _, accounts⟩ := removeFree_ok holds key
          obtain ⟨after, towers', restRan, afterHolds, afterEntries, restAccounts⟩ :=
            inductionHypothesis nextHolds
          have kept : entries (towers.filter fun tower => tower.entry.1 ≠ key) =
              (entries towers).filter fun entry => entry.1 ≠ key := by
            rw [entries, entries, List.filter_map]
            rfl
          rw [kept] at afterEntries
          exact ⟨after, towers', by rw [perform, bind_ok ran, restRan], afterHolds, afterEntries,
            fun accounted => restAccounts (accounts accounted)⟩

/-- For all outcomes of `rand()`, in every state reached by inserts and removals each level is linked
from the head to a null pointer through strictly ascending keys, is a sublist of the level below it,
and its nodes have their pointers written exactly below their heights.  No operation faults in such
a state, that is none reads a pointer that was never written. -/
theorem skiplistDram_levels (outcomes : Outcomes) (operations : List Operation) :
    ∃ fresh store towers, init (blank outcomes) = .ok (1, fresh) ∧
      perform operations fresh = .ok ((), store) ∧
      (∀ index < SKIPLIST_LEVELS_NUM,
        LinkedAfter (linkAt store.heap index) store.root (labels (level index towers)) ∧
        (level index towers).Pairwise fun low high => low.entry.1 < high.entry.1) ∧
      (∀ index, (level (index + 1) towers).Sublist (level index towers)) ∧
      (∀ tower ∈ towers, entryAt store.heap tower.label = some tower.entry ∧
        0 < tower.height ∧ tower.height ≤ SKIPLIST_LEVELS_NUM ∧
        ∀ index, (linkAt store.heap index tower.label).isSome ↔ index < tower.height) ∧
      (∀ key, ∃ path, find key store = .ok (path, store)) ∧
      (∀ key len, ∃ result, scan key len store = .ok (result, store)) ∧
      (∀ key value, ∃ next, insert key value store = .ok (1, next)) ∧
      ∀ key, ∃ next, removeFree key store = .ok ((), next) := by
  obtain ⟨fresh, initialised, freshHolds⟩ := init_ok outcomes
  obtain ⟨store, towers, ran, holds, _⟩ := perform_ok operations freshHolds
  have sorted : (towers.map Tower.entry).Pairwise fun low high => low.1 < high.1 := holds.sorted
  have ascending : towers.Pairwise fun low high => low.entry.1 < high.entry.1 := by
    rwa [List.pairwise_map] at sorted
  refine ⟨fresh, store, towers, initialised, ran, ?_, ?_, ?_, ?_, ?_, ?_, ?_⟩
  · exact fun index inside =>
      ⟨holds.linked index inside, ascending.sublist (level_sublist index towers)⟩
  · exact fun index => level_sublist_of_le (Nat.le_succ index) towers
  · exact fun tower member => ⟨holds.shown tower member, (holds.tall tower member).1,
      (holds.tall tower member).2, holds.written trivial tower member⟩
  · intro key
    obtain ⟨_, _, path, _, _, found, _⟩ := locate_ok holds key
    exact ⟨path, found⟩
  · exact fun key len => ⟨_, scan_ok holds key len⟩
  · intro key value
    obtain ⟨next, _, inserted, _⟩ := insert_ok holds key value
    exact ⟨next, inserted⟩
  · intro key
    obtain ⟨next, removed, _⟩ := removeFree_ok holds key
    exact ⟨next, removed⟩

/-- For all outcomes of `rand()`, after any inserts and removals `scan` delivers the stored entries with
keys from `key` on in ascending order, `len` of them or as many as there are.  The stored entries have
the values of the last operations for their keys. -/
theorem skiplistDram_scan (outcomes : Outcomes) (operations : List Operation) (key : Key) (len : Int)
    (positive : 1 ≤ len) :
    ∃ fresh store stored result, init (blank outcomes) = .ok (1, fresh) ∧
      perform operations fresh = .ok ((), store) ∧ stored = contentsAfter operations [] ∧
      Sorted stored ∧
      (∀ other, stored.lookup other = latest other operations) ∧
      scan key len store = .ok (result, store) ∧
      result = (stored.filter fun entry => key ≤ entry.1).take len.toNat ∧ Sorted result ∧
      result.length = min len.toNat (stored.filter fun entry => key ≤ entry.1).length := by
  obtain ⟨fresh, initialised, freshHolds⟩ := init_ok outcomes
  obtain ⟨store, towers, ran, holds, entriesEq, _⟩ := perform_ok operations freshHolds
  have delivered := scan_ok holds key len
  have unread : (len - 0).toNat = len.toNat := by rw [Int.sub_zero]
  rw [scanned, if_pos (by omega), unread, fromKey_eq_filter holds.sorted] at delivered
  refine ⟨fresh, store, entries towers, _, initialised, ran, entriesEq, holds.sorted, ?_, delivered, rfl,
    ?_, List.length_take⟩
  · intro other
    rw [entriesEq]
    exact lookup_contentsAfter other operations
  · exact holds.sorted.sublist ((List.take_sublist _ _).trans List.filter_sublist)

/-- Two entries from key 4 on, after four inserts and a removal. -/
theorem skiplistDram_scan_from_four :
    ∃ old new : Value, old ≠ new ∧ (1 : Int) ≤ 2 ∧ ∃ fresh store,
      init (blank (Stream'.const 1)) = .ok (1, fresh) ∧
      perform [.insert 9 old, .insert 5 old, .insert 3 new, .insert 9 new, .removeFree 3] fresh =
        .ok ((), store) ∧ scan 4 2 store = .ok ([(5, old), (9, new)], store) := by
  refine ⟨⟨[97], by decide, by decide⟩, ⟨[98], by decide, by decide⟩, by decide, by decide, ?_⟩
  obtain ⟨fresh, store, _, result, initialised, ran, storedEq, _, _, delivered, resultEq, _⟩ :=
    skiplistDram_scan (Stream'.const 1) [.insert 9 ⟨[97], by decide, by decide⟩,
      .insert 5 ⟨[97], by decide, by decide⟩, .insert 3 ⟨[98], by decide, by decide⟩,
      .insert 9 ⟨[98], by decide, by decide⟩, .removeFree 3] 4 2 (by decide)
  rw [resultEq, storedEq] at delivered
  exact ⟨fresh, store, initialised, ran, delivered⟩

end StoredsBench.SkiplistDram
