/-
Module: StoredsBench.ScanAgreement
Layer: Correctness
Purpose: What the backends with a `scan` deliver when the keys from 0 up to some number are stored.  The
  B+-tree and the skip list stop behind the last key; the array counts slots from where it starts, so it
  goes on behind the last key.
Trusted boundary: none
Main exports: Dense, Loaded, scans_agree_iff
-/
import StoredsBench.BPlusTree.Correctness
import StoredsBench.Skiplist.Correctness
import StoredsBench.Array.Correctness
import Mathlib.Data.List.Sort

namespace StoredsBench

open Lib Lib.SortedAssoc

/-! ### Densely loaded maps -/

/-- The pairs are for the keys below `n`, and for all of them. -/
def Dense (n : Nat) (pairs : List (Key × Value)) : Prop :=
  ∀ key : Key, (∃ value, (key, value) ∈ pairs) ↔ key.toNat < n

section Dense

variable {n : Nat} {pairs : List (Key × Value)}

theorem exists_mem_iff_lookup {key : Key} {entries : List (Key × Value)} :
    (∃ value, (key, value) ∈ entries) ↔ entries.lookup key ≠ none := by
  constructor
  · rintro ⟨value, member⟩ missing
    exact absurd rfl (bne_iff_ne.mp (List.lookup_eq_none_iff.mp missing (key, value) member))
  · intro stored
    obtain ⟨value, found⟩ := Option.ne_none_iff_exists'.mp stored
    exact ⟨value, mem_of_lookup_eq_some found⟩

theorem exists_mem_upsert {key other : Key} {value : Value} {entries : List (Key × Value)} :
    (∃ found, (key, found) ∈ upsert other value entries) ↔
      key = other ∨ ∃ found, (key, found) ∈ entries := by
  rw [exists_mem_iff_lookup, lookup_upsert, exists_mem_iff_lookup]
  by_cases same : key = other
  · rw [if_pos same]
    exact ⟨fun _ => Or.inl same, fun _ => Option.some_ne_none value⟩
  · rw [if_neg same, or_iff_right same]

/-- The stored keys are the inserted ones. -/
theorem exists_mem_upsertAll {key : Key} (pairs entries : List (Key × Value)) :
    (∃ value, (key, value) ∈ upsertAll pairs entries) ↔
      (∃ value, (key, value) ∈ pairs) ∨ ∃ value, (key, value) ∈ entries := by
  induction pairs generalizing entries with
  | nil => simp [upsertAll]
  | cons pair pairs inductionHypothesis =>
      have step : upsertAll (pair :: pairs) entries = upsertAll pairs (upsert pair.1 pair.2 entries) := rfl
      have first : (∃ value, (key, value) ∈ pair :: pairs) ↔
          key = pair.1 ∨ ∃ value, (key, value) ∈ pairs := by
        simp [Prod.ext_iff, exists_or]
      rw [step, inductionHypothesis, exists_mem_upsert, first, or_left_comm, or_assoc]

theorem toNat_ofNat_of_lt (fits : n ≤ ARRAY_SIZE) {index : Nat} (below : index < n) :
    (UInt64.ofNat index).toNat = index := by
  have small : ARRAY_SIZE < 2 ^ 64 := by decide
  rw [UInt64.toNat_ofNat']
  apply Nat.mod_eq_of_lt
  omega

/-- The entries of a dense map lie at the indices that are their keys. -/
theorem keys_dense (fits : n ≤ ARRAY_SIZE) (dense : Dense n pairs) :
    (upsertAll pairs []).map Prod.fst = (List.range n).map UInt64.ofNat := by
  have sorted : ((upsertAll pairs []).map Prod.fst).Pairwise (· < ·) :=
    List.pairwise_map.mpr (sorted_upsertAll pairs)
  have ascending : ((List.range n).map UInt64.ofNat).Pairwise (· < ·) := by
    rw [List.pairwise_map]
    apply List.pairwise_lt_range.imp_of_mem
    intro low high lowMember highMember less
    rw [UInt64.lt_iff_toNat_lt, toNat_ofNat_of_lt fits (List.mem_range.mp lowMember),
      toNat_ofNat_of_lt fits (List.mem_range.mp highMember)]
    exact less
  apply sorted.eq_of_mem_iff ascending
  intro key
  have stored : key ∈ (upsertAll pairs []).map Prod.fst ↔ key.toNat < n := by
    rw [← dense key, List.mem_map]
    have inserted : (∃ value, (key, value) ∈ upsertAll pairs []) ↔ (∃ value, (key, value) ∈ pairs) ∨ _ :=
      exists_mem_upsertAll pairs []
    simp only [List.not_mem_nil, exists_false, or_false] at inserted
    rw [← inserted]
    constructor
    · rintro ⟨⟨_, value⟩, member, rfl⟩
      exact ⟨value, member⟩
    · rintro ⟨value, member⟩
      exact ⟨(key, value), member, rfl⟩
  rw [stored, List.mem_map]
  constructor
  · intro below
    exact ⟨key.toNat, List.mem_range.mpr below, UInt64.ofNat_toNat⟩
  · rintro ⟨index, member, rfl⟩
    rw [toNat_ofNat_of_lt fits (List.mem_range.mp member)]
    exact List.mem_range.mp member

theorem length_dense (fits : n ≤ ARRAY_SIZE) (dense : Dense n pairs) :
    (upsertAll pairs []).length = n := by
  have lengths := congrArg List.length (keys_dense fits dense)
  rwa [List.length_map, List.length_map, List.length_range] at lengths

theorem key_at (fits : n ≤ ARRAY_SIZE) (dense : Dense n pairs) {index : Nat} {entry : Key × Value}
    (found : (upsertAll pairs [])[index]? = some entry) : index < n ∧ entry.1.toNat = index := by
  have inside := (List.getElem?_eq_some_iff.mp found).1
  rw [length_dense fits dense] at inside
  have keyed : ((upsertAll pairs []).map Prod.fst)[index]? = some entry.1 := by
    rw [List.getElem?_map, found]
    rfl
  rw [keys_dense fits dense, List.getElem?_map, List.getElem?_range inside] at keyed
  have key := Option.some.inj keyed
  rw [← key, toNat_ofNat_of_lt fits inside]
  exact ⟨inside, rfl⟩

/-- The entries from a key on. -/
theorem filter_dense (fits : n ≤ ARRAY_SIZE) (dense : Dense n pairs) (start : Key) :
    ((upsertAll pairs []).filter fun entry => start ≤ entry.1) = (upsertAll pairs []).drop start.toNat := by
  have low : ((upsertAll pairs []).take start.toNat).filter (fun entry => decide (start ≤ entry.1)) = [] := by
    apply List.filter_eq_nil_iff.mpr
    intro entry member
    obtain ⟨index, found⟩ := List.mem_iff_getElem?.mp member
    rw [List.getElem?_take] at found
    split at found
    · next below =>
        have keyed := (key_at fits dense found).2
        rw [decide_eq_true_iff, UInt64.le_iff_toNat_le]
        omega
    · cases found
  have high : ((upsertAll pairs []).drop start.toNat).filter (fun entry => decide (start ≤ entry.1)) =
      (upsertAll pairs []).drop start.toNat := by
    apply List.filter_eq_self.mpr
    intro entry member
    obtain ⟨index, found⟩ := List.mem_iff_getElem?.mp member
    rw [List.getElem?_drop] at found
    have keyed := (key_at fits dense found).2
    rw [decide_eq_true_iff, UInt64.le_iff_toNat_le]
    omega
  have parts := List.filter_append (p := fun entry : Key × Value => decide (start ≤ entry.1))
    ((upsertAll pairs []).take start.toNat) ((upsertAll pairs []).drop start.toNat)
  rwa [List.take_append_drop, low, high, List.nil_append] at parts

end Dense

/-! ### The array -/

namespace ArrayDram

/-- The first slots hold the values of the entries. -/
def HoldsEntries (state : ArrayDram) (entries : List (Key × Value)) : Prop :=
  ∀ (index : Nat) (entry : Key × Value), entries[index]? = some entry →
    ∃ slot, state.array[index]? = some slot ∧ slot.string? = some entry.2

theorem insertAll_shows {state : ArrayDram} {past : List Call} (pairs : List (Key × Value))
    (shown : Shows state past) :
    ∃ after, backend.insertAll pairs state = .ok after ∧
      Shows after (past ++ pairs.map fun pair => .insert pair.1 pair.2) := by
  induction pairs generalizing state past with
  | nil => exact ⟨state, rfl, by simpa using shown⟩
  | cons pair pairs inductionHypothesis =>
      obtain ⟨next, ran, nextShown⟩ := insert_shows pair.1 pair.2 shown
      obtain ⟨after, restRan, afterShown⟩ := inductionHypothesis nextShown
      refine ⟨after, ?_, by simpa using afterShown⟩
      rw [Backend.insertAll, List.foldlM_cons, ran]
      exact restRan

/-- A densely loaded array. -/
theorem insertAll_dense {n : Nat} {pairs : List (Key × Value)} (fits : n ≤ ARRAY_SIZE)
    (dense : Dense n pairs) :
    ∃ state, backend.insertAll pairs init = .ok state ∧ HoldsEntries state (upsertAll pairs []) := by
  obtain ⟨state, ran, shown⟩ := insertAll_shows pairs init_shows
  rw [List.nil_append] at shown
  refine ⟨state, ran, ?_⟩
  intro index entry found
  obtain ⟨below, keyed⟩ := key_at fits dense found
  have offsetEq : ∀ key : Key, key.toNat < n → offset key = key.toNat := fun key inside =>
    Nat.mod_eq_of_lt (inside.trans_le fits)
  have last := lookup_of_mem (sorted_upsertAll pairs) (List.mem_of_getElem? found)
  rw [lookup_upsertAll] at last
  have slotLast : lastInsertInSlot entry.1 (pairs.map fun pair => .insert pair.1 pair.2) =
      some entry.2 := by
    rw [← last]
    apply lastInsertInSlot_eq_lastInsert
    intro other value member same
    obtain ⟨pair, pairMember, pairEq⟩ := List.mem_map.mp member
    cases pairEq
    have otherBelow := (dense pair.1).mp ⟨pair.2, pairMember⟩
    rw [offsetEq _ otherBelow, offsetEq _ (keyed ▸ below)] at same
    exact UInt64.toNat_inj.mp same
  obtain ⟨slot, stored, string⟩ := shown.slots entry.1 entry.2 slotLast
  rw [offsetEq _ (keyed ▸ below), keyed] at stored
  exact ⟨slot, stored, string⟩

/-- The pairs `scan` makes: it numbers the slots itself. -/
def numbered (entry : Key × Value) : Nat × Value := (entry.1.toNat, entry.2)

theorem scanFrom_ok {state : ArrayDram} {entries : List (Key × Value)}
    (holds : HoldsEntries state entries)
    (keyed : ∀ (index : Nat) (entry : Key × Value), entries[index]? = some entry →
      entry.1.toNat = index) {remaining index : Nat}
    (within : index + remaining ≤ entries.length) :
    state.scanFrom remaining index = .ok (((entries.drop index).take remaining).map numbered) := by
  induction remaining generalizing index with
  | zero => rfl
  | succ remaining inductionHypothesis =>
      have inside : index < entries.length := by omega
      have found := List.getElem?_eq_getElem inside
      obtain ⟨slot, stored, string⟩ := holds index _ found
      have slotEq : state.slotAt index = .ok slot := by
        rw [slotAt, stored]
      have stringEq : stringOf slot = .ok entries[index].2 := by
        rw [stringOf, string]
      have rest := inductionHypothesis (show index + 1 + remaining ≤ entries.length by omega)
      rw [scanFrom, except_bind_ok slotEq, except_bind_ok stringEq, except_bind_ok rest,
        List.drop_eq_getElem_cons inside, List.take_succ_cons, List.map_cons, numbered,
        keyed index _ found]
      rfl

/-- Every round makes a pair. -/
theorem length_scanFrom {state : ArrayDram} {remaining index : Nat} {result : List (Nat × Value)}
    (ran : state.scanFrom remaining index = .ok result) : result.length = remaining := by
  induction remaining generalizing index result with
  | zero =>
      cases ran
      rfl
  | succ remaining inductionHypothesis =>
      obtain ⟨slot, _, ran⟩ := except_bind_inv ran
      obtain ⟨value, _, ran⟩ := except_bind_inv ran
      obtain ⟨rest, restRan, ran⟩ := except_bind_inv ran
      cases ran
      rw [List.length_cons, inductionHypothesis restRan]

end ArrayDram

/-! ### Agreement -/

/-- The three backends after the same inserts. -/
structure Loaded (outcomes : Skiplist.Outcomes) (pairs : List (Key × Value)) (tree : BPlusTreeDram)
    (list : SkiplistDram) (array : ArrayDram) : Prop where
  tree : BPlusTreeDram.backend.insertAll pairs BPlusTreeDram.init = .ok tree
  list : ∃ fresh, SkiplistDram.init (SkiplistDram.blank outcomes) = .ok (1, fresh) ∧
    SkiplistDram.backend.insertAll pairs fresh = .ok list
  array : ArrayDram.backend.insertAll pairs ArrayDram.init = .ok array

/-- The pairs from `start` upward, at most `len` of them. -/
def pairsFrom (pairs : List (Key × Value)) (start : Key) (len : Int) : List (Key × Value) :=
  ((upsertAll pairs []).drop start.toNat).take len.toNat

section Scans

variable {n : Nat} {pairs : List (Key × Value)} {start : Key} {len : Int}

theorem keys_pairsFrom (fits : n ≤ ARRAY_SIZE) (dense : Dense n pairs) (start : Key) (len : Int) :
    (pairsFrom pairs start len).map Prod.fst =
      (List.range' start.toNat (min len.toNat (n - start.toNat))).map UInt64.ofNat := by
  rw [pairsFrom, List.map_take, List.map_drop, keys_dense fits dense, ← List.map_drop, ← List.map_take]
  congr 1
  apply List.ext_getElem
  · simp
  · intro index inTake inRange
    simp

theorem length_pairsFrom (fits : n ≤ ARRAY_SIZE) (dense : Dense n pairs) (start : Key) (len : Int) :
    (pairsFrom pairs start len).length = min len.toNat (n - start.toNat) := by
  rw [pairsFrom, List.length_take, List.length_drop, length_dense fits dense]

/-- Both walks stop at the end of the stored entries. -/
theorem tree_scan (fits : n ≤ ARRAY_SIZE) (dense : Dense n pairs) (inside : start.toNat < n)
    (asked : 1 ≤ len) :
    ∃ tree, BPlusTreeDram.backend.insertAll pairs BPlusTreeDram.init = .ok tree ∧
      BPlusTreeDram.scan start len tree = .ok (pairsFrom pairs start len, tree) := by
  cases pairs with
  | nil =>
      obtain ⟨value, member⟩ := (dense start).mpr inside
      cases member
  | cons first rest =>
      obtain ⟨tree, ran, depth, shape, stores, contentsEq⟩ := BPlusTreeDram.insertAll_stores first rest
      have scanned := BPlusTreeDram.scan_ok stores start asked
      rw [contentsEq, fromKey_eq_filter (sorted_upsertAll _), filter_dense fits dense] at scanned
      exact ⟨tree, ran, scanned⟩

theorem list_scan (outcomes : Skiplist.Outcomes) (fits : n ≤ ARRAY_SIZE) (dense : Dense n pairs)
    (start : Key) (asked : 1 ≤ len) :
    ∃ fresh list, SkiplistDram.init (SkiplistDram.blank outcomes) = .ok (1, fresh) ∧
      SkiplistDram.backend.insertAll pairs fresh = .ok list ∧
      SkiplistDram.scan start len list = .ok (pairsFrom pairs start len, list) := by
  obtain ⟨fresh, initialised, holds⟩ := SkiplistDram.init_ok outcomes
  obtain ⟨list, ran, towers, listHolds, entriesEq⟩ :=
    SkiplistDram.represents.insertAll_ok pairs ⟨[], holds, rfl⟩
  have entriesEq : Skiplist.entries towers = upsertAll pairs [] := entriesEq
  have scanned := SkiplistDram.scan_ok listHolds start len
  have unread : (len - 0).toNat = len.toNat := by rw [Int.sub_zero]
  rw [SkiplistDram.scanned, if_pos (by omega), unread, entriesEq,
    fromKey_eq_filter (sorted_upsertAll pairs), filter_dense fits dense] at scanned
  exact ⟨fresh, list, initialised, ran, scanned⟩

theorem array_scan_iff {array : ArrayDram} (fits : n ≤ ARRAY_SIZE) (dense : Dense n pairs)
    (inside : start.toNat < n) (holds : array.HoldsEntries (upsertAll pairs [])) :
    array.scan start len = .ok ((pairsFrom pairs start len).map ArrayDram.numbered) ↔
      min len.toNat ARRAY_SIZE ≤ n - start.toNat := by
  have offsetEq : ArrayDram.offset start = start.toNat := Nat.mod_eq_of_lt (inside.trans_le fits)
  have total := length_dense fits dense
  rw [ArrayDram.scan, offsetEq]
  constructor
  · intro scanned
    have rounds := ArrayDram.length_scanFrom scanned
    rw [List.length_map, length_pairsFrom fits dense] at rounds
    rw [← rounds]
    exact min_le_right _ _
  · intro within
    have keyed : ∀ (index : Nat) (entry : Key × Value), (upsertAll pairs [])[index]? = some entry →
        entry.1.toNat = index := fun index entry found => (key_at fits dense found).2
    have scanned := ArrayDram.scanFrom_ok holds keyed
      (show start.toNat + min len.toNat ARRAY_SIZE ≤ (upsertAll pairs []).length by omega)
    have rest : ((upsertAll pairs []).drop start.toNat).length = n - start.toNat := by
      rw [List.length_drop, total]
    have same : ((upsertAll pairs []).drop start.toNat).take (min len.toNat ARRAY_SIZE) =
        pairsFrom pairs start len := by
      rw [pairsFrom, List.take_eq_take_iff, rest]
      omega
    rw [scanned, same]

/-- On a store with exactly the keys below `n` the B+-tree and the skip list deliver the pairs from `start`
upward, `len` of them or as many as there are, without leaving their nodes.  The array delivers the same
if and only if there are as many pairs as its loop makes rounds. -/
theorem scans_agree_iff (outcomes : Skiplist.Outcomes) (fits : n ≤ ARRAY_SIZE) (dense : Dense n pairs)
    (inside : start.toNat < n) (asked : 1 ≤ len) :
    ∃ tree list array result, Loaded outcomes pairs tree list array ∧
      result = pairsFrom pairs start len ∧
      result.map Prod.fst =
        (List.range' start.toNat (min len.toNat (n - start.toNat))).map UInt64.ofNat ∧
      (∀ entry ∈ result, lastInsert entry.1 (pairs.map fun pair => .insert pair.1 pair.2) = some entry.2) ∧
      BPlusTreeDram.scan start len tree = .ok (result, tree) ∧
      SkiplistDram.scan start len list = .ok (result, list) ∧
      (ArrayDram.scan start len array = .ok (result.map ArrayDram.numbered) ↔
        min len.toNat ARRAY_SIZE ≤ n - start.toNat) := by
  obtain ⟨tree, treeRan, treeScan⟩ := tree_scan fits dense inside asked
  obtain ⟨fresh, list, initialised, listRan, listScan⟩ := list_scan outcomes fits dense start asked
  obtain ⟨array, arrayRan, holds⟩ := ArrayDram.insertAll_dense fits dense
  refine ⟨tree, list, array, _, ⟨treeRan, ⟨fresh, initialised, listRan⟩, arrayRan⟩, rfl,
    keys_pairsFrom fits dense start len, ?_, treeScan, listScan, array_scan_iff fits dense inside holds⟩
  intro entry member
  have stored := (List.take_sublist _ _).mem member
  rw [← lookup_upsertAll]
  exact lookup_of_mem (sorted_upsertAll pairs) ((List.drop_sublist _ _).mem stored)

theorem dense_two (value : Value) : Dense 2 [(1, value), (0, value), (1, value)] := by
  intro key
  constructor
  · rintro ⟨found, member⟩
    simp only [List.mem_cons, Prod.mk.injEq, List.not_mem_nil, or_false] at member
    rcases member with ⟨rfl, _⟩ | ⟨rfl, _⟩ | ⟨rfl, _⟩
    · exact Nat.one_lt_two
    · exact Nat.two_pos
    · exact Nat.one_lt_two
  · intro below
    have cases : key = 0 ∨ key = 1 := by
      rcases Nat.le_one_iff_eq_zero_or_eq_one.mp (Nat.le_of_lt_succ below) with zero | one
      · exact Or.inl (UInt64.toNat_inj.mp zero)
      · exact Or.inr (UInt64.toNat_inj.mp one)
    rcases cases with rfl | rfl
    · exact ⟨value, by simp⟩
    · exact ⟨value, by simp⟩

theorem scans_agree_two : ∃ value tree list array,
    Loaded (Stream'.const 0) [(1, value), (0, value), (1, value)] tree list array ∧
      BPlusTreeDram.scan 0 2 tree = .ok ([(0, value), (1, value)], tree) ∧
      SkiplistDram.scan 0 2 list = .ok ([(0, value), (1, value)], list) ∧
      ArrayDram.scan 0 2 array = .ok [(0, value), (1, value)] := by
  obtain ⟨tree, list, array, result, loaded, rfl, _, _, treeScan, listScan, arrayScan⟩ :=
    scans_agree_iff (Stream'.const 0) (by decide) (dense_two ⟨[97], by decide, by decide⟩)
      (show (0 : Key).toNat < 2 by decide) (show (1 : Int) ≤ 2 by decide)
  exact ⟨_, tree, list, array, loaded, treeScan, listScan, arrayScan.mpr (by decide)⟩

/-- A scan that asks for one pair more than there are. -/
theorem array_scan_behind : ∃ value tree list array,
    Loaded (Stream'.const 0) [(1, value), (0, value), (1, value)] tree list array ∧
      BPlusTreeDram.scan 1 2 tree = .ok ([(1, value)], tree) ∧
      SkiplistDram.scan 1 2 list = .ok ([(1, value)], list) ∧
      ArrayDram.scan 1 2 array ≠ .ok [(1, value)] := by
  have fits : 2 ≤ ARRAY_SIZE := by decide
  have dense := dense_two ⟨[97], by decide, by decide⟩
  have inside : (1 : Key).toNat < 2 := by decide
  have asked : (1 : Int) ≤ 2 := by decide
  obtain ⟨tree, treeRan, treeScan⟩ := tree_scan fits dense inside asked
  obtain ⟨fresh, list, initialised, listRan, listScan⟩ :=
    list_scan (Stream'.const 0) fits dense 1 asked
  obtain ⟨array, arrayRan, _⟩ := ArrayDram.insertAll_dense fits dense
  refine ⟨_, tree, list, array, ⟨treeRan, ⟨fresh, initialised, listRan⟩, arrayRan⟩, treeScan, listScan, ?_⟩
  intro scanned
  exact absurd (ArrayDram.length_scanFrom scanned) (by decide)

end Scans

end StoredsBench
