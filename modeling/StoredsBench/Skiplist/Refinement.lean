/-
Module: StoredsBench.Skiplist.Refinement
Layer: Refinement
Purpose: The nodes on the heap show a list of towers: every level is linked through the towers that
  reach it, and no slot above a tower was ever written.  `find` on such a store stops, on every
  level, at the last tower below the key.
Trusted boundary: none
Main exports: Tower, linkAt, entryAt, Levels, Holds, find_ok, nextOnPath_ok
-/
import StoredsBench.Skiplist.Dram
import StoredsBench.Lib.LinkedList
import Mathlib.Data.List.Nodup

namespace StoredsBench.Skiplist

open Lib Lib.SortedAssoc

/-! ### Towers -/

/-- A node with its address, its entry and the number of levels it was linked into. -/
structure Tower where
  label : Nat
  entry : Key × Value
  height : Nat

/-- The towers that reach a level. -/
def level (index : Nat) (towers : List Tower) : List Tower :=
  towers.filter fun tower => index < tower.height

def labels (towers : List Tower) : List Nat := towers.map Tower.label

def entries (towers : List Tower) : List (Key × Value) := towers.map Tower.entry

/-- Where each key is. -/
def places (towers : List Tower) : List (Nat × Key) :=
  towers.map fun tower => (tower.label, tower.entry.1)

section Towers

variable {index : Nat} {towers : List Tower}

theorem level_append (low rest : List Tower) :
    level index (low ++ rest) = level index low ++ level index rest := List.filter_append ..

theorem labels_append (low rest : List Tower) :
    labels (low ++ rest) = labels low ++ labels rest := List.map_append

theorem entries_append (low rest : List Tower) :
    entries (low ++ rest) = entries low ++ entries rest := List.map_append

theorem places_append (low rest : List Tower) :
    places (low ++ rest) = places low ++ places rest := List.map_append

theorem level_sublist (index : Nat) (towers : List Tower) : (level index towers).Sublist towers :=
  List.filter_sublist

theorem mem_of_mem_level {tower : Tower} (member : tower ∈ level index towers) : tower ∈ towers :=
  (level_sublist index towers).subset member

/-- Higher levels are sublists of lower ones. -/
theorem level_sublist_of_le {lower higher : Nat} (order : lower ≤ higher) (towers : List Tower) :
    (level higher towers).Sublist (level lower towers) := by
  apply List.monotone_filter_right
  intro tower reaches
  simp only [decide_eq_true_eq] at reaches ⊢
  omega

theorem labels_level_sublist (index : Nat) (towers : List Tower) :
    (labels (level index towers)).Sublist (labels towers) :=
  (level_sublist index towers).map Tower.label

/-- The base level has all towers. -/
theorem level_base (tall : ∀ tower ∈ towers, 0 < tower.height) :
    level SKIPLIST_BASE_LEVEL towers = towers :=
  List.filter_eq_self.mpr fun tower member => decide_eq_true (tall tower member)

end Towers

/-! ### What the heap shows -/

/-- The pointer at a level of a node, where it was written. -/
def linkAt (heap : Heap SkNode) (index address : Nat) : Option Nat :=
  (heap.get? address).bind fun node => node.next.at? index

def SkNode.view (node : SkNode) : Option (Key × Value) :=
  node.entry.key.bind fun key => node.entry.value.string?.map fun value => (key, value)

def entryAt (heap : Heap SkNode) (address : Nat) : Option (Key × Value) :=
  (heap.get? address).bind SkNode.view

section Access

variable {store : SkiplistDram} {address : Nat} {entry : Key × Value} {index : Nat}

theorem exists_link {next : Nat} (found : linkAt store.heap index address = some next) :
    ∃ node, store.heap.get? address = some node ∧ node.next.at? index = some next :=
  Option.bind_eq_some_iff.mp found

theorem ne_null_of_link {next : Nat} (found : linkAt store.heap index address = some next) :
    address ≠ null := by
  obtain ⟨node, live, _⟩ := exists_link found
  exact Heap.ne_null_of_get? live

theorem exists_entry (found : entryAt store.heap address = some entry) :
    ∃ node, store.heap.get? address = some node ∧ node.key = .ok entry.1 ∧
      node.entry.value.string? = some entry.2 := by
  obtain ⟨node, live, viewed⟩ := Option.bind_eq_some_iff.mp found
  obtain ⟨key, keyWritten, rest⟩ := Option.bind_eq_some_iff.mp viewed
  obtain ⟨value, valueRead, rfl⟩ := Option.map_eq_some_iff.mp rest
  refine ⟨node, live, ?_, valueRead⟩
  rw [SkNode.key, keyWritten]

theorem ne_null_of_entry (found : entryAt store.heap address = some entry) : address ≠ null := by
  obtain ⟨node, live, _⟩ := exists_entry found
  exact Heap.ne_null_of_get? live

end Access

/-! ### Whole stores -/

/-- The store holds the towers: every level is linked through those that reach it, and they show their
entries.  Where the allocator leaves objects unwritten, their slots are written `exact`ly below their
heights. -/
structure Levels (exact : Prop) (store : SkiplistDram) (towers : List Tower) : Prop where
  linked : ∀ index < SKIPLIST_LEVELS_NUM,
    LinkedAfter (linkAt store.heap index) store.root (labels (level index towers))
  shown : ∀ tower ∈ towers, entryAt store.heap tower.label = some tower.entry
  written : exact → ∀ tower ∈ towers, ∀ index,
    (linkAt store.heap index tower.label).isSome ↔ index < tower.height
  tall : ∀ tower ∈ towers, 0 < tower.height ∧ tower.height ≤ SKIPLIST_LEVELS_NUM
  distinct : (store.root :: labels towers).Nodup
  sorted : Sorted (entries towers)

/-- The store holds the towers, and their slots are written exactly below their heights. -/
abbrev Holds (store : SkiplistDram) (towers : List Tower) : Prop := Levels True store towers

namespace Levels

variable {exact : Prop} {store : SkiplistDram} {towers : List Tower}

theorem root_ne_null (holds : Levels exact store towers) : store.root ≠ null := by
  obtain ⟨first, found, _⟩ := holds.linked SKIPLIST_BASE_LEVEL (by decide)
  exact ne_null_of_link found

theorem check_ok (holds : Levels exact store towers) : SkiplistDram.check store = .ok ((), store) := by
  rw [SkiplistDram.check, bind_ok (Prog.getRoot_ok store), if_neg holds.root_ne_null]
  rfl

/-- There are no more towers than nodes were allocated. -/
theorem length_le (holds : Levels exact store towers) : towers.length ≤ store.heap.size := by
  have distinct : (labels towers).Nodup := (List.nodup_cons.mp holds.distinct).2
  have bound : (labels towers).length ≤ store.heap.size := by
    apply Heap.length_le_size distinct
    intro label member
    obtain ⟨tower, towerMember, rfl⟩ := List.mem_map.mp member
    obtain ⟨node, live, _⟩ := exists_entry (holds.shown tower towerMember)
    exact Heap.bounds_of_get? live
  rwa [labels, List.length_map] at bound

/-- Towers with the same key are the same, ... -/
theorem eq_of_key (holds : Levels exact store towers) {tower other : Tower} (member : tower ∈ towers)
    (otherMember : other ∈ towers) (same : tower.entry.1 = other.entry.1) : tower = other := by
  have distinct : (towers.map fun tower => tower.entry.1).Nodup := by
    have ascending : ((entries towers).map Prod.fst).Nodup :=
      List.Pairwise.map _ (fun _ _ below => ne_of_lt below) holds.sorted
    rwa [entries, List.map_map] at ascending
  exact List.inj_on_of_nodup_map distinct member otherMember same

/-- ... and so are towers with the same address. -/
theorem eq_of_label (holds : Levels exact store towers) {tower other : Tower}
    (member : tower ∈ towers) (otherMember : other ∈ towers) (same : tower.label = other.label) :
    tower = other :=
  List.inj_on_of_nodup_map (List.nodup_cons.mp holds.distinct).2 member otherMember same

end Levels

/-- A key cuts ascending towers in those below it and the rest. -/
theorem exists_cut (key : Key) {towers : List Tower} (sorted : Sorted (entries towers)) :
    ∃ low rest, towers = low ++ rest ∧ (∀ tower ∈ low, tower.entry.1 < key) ∧
      ∀ tower ∈ rest, key ≤ tower.entry.1 := by
  induction towers with
  | nil => exact ⟨[], [], rfl, by simp, by simp⟩
  | cons head towers inductionHypothesis =>
      obtain ⟨above, sortedRest⟩ := sorted_cons.mp sorted
      by_cases below : head.entry.1 < key
      · obtain ⟨low, rest, rfl, lowBelow, restAbove⟩ := inductionHypothesis sortedRest
        exact ⟨head :: low, rest, rfl, List.forall_mem_cons.mpr ⟨below, lowBelow⟩, restAbove⟩
      · refine ⟨[], head :: towers, rfl, by simp, ?_⟩
        intro tower member
        rcases List.mem_cons.mp member with rfl | later
        · exact not_lt.mp below
        · exact (not_lt.mp below).trans (above tower.entry (List.mem_map_of_mem later)).le

/-- Where a key belongs: at a tower that has it, or between towers that do not. -/
theorem exists_place (key : Key) {towers : List Tower} (sorted : Sorted (entries towers)) :
    ∃ low rest, towers = low ++ rest ∧ (∀ tower ∈ low, tower.entry.1 < key) ∧
      ((∃ tower higher, rest = tower :: higher ∧ tower.entry.1 = key ∧
          ∀ other ∈ higher, key < other.entry.1) ∨
        ∀ tower ∈ rest, key < tower.entry.1) := by
  obtain ⟨low, rest, rfl, below, above⟩ := exists_cut key sorted
  refine ⟨low, rest, rfl, below, ?_⟩
  rw [entries_append] at sorted
  have restSorted := (sorted_append.mp sorted).2.1
  cases rest with
  | nil => exact Or.inr fun tower member => by cases member
  | cons tower higher =>
      have higherAbove : ∀ other ∈ higher, tower.entry.1 < other.entry.1 := fun other member =>
        (sorted_cons.mp restSorted).1 other.entry (List.mem_map_of_mem member)
      rcases (above tower List.mem_cons_self).eq_or_lt with same | less
      · exact Or.inl ⟨tower, higher, rfl, same.symm, fun other member =>
          same.trans_lt (higherAbove other member)⟩
      · refine Or.inr fun other member => ?_
        rcases List.mem_cons.mp member with rfl | later
        · exact less
        · exact less.trans (higherAbove other later)

/-! ### Finding -/

section Finding

variable {exact : Prop} {store : SkiplistDram} {key : Key} {low rest : List Tower}

/-- The node `find` stops at on a level: the last tower below the key, or the head. -/
def stopAt (root index : Nat) (low : List Tower) : Nat := (labels (level index low)).getLastD root

/-- What `find` leaves in its array. -/
def Finds (root : Nat) (low : List Tower) (path : Path) : Prop :=
  ∀ index < SKIPLIST_LEVELS_NUM, path.at? index = some (stopAt root index low)

/-- The inner loop stops behind the nodes below the key. -/
theorem walk_ok {index active current fuel : Nat} {between after : List Nat}
    (linked : Linked (linkAt store.heap index) current (between ++ after))
    (below : ∀ address ∈ between, ∃ entry, entryAt store.heap address = some entry ∧ entry.1 < key)
    (above : ∀ address ∈ after, ∃ entry, entryAt store.heap address = some entry ∧ key ≤ entry.1)
    (bound : between.length < fuel) :
    SkiplistDram.walk index key fuel active current store =
      .ok (between.getLastD active, store) := by
  induction between generalizing active current fuel with
  | nil =>
      obtain ⟨fuel, rfl⟩ := Nat.exists_eq_succ_of_ne_zero (Nat.ne_of_gt bound)
      cases after with
      | nil =>
          have isNull : current = null := linked
          rw [SkiplistDram.walk, if_pos isNull]
          rfl
      | cons address rest =>
          obtain ⟨rfl, notNull, _⟩ := linked
          obtain ⟨entry, found, notBelow⟩ := above current List.mem_cons_self
          obtain ⟨node, live, keyRead, _⟩ := exists_entry found
          rw [SkiplistDram.walk, if_neg notNull, bind_ok (Prog.load_ok live),
            bind_ok (Prog.lift_ok keyRead _), if_neg (not_lt.mpr notBelow)]
          rfl
  | cons address between inductionHypothesis =>
      obtain ⟨fuel, rfl⟩ := Nat.exists_eq_succ_of_ne_zero (Nat.ne_of_gt (Nat.zero_lt_of_lt bound))
      obtain ⟨rfl, notNull, following, followed, restLinked⟩ := linked
      obtain ⟨entry, found, keyBelow⟩ := below current List.mem_cons_self
      obtain ⟨node, live, keyRead, _⟩ := exists_entry found
      obtain ⟨same, sameLive, slot⟩ := exists_link followed
      obtain rfl : same = node := Option.some.inj (sameLive.symm.trans live)
      rw [SkiplistDram.walk, if_neg notNull, bind_ok (Prog.load_ok live),
        bind_ok (Prog.lift_ok keyRead _), if_pos keyBelow,
        bind_ok (Prog.lift_ok (CArray.get_ok slot) _), List.getLastD_cons]
      apply inductionHypothesis restLinked
      · exact fun other member => below other (List.mem_cons_of_mem _ member)
      · exact Nat.lt_of_succ_lt_succ bound

/-- Stopping on a level leaves a node that is in the level below, or the head. -/
theorem stopAt_mem {root lower higher : Nat} (order : lower ≤ higher) (low : List Tower) :
    stopAt root higher low ∈ root :: labels (level lower low) := by
  rcases List.mem_cons.mp (LinkedAfter.getLastD_mem root (labels (level higher low))) with
    isRoot | member
  · rw [stopAt, isRoot]
    exact List.mem_cons_self
  · exact List.mem_cons_of_mem _ (((level_sublist_of_le order low).map Tower.label).subset member)

/-- The outer loop fills the array from the level it starts on downwards. -/
theorem findBelow_ok {bound levels active : Nat} (path : Path)
    (holds : Levels exact store (low ++ rest)) (below : ∀ tower ∈ low, tower.entry.1 < key)
    (above : ∀ tower ∈ rest, key ≤ tower.entry.1) (size : low.length < bound)
    (inside : levels ≤ SKIPLIST_LEVELS_NUM)
    (member : ∀ index < levels, active ∈ store.root :: labels (level index low)) :
    ∃ after, SkiplistDram.findBelow bound key levels active path store = .ok (after, store) ∧
      ∀ index, after.at? index =
        if index < levels then some (stopAt store.root index low) else path.at? index := by
  induction levels generalizing active path with
  | zero => exact ⟨path, rfl, fun index => by simp⟩
  | succ index inductionHypothesis =>
      have linked := holds.linked index inside
      rw [level_append, labels_append] at linked
      obtain ⟨between, sublist, last, first, found, betweenLinked⟩ :=
        linked.from_member (member index (Nat.lt_succ_self index))
      obtain ⟨node, live, slot⟩ := exists_link found
      have walked : SkiplistDram.walk index key bound active first store =
          .ok (stopAt store.root index low, store) := by
        rw [stopAt, ← last]
        apply walk_ok betweenLinked
        · intro address isBetween
          obtain ⟨tower, inLevel, rfl⟩ := List.mem_map.mp (sublist.subset isBetween)
          have inLow := mem_of_mem_level inLevel
          exact ⟨tower.entry, holds.shown tower (List.mem_append_left rest inLow), below tower inLow⟩
        · intro address isAfter
          obtain ⟨tower, inLevel, rfl⟩ := List.mem_map.mp isAfter
          have inRest := mem_of_mem_level inLevel
          exact ⟨tower.entry, holds.shown tower (List.mem_append_right low inRest),
            above tower inRest⟩
        · have short := sublist.length_le.trans (labels_level_sublist index low).length_le
          rw [labels, List.length_map] at short
          omega
      obtain ⟨after, ran, slots⟩ :=
        inductionHypothesis (path.put index (stopAt store.root index low)) (Nat.le_of_lt inside)
          fun lower isLower => stopAt_mem (Nat.le_of_lt isLower) low
      refine ⟨after, ?_, fun other => ?_⟩
      · rw [SkiplistDram.findBelow, bind_ok (Prog.load_ok live),
          bind_ok (Prog.lift_ok (CArray.get_ok slot) _), bind_ok walked,
          bind_ok (Prog.lift_ok (CArray.set_ok inside path _) _), ran]
      · rw [slots other, CArray.at?_put path inside]
        rcases Nat.lt_trichotomy other index with isLower | rfl | isHigher
        · rw [if_pos isLower, if_pos (Nat.lt_succ_of_lt isLower)]
        · rw [if_neg (Nat.lt_irrefl other), if_pos rfl, if_pos (Nat.lt_succ_self other)]
        · rw [if_neg (Nat.lt_asymm isHigher), if_neg (Nat.ne_of_gt isHigher),
            if_neg (Nat.not_lt.mpr isHigher)]

/-- `find` stops on every level at the last tower below the key. -/
theorem find_ok (holds : Levels exact store (low ++ rest)) (below : ∀ tower ∈ low, tower.entry.1 < key)
    (above : ∀ tower ∈ rest, key ≤ tower.entry.1) :
    ∃ path, SkiplistDram.find key store = .ok (path, store) ∧ Finds store.root low path := by
  have size : low.length < store.heap.size + 1 := by
    have whole := holds.length_le
    rw [List.length_append] at whole
    omega
  obtain ⟨path, ran, slots⟩ := findBelow_ok (CArray.unwritten Ptr SKIPLIST_LEVELS_NUM) holds below
    above size (Nat.le_refl _) fun index inside => List.mem_cons_self
  refine ⟨path, ?_, fun index inside => ?_⟩
  · rw [SkiplistDram.find, bind_ok (Prog.getRoot_ok store), bind_ok (Prog.heapSize_ok store), ran]
  · rw [slots index, if_pos inside]

/-- The pointer after the place where `find` stopped. -/
theorem nextOnPath_ok {path : Path} {index : Nat} {after : List Nat} {root : Nat}
    (linked : LinkedAfter (linkAt store.heap index) root (labels (level index low) ++ after))
    (finds : Finds root low path) (inside : index < SKIPLIST_LEVELS_NUM) :
    SkiplistDram.nextOnPath path index store = .ok (after.headD null, store) := by
  have behind := linked.behind.next_origin
  obtain ⟨node, live, slot⟩ := exists_link behind
  rw [SkiplistDram.nextOnPath, bind_ok (Prog.lift_ok (CArray.get_ok (finds index inside)) store),
    stopAt, bind_ok (Prog.load_ok live), Prog.lift_ok (CArray.get_ok slot)]

/-- On the base level this is the first tower not below the key. -/
theorem nextOnPath_base (holds : Levels exact store (low ++ rest)) {path : Path}
    (finds : Finds store.root low path) :
    SkiplistDram.nextOnPath path SKIPLIST_BASE_LEVEL store =
      .ok ((labels rest).headD null, store) := by
  have linked := holds.linked SKIPLIST_BASE_LEVEL (by decide)
  rw [level_append, labels_append] at linked
  have all : level SKIPLIST_BASE_LEVEL rest = rest :=
    level_base fun tower member => (holds.tall tower (List.mem_append_right low member)).1
  rw [nextOnPath_ok linked finds (by decide), all]

theorem hasKey_ok {address : Nat} {entry : Key × Value}
    (found : entryAt store.heap address = some entry) (key : Key) :
    SkiplistDram.hasKey address key store = .ok (decide (entry.1 = key), store) := by
  obtain ⟨node, live, keyRead, _⟩ := exists_entry found
  rw [SkiplistDram.hasKey, if_neg (ne_null_of_entry found), bind_ok (Prog.load_ok live),
    bind_ok (Prog.lift_ok keyRead store)]
  rfl

/-- The first tower above a key does not have it. -/
theorem hasKey_missing (holds : Levels exact store (low ++ rest))
    (above : ∀ tower ∈ rest, key < tower.entry.1) :
    SkiplistDram.hasKey ((labels rest).headD null) key store = .ok (false, store) := by
  cases rest with
  | nil => rfl
  | cons tower rest =>
      have ran := hasKey_ok (holds.shown tower (List.mem_append_right low List.mem_cons_self)) key
      rwa [decide_eq_false (above tower List.mem_cons_self).ne'] at ran

/-- What `read`, `insert` and `remove_free` find out first: where the key belongs, and whether the
first tower behind that place has it. -/
theorem locate_ok {towers : List Tower} (holds : Levels exact store towers) (key : Key) :
    ∃ low rest path, towers = low ++ rest ∧ (∀ tower ∈ low, tower.entry.1 < key) ∧
      SkiplistDram.find key store = .ok (path, store) ∧ Finds store.root low path ∧
      SkiplistDram.nextOnPath path SKIPLIST_BASE_LEVEL store =
        .ok ((labels rest).headD null, store) ∧
      ((∃ tower higher, rest = tower :: higher ∧ tower.entry.1 = key ∧
          (∀ other ∈ higher, key < other.entry.1) ∧
          SkiplistDram.hasKey tower.label key store = .ok (true, store)) ∨
        ((∀ tower ∈ rest, key < tower.entry.1) ∧
          SkiplistDram.hasKey ((labels rest).headD null) key store = .ok (false, store))) := by
  obtain ⟨low, rest, rfl, below, ⟨tower, higher, rfl, rfl, above⟩ | above⟩ :=
    exists_place key holds.sorted
  · have notBelow : ∀ other ∈ tower :: higher, tower.entry.1 ≤ other.entry.1 := by
      intro other member
      rcases List.mem_cons.mp member with rfl | later
      · exact le_refl _
      · exact (above other later).le
    obtain ⟨path, found, finds⟩ := find_ok holds below notBelow
    have stored := hasKey_ok (holds.shown tower (List.mem_append_right low List.mem_cons_self))
      tower.entry.1
    rw [decide_eq_true rfl] at stored
    exact ⟨low, _, path, rfl, below, found, finds, nextOnPath_base holds finds,
      Or.inl ⟨tower, higher, rfl, rfl, above, stored⟩⟩
  · obtain ⟨path, found, finds⟩ := find_ok holds below fun other member => (above other member).le
    exact ⟨low, rest, path, rfl, below, found, finds, nextOnPath_base holds finds,
      Or.inr ⟨above, hasKey_missing holds above⟩⟩

end Finding

end StoredsBench.Skiplist
