/-
Module: StoredsBench.Hashmap.Destroy
Layer: Correctness
Purpose: `destroy` of `ht_dram.cc`.  It frees the chains of all buckets.  What `new_entry` allocates for
  the `next` of a new entry is in no chain, since `insert` overwrites the only pointer to it: entries lie
  at odd addresses, and the objects at even ones stay.
Trusted boundary: human-reviewed spec for the definitions
Main exports: HtDram.destroy, HtDram.destroy_ok, Paired, HtDram.insertAll_paired, HtDram.freesAll_iff
-/
import StoredsBench.Hashmap.Correctness
import StoredsBench.Linkedlist.Destroy
import Mathlib.Data.List.Nodup

namespace StoredsBench

open Lib Lists Hashmap

namespace HtDram

/-- `free_entry_chain`. -/
def freeEntryChain (head : Ptr) : M Unit := do
  let bound ← Prog.heapSize
  Prog.freeChain (fun _ => return ()) nextOf (bound + 1) head

/-- `root_p->buckets->bucket[i]`. -/
def firstAt (i : Nat) : M Ptr := do
  let root ← Prog.getAux
  match root with
  | none => Prog.fault .invalidPointer
  | some table =>
      match table.bucket[i]? with
      | some entry => return entry
      | none => Prog.fault .outOfBounds

/-- `destroy`.  The number of buckets is the one that `init` has set. -/
def destroy : M Unit := do
  let table ← check
  Prog.freeEach firstAt freeEntryChain table.coefficients.nbuckets.toNat 0
  Prog.setAux none

/-- What `destroy` returns from here holds no table and no object. -/
def FreesAll (store : HtDram) : Prop :=
  ∀ ended, destroy store = .ok ((), ended) →
    ended.aux = none ∧ ∀ address, ¬ ended.heap.Live address

end HtDram

namespace Hashmap

variable {coefficients : HashCoefficients} {bucket : List Ptr} {store : HtDram}
  {chains : Nat → List Cell}

/-- The addresses of the entries, bucket by bucket. -/
def allLabels (coefficients : HashCoefficients) (chains : Nat → List Cell) : List (List Ptr) :=
  (List.range coefficients.nbuckets.toNat).map fun index => labels (chains index)

/-- There are as many pointers as buckets. -/
theorem Holds.length_bucket (holds : Holds coefficients bucket store chains) :
    coefficients.nbuckets.toNat ≤ bucket.length := by
  by_contra short
  have positive : 0 < coefficients.nbuckets.toNat :=
    UInt64.lt_iff_toNat_lt.mp coefficients.nbuckets_pos
  obtain ⟨first, found, _⟩ := holds.linked (coefficients.nbuckets.toNat - 1) (by omega)
  have inside := (List.getElem?_eq_some_iff.mp found).1
  omega

/-- The pointers of the buckets lead to the chains. -/
theorem Holds.chained (holds : Holds coefficients bucket store chains) :
    List.Forall₂ (Linked (linkBy nextOf store.heap)) (bucket.take coefficients.nbuckets.toNat)
      (allLabels coefficients chains) := by
  have enough := holds.length_bucket
  rw [linkBy_nextOf]
  apply List.forall₂_of_length_eq_of_get
  · rw [List.length_take, allLabels, List.length_map, List.length_range]
    omega
  · intro index inFirsts inChains
    rw [List.length_take] at inFirsts
    obtain ⟨first, found, linked⟩ := holds.linked index (by omega)
    have isFirst := (List.getElem?_eq_some_iff.mp found).2
    simp only [List.get_eq_getElem, List.getElem_take, allLabels, List.getElem_map, List.getElem_range,
      isFirst]
    exact linked

/-- No entry is in two places. -/
theorem Holds.allLabels_nodup (holds : Holds coefficients bucket store chains) :
    (allLabels coefficients chains).flatten.Nodup := by
  rw [List.nodup_flatten]
  constructor
  · intro chain member
    obtain ⟨index, _, rfl⟩ := List.mem_map.mp member
    exact holds.labels_nodup index
  · rw [allLabels, List.pairwise_map]
    apply List.pairwise_lt_range.imp
    intro low high below label inLow inHigh
    obtain ⟨cell, member, rfl⟩ := List.mem_map.mp inLow
    obtain ⟨other, otherMember, same⟩ := List.mem_map.mp inHigh
    have different : other.entry.1 ≠ cell.entry.1 := by
      intro sameKey
      have home := holds.placed high other otherMember
      rw [sameKey, holds.placed low cell member] at home
      exact below.ne home
    exact holds.label_ne otherMember member different same

end Hashmap

namespace HtDram

variable {coefficients : HashCoefficients} {bucket : List Ptr} {store : HtDram}
  {chains : Nat → List Cell}

theorem freeEntryChain_ok {first : Ptr} {chain : List Ptr}
    (linked : Linked (linkBy nextOf store.heap) first chain) :
    ∃ after, freeEntryChain first store = .ok ((), after) ∧ after.aux = store.aux ∧
      Released store.heap after.heap chain := by
  obtain ⟨after, ran, released⟩ := freeChain_ok
    (show Assigns (fun _ => return () : Ptr → M Unit) from fun address store => ⟨store, rfl, rfl⟩)
    linked linked.length_lt
  have kept := freeChain_keeps (fun store => store.aux) (by
    intro address before ended assignRan
    cases assignRan
    rfl) (fun before heap => rfl) ran
  refine ⟨after, ?_, kept, released⟩
  rw [freeEntryChain, bind_ok (Prog.heapSize_ok _), ran]

/-- The entries of the chains are freed, and nothing else. -/
theorem destroy_ok (holds : Holds coefficients bucket store chains) :
    ∃ ended, destroy store = .ok ((), ended) ∧ ended.aux = none ∧
      Released store.heap ended.heap (allLabels coefficients chains).flatten := by
  have reads : ∀ {left : HtDram} {index : Nat} {first : Ptr}, left.aux = store.aux →
      (bucket.take coefficients.nbuckets.toNat)[index]? = some first →
      firstAt index left = .ok (first, left) := by
    intro left index first sameAux isFirst
    have found : bucket[index]? = some first := by
      rw [List.getElem?_take] at isFirst
      split at isFirst
      · exact isFirst
      · cases isFirst
    rw [firstAt, bind_ok (Prog.getAux_ok left), sameAux, holds.table]
    simp only [found]
    rfl
  have frees : ∀ {left : HtDram} {first : Ptr} {chain : List Ptr}, left.aux = store.aux →
      Linked (linkBy nextOf left.heap) first chain →
      ∃ after, freeEntryChain first left = .ok ((), after) ∧ after.aux = store.aux ∧
        Released left.heap after.heap chain := by
    intro left first chain sameAux linked
    obtain ⟨after, ran, aux, released⟩ := freeEntryChain_ok linked
    exact ⟨after, ran, aux.trans sameAux, released⟩
  obtain ⟨after, ran, _, released⟩ :=
    freeEach_ok reads frees rfl List.drop_zero holds.chained holds.allLabels_nodup
  have length : (bucket.take coefficients.nbuckets.toNat).length = coefficients.nbuckets.toNat := by
    rw [List.length_take]
    exact Nat.min_eq_left holds.length_bucket
  rw [length] at ran
  refine ⟨{ after with aux := none }, ?_, rfl, released⟩
  rw [destroy, bind_ok holds.check_ok, bind_ok ran]
  rfl

end HtDram

/-! ### Lost objects -/

namespace Hashmap

variable {coefficients : HashCoefficients} {bucket : List Ptr} {store next : HtDram}
  {chains : Nat → List Cell} {key : Key} {value : Value}

/-- Every entry was allocated together with another object, behind it.  One of these others is at address
two, if there is any. -/
structure Paired (store : HtDram) (chains : Nat → List Cell) : Prop where
  even : store.heap.size % 2 = 0
  odd : ∀ index, ∀ label ∈ labels (chains index), label % 2 = 1
  second : store.heap.size ≠ 0 → store.heap.Live 2

/-- `new_entry` allocates two objects. -/
theorem newEntry_allocates {entry : Ptr} (ran : HtDram.newEntry key value store = .ok (entry, next)) :
    next.heap.size = store.heap.size + 2 ∧
      (∀ address, store.heap.Live address → next.heap.Live address) ∧
      next.heap.Live (store.heap.size + 2) := by
  obtain ⟨_, one, oneRan, afterOne⟩ := bind_ok_inv ran
  obtain ⟨_, two, twoRan, afterTwo⟩ := bind_ok_inv afterOne
  obtain ⟨_, three, threeRan, afterThree⟩ := bind_ok_inv afterTwo
  obtain ⟨_, four, fourRan, afterFour⟩ := bind_ok_inv afterThree
  cases oneRan
  cases threeRan
  cases afterFour
  obtain ⟨_, _, firstLive, _, rfl⟩ := Prog.modify_inv twoRan
  obtain ⟨_, _, thenLive, _, rfl⟩ := Prog.modify_inv fourRan
  refine ⟨?_, ?_, ?_⟩
  · simp only [Heap.size_set, Heap.size_push]
  · intro address live
    rw [Heap.live_set thenLive, Heap.live_push, Heap.live_set firstLive, Heap.live_push]
    exact Or.inl (Or.inl live)
  · rw [Heap.live_set thenLive, Heap.live_push, Heap.size_set, Heap.size_push]
    exact Or.inr rfl

/-- A store to a node that is there. -/
theorem modify_allocates {address : Ptr} {change : ListNode → Except Fault ListNode} {result : Unit}
    (ran : Prog.modify address change store = .ok (result, next)) :
    next.heap.size = store.heap.size ∧ ∀ other, (next.heap.Live other ↔ store.heap.Live other) := by
  obtain ⟨_, _, live, _, rfl⟩ := Prog.modify_inv ran
  exact ⟨Heap.size_set _ _ _, fun other => Heap.live_set live _ other⟩

/-- `insert` allocates two objects or none, and the first of them becomes an entry. -/
theorem insert_paired (holds : Holds coefficients bucket store chains) (paired : Paired store chains)
    (key : Key) (value : Value) :
    ∃ after bucket' chains', HtDram.insert key value store = .ok (1, after) ∧
      Holds coefficients bucket' after chains' ∧ Paired after chains' ∧ after.heap.size ≠ 0 := by
  obtain ⟨first, atBucket, linked⟩ := holds.bucketAt_ok key
  rw [HtDram.insert, bind_ok holds.check_ok, bind_ok (Prog.lift_ok atBucket store),
    bind_ok (Prog.heapSize_ok store)]
  rcases holds.findNode_ok key linked with
    ⟨before, cell, rest, split, different, rfl, found⟩ | ⟨different, missing⟩
  · obtain ⟨after, ran, afterHolds⟩ := update_ok holds split value
    obtain ⟨size, live⟩ := modify_allocates ran
    have member : cell ∈ chains (home coefficients cell.entry.1) := by
      rw [split]
      exact List.mem_append_right _ List.mem_cons_self
    have bounds := holds.label_bounds member
    have sameLabels : ∀ index, labels (Function.update chains (home coefficients cell.entry.1)
        (before ++ { cell with entry := (cell.entry.1, value) } :: rest) index) = labels (chains index) := by
      intro index
      rw [Function.update_apply]
      split
      · rename_i isHome
        rw [isHome, split, labels, labels, List.map_append, List.map_append]
        rfl
      · rfl
    refine ⟨after, bucket, _, ?_, afterHolds, ⟨?_, ?_, ?_⟩, ?_⟩
    · rw [bind_ok found, if_pos (show cell.label ≠ null from Nat.ne_of_gt bounds.1), bind_ok ran]
      rfl
    · rw [size, paired.even]
    · intro index label inChain
      rw [sameLabels] at inChain
      exact paired.odd index label inChain
    · intro some
      rw [live]
      exact paired.second (by rwa [size] at some)
    · rw [size]
      omega
  · obtain ⟨middle, next, bucket', after, allocated, ran, stored, afterHolds⟩ :=
      push_ok holds linked different value
    obtain ⟨middleSize, kept, lost⟩ := newEntry_allocates allocated
    obtain ⟨size, live⟩ := modify_allocates ran
    have sameHeap : after.heap = next.heap := by
      rw [holds.setBucket_ok] at stored
      cases stored
      rfl
    refine ⟨after, bucket', _, ?_, afterHolds, ⟨?_, ?_, ?_⟩, ?_⟩
    · rw [bind_ok missing, if_neg (fun notNull => notNull rfl), bind_ok allocated,
        bind_ok (Prog.lift_ok atBucket middle), bind_ok ran, bind_ok stored]
      rfl
    · rw [sameHeap, size, middleSize, Nat.add_mod_right, paired.even]
    · intro index label inChain
      rw [Function.update_apply] at inChain
      split at inChain
      · rcases List.mem_cons.mp inChain with rfl | older
        · have even := paired.even
          show (store.heap.size + 1) % 2 = 1
          omega
        · exact paired.odd _ label older
      · exact paired.odd index label inChain
    · intro _
      rw [sameHeap, live]
      by_cases empty : store.heap.size = 0
      · rw [empty] at lost
        exact lost
      · exact kept 2 (paired.second empty)
    · rw [sameHeap, size, middleSize]
      omega

end Hashmap

namespace HtDram

variable {coefficients : HashCoefficients} {bucket : List Ptr} {store : HtDram}
  {chains : Nat → List Cell}

theorem init_paired (coefficients : HashCoefficients) : Paired (init coefficients) fun _ => [] where
  even := rfl
  odd := fun _ _ member => absurd member List.not_mem_nil
  second := fun filled => absurd rfl filled

/-- Inserts one after another. -/
theorem insertAll_paired : ∀ (pairs : List (Key × Value)) {store : HtDram} {bucket : List Ptr}
    {chains : Nat → List Cell}, Holds coefficients bucket store chains → Paired store chains →
    (pairs ≠ [] ∨ store.heap.size ≠ 0) →
    ∃ after bucket' chains', backend.insertAll pairs store = .ok after ∧
      Holds coefficients bucket' after chains' ∧ Paired after chains' ∧ after.heap.size ≠ 0
  | [], store, bucket, chains, holds, paired, filled =>
      ⟨store, bucket, chains, rfl, holds, paired, filled.resolve_left fun some => some rfl⟩
  | pair :: pairs, store, bucket, chains, holds, paired, _ => by
      obtain ⟨next, _, _, ran, nextHolds, nextPaired, nextFilled⟩ := insert_paired holds paired pair.1 pair.2
      obtain ⟨after, bucket', chains', restRan, afterHolds, afterPaired, stillFilled⟩ :=
        insertAll_paired pairs nextHolds nextPaired (Or.inr nextFilled)
      refine ⟨after, bucket', chains', ?_, afterHolds, afterPaired, stillFilled⟩
      have inserted : backend.insert pair.1 pair.2 store = .ok next := by
        simp only [backend, ran]
        rfl
      rw [Backend.insertAll, List.foldlM_cons, inserted]
      exact restRan

/-- Of a table with entries, `destroy` leaves the object at address two. -/
theorem destroy_leaves (holds : Holds coefficients bucket store chains) (paired : Paired store chains)
    (filled : store.heap.size ≠ 0) :
    ∃ ended, destroy store = .ok ((), ended) ∧ ended.heap.Live 2 := by
  obtain ⟨ended, ran, _, released⟩ := destroy_ok holds
  refine ⟨ended, ran, ?_⟩
  have outside : (2 : Ptr) ∉ (allLabels coefficients chains).flatten := by
    intro inside
    obtain ⟨chain, member, inChain⟩ := List.mem_flatten.mp inside
    obtain ⟨index, _, rfl⟩ := List.mem_map.mp member
    exact absurd (paired.odd index 2 inChain) (by decide)
  obtain ⟨object, live⟩ := paired.second filled
  exact ⟨object, (released.kept outside).trans live⟩

/-- After inserts `destroy` frees everything where there were none, and only there. -/
theorem freesAll_iff (coefficients : HashCoefficients) (pairs : List (Key × Value)) :
    ∃ store, backend.insertAll pairs (init coefficients) = .ok store ∧ (FreesAll store ↔ pairs = []) := by
  by_cases nothing : pairs = []
  · subst nothing
    obtain ⟨ended, ran, noTable, released⟩ := destroy_ok (init_holds coefficients)
    refine ⟨init coefficients, rfl, iff_of_true ?_ rfl⟩
    intro other otherRan
    cases ran.symm.trans otherRan
    refine ⟨noTable, ?_⟩
    rintro address ⟨object, live⟩
    have gone := released address
    rw [live] at gone
    split at gone
    · cases gone
    · have bounds := Heap.bounds_of_get? gone.symm
      exact absurd (bounds.1.trans_le bounds.2) (Nat.lt_irrefl 0)
  · obtain ⟨store, bucket, chains, ran, holds, paired, filled⟩ :=
      insertAll_paired pairs (init_holds coefficients) (init_paired coefficients) (Or.inl nothing)
    obtain ⟨ended, destroyed, left⟩ := destroy_leaves holds paired filled
    exact ⟨store, ran, iff_of_false (fun all => (all ended destroyed).2 2 left) nothing⟩

end HtDram

end StoredsBench
