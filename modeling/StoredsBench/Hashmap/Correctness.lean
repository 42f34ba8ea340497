/-
Module: StoredsBench.Hashmap.Correctness
Layer: Correctness
Purpose: `HtDram` is a finite map for all coefficients of its hash function.
Trusted boundary: none
Main exports: htDram_finite_map
-/
import StoredsBench.Hashmap.Refinement

namespace StoredsBench.HtDram

open Lib Lib.SortedAssoc Lists Hashmap

variable {coefficients : HashCoefficients} {bucket : List Ptr} {store : HtDram}
  {chains : Nat → List Cell}

/-- The table `init` makes has empty chains. -/
theorem init_holds (coefficients : HashCoefficients) :
    Holds coefficients (List.replicate coefficients.nbuckets.toNat null) (init coefficients)
      fun _ => [] where
  table := rfl
  linked := fun index inside => ⟨null, List.getElem?_replicate_of_lt inside, rfl⟩
  shown := fun index cell member => by cases member
  placed := fun index cell member => by cases member
  distinct := fun index => List.Pairwise.nil

theorem read_ok (holds : Holds coefficients bucket store chains) (key : Key) :
    backend.read key store = .ok (lookupIn coefficients chains key) := by
  obtain ⟨first, atBucket, linked⟩ := holds.bucketAt_ok key
  have reads : read key store = findNode key (store.heap.size + 1) first store := by
    rw [read, bind_ok holds.check_ok, bind_ok (Prog.lift_ok atBucket store),
      bind_ok (Prog.heapSize_ok store)]
  rcases holds.findNode_ok key linked with
    ⟨before, cell, rest, split, different, rfl, found⟩ | ⟨different, missing⟩
  · have member : cell ∈ chains (home coefficients cell.entry.1) := by
      rw [split]
      exact List.mem_append_right _ List.mem_cons_self
    have string := stringAt_ok (holds.shown _ cell member)
    simp only [backend, reads, found, bind, Except.bind, string]
    rw [lookupIn, split, lookup_entries_first different rfl]
  · simp only [backend, reads, missing, bind, Except.bind]
    rw [lookupIn, lookup_entries_of_ne different]
    rfl

/-- Tables show the entries their chains read. -/
theorem represents (coefficients : HashCoefficients) :
    Represents backend fun store entries => ∃ bucket chains,
      Holds coefficients bucket store chains ∧
      ∀ key, lookupIn coefficients chains key = entries.lookup key where
  insert := by
    rintro store entries key value ⟨bucket, chains, holds, reads⟩
    obtain ⟨after, bucket', chains', ran, afterHolds, changed⟩ := insert_ok holds key value
    refine ⟨after, ?_, bucket', chains', afterHolds, fun other => ?_⟩
    · simp only [backend, ran]
      rfl
    · rw [changed, lookup_upsert, reads]
  read := by
    rintro store entries key ⟨bucket, chains, holds, reads⟩
    rw [read_ok holds, reads]

/-- For all coefficients every sequence of inserts and reads runs to its end, and each read returns
the value of the most recent insert for its key; an insert never changes what another key reads.
The chains of every state reached end with a null pointer and pass no node twice; each stored key is
in one cell, which is in the chain of its own bucket, and all bucket indices are in range. -/
theorem htDram_finite_map (coefficients : HashCoefficients) (calls : List Call) :
    ∃ (store : HtDram) (bucket : List Ptr) (chains : Nat → List Cell),
      backend.run calls (init coefficients) = .ok (answers calls, store) ∧
      backend.MapAfter calls store ∧
      store.aux = some { coefficients := coefficients, bucket := bucket } ∧
      (∀ key, hashFunction coefficients key < coefficients.nbuckets) ∧
      (∀ index < coefficients.nbuckets.toNat, ∃ first, bucket[index]? = some first ∧
        Linked (nextAt store.heap) first (labels (chains index)) ∧
        (labels (chains index)).Nodup) ∧
      (∀ index, ∀ cell ∈ chains index, entryAt store.heap cell.label = some cell.entry ∧
        (hashFunction coefficients cell.entry.1).toNat = index) ∧
      ∀ key, lastInsert key calls ≠ none →
        ∃! place : Nat × Cell, place.2 ∈ chains place.1 ∧ place.2.entry.1 = key := by
  obtain ⟨store, ran, shown⟩ := (represents coefficients).run_ok calls []
    ⟨_, _, init_holds coefficients, fun _ => rfl⟩
  have mapAfter := (represents coefficients).mapAfter shown
  obtain ⟨bucket, chains, holds, reads⟩ := shown
  refine ⟨store, bucket, chains, ran, mapAfter, holds.table, ?_, ?_, ?_, ?_⟩
  · exact fun key => UInt64.lt_iff_toNat_lt.mpr (home_lt coefficients key)
  · intro index inside
    obtain ⟨first, found, linked⟩ := holds.linked index inside
    exact ⟨first, found, linked, holds.labels_nodup index⟩
  · exact fun index cell member =>
      ⟨holds.shown index cell member, holds.placed index cell member⟩
  · intro key stored
    rw [← lookup_contentsOf, ← List.nil_append calls, ← reads, lookupIn] at stored
    obtain ⟨before, cell, after, split, different, same⟩ :=
      (exists_first key (chains (home coefficients key))).resolve_right
        fun different => stored (lookup_entries_of_ne different)
    have member : cell ∈ chains (home coefficients key) := by
      rw [split]
      exact List.mem_append_right _ List.mem_cons_self
    refine ⟨(home coefficients key, cell), ⟨member, same⟩, ?_⟩
    rintro ⟨index, other⟩ ⟨otherMember, otherSame⟩
    have otherHome : home coefficients key = index := by
      rw [← otherSame]
      exact holds.placed index other otherMember
    subst otherHome
    have distinct := holds.distinct (home coefficients key)
    rw [split, List.pairwise_append, List.pairwise_cons] at distinct
    have unique : other = cell := by
      rw [split] at otherMember
      rcases List.mem_append.mp otherMember with inBefore | later
      · exact absurd otherSame (different other inBefore)
      · rcases List.mem_cons.mp later with isCell | inAfter
        · exact isCell
        · exact absurd (same.trans otherSame.symm) (distinct.2.1.1 other inAfter)
    rw [unique]

end StoredsBench.HtDram
