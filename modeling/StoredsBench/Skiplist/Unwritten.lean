/-
Module: StoredsBench.Skiplist.Unwritten
Layer: Correctness
Purpose: `init` of `SkiplistPmem` stores nothing to the `next` slots of its head node, where every
  search begins.
Trusted boundary: none
Main exports: SearchesWritten, skiplistPmem_searches_unwritten
-/
import StoredsBench.Skiplist.PmemRefinement

namespace StoredsBench.SkiplistPmem

open Lib Skiplist

/-- Behind `init` on a new pool and these inserts, whatever the allocator leaves in new objects, `find`,
`read` and `scan` follow only slots that were written, and without inserts there is no entry.  A slot
nothing was stored to is a fault to follow. -/
def SearchesWritten (outcomes : Outcomes) (pairs : List (Key × Value)) (key : Key) (len : Int) : Prop :=
  ∀ pool, ∃ started store, init .persistent pool (blank outcomes) = .ok (1, started) ∧
    insertEach (insert .persistent pool) pairs started = .ok ((), store) ∧
    (∃ path, onMemory (SkiplistDram.find key) store = .ok (path, store)) ∧
    (∃ found, read key none store = .ok (found, store)) ∧
    (∃ result, scan key len store = .ok (result, store)) ∧
    (pairs = [] → read key none store = .ok (none, store))

/-- Objects to which nothing was ever stored. -/
def unwritten : SkPool where
  garbage := fun _ => SkNode.unwritten
  behind := fun _ _ _ => false

/-- The search begins at the highest slot of the head. -/
theorem find_unwritten (outcomes : Outcomes) (key : Key) :
    SkiplistDram.find key (newPool unwritten outcomes) = .error .uninitialised := rfl

theorem find_behind_init {outcomes : Outcomes} {started store : SkiplistPmem} {path : Path} {key : Key}
    (ran : init .persistent unwritten (blank outcomes) = .ok (1, started)) :
    onMemory (SkiplistDram.find key) started ≠ .ok (path, store) := by
  intro findRan
  have runs : RunsTo (init .persistent unwritten) (Lib.memory (blank outcomes)) 1
      (newPool unwritten outcomes) := init_runsTo _ _ _
  obtain ⟨_, startedEq⟩ := runs.of_ok ran
  obtain ⟨_, found, _⟩ := onMemory_inv findRan
  rw [startedEq, find_unwritten] at found
  cases found

/-- Behind no sequence of inserts do the searches of `SkiplistPmem` keep to written slots: already the
search of the first insert does not. -/
theorem skiplistPmem_searches_unwritten (outcomes : Outcomes) (pairs : List (Key × Value)) (key : Key)
    (len : Int) : ¬ SearchesWritten outcomes pairs key len := by
  intro searches
  obtain ⟨started, store, startRan, ran, ⟨path, findRan⟩, _⟩ := searches unwritten
  cases pairs with
  | nil =>
      cases ran
      exact find_behind_init startRan findRan
  | cons pair rest =>
      obtain ⟨_, _, insertRan, _⟩ := bind_ok_inv ran
      obtain ⟨_, checked, checkRan, afterCheck⟩ := bind_ok_inv insertRan
      cases checkRan
      obtain ⟨insertPath, _, insertFind, _⟩ := bind_ok_inv afterCheck
      exact find_behind_init startRan insertFind

/-- A search right behind `init`. -/
theorem skiplistPmem_find_unwritten : ¬ SearchesWritten (Stream'.const 1) [] 5 1 := by
  intro searches
  obtain ⟨started, store, startRan, ran, ⟨path, findRan⟩, _⟩ := searches unwritten
  cases ran
  exact find_behind_init startRan findRan

end StoredsBench.SkiplistPmem
