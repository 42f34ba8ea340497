/-
Module: StoredsBench.Reopening
Layer: Correctness
Purpose: `init` on the pool of an earlier session, all of whose stores were flushed.  The functions
  open the file instead of creating it and then go on as for a new pool: a tree gets an empty root, a
  skip list a new head, a hash table new coefficients and buckets.  Only `RbtreePmem` changes nothing.
Trusted boundary: human-reviewed spec for the definitions
Main exports: Backend.SameRuns, Represents.sameRuns_iff, SkiplistPmem.backend, HtPmem.backend, Reopens,
  reopening_preserves_iff
-/
import StoredsBench.BTree.PmemRefinement
import StoredsBench.BPlusTree.PmemRefinement
import StoredsBench.Skiplist.PmemRefinement
import StoredsBench.Hashmap.PmemRefinement
import StoredsBench.Rbtree.Correctness

namespace StoredsBench

open Lib Lib.SortedAssoc

/-! ### Runs from two states -/

/-- Calls deliver the same from both states. -/
def Backend.SameRuns {σ : Type} (backend : Backend σ) (state other : σ) : Prop :=
  ∀ calls, (backend.run calls state).map Prod.fst = (backend.run calls other).map Prod.fst

/-- An inserted key has a last insert. -/
theorem lastInsert_ne_none {key : Key} {value : Value} {history : List Call}
    (inserted : Call.insert key value ∈ history) : lastInsert key history ≠ none := by
  induction history using List.reverseRecOn with
  | nil => cases inserted
  | append_singleton past call inductionHypothesis =>
      cases call with
      | read other =>
          rw [lastInsert_read]
          apply inductionHypothesis
          simpa using inserted
      | insert other stored =>
          rw [lastInsert_insert]
          split
          · exact Option.some_ne_none stored
          · rename_i different
            apply inductionHypothesis
            rcases List.mem_append.mp inserted with earlier | last
            · exact earlier
            · cases List.mem_singleton.mp last
              exact absurd rfl different

/-- After a history of inserts a state runs as an empty one, if there were no inserts. -/
theorem Represents.sameRuns_iff {σ : Type} {backend : Backend σ} {shows : σ → List (Key × Value) → Prop}
    {state other : σ} {pairs : List (Key × Value)} (represents : Represents backend shows)
    (shown : shows state (upsertAll pairs [])) (empty : shows other []) :
    backend.SameRuns state other ↔ pairs = [] := by
  constructor
  · intro same
    cases pairs with
    | nil => rfl
    | cons pair rest =>
        exfalso
        have read := represents.read pair.1 shown
        have readOther := represents.read pair.1 empty
        have delivered := same [.read pair.1]
        simp only [Backend.run, read, readOther, bind, Except.bind, Except.map, List.lookup_nil,
          Except.ok.injEq, List.cons.injEq, and_true] at delivered
        rw [lookup_upsertAll] at delivered
        exact lastInsert_ne_none List.mem_cons_self delivered
  · rintro rfl calls
    obtain ⟨after, ran, _⟩ := represents.run_ok calls [] shown
    obtain ⟨afterOther, ranOther, _⟩ := represents.run_ok calls [] empty
    rw [ran, ranOther]
    rfl

/-- A session that is created, given pairs to store, and followed by another one. -/
structure Reopens {σ : Type} (backend : Backend σ) (create : Except Fault σ) (reopen : σ → Except Fault σ)
    (pairs : List (Key × Value)) (before after : σ) : Prop where
  session : (create.bind fun created => backend.insertAll pairs created) = .ok before
  next : reopen before = .ok after

/-- A session whose successor finds nothing. -/
theorem Represents.reopens {σ : Type} {backend : Backend σ} {shows : σ → List (Key × Value) → Prop}
    (represents : Represents backend shows) {create : Except Fault σ} {reopen : σ → Except Fault σ}
    {created : σ} (creates : create = .ok created) (fresh : shows created [])
    (empties : ∀ {state entries}, shows state entries → ∃ after, reopen state = .ok after ∧ shows after [])
    (pairs : List (Key × Value)) :
    ∃ before after, Reopens backend create reopen pairs before after ∧
      (backend.SameRuns before after ↔ pairs = []) := by
  obtain ⟨before, ran, shown⟩ := represents.insertAll_ok pairs fresh
  obtain ⟨after, reopened, empty⟩ := empties shown
  refine ⟨before, after, ⟨?_, reopened⟩, represents.sameRuns_iff shown empty⟩
  rw [creates]
  exact ran

/-! ### The skip list -/

namespace Skiplist

/-- All objects have null pointers, as in the part of a pool file that was never used. -/
def SkPool.AllZeroed (pool : SkPool) : Prop :=
  ∀ address, ∀ level < SKIPLIST_LEVELS_NUM, (pool.garbage address).next.at? level = some null

theorem SkPool.allZeroed_bare (key : Key) : (SkPool.bare key).AllZeroed :=
  fun _ => SkPool.zeroed_bare key

end Skiplist

namespace SkiplistPmem

open Skiplist

/-- An insert upserts into the entries. -/
theorem Inserted.entries_eq {outcomes : Outcomes} {fresh : Ptr} {key : Key} {value : Value}
    {towers towers' : List Tower} (inserted : Inserted outcomes fresh key value towers towers')
    (sorted : Sorted (entries towers')) : entries towers' = upsert key value (entries towers) := by
  cases inserted with
  | updated low rest tower same =>
      subst same
      rw [entries_append] at sorted ⊢
      rw [entries_append]
      have below : ∀ entry ∈ entries low, entry.1 < tower.entry.1 := by
        intro entry member
        exact (List.pairwise_append.mp sorted).2.2 entry member (tower.entry.1, value) List.mem_cons_self
      exact (upsert_update tower.entry.2 value below).symm
  | spliced low rest missing =>
      rw [entries_append] at sorted ⊢
      rw [entries_append]
      have parts := List.pairwise_append.mp sorted
      have below : ∀ entry ∈ entries low, entry.1 < key :=
        fun entry member => parts.2.2 entry member _ List.mem_cons_self
      have above : ∀ entry ∈ entries rest, key < entry.1 := (List.pairwise_cons.mp parts.2.1).1
      exact (upsert_insert value below above).symm

/-- `SkiplistPmem` behind the `StoredsBase` interface. -/
def backend (pool : SkPool) : Backend SkiplistPmem where
  insert := fun key value state => (insert .persistent pool key value state).map Prod.snd
  read := fun key state => do
    let (slot, state) ← read key none state
    SkiplistDram.stringAt (memory state) slot

/-- A new session calls `srand` before `init`. -/
def reopen (pool : SkPool) (outcomes : Outcomes) (state : SkiplistPmem) : Except Fault SkiplistPmem :=
  (init .persistent pool { state with aux := { state.aux with side := outcomes } }).map Prod.snd

theorem represents (pool : SkPool) :
    Represents (backend pool) fun state entries => ∃ towers, Levels False (memory state) towers ∧
      Skiplist.entries towers = entries where
  insert := by
    rintro state _ key value ⟨towers, holds, rfl⟩
    obtain ⟨final, towers', ran, finalHolds, inserted⟩ := insert_ok .persistent pool holds key value
    refine ⟨final, ?_, towers', finalHolds, inserted.entries_eq finalHolds.sorted⟩
    simp only [backend, ran]
    rfl
  read := by
    rintro state _ key ⟨towers, holds, rfl⟩
    obtain ⟨low, rest, path, rfl, below, found, finds, next, place⟩ := locate_ok holds key
    have belowEntries := forall_entries (· < key) below
    rcases place with ⟨tower, higher, rfl, rfl, above, stored⟩ | ⟨above, missing⟩
    · have member : tower ∈ low ++ tower :: higher := List.mem_append_right low List.mem_cons_self
      have ran : read tower.entry.1 none state = .ok (some tower.label, state) := by
        rw [read, check, bind_ok (pure_ok () state), bind_ok (onMemory_reads found),
          bind_ok (onMemory_reads next), labels, List.map_cons, List.headD_cons,
          bind_ok (onMemory_reads stored)]
        rfl
      obtain ⟨node, live, _, valueRead⟩ := exists_entry (holds.shown tower member)
      simp only [backend, ran, bind, Except.bind, SkiplistDram.stringAt, live, valueRead]
      rw [lookup_of_mem holds.sorted (List.mem_map_of_mem member)]
    · have ran : read key none state = .ok (none, state) := by
        rw [read, check, bind_ok (pure_ok () state), bind_ok (onMemory_reads found),
          bind_ok (onMemory_reads next), bind_ok (onMemory_reads missing)]
        rfl
      simp only [backend, ran, bind, Except.bind, SkiplistDram.stringAt]
      rw [lookup_eq_none_of_forall_ne]
      intro entry member
      rw [entries_append] at member
      rcases List.mem_append.mp member with inLow | inRest
      · exact (belowEntries entry inLow).ne
      · exact (forall_entries (key < ·) above entry inRest).ne'

/-- `init` leaves an empty list, whatever the pool holds. -/
theorem init_empties {pool : SkPool} (zeroed : pool.AllZeroed) (state : SkiplistPmem) :
    ∃ after, init .persistent pool state = .ok (1, after) ∧ Levels False (memory after) [] := by
  obtain ⟨after, ran, afterEq⟩ := init_runsTo_head .persistent pool (memory state) state rfl
  refine ⟨after, ran, levels_head ?_⟩
  rw [afterEq]
  intro index inside
  have live := Heap.get?_push (memory state).heap (pool.garbage ((memory state).heap.size + 1))
    ((memory state).heap.size + 1)
  rw [if_pos rfl] at live
  rw [linkAt, live, Option.bind_some, zeroed _ index inside]

theorem reopens {pool : SkPool} (zeroed : pool.AllZeroed) (outcomes others : Outcomes)
    (pairs : List (Key × Value)) :
    ∃ before after, Reopens (backend pool) ((init .persistent pool (blank outcomes)).map Prod.snd)
        (reopen pool others) pairs before after ∧
      ((backend pool).SameRuns before after ↔ pairs = []) := by
  obtain ⟨created, ran, holds⟩ := init_empties zeroed (blank outcomes)
  apply (represents pool).reopens
  · rw [ran]
    rfl
  · exact ⟨[], holds, rfl⟩
  · rintro state entries _
    obtain ⟨after, ranAgain, empty⟩ := init_empties zeroed
      { state with aux := { state.aux with side := others } }
    refine ⟨after, ?_, [], empty, rfl⟩
    rw [reopen, ranAgain]
    rfl

end SkiplistPmem

/-! ### The hash table -/

namespace HtPmem

open Lists Hashmap

/-- `HtPmem` behind the `StoredsBase` interface. -/
def backend (pool : ListPool HtMember) : Backend HtPmem where
  insert := fun key value state => (insert pool key value state).map Prod.snd
  read := fun key state => (read key state).bind fun found => stringAt found.2 found.1

/-- `init` on an old pool: new coefficients, and zeroed buckets. -/
def reopen (coefficients : HashCoefficients) (state : HtPmem) : Except Fault HtPmem :=
  .ok { state with aux := { state.aux with side := (HtDram.init coefficients).aux } }

/-- What a pool shows, for whatever coefficients. -/
def Shows (state : HtPmem) (entries : List (Key × Value)) : Prop :=
  ∃ coefficients bucket chains, Hashmap.Holds coefficients bucket (memory state) chains ∧
    ∀ key, lookupIn coefficients chains key = entries.lookup key

theorem represents (pool : ListPool HtMember) : Represents (backend pool) Shows where
  insert := by
    rintro state entries key value ⟨coefficients, bucket, chains, holds, reads⟩
    obtain ⟨final, bucket', chains', ran, finalHolds, changed⟩ := insert_runsTo pool holds key value
    refine ⟨final, ?_, coefficients, bucket', chains', finalHolds, fun other => ?_⟩
    · simp only [backend, ran]
      rfl
    · rw [changed, lookup_upsert, reads]
  read := by
    rintro state entries key ⟨coefficients, bucket, chains, holds, reads⟩
    rw [← reads]
    exact read_ok holds key

/-- A table with null buckets is empty, whatever else the pool holds. -/
theorem holds_empty {state : Store ListNode (Option HtTable)} {coefficients : HashCoefficients}
    (table : state.aux = (HtDram.init coefficients).aux) :
    Hashmap.Holds coefficients (List.replicate coefficients.nbuckets.toNat null) state fun _ => [] where
  table := table
  linked := fun index inside => ⟨null, List.getElem?_replicate_of_lt inside, rfl⟩
  shown := fun index cell member => by cases member
  placed := fun index cell member => by cases member
  distinct := fun index => List.Pairwise.nil

theorem reopens (pool : ListPool HtMember) (coefficients others : HashCoefficients)
    (pairs : List (Key × Value)) :
    ∃ before after, Reopens (backend pool) (.ok (init coefficients)) (reopen others) pairs before after ∧
      ((backend pool).SameRuns before after ↔ pairs = []) := by
  apply (represents pool).reopens rfl
  · exact ⟨coefficients, _, _, holds_empty rfl, fun key => rfl⟩
  · intro state entries _
    exact ⟨_, rfl, others, _, _, holds_empty rfl, fun key => rfl⟩

end HtPmem

/-! ### The trees -/

section Trees

open Lib.Multiway Trees

variable {t : Nat} {X I : Type} {kind : Kind t I} {chain : LeafChain X} {pool : Pool (Node t X)}
  {splitNode : Nat → Ptr → Ptr → TreeProg t X Unit}
  {search : Nat → Ptr → Key → TreeProg t X (Option SlotRef)}
  {updateIfFound : Nat → Ptr → Key → Value → TreeProg t X Bool} {blank : X}
  {splitThere : Nat → Ptr → Ptr → PmemTreeProg t X Unit}
  {updateThere : Nat → Ptr → Key → Value → PmemTreeProg t X Bool} {backend : Backend (PmemTree t X)}

/-- `init` behind the functions that open or create the pool. -/
def Trees.open (pool : Pool (Node t X)) (blank : X) (state : PmemTree t X) :
    Except Fault (PmemTree t X) :=
  (Trees.init pool blank state).map Prod.snd

theorem Trees.PmemServes.reopens (implements : Implements kind chain splitNode search updateIfFound blank)
    (pmemImplements : PmemImplements pool splitNode search splitThere updateThere) (solid : kind.Solid)
    (pmemServes : PmemServes pool search splitThere updateThere blank backend)
    (pairs : List (Key × Value)) :
    ∃ before after, Reopens backend (Trees.open pool blank newPool) (Trees.open pool blank) pairs
        before after ∧
      (backend.SameRuns before after ↔ pairs = []) := by
  obtain ⟨created, ran, fresh⟩ := init_shows pool kind chain blank
  apply (pmemServes.represents implements pmemImplements solid).reopens
  · rw [Trees.open, ran]
    rfl
  · exact fresh
  · intro state entries shows
    obtain ⟨after, ranAgain, empty⟩ := shows.init pool
    refine ⟨after, ?_, empty⟩
    rw [Trees.open, ranAgain]
    rfl

end Trees

/-- `BTreePmem::init`, which goes on alike behind `pmemobj_create` and behind `pmemobj_open`. -/
def BTreePmem.open (pool : Trees.Pool (Trees.Node BTREE_MIN_DEGREE Unit)) (state : BTreePmem) :
    Except Fault BTreePmem :=
  (BTreePmem.init pool state).map Prod.snd

/-- `BPlusTreePmem::init`. -/
def BPlusTreePmem.open (pool : Trees.Pool (Trees.Node BPLUSTREE_MIN_DEGREE BPlusTreeDram.Links))
    (state : BPlusTreePmem) : Except Fault BPlusTreePmem :=
  (BPlusTreePmem.init pool state).map Prod.snd

/-- `RbtreePmem::init` on an old pool: the root object is what it was. -/
def RbtreePmem.reopen (state : RbtreePmem) : Except Fault RbtreePmem := .ok state

theorem BTreePmem.reopens (pool : Trees.Pool (Trees.Node BTREE_MIN_DEGREE Unit))
    (pairs : List (Key × Value)) :
    ∃ before after, Reopens (backend pool) (BTreePmem.open pool Trees.newPool) (BTreePmem.open pool)
        pairs before after ∧
      ((backend pool).SameRuns before after ↔ pairs = []) :=
  (pmemServes pool).reopens BTreeDram.implements (pmemImplements pool) solid pairs

/-- After a run of inserts, a closed pool and `init`, the first four of these classes run as before if
and only if nothing was inserted, and `RbtreePmem` always does. -/
theorem reopening_preserves_iff
    (garbage : Ptr → Trees.Node BTREE_MIN_DEGREE Unit) (behindRoot : Place → Bool)
    (garbageLinked : Ptr → Trees.Node BPLUSTREE_MIN_DEGREE BPlusTreeDram.Links) (skPool : Skiplist.SkPool)
    (zeroed : skPool.AllZeroed) (outcomes outcomes' : Skiplist.Outcomes)
    (garbageEntry : Ptr → Lists.ListNode) (behindMember : HtMember → Lists.ListPlace HtMember → Bool)
    (coefficients coefficients' : Hashmap.HashCoefficients) (rootOid : Ptr) (valid : rootOid ≠ null)
    (pairs : List (Key × Value)) :
    (∃ before after, Reopens (BTreePmem.backend (BTreePmem.pool garbage behindRoot))
        (BTreePmem.open (BTreePmem.pool garbage behindRoot) Trees.newPool)
        (BTreePmem.open (BTreePmem.pool garbage behindRoot)) pairs before after ∧
      ((BTreePmem.backend (BTreePmem.pool garbage behindRoot)).SameRuns before after ↔ pairs = [])) ∧
    (∃ before after, Reopens (BPlusTreePmem.backend (BPlusTreePmem.pool garbageLinked behindRoot))
        (BPlusTreePmem.open (BPlusTreePmem.pool garbageLinked behindRoot) Trees.newPool)
        (BPlusTreePmem.open (BPlusTreePmem.pool garbageLinked behindRoot)) pairs before after ∧
      ((BPlusTreePmem.backend (BPlusTreePmem.pool garbageLinked behindRoot)).SameRuns before after ↔
        pairs = [])) ∧
    (∃ before after, Reopens (SkiplistPmem.backend skPool)
        ((SkiplistPmem.init .persistent skPool (SkiplistPmem.blank outcomes)).map Prod.snd)
        (SkiplistPmem.reopen skPool outcomes') pairs before after ∧
      ((SkiplistPmem.backend skPool).SameRuns before after ↔ pairs = [])) ∧
    (∃ before after, Reopens (HtPmem.backend (Lists.ListPool.plain garbageEntry behindMember))
        (.ok (HtPmem.init coefficients)) (HtPmem.reopen coefficients') pairs before after ∧
      ((HtPmem.backend (Lists.ListPool.plain garbageEntry behindMember)).SameRuns before after ↔
        pairs = [])) ∧
    ∃ before after, Reopens RbtreePmem.backend (.ok (RbtreePmem.init rootOid)) RbtreePmem.reopen pairs
        before after ∧
      RbtreePmem.backend.SameRuns before after := by
  refine ⟨BTreePmem.reopens _ pairs, ?_, SkiplistPmem.reopens zeroed outcomes outcomes' pairs,
    HtPmem.reopens _ coefficients coefficients' pairs, ?_⟩
  · exact (BPlusTreePmem.pmemServes _).reopens BPlusTreeDram.implements
      (BPlusTreePmem.pmemImplements _) BPlusTreePmem.solid pairs
  · obtain ⟨store, ran, _⟩ := RbtreePmem.insertAll_ok valid pairs
    exact ⟨store, store, ⟨ran, rfl⟩, fun calls => rfl⟩

/-- One insert into a skip list and a red-black tree. -/
theorem reopening_preserves_one :
    (Skiplist.SkPool.bare 0).AllZeroed ∧ (1 : Ptr) ≠ null ∧ ∃ value : Value,
      (∃ before after, Reopens (SkiplistPmem.backend (Skiplist.SkPool.bare 0))
          ((SkiplistPmem.init .persistent (Skiplist.SkPool.bare 0)
            (SkiplistPmem.blank fun _ => 0)).map Prod.snd)
          (SkiplistPmem.reopen (Skiplist.SkPool.bare 0) fun _ => 1) [(1, value)] before after ∧
        ((SkiplistPmem.backend (Skiplist.SkPool.bare 0)).SameRuns before after ↔
          [((1 : Key), value)] = [])) ∧
      ∃ before after, Reopens RbtreePmem.backend (.ok (RbtreePmem.init 1)) RbtreePmem.reopen [(1, value)]
          before after ∧
        RbtreePmem.backend.SameRuns before after := by
  have all := reopening_preserves_iff (fun _ => Trees.blankLeaf BTREE_MIN_DEGREE ()) (fun _ => false)
    (fun _ => Trees.blankLeaf BPLUSTREE_MIN_DEGREE .null) (Skiplist.SkPool.bare 0)
    (Skiplist.SkPool.allZeroed_bare 0) (fun _ => 0) (fun _ => 1) (fun _ => Lists.ListNode.unwritten)
    (fun _ _ => false) ⟨1, 0, 1, 1, by decide, by decide, by decide⟩
    ⟨1, 0, 1, 1, by decide, by decide, by decide⟩ 1 (by decide) [(1, ⟨[97], by decide, by decide⟩)]
  exact ⟨Skiplist.SkPool.allZeroed_bare 0, by decide, _, all.2.2.1, all.2.2.2.2⟩

/-- A tree with one entry, closed and opened again, has lost it. -/
theorem bTreePmem_reopened_empty :
    ∃ (pool : Trees.Pool (Trees.Node BTREE_MIN_DEGREE Unit)) (value : Value) (before after : BTreePmem),
      Reopens (BTreePmem.backend pool) (BTreePmem.open pool Trees.newPool) (BTreePmem.open pool)
        [(1, value)] before after ∧
      ¬ (BTreePmem.backend pool).SameRuns before after := by
  obtain ⟨before, after, reopened, same⟩ := BTreePmem.reopens
    (BTreePmem.pool (fun _ => Trees.blankLeaf BTREE_MIN_DEGREE ()) fun _ => false)
    [(1, ⟨[97], by decide, by decide⟩)]
  exact ⟨_, _, before, after, reopened, fun runs => by cases same.mp runs⟩

end StoredsBench
