/-
Module: StoredsBench.Linkedlist.Durability
Layer: Correctness
Purpose: `LinkedlistPmem` and `HlPmem` never persist the key of a node, nor do they persist its value
  before the key is inserted again: after a crash behind an insert the key may be gone.
Trusted boundary: none
Main exports: emits_append, LinkedlistPmem.insert_not_durable, HlPmem.insert_not_durable
-/
import StoredsBench.Hashlist.Refinement
import StoredsBench.Lists.Durability

namespace StoredsBench.Linkedlist

open Lib Lib.SortedAssoc Lists

variable {I : Type} {key : Option Key} {garbage : Ptr → ListNode}

/-- Every crash leaves links from the root that lead to all entries of the list. -/
def Durable (index : I) (final : PmemList I) (cells : List Cell) : Prop :=
  ∀ recovered, Recovers readPool (memory (newPool index)) final.aux.trail recovered →
    ∀ cell ∈ cells, Reaches recovered.heap recovered.root cell.entry.1 cell.entry.2

/-- The pool of a plain class with nothing behind the root object. -/
abbrev bare (garbage : Ptr → ListNode) : ListPool RootMember := ListPool.plain garbage fun _ _ => false

theorem emits_append (same : ∀ address, (garbage address).key = key) (stored : Key) (value : Value) :
    Emits (readPool (I := I)) false (LosesKeys readRoot key) (appendNode (bare garbage) stored value) := by
  apply emits_appendNode
  · exact fun _ _ _ => trivial
  · exact fun _ _ => trivial
  · exact fun _ _ => trivial
  · exact fun address memory live => losesKeys_allocate same address live
  · exact fun mode => by cases mode
  · exact fun _ _ _ => rfl
  · exact fun _ _ _ => rfl

theorem emits_copy (value : Value) (address : Ptr) :
    Emits (readPool (I := I)) false (LosesKeys readRoot key) ((bare garbage).overwrite value address) := by
  apply emits_overwrite rootApart
  · exact fun _ _ _ => trivial
  · exact fun _ _ => trivial
  · exact fun _ _ => trivial
  · exact fun mode => by cases mode

/-- A run of effects that lose keys is not durable when it has an entry with another key. -/
theorem not_durable {index : I} {final : PmemList I} {cells : List Cell} {wanted : Key}
    (traced : Traced readPool (LosesKeys readRoot key) (newPool index) final)
    (stored : ∃ cell ∈ cells, cell.entry.1 = wanted) (different : key ≠ some wanted) :
    ¬ Durable index final cells := by
  intro durable
  obtain ⟨cell, member, rfl⟩ := stored
  have crash := recovers_withoutKeys rootApart traced (Accounted.fresh rfl rfl)
    fun address => Heap.get?_empty address
  exact not_reaches_withoutKeys different _ _ (durable _ crash cell member)

end StoredsBench.Linkedlist

namespace StoredsBench.LinkedlistPmem

open Lib Lib.SortedAssoc Lists Linkedlist

variable {key : Option Key} {garbage : Ptr → ListNode} {store final : LinkedlistPmem}

theorem emits_insert (same : ∀ address, (garbage address).key = key) (stored : Key) (value : Value) :
    Emits readPool false (LosesKeys readRoot key) (insert (bare garbage) stored value) := by
  apply (emits_append same stored value).bind
  exact fun _ => Emits.pure 1

theorem emits_update (stored : Key) (value : Value) :
    Emits readPool false (LosesKeys readRoot key) (update (bare garbage) stored value) := by
  have checks : Emits readPool false (LosesKeys readRoot key) check := by
    apply Emits.getRoot.bind
    intro head
    apply EffectLogic.Holds.branch
    · exact fun _ => EffectLogic.Holds.fault .assertion
    · exact fun _ => Emits.pure ()
  apply checks.bind
  intro _
  apply Emits.getRoot.bind
  intro head
  apply Emits.heapSize.bind
  intro bound
  apply emits_findNode.bind
  intro found
  apply EffectLogic.Holds.branch
  · intro _
    apply (emits_copy value found).bind
    intro _
    apply (Emits.persist fun _ => losesKeys_persist fun _ => rfl).bind
    exact fun _ => Emits.pure 1
  · exact fun _ => Emits.pure 1

theorem traced_run (same : ∀ address, (garbage address).key = key) {initial : LinkedlistPmem}
    {calls : List ListCall} (traced : Traced readPool (LosesKeys readRoot key) initial store)
    (ran : run (bare garbage) calls store = .ok ((), final)) :
    Traced readPool (LosesKeys readRoot key) initial final := by
  induction calls generalizing store with
  | nil =>
      cases ran
      exact traced
  | cons first rest inductionHypothesis =>
      obtain ⟨_, middle, callRan, restRan⟩ := bind_ok_inv ran
      apply inductionHypothesis _ restRan
      cases first with
      | insert stored value => exact traced.step (emits_insert same stored value) callRan
      | update stored value => exact traced.step (emits_update stored value) callRan

/-- After these calls an insert is durable: wherever objects lie and whatever the allocator leaves in
them, all entries of the list survive every crash behind it. -/
def InsertDurable (calls : List ListCall) (stored : Key) (value : Value) : Prop :=
  ∀ garbage behind store final cells,
    run (ListPool.plain garbage behind) calls (newPool ()) = .ok ((), store) →
    insert (ListPool.plain garbage behind) stored value store = .ok (1, final) →
    Shows (memory final) cells → Durable () final cells

theorem insert_ok {cells : List Cell} (shows : Shows (memory store) cells) (pool : ListPool RootMember)
    (stored : Key) (value : Value) :
    ∃ final node, insert pool stored value store = .ok (1, final) ∧
      Shows (memory final) (cells ++ [⟨node, (stored, value)⟩]) := by
  obtain ⟨after, runs, afterShows, _⟩ := appendNode_runsTo pool shows stored value
  obtain ⟨final, ran, finalEq⟩ := runs store rfl
  refine ⟨final, (memory store).heap.size + 1, ?_, ?_⟩
  · rw [LinkedlistPmem.insert, bind_ok ran]
    rfl
  · rw [finalEq]
    exact afterShows

theorem update_shows {pool : ListPool RootMember} {cells : List Cell} {stored : Key} {value : Value}
    {result : Int} (shows : Shows (memory store) cells)
    (ran : update pool stored value store = .ok (result, final)) :
    ∃ others, Shows (memory final) others := by
  obtain ⟨_, checked, checkRan, afterCheck⟩ := bind_ok_inv ran
  obtain rfl : checked = store := by
    obtain ⟨root, rooted, rootRan, branch⟩ := bind_ok_inv checkRan
    cases rootRan
    split at branch
    · cases branch
    · cases branch
      rfl
  obtain ⟨root, rooted, rootRan, afterRoot⟩ := bind_ok_inv afterCheck
  cases rootRan
  obtain ⟨bound, sized, sizeRan, afterSize⟩ := bind_ok_inv afterRoot
  cases sizeRan
  obtain ⟨found, searched, searchRan, afterSearch⟩ := bind_ok_inv afterSize
  obtain ⟨rfl, _⟩ := findNode_inv searchRan
  split at afterSearch
  · obtain ⟨_, overwritten, overwriteRan, afterOverwrite⟩ := bind_ok_inv afterSearch
    obtain ⟨_, persisted, persistRan, rest⟩ := bind_ok_inv afterOverwrite
    cases rest
    have same := ((pool.mode.runsTo_persist _ (memory overwritten)).of_ok persistRan).2
    rw [same]
    exact ⟨_, setValue_shows shows (overwrite_inv overwriteRan)⟩
  · cases afterSearch
    exact ⟨cells, shows⟩

theorem run_shows {pool : ListPool RootMember} {calls : List ListCall} {cells : List Cell}
    (shows : Shows (memory store) cells) (ran : run pool calls store = .ok ((), final)) :
    ∃ others, Shows (memory final) others := by
  induction calls generalizing store cells with
  | nil =>
      cases ran
      exact ⟨cells, shows⟩
  | cons first rest inductionHypothesis =>
      obtain ⟨_, middle, callRan, restRan⟩ := bind_ok_inv ran
      cases first with
      | insert stored value =>
          obtain ⟨next, node, nextRan, nextShows⟩ := insert_ok shows pool stored value
          have callEq : insert pool stored value store = _ := callRan
          rw [nextRan] at callEq
          cases callEq
          exact inductionHypothesis nextShows restRan
      | update stored value =>
          obtain ⟨others, nextShows⟩ := update_shows shows callRan
          exact inductionHypothesis nextShows restRan

/-- No insert is durable. -/
theorem not_insertDurable (calls : List ListCall) (stored : Key) (value : Value)
    (runs : ∃ store, run (bare (otherKey stored)) calls (newPool ()) = .ok ((), store)) :
    ¬ InsertDurable calls stored value := by
  intro durable
  obtain ⟨store, ran⟩ := runs
  have same : ∀ address, (otherKey stored address).key = some (stored + 1) := fun _ => rfl
  obtain ⟨cells, shows⟩ := run_shows (Or.inl ⟨rfl, rfl, rfl⟩) ran
  obtain ⟨final, node, insertRan, finalShows⟩ := insert_ok shows (bare (otherKey stored)) stored value
  have traced := (traced_run same (Traced.refl rfl) ran).step (emits_insert same stored value)
    insertRan
  have last : ∃ cell ∈ cells ++ [⟨node, (stored, value)⟩], cell.entry.1 = stored :=
    ⟨_, List.mem_append_right cells List.mem_cons_self, rfl⟩
  apply not_durable traced last (otherKey_ne stored)
  exact durable (otherKey stored) _ store final _ ran insertRan finalShows

end StoredsBench.LinkedlistPmem

namespace StoredsBench.HlPmem

open Lib Lib.SortedAssoc Lists Linkedlist Hashmap Hashlist

variable {key : Option Key} {garbage : Ptr → ListNode} {store final : HlPmem}

theorem emits_insert (same : ∀ address, (garbage address).key = key) (stored : Key) (value : Value) :
    Emits readPool false (LosesKeys readRoot key) (insert (bare garbage) stored value) := by
  have getsTable : Emits readPool false (LosesKeys readRoot key) getTable := by
    apply EffectLogic.Holds.quiet
    · intro store final table ran
      cases ran
      rfl
    · exact fun _ => trivial
  apply getsTable.bind
  intro table
  apply (Emits.lift _).bind
  intro entries
  cases findEntry stored entries with
  | some entry =>
      apply (emits_copy value entry.ll_p).bind
      exact fun _ => Emits.pure 1
  | none =>
      apply (emits_append same stored value).bind
      intro node
      have enters : Emits readPool false (LosesKeys readRoot key) (enter stored node) := by
        apply EffectLogic.Holds.unseen
        · intro store _ final ran
          obtain ⟨trail, running, sameRead⟩ := enter_inv ran
          exact ⟨running, trail, sameRead.symm⟩
        · exact fun _ => trivial
      apply enters.bind
      exact fun _ => Emits.pure 1

theorem traced_run (same : ∀ address, (garbage address).key = key)
    {initial : HlPmem} {cells : List Cell}
    (traced : Traced readPool (LosesKeys readRoot key) initial store)
    (holds : Hashlist.Holds (memory store) cells) (pairs : List (Key × Value)) :
    ∃ final others, insertEach (insert (bare garbage)) pairs store = .ok ((), final) ∧
      Traced readPool (LosesKeys readRoot key) initial final ∧ Hashlist.Holds (memory final) others := by
  induction pairs generalizing store cells with
  | nil => exact ⟨store, cells, rfl, traced, holds⟩
  | cons pair rest inductionHypothesis =>
      obtain ⟨next, ran, nextHolds⟩ := insert_ok (bare garbage) holds pair.1 pair.2
      obtain ⟨final, others, restRan, finalTraced, finalHolds⟩ :=
        inductionHypothesis (traced.step (emits_insert same pair.1 pair.2) ran) nextHolds
      refine ⟨final, others, ?_, finalTraced, finalHolds⟩
      rw [insertEach, bind_ok ran]
      exact restRan

/-- After these inserts another one is durable. -/
def InsertDurable (pairs : List (Key × Value)) (stored : Key) (value : Value) : Prop :=
  ∀ garbage behind coefficients store final cells,
    insertEach (insert (ListPool.plain garbage behind)) pairs (init coefficients) = .ok ((), store) →
    insert (ListPool.plain garbage behind) stored value store = .ok (1, final) →
    Shows (memory final) cells → Durable (newTable coefficients) final cells

theorem mem_upserted (stored : Key) (value : Value) (fresh : Ptr) (cells : List Cell) :
    ∃ cell ∈ upserted stored value fresh cells, cell.entry.1 = stored := by
  have member : stored ∈ keys (upserted stored value fresh cells) := by
    rw [keys_upserted]
    split
    · assumption
    · exact List.mem_append_right _ List.mem_cons_self
  obtain ⟨cell, cellMember, same⟩ := List.mem_map.mp member
  exact ⟨cell, cellMember, same⟩

/-- No insert is durable. -/
theorem not_insertDurable (coefficients : HashCoefficients) (pairs : List (Key × Value)) (stored : Key)
    (value : Value) : ¬ InsertDurable pairs stored value := by
  intro durable
  have same : ∀ address, (otherKey stored address).key = some (stored + 1) := fun _ => rfl
  obtain ⟨store, cells, ran, traced, holds⟩ :=
    traced_run same (Traced.refl rfl) (init_holds coefficients) pairs
  obtain ⟨final, insertRan, finalHolds⟩ := insert_ok (bare (otherKey stored)) holds stored value
  apply not_durable (traced.step (emits_insert same stored value) insertRan)
    (mem_upserted stored value (store.heap.size + 1) cells) (otherKey_ne stored)
  exact durable (otherKey stored) _ coefficients store final _ ran insertRan finalHolds.shows

end StoredsBench.HlPmem
