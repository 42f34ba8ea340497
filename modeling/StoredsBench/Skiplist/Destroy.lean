/-
Module: StoredsBench.Skiplist.Destroy
Layer: Correctness
Purpose: `destroy` of `skiplist_dram.cc`, which removes the first node until there is none and then frees
  the head.  A removal takes exactly its node out of every level and off the heap, so that the loop ends
  with nothing left.
Trusted boundary: none
Main exports: SkiplistDram.destroy, Leveled, removal_exact, destroy_ok, skiplistDram_torn_down
-/
import StoredsBench.Skiplist.Correctness

namespace StoredsBench.SkiplistDram

open Lib Lib.SortedAssoc Skiplist

/-- `head->next[0]`. -/
def firstNode : M Ptr := do
  let head ← Prog.getRoot
  let contents ← Prog.load head
  Prog.lift (contents.next.get SKIPLIST_BASE_LEVEL)

/-- The loop of `destroy`. -/
def destroyNodes : (fuel : Nat) → M Unit
  | 0 => Prog.fault .diverged
  | fuel + 1 => do
      let next ← firstNode
      if next = null then return ()
      else
        let contents ← Prog.load next
        let key ← Prog.lift contents.key
        removeFree key
        destroyNodes fuel

/-- `destroy`. -/
def destroy : M Unit := do
  check
  let bound ← Prog.heapSize
  destroyNodes (bound + 1)
  let head ← Prog.getRoot
  Prog.free head
  Prog.setRoot null

/-- Every level is linked through ascending towers, which are among those of the level below. -/
structure Leveled (store : SkiplistDram) (towers : List Tower) : Prop where
  linked : ∀ index < SKIPLIST_LEVELS_NUM,
    LinkedAfter (linkAt store.heap index) store.root (labels (level index towers))
  ascending : ∀ index, (level index towers).Pairwise fun low high => low.entry.1 < high.entry.1
  nested : ∀ index, (level (index + 1) towers).Sublist (level index towers)
  shown : ∀ tower ∈ towers, entryAt store.heap tower.label = some tower.entry

section Destroying

variable {store : SkiplistDram} {towers : List Tower}

theorem leveled (holds : Holds store towers) : Leveled store towers := by
  have sorted : (towers.map Tower.entry).Pairwise fun low high => low.1 < high.1 := holds.sorted
  rw [List.pairwise_map] at sorted
  constructor
  · exact holds.linked
  · exact fun index => sorted.sublist (level_sublist index towers)
  · exact fun index => level_sublist_of_le (Nat.le_succ index) towers
  · exact holds.shown

theorem live_root (holds : Holds store towers) : store.heap.Live store.root := by
  obtain ⟨node, live, _⟩ :=
    exists_link (holds.linked SKIPLIST_BASE_LEVEL (by decide)).next_origin
  exact ⟨node, live⟩

theorem live_tower (holds : Holds store towers) {tower : Tower} (member : tower ∈ towers) :
    store.heap.Live tower.label := by
  obtain ⟨node, live, _⟩ := exists_entry (holds.shown tower member)
  exact ⟨node, live⟩

theorem init_accounted {outcomes : Outcomes} {fresh : SkiplistDram}
    (ran : init (blank outcomes) = .ok (1, fresh)) : Accounted fresh [] := by
  have clearNext_releasing : ∀ head remaining index, Releasing (clearNext head remaining index) := by
    intro head remaining
    induction remaining with
    | zero => exact fun index => Releasing.pure ()
    | succ remaining inductionHypothesis =>
        exact fun index => (Releasing.modify head _).bind fun _ => inductionHypothesis (index + 1)
  have allocated : Prog.malloc SkNode.unwritten (blank outcomes) =
      .ok (1, { heap := Heap.empty.push SkNode.unwritten, root := null, aux := outcomes }) := rfl
  have rooted : Prog.setRoot 1
      { heap := Heap.empty.push SkNode.unwritten, root := null, aux := outcomes } =
      .ok ((), { heap := Heap.empty.push SkNode.unwritten, root := 1, aux := outcomes }) := rfl
  rw [init, bind_ok allocated, bind_ok rooted] at ran
  obtain ⟨_, cleared, clearRan, checkRan⟩ := bind_ok_inv ran
  obtain ⟨_, checked, passed, ended⟩ := bind_ok_inv checkRan
  cases ended
  have shrinks := clearNext_releasing _ _ _ clearRan
  have same : fresh = cleared := by
    rw [check, bind_ok (Prog.getRoot_ok _)] at passed
    split at passed
    · cases passed
    · cases passed
      rfl
  rw [same]
  intro address live
  rcases (Heap.live_push _ _ _).mp (shrinks.live address live) with inEmpty | isHead
  · obtain ⟨node, found⟩ := inEmpty
    cases (Heap.get?_empty address).symm.trans found
  · exact Or.inl (isHead.trans shrinks.root.symm)

/-- Removing a stored key frees its node and nothing else. -/
theorem removal_exact (holds : Holds store towers) (accounted : Accounted store towers) {tower : Tower}
    (member : tower ∈ towers) :
    ∃ after, removeFree tower.entry.1 store = .ok ((), after) ∧
      Holds after (towers.filter fun other => other.entry.1 ≠ tower.entry.1) ∧
      Accounted after (towers.filter fun other => other.entry.1 ≠ tower.entry.1) ∧
      ∀ address, after.heap.Live address ↔ store.heap.Live address ∧ address ≠ tower.label := by
  obtain ⟨after, ran, afterHolds, freed, shrinks, accounts⟩ := removeFree_ok holds tower.entry.1
  refine ⟨after, ran, afterHolds, accounts accounted, ?_⟩
  intro address
  constructor
  · intro live
    refine ⟨shrinks.live address live, ?_⟩
    rintro rfl
    exact Heap.not_live_iff.mpr (freed tower member rfl) live
  · rintro ⟨live, different⟩
    rcases accounted address live with isRoot | isTower
    · rw [isRoot, ← shrinks.root]
      exact live_root afterHolds
    · obtain ⟨other, otherMember, rfl⟩ := List.mem_map.mp isTower
      have kept : other.entry.1 ≠ tower.entry.1 := by
        intro sameKey
        exact different (congrArg Tower.label (holds.eq_of_key otherMember member sameKey))
      exact live_tower afterHolds (List.mem_filter.mpr ⟨otherMember, decide_eq_true kept⟩)

theorem firstNode_ok (holds : Holds store towers) :
    firstNode store = .ok ((labels towers).headD null, store) := by
  have linked := holds.linked SKIPLIST_BASE_LEVEL (by decide)
  rw [level_base fun tower member => (holds.tall tower member).1] at linked
  obtain ⟨node, live, slot⟩ := exists_link linked.next_origin
  rw [firstNode, bind_ok (Prog.getRoot_ok _), bind_ok (Prog.load_ok live),
    Prog.lift_ok (CArray.get_ok slot)]

/-- The loop removes one tower after another. -/
theorem destroyNodes_ok {fuel : Nat} (holds : Holds store towers) (accounted : Accounted store towers)
    (enough : towers.length < fuel) :
    ∃ after, destroyNodes fuel store = .ok ((), after) ∧ Holds after [] ∧ Accounted after [] := by
  induction towers generalizing store fuel with
  | nil =>
      obtain ⟨fuel, rfl⟩ := Nat.exists_eq_succ_of_ne_zero (Nat.ne_of_gt enough)
      refine ⟨store, ?_, holds, accounted⟩
      have none : firstNode store = .ok (null, store) := firstNode_ok holds
      rw [destroyNodes, bind_ok none, if_pos rfl]
      rfl
  | cons tower rest inductionHypothesis =>
      obtain ⟨fuel, rfl⟩ := Nat.exists_eq_succ_of_ne_zero (Nat.ne_of_gt (Nat.zero_lt_of_lt enough))
      have first : firstNode store = .ok (tower.label, store) := firstNode_ok holds
      have shown := holds.shown tower List.mem_cons_self
      obtain ⟨node, live, keyRead, _⟩ := exists_entry shown
      have member : tower ∈ tower :: rest := List.mem_cons_self
      obtain ⟨next, ran, nextHolds, nextAccounted, _⟩ := removal_exact holds accounted member
      have left : ((tower :: rest).filter fun other => other.entry.1 ≠ tower.entry.1) = rest := by
        rw [List.filter_cons_of_neg (by simp)]
        apply filter_ne_key
        intro other member
        have ascending := (sorted_cons.mp holds.sorted).1 other.entry (List.mem_map_of_mem member)
        exact ascending.ne'
      rw [left] at nextHolds nextAccounted
      obtain ⟨after, restRan, afterHolds, afterAccounted⟩ :=
        inductionHypothesis nextHolds nextAccounted (Nat.lt_of_succ_lt_succ enough)
      refine ⟨after, ?_, afterHolds, afterAccounted⟩
      rw [destroyNodes, bind_ok first, if_neg (ne_null_of_entry shown), bind_ok (Prog.load_ok live),
        bind_ok (Prog.lift_ok keyRead _), bind_ok ran, restRan]

/-- `destroy` leaves no object. -/
theorem destroy_ok (holds : Holds store towers) (accounted : Accounted store towers) :
    ∃ after, destroy store = .ok ((), after) ∧ after.root = null ∧
      ∀ address, ¬ after.heap.Live address := by
  obtain ⟨emptied, ran, emptiedHolds, emptiedAccounted⟩ :=
    destroyNodes_ok holds accounted (Nat.lt_succ_of_le holds.length_le)
  obtain ⟨head, headLive⟩ := live_root emptiedHolds
  refine ⟨{ emptied with heap := emptied.heap.erase emptied.root, root := null }, ?_, rfl, ?_⟩
  · rw [destroy, bind_ok holds.check_ok, bind_ok (Prog.heapSize_ok _), bind_ok ran,
      bind_ok (Prog.getRoot_ok _), bind_ok (Prog.free_ok headLive)]
    rfl
  · intro address live
    obtain ⟨wasLive, notHead⟩ := (Heap.live_erase headLive address).mp live
    rcases emptiedAccounted address wasLive with isRoot | isTower
    · exact notHead isRoot
    · cases isTower

end Destroying

/-- For all outcomes of `rand()` and after any inserts and removals: `remove_free` of a stored key frees its
node and no other object, takes it out of every level, keeps the levels in order and changes no other
binding; and `destroy` ends without a fault and leaves no object, so that it frees each one once. -/
theorem skiplistDram_torn_down (outcomes : Outcomes) (operations : List Operation) :
    ∃ fresh store towers, init (blank outcomes) = .ok (1, fresh) ∧
      perform operations fresh = .ok ((), store) ∧ Leveled store towers ∧
      (∀ key, (entries towers).lookup key = latest key operations) ∧
      (∀ tower ∈ towers, ∃ after, removeFree tower.entry.1 store = .ok ((), after) ∧
        Leveled after (towers.filter fun other => other.entry.1 ≠ tower.entry.1) ∧
        (∀ index, tower.label ∉
          labels (level index (towers.filter fun other => other.entry.1 ≠ tower.entry.1))) ∧
        (∀ address, after.heap.Live address ↔ store.heap.Live address ∧ address ≠ tower.label) ∧
        backend.read tower.entry.1 after = .ok none ∧
        ∀ key, key ≠ tower.entry.1 → backend.read key after = backend.read key store) ∧
      ∃ ended, destroy store = .ok ((), ended) ∧ ended.root = null ∧
        ∀ address, ¬ ended.heap.Live address := by
  obtain ⟨fresh, initialised, freshHolds⟩ := init_ok outcomes
  obtain ⟨store, towers, ran, holds, entriesEq, accounts⟩ := perform_ok operations freshHolds
  have accounted := accounts (init_accounted initialised)
  refine ⟨fresh, store, towers, initialised, ran, leveled holds, ?_, ?_, destroy_ok holds accounted⟩
  · intro key
    rw [entriesEq]
    exact lookup_contentsAfter key operations
  · intro tower member
    obtain ⟨after, removed, afterHolds, _, lives⟩ := removal_exact holds accounted member
    have left : entries (towers.filter fun other => other.entry.1 ≠ tower.entry.1) =
        (entries towers).filter fun entry => entry.1 ≠ tower.entry.1 := by
      rw [entries, entries, List.filter_map]
      rfl
    refine ⟨after, removed, leveled afterHolds, ?_, lives, ?_, ?_⟩
    · intro index inLevel
      obtain ⟨other, otherMember, sameLabel⟩ := List.mem_map.mp inLevel
      obtain ⟨wasMember, kept⟩ := List.mem_filter.mp (mem_of_mem_level otherMember)
      have same := holds.eq_of_label wasMember member sameLabel
      exact of_decide_eq_true kept (congrArg (fun tower => tower.entry.1) same)
    · rw [read_ok afterHolds, left, lookup_filter_ne, if_pos rfl]
    · intro key different
      rw [read_ok afterHolds, left, lookup_filter_ne, if_neg different.symm, read_ok holds]

end StoredsBench.SkiplistDram
