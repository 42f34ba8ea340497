/-
Module: StoredsBench.Linkedlist.Transactions
Layer: Correctness
Purpose: Crashes of the linked lists of `LinkedlistPmemTx` and `HlPmemTx`.  An append to a list with
  nodes stores to `root_p->tail` without a snapshot, so that the old tail may come back; an append to
  an empty list and an overwritten value are failure-atomic.
Trusted boundary: none
Main exports: Reached, Reached.append_first, Reached.append_behind, Reached.overwrite,
  Reached.tail_may_return
-/
import StoredsBench.Linkedlist.PmemRefinement

namespace StoredsBench.Linkedlist

open Lib Lib.SortedAssoc Lists

variable {I : Type}

/-- A list that calls have made on a new pool.  Since the first append no effect protects the tail or
makes it durable; a list of at most one node is durable. -/
structure Reached (index : I) (store : PmemList I) (cells : List Cell) : Prop where
  shows : Shows (memory store) cells
  accounted : Accounted readPool (memory (newPool index)) store
  first : ∀ cell ∈ cells.head?, (shelfAt readPool (memory (newPool index)) store.aux.trail
    (.root .tail)).May (some (.pointer (some cell.label)))
  steady : cells.length ≤ 1 →
    Steady readPool (memory (newPool index)) store.aux.trail (memory store)

theorem reached_newPool (index : I) : Reached index (newPool index) [] where
  shows := Or.inl ⟨rfl, rfl, rfl⟩
  accounted := Accounted.fresh rfl rfl
  first := fun cell member => by cases member
  steady := fun _ place => rfl

section Steps

variable {index : I} {store final : PmemList I} {cells : List Cell} {garbage : Ptr → ListNode}
  {behind : RootMember → ListPlace RootMember → Bool} {key : Key} {value : Value} {node : Ptr}

/-- What is in volatile memory only does not matter. -/
theorem Reached.of_same (reached : Reached index store cells)
    (trail : final.aux.trail = store.aux.trail) (running : final.aux.running = store.aux.running)
    (same : readPool (memory final) = readPool (memory store)) : Reached index final cells := by
  obtain ⟨shows, ⟨stopped, framed, idle⟩, first, steady⟩ := reached
  rw [← running] at stopped
  rw [← trail] at framed idle first steady
  exact ⟨shows.congr same, ⟨stopped, framed.congr_final same, idle⟩, first,
    fun short => (steady short).congr same⟩

/-- A crash inside the call leaves the `old` list or the `new` one, a crash behind it the new one. -/
def AtomicBetween (index : I) (store final : PmemList I) (old new : List Cell) : Prop :=
  ∃ call, final.aux.trail = store.aux.trail ++ call ∧
    FailureAtomic readPool (memory (newPool index)) store.aux.trail call (Shows · old) (Shows · new)

/-- The first node of a list is entered in one transaction that logs all its stores. -/
theorem Reached.append_first (reached : Reached index store [])
    (ran : appendNode (ListPool.tx garbage behind) key value store = .ok (node, final)) :
    Reached index final [⟨node, (key, value)⟩] ∧
      AtomicBetween index store final [] [⟨node, (key, value)⟩] := by
  obtain ⟨after, runs, shows, _⟩ :=
    appendNode_runsTo (ListPool.tx garbage behind) reached.shows key value
  obtain ⟨rfl, rfl⟩ := runs.of_ok ran
  have empty : (memory store).root = null := by
    rcases reached.shows with ⟨_, root, _⟩ | ⟨front, last, split, _⟩
    · exact root
    · simp at split
  rw [appendNode_eq_first empty] at ran
  obtain ⟨call, stopped, trail, steady, atomic⟩ := transaction_atomic
    (logs_first garbage behind key value) reached.accounted.stopped ran (reached.steady (Nat.zero_le _))
  obtain ⟨_, _, accounted, _⟩ := reached.accounted.step
    (emits_appendFirst (fun _ _ => True) (fun _ _ => trivial) (fun _ => trivial) (fun _ => trivial)
      (fun _ _ _ => trivial) (fun _ _ => trivial) fun _ _ => trivial) ran
  refine ⟨⟨shows, accounted, ?_, fun _ => steady⟩, call, trail, ?_⟩
  · intro cell member
    cases member
    have tail := shows.tail
    have atTail : shelfAt readPool (memory (newPool index)) final.aux.trail (.root .tail) =
        Shelf.settled (readPool (memory final) (.root .tail)) := steady (.root .tail)
    rw [atTail]
    simp only [readPool, readPlace, readObjects, readRoot, tail]
    exact Shelf.may_settled _
  · exact atomic.mono (fun _ same => reached.shows.congr same) fun _ same => shows.congr same

/-- Every later append leaves the tail unprotected. -/
theorem Reached.append_behind (reached : Reached index store cells) (some : cells ≠ [])
    (ran : appendNode (ListPool.tx garbage behind) key value store = .ok (node, final)) :
    node = (memory store).heap.size + 1 ∧ Reached index final (cells ++ [⟨node, (key, value)⟩]) := by
  obtain ⟨after, runs, shows, _⟩ :=
    appendNode_runsTo (ListPool.tx garbage behind) reached.shows key value
  obtain ⟨rfl, rfl⟩ := runs.of_ok ran
  rw [appendNode_eq_behind (reached.shows.root_ne_null some)] at ran
  have emits : Emits (readPool (I := I)) false (fun effect _ => effect.Spares (.root .tail))
      (appendBehind (ListPool.tx garbage behind) key value) := by
    apply emits_appendBehind
    · exact fun _ _ => trivial
    · exact fun _ => trivial
    · exact fun _ => trivial
    · exact fun _ _ _ => rfl
    · exact fun _ _ _ => rfl
    · exact fun mode => by cases mode
  obtain ⟨steps, trail, accounted, spares⟩ := reached.accounted.step emits ran
  refine ⟨rfl, shows, accounted, ?_, ?_⟩
  · intro cell member
    rw [trail, shelfAt_append]
    apply Shelf.May.after _ spares
    apply reached.first
    cases cells with
    | nil => exact absurd rfl some
    | cons head rest => exact member
  · intro short
    exfalso
    cases cells with
    | nil => exact some rfl
    | cons head rest => simp at short

/-- An overwritten value is logged. -/
theorem Reached.overwrite (reached : Reached index store cells) {address : Ptr}
    (ran : (ListPool.tx garbage behind).overwrite value address store = .ok ((), final)) :
    Reached index final (cells.map (overwritten address value)) ∧
      (cells.length ≤ 1 → AtomicBetween index store final cells
        (cells.map (overwritten address value))) := by
  have shows := setValue_shows reached.shows (overwrite_inv ran)
  have emits : Emits (readPool (I := I)) false (fun effect _ => effect.Spares (.root .tail))
      ((ListPool.tx garbage behind).overwrite value address) :=
    emits_overwrite rootApart (fun _ _ => trivial) (fun _ => trivial) (fun _ => trivial) fun _ _ => rfl
  obtain ⟨steps, trail, accounted, spares⟩ := reached.accounted.step emits ran
  have logged := fun short => transaction_atomic
    (logs_overwritten rootApart garbage behind value address) reached.accounted.stopped ran
    (reached.steady short)
  constructor
  · refine ⟨shows, accounted, ?_, ?_⟩
    · intro cell member
      rw [trail, shelfAt_append]
      apply Shelf.May.after _ spares
      cases cells with
      | nil => cases member
      | cons head rest =>
          cases member
          rw [label_overwritten]
          exact reached.first head rfl
    · intro short
      obtain ⟨_, _, _, steady, _⟩ := logged (by simpa using short)
      exact steady
  · intro short
    obtain ⟨call, _, sameTrail, _, atomic⟩ := logged short
    exact ⟨call, sameTrail, atomic.mono (fun _ same => reached.shows.congr same)
      fun _ same => shows.congr same⟩

/-- With two nodes or more a crash may leave the tail at the first of them. -/
theorem Reached.tail_may_return (reached : Reached index store cells) {first : Cell}
    (isFirst : cells.head? = some first) :
    Recovers readPool (memory (newPool index)) store.aux.trail
      { memory store with aux := { (memory store).aux with tail := first.label } } := by
  apply reached.accounted.recovers
  intro place
  cases place with
  | node address field => exact Or.inl rfl
  | root member =>
      cases member with
      | head => exact Or.inl rfl
      | tail => exact Or.inr (reached.first first isFirst)

/-- With two nodes or more a call is not failure-atomic: a crash behind it may leave the tail at the
first node. -/
theorem Reached.not_atomic (reached : Reached index final cells) (long : 1 < cells.length)
    {old new : List Cell} : ¬ AtomicBetween index store final old new := by
  rintro ⟨call, trail, atomic⟩
  have lossless : Recovers readPool (memory (newPool index)) final.aux.trail (memory final) :=
    reached.accounted.recovers fun _ => Or.inl rfl
  rw [trail] at lossless
  rw [(atomic.returned _ lossless).unique reached.shows] at atomic
  cases cells with
  | nil => simp at long
  | cons first rest =>
      rcases List.eq_nil_or_concat rest with rfl | ⟨front, last, rfl⟩
      · simp at long
      · rw [List.concat_eq_append, ← List.cons_append] at reached atomic
        have crash := reached.tail_may_return rfl
        rw [trail] at crash
        have isLast : first.label = last.label := (atomic.returned _ crash).tail
        have distinct := reached.shows.labels_nodup
        rw [List.cons_append, labels, List.map_cons, List.map_append] at distinct
        apply (List.nodup_cons.mp distinct).1
        rw [isLast]
        exact List.mem_append_right _ List.mem_cons_self

end Steps

end StoredsBench.Linkedlist

namespace StoredsBench.LinkedlistPmemTx

open Lib Lib.SortedAssoc Lists Linkedlist LinkedlistPmem

variable {garbage : Ptr → ListNode} {behind : RootMember → ListPlace RootMember → Bool}

/-- An insert of the class is failure-atomic: a crash inside it leaves the list before it or the list
with the new node, a crash behind it the list with the new node, from head to tail. -/
def InsertAtomic (pool : ListPool RootMember) (store : LinkedlistPmem) (key : Key) (value : Value) :
    Prop :=
  ∃ final node cells, insert pool key value store = .ok (1, final) ∧ Shows (memory store) cells ∧
    AtomicBetween () store final cells (cells ++ [⟨node, (key, value)⟩])

/-- Whether a call enters a node. -/
def enters : ListCall → Bool
  | .insert _ _ => true
  | .update _ _ => false

section Calls

variable {store final : LinkedlistPmem} {cells : List Cell} {key : Key} {value : Value} {result : Int}

theorem insert_reached (reached : Reached () store cells)
    (ran : insert (ListPool.tx garbage behind) key value store = .ok (result, final)) :
    ∃ node, Reached () final (cells ++ [⟨node, (key, value)⟩]) := by
  obtain ⟨node, middle, appended, rest⟩ := bind_ok_inv ran
  cases rest
  refine ⟨node, ?_⟩
  cases cells with
  | nil => exact (reached.append_first appended).1
  | cons first rest => exact (reached.append_behind (List.cons_ne_nil _ _) appended).2

theorem update_reached (reached : Reached () store cells)
    (ran : update (ListPool.tx garbage behind) key value store = .ok (result, final)) :
    ∃ others, Reached () final others ∧ labels others = labels cells := by
  obtain ⟨_, checked, checkRan, afterCheck⟩ := bind_ok_inv ran
  obtain rfl : checked = store := by
    obtain ⟨root, rooted, rootRan, branch⟩ := bind_ok_inv checkRan
    cases rootRan
    split at branch
    · cases branch
    · cases branch
      rfl
  obtain ⟨root, rooted, rootRan, afterRoot⟩ := bind_ok_inv afterCheck
  cases rootRan
  obtain ⟨bound, sized, sizeRan, afterSize⟩ := bind_ok_inv afterRoot
  cases sizeRan
  obtain ⟨found, searched, searchRan, afterSearch⟩ := bind_ok_inv afterSize
  obtain ⟨rfl, _⟩ := findNode_inv searchRan
  split at afterSearch
  · obtain ⟨_, overwritten, overwriteRan, persisted⟩ := bind_ok_inv afterSearch
    cases persisted
    exact ⟨_, (reached.overwrite overwriteRan).1, labels_overwritten _ _ _⟩
  · cases afterSearch
    exact ⟨cells, reached, rfl⟩

/-- Every run leads to a list; it has a node when one of the calls was an insert. -/
theorem run_reached {calls : List ListCall} (reached : Reached () store cells)
    (ran : run (ListPool.tx garbage behind) calls store = .ok ((), final)) :
    ∃ others, Reached () final others ∧ (others = [] ↔ cells = [] ∧ ∀ call ∈ calls, enters call = false) := by
  induction calls generalizing store cells with
  | nil =>
      cases ran
      exact ⟨cells, reached, by simp⟩
  | cons call rest inductionHypothesis =>
      obtain ⟨_, middle, callRan, restRan⟩ := bind_ok_inv ran
      cases call with
      | insert key value =>
          obtain ⟨node, next⟩ := insert_reached reached callRan
          obtain ⟨others, last, empty⟩ := inductionHypothesis next restRan
          exact ⟨others, last, by simp [empty, enters]⟩
      | update key value =>
          obtain ⟨between, next, sameLabels⟩ := update_reached reached callRan
          obtain ⟨others, last, empty⟩ := inductionHypothesis next restRan
          have stillEmpty : between = [] ↔ cells = [] := by
            rw [← List.length_eq_zero_iff, ← List.length_eq_zero_iff]
            have length := congrArg List.length sameLabels
            rw [labels, labels, List.length_map, List.length_map] at length
            rw [length]
          exact ⟨others, last, by simp [empty, stillEmpty, enters]⟩

theorem insert_ok (reached : Reached () store cells) (pool : ListPool RootMember) (key : Key)
    (value : Value) : ∃ final node, insert pool key value store = .ok (1, final) ∧
      appendNode pool key value store = .ok (node, final) := by
  obtain ⟨after, runs, _⟩ := appendNode_runsTo pool reached.shows key value
  obtain ⟨final, ran, _⟩ := runs store rfl
  refine ⟨final, _, ?_, ran⟩
  rw [LinkedlistPmem.insert, bind_ok ran]
  rfl

theorem insertAtomic_iff_empty (reached : Reached () store cells) (key : Key) (value : Value) :
    InsertAtomic (ListPool.tx garbage behind) store key value ↔ cells = [] := by
  obtain ⟨after, node, ran, appended⟩ := insert_ok reached (ListPool.tx garbage behind) key value
  constructor
  · rintro ⟨final, _, _, finalRan, _, atomic⟩
    rw [ran] at finalRan
    cases finalRan
    by_contra some
    obtain ⟨_, last⟩ := reached.append_behind some appended
    apply last.not_atomic _ atomic
    simpa [List.length_pos_iff] using some
  · rintro rfl
    exact ⟨after, node, [], ran, reached.shows, (reached.append_first appended).2⟩

end Calls

end StoredsBench.LinkedlistPmemTx
