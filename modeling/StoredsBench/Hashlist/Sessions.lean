/-
Module: StoredsBench.Hashlist.Sessions
Layer: Correctness
Purpose: `HlPmem` over several sessions.  The list stays in the pool while `init` makes an empty index, so
  that nodes of earlier sessions are never found again and their keys get second nodes.
Trusted boundary: human-reviewed spec for the definitions
Main exports: HlPmem.reopen, HlPmem.Event, HlPmem.runEvents, HlPmem.InAgreement, Session,
  HlPmem.hlPmem_inAgreement_iff
-/
import StoredsBench.Hashlist.Correctness

namespace StoredsBench

open Lib Lists Linkedlist Hashmap Hashlist
open HlDram (firstInserted firstInserted_append nodup_firstInserted)

namespace HlPmem

/-- `init` on the file of an earlier session: the pool is what it was, the table is a new one. -/
def reopen (coefficients : HashCoefficients) : M Int := do
  setTable (newTable coefficients)
  return 1

/-- A call of `insert`, or the end of a session with the `init` of the next one. -/
inductive Event where
  | insert (key : Key) (value : Value)
  | reopen (coefficients : HashCoefficients)

def Event.inserted? : Event → Option (Key × Value)
  | .insert key value => some (key, value)
  | .reopen _ => none

def event (pool : ListPool RootMember) : Event → M Int
  | .insert key value => insert pool key value
  | .reopen coefficients => reopen coefficients

/-- Events one after another. -/
def runEvents (pool : ListPool RootMember) : List Event → M Unit
  | [] => return ()
  | first :: rest => do
      let _ ← event pool first
      runEvents pool rest

/-- The inserts of all sessions. -/
def insertedPairs (events : List Event) : List (Key × Value) := events.filterMap Event.inserted?

/-- The pool is not opened again once something is in it. -/
def ReopenedEmpty (events : List Event) : Prop :=
  events.Pairwise fun earlier later => earlier.inserted? ≠ none → later.inserted? ≠ none

/-- The list has one node for every inserted key, in the order of the first inserts; `read`, which goes
through the index, leads to the node of the key, and the node holds the last inserted value. -/
def InAgreement (store : HlPmem) (pairs : List (Key × Value)) : Prop :=
  ∃ cells, Shows (memory store) cells ∧ keys cells = firstInserted pairs ∧
    ∀ key, read key store = .ok (((cellOf key cells).map Cell.label).getD null, store) ∧
      (cellOf key cells).map (fun cell => cell.entry.2) = pairs.reverse.lookup key

end HlPmem

namespace Hashlist

/-! ### One session -/

/-- The nodes of a list from earlier sessions and from this one, which alone are indexed. -/
structure Session (store : Store ListNode (ListSide HlTable)) (older cells : List Cell) : Prop where
  shows : Shows store (older ++ cells)
  indexed : Indexed store.aux.index cells

variable {store : HlPmem} {older cells : List Cell} {key other : Key} {value : Value} {cell : Cell}

theorem Session.read (session : Session (memory store) older cells) (key : Key) :
    HlPmem.read key store = .ok (((cellOf key cells).map Cell.label).getD null, store) := by
  have indexed : Indexed store.aux.side.index cells := session.indexed
  obtain ⟨entries, _, atBucket, finds⟩ := indexed.search key
  have table : HlPmem.getTable store = .ok (store.aux.side.index, store) := rfl
  rw [HlPmem.read, bind_ok table, bind_ok (Prog.lift_ok atBucket store), ← finds]
  cases HlPmem.findEntry key entries <;> rfl

/-- Nodes elsewhere keep their values. -/
theorem map_overwritten_of_not_mem {address : Ptr} (outside : address ∉ labels cells) :
    cells.map (overwritten address value) = cells := by
  have unchanged : ∀ cell ∈ cells, overwritten address value cell = id cell := by
    intro cell member
    rw [overwritten, if_neg]
    · rfl
    · rintro rfl
      exact outside (List.mem_map_of_mem member)
  rw [List.map_congr_left unchanged, List.map_id]

/-- An insert leaves the nodes of earlier sessions alone. -/
theorem Session.insert (session : Session (memory store) older cells) (pool : ListPool RootMember)
    (key : Key) (value : Value) :
    ∃ final, HlPmem.insert pool key value store = .ok (1, final) ∧
      Session (memory final) older (upserted key value (store.heap.size + 1) cells) := by
  cases found : cellOf key cells with
  | some cell =>
      have member := mem_of_cellOf found
      obtain ⟨final, ran, shows, sameAux, _⟩ := insert_stored pool session.shows session.indexed found
        (List.mem_append_right older member) value
      rw [upserted_found found]
      refine ⟨final, ran, ?_, ?_⟩
      · have distinct := session.shows.labels_nodup
        rw [labels, List.map_append] at distinct
        have elsewhere : cell.label ∉ labels older := fun inOlder =>
          (List.nodup_append.mp distinct).2.2 _ inOlder _ (List.mem_map_of_mem member) rfl
        rw [List.map_append, map_overwritten_of_not_mem elsewhere] at shows
        exact shows
      · rw [sameAux]
        exact session.indexed.overwritten cell.label value
  | none =>
      obtain ⟨final, entries, ran, here, shows, index, _⟩ :=
        insert_new pool session.shows session.indexed found value
      rw [upserted_missing found]
      refine ⟨final, ran, ?_, ?_⟩
      · rwa [List.append_assoc] at shows
      · rw [index]
        exact session.indexed.entered here found (store.heap.size + 1) value

/-- All nodes are older than a new session. -/
theorem Session.reopen (session : Session (memory store) older cells) (coefficients : HashCoefficients) :
    ∃ final, HlPmem.reopen coefficients store = .ok (1, final) ∧
      Session (memory final) (older ++ cells) [] := by
  refine ⟨_, rfl, ?_, indexed_newTable coefficients⟩
  rw [List.append_nil]
  exact session.shows.congr (readPool_withIndex _ _)

/-- What the first node of a key holds after an insert. -/
theorem value_cellOf_upserted (distinct : (labels cells).Nodup) (key : Key) (value : Value) (fresh : Ptr)
    (other : Key) :
    (cellOf other (upserted key value fresh cells)).map (fun cell => cell.entry.2) =
      if other = key then some value else (cellOf other cells).map fun cell => cell.entry.2 := by
  cases found : cellOf key cells with
  | none =>
      rw [upserted_missing found, cellOf_append]
      by_cases same : other = key
      · subst same
        simp [found]
      · simp [same, Ne.symm same]
  | some cell =>
      have inCells : cellOf other (cells.map (overwritten cell.label value)) =
          (cellOf other cells).map (overwritten cell.label value) := by
        simp [cellOf, List.find?_map, Function.comp_def]
      rw [upserted_found found, inCells, Option.map_map]
      by_cases same : other = key
      · subst same
        rw [found, if_pos rfl]
        simp [overwritten]
      · rw [if_neg same]
        cases there : cellOf other cells with
        | none => rfl
        | some cell' =>
            have different : cell'.label ≠ cell.label := by
              intro sameLabel
              have sameCell := List.inj_on_of_nodup_map distinct (mem_of_cellOf there)
                (mem_of_cellOf found) sameLabel
              apply same
              rw [← key_cellOf there, sameCell, key_cellOf found]
            simp [overwritten, different]

/-! ### Several sessions -/

/-- What a run leaves.  As long as all nodes are of this session, they are those of all inserts. -/
structure Reached (events : List HlPmem.Event) (store : HlPmem) (older cells : List Cell) : Prop where
  session : Session (memory store) older cells
  some_iff : older ++ cells = [] ↔ HlPmem.insertedPairs events = []
  older_iff : older = [] ↔ HlPmem.ReopenedEmpty events
  order : older = [] → keys cells = firstInserted (HlPmem.insertedPairs events)
  values : older = [] → ∀ key, (cellOf key cells).map (fun cell => cell.entry.2) =
    (HlPmem.insertedPairs events).reverse.lookup key

variable {events : List HlPmem.Event}

theorem reached_init (coefficients : HashCoefficients) : Reached [] (HlPmem.init coefficients) [] [] where
  session := ⟨(init_holds coefficients).shows, (init_holds coefficients).indexed⟩
  some_iff := iff_of_true rfl rfl
  older_iff := iff_of_true rfl List.Pairwise.nil
  order := fun _ => rfl
  values := fun _ _ => rfl

theorem upserted_ne_nil (key : Key) (value : Value) (fresh : Ptr) (cells : List Cell) :
    upserted key value fresh cells ≠ [] := by
  cases found : cellOf key cells with
  | none =>
      rw [upserted_missing found]
      exact List.append_ne_nil_of_right_ne_nil cells (List.cons_ne_nil _ _)
  | some cell =>
      rw [upserted_found found]
      exact fun empty => List.ne_nil_of_mem (mem_of_cellOf found) (List.map_eq_nil_iff.mp empty)

theorem insertedPairs_append (events others : List HlPmem.Event) :
    HlPmem.insertedPairs (events ++ others) =
      HlPmem.insertedPairs events ++ HlPmem.insertedPairs others :=
  List.filterMap_append

theorem insertedPairs_eq_nil_iff :
    HlPmem.insertedPairs events = [] ↔ ∀ event ∈ events, event.inserted? = none :=
  List.filterMap_eq_nil_iff

/-- After one more insert nothing else was opened again. -/
theorem reopenedEmpty_insert :
    HlPmem.ReopenedEmpty (events ++ [.insert key value]) ↔ HlPmem.ReopenedEmpty events := by
  rw [HlPmem.ReopenedEmpty, List.pairwise_append]
  constructor
  · exact fun all => all.1
  · intro before
    refine ⟨before, List.pairwise_singleton _ _, ?_⟩
    intro earlier _ later isInsert _
    rw [List.mem_singleton.mp isInsert]
    exact Option.some_ne_none _

/-- A pool is opened again while it is empty only. -/
theorem reopenedEmpty_reopen (coefficients : HashCoefficients) :
    HlPmem.ReopenedEmpty (events ++ [.reopen coefficients]) ↔
      HlPmem.ReopenedEmpty events ∧ HlPmem.insertedPairs events = [] := by
  rw [HlPmem.ReopenedEmpty, List.pairwise_append, insertedPairs_eq_nil_iff]
  constructor
  · rintro ⟨before, _, between⟩
    refine ⟨before, ?_⟩
    intro earlier member
    by_contra isInsert
    exact between earlier member _ List.mem_cons_self isInsert rfl
  · rintro ⟨before, nothing⟩
    refine ⟨before, List.pairwise_singleton _ _, ?_⟩
    exact fun earlier member later _ isInsert => absurd (nothing earlier member) isInsert

theorem Reached.insert (reached : Reached events store older cells) (pool : ListPool RootMember)
    (key : Key) (value : Value) :
    ∃ final others, HlPmem.insert pool key value store = .ok (1, final) ∧
      Reached (events ++ [.insert key value]) final older others := by
  obtain ⟨final, ran, session⟩ := reached.session.insert pool key value
  have pairs : HlPmem.insertedPairs (events ++ [.insert key value]) =
      HlPmem.insertedPairs events ++ [(key, value)] := insertedPairs_append events _
  refine ⟨final, _, ran, session, ?_, ?_, ?_, ?_⟩
  · rw [pairs]
    apply iff_of_false
    · exact List.append_ne_nil_of_right_ne_nil older (upserted_ne_nil key value _ cells)
    · exact List.append_ne_nil_of_right_ne_nil _ (List.cons_ne_nil _ _)
  · rw [reopenedEmpty_insert]
    exact reached.older_iff
  · intro nothingOlder
    rw [pairs, keys_upserted, firstInserted_append, reached.order nothingOlder]
  · intro nothingOlder other
    have distinct : (labels cells).Nodup := by
      have all := reached.session.shows.labels_nodup
      rwa [nothingOlder, List.nil_append] at all
    rw [pairs, value_cellOf_upserted distinct, List.reverse_append, reached.values nothingOlder other]
    by_cases same : other = key
    · simp [same]
    · simp [same, List.lookup_cons, beq_eq_false_iff_ne.mpr same]

theorem Reached.reopen (reached : Reached events store older cells) (coefficients : HashCoefficients) :
    ∃ final, HlPmem.reopen coefficients store = .ok (1, final) ∧
      Reached (events ++ [.reopen coefficients]) final (older ++ cells) [] := by
  obtain ⟨final, ran, session⟩ := reached.session.reopen coefficients
  have pairs : HlPmem.insertedPairs (events ++ [.reopen coefficients]) = HlPmem.insertedPairs events := by
    rw [insertedPairs_append]
    exact List.append_nil _
  refine ⟨final, ran, session, ?_, ?_, ?_, ?_⟩
  · rw [pairs, List.append_nil]
    exact reached.some_iff
  · rw [reopenedEmpty_reopen, ← reached.older_iff, ← reached.some_iff]
    constructor
    · exact fun empty => ⟨(List.append_eq_nil_iff.mp empty).1, empty⟩
    · exact fun both => both.2
  · intro empty
    rw [pairs, reached.some_iff.mp empty]
    rfl
  · intro empty key
    rw [pairs, reached.some_iff.mp empty]
    rfl

theorem Reached.runEvents (pool : ListPool RootMember) (rest : List HlPmem.Event)
    (reached : Reached events store older cells) :
    ∃ final others left, HlPmem.runEvents pool rest store = .ok ((), final) ∧
      Reached (events ++ rest) final others left := by
  induction rest generalizing events store older cells with
  | nil => exact ⟨store, older, cells, rfl, by rwa [List.append_nil]⟩
  | cons first rest inductionHypothesis =>
      obtain ⟨next, others, left, ran, nextReached⟩ : ∃ next others left,
          HlPmem.event pool first store = .ok (1, next) ∧ Reached (events ++ [first]) next others left := by
        cases first with
        | insert key value =>
            obtain ⟨next, left, ran, nextReached⟩ := reached.insert pool key value
            exact ⟨next, older, left, ran, nextReached⟩
        | reopen coefficients =>
            obtain ⟨next, ran, nextReached⟩ := reached.reopen coefficients
            exact ⟨next, _, [], ran, nextReached⟩
      obtain ⟨final, others, left, restRan, finalReached⟩ := inductionHypothesis nextReached
      refine ⟨final, others, left, ?_, ?_⟩
      · rw [HlPmem.runEvents, bind_ok ran]
        exact restRan
      · rwa [List.append_assoc] at finalReached

/-- List and index agree as long as every node is of this session. -/
theorem Reached.inAgreement_iff (reached : Reached events store older cells) :
    HlPmem.InAgreement store (HlPmem.insertedPairs events) ↔ older = [] := by
  constructor
  · rintro ⟨all, shows, order, reads⟩
    obtain rfl := shows.unique reached.session.shows
    by_contra older
    obtain ⟨first, rest, rfl⟩ := List.exists_cons_of_ne_nil older
    -- The first node is not in the index, and its key has no other node.
    have distinct : (keys (first :: rest ++ cells)).Nodup := by
      rw [order]
      exact nodup_firstInserted _
    have unindexed : cellOf first.entry.1 cells = none := by
      rw [cellOf_eq_none_iff]
      intro again
      apply (List.nodup_cons.mp distinct).1
      exact List.map_append.symm ▸ List.mem_append_right _ again
    have found : cellOf first.entry.1 (first :: rest ++ cells) = some first := by
      simp [cellOf]
    obtain ⟨ran, _⟩ := reads first.entry.1
    rw [reached.session.read, unindexed, found] at ran
    have shown := reached.session.shows.shown first List.mem_cons_self
    have isNull : null = first.label := (Prod.mk.inj (Except.ok.inj ran)).1
    exact ne_null_of_entry shown isNull.symm
  · rintro rfl
    exact ⟨cells, reached.session.shows, reached.order rfl,
      fun key => ⟨reached.session.read key, reached.values rfl key⟩⟩

end Hashlist

namespace HlPmem

/-- After every run, list and index agree if and only if the pool was not opened again after an insert. -/
theorem hlPmem_inAgreement_iff (pool : ListPool RootMember) (coefficients : HashCoefficients)
    (events : List Event) :
    ∃ store, runEvents pool events (init coefficients) = .ok ((), store) ∧
      (InAgreement store (insertedPairs events) ↔ ReopenedEmpty events) := by
  obtain ⟨store, older, cells, ran, reached⟩ := (reached_init coefficients).runEvents pool events
  exact ⟨store, ran, reached.inAgreement_iff.trans reached.older_iff⟩

/-- One insert, and the pool is opened again. -/
theorem hlPmem_reopened_disagrees : ∃ (pool : ListPool RootMember) (coefficients : HashCoefficients)
    (value : Value) (store : HlPmem),
    runEvents pool [.insert 1 value, .reopen coefficients] (init coefficients) = .ok ((), store) ∧
      ¬ InAgreement store [(1, value)] := by
  obtain ⟨store, older, cells, ran, reached⟩ :=
    (reached_init ⟨1, 0, 1, 1, by decide, by decide, by decide⟩).runEvents
      (ListPool.plain (fun _ => ListNode.unwritten) fun _ _ => false)
      [.insert 1 ⟨[97], by decide, by decide⟩, .reopen ⟨1, 0, 1, 1, by decide, by decide, by decide⟩]
  refine ⟨_, _, _, store, ran, ?_⟩
  intro agreement
  have early := reached.older_iff.mp (reached.inAgreement_iff.mp agreement)
  have later := (List.pairwise_cons.mp early).1 _ List.mem_cons_self (Option.some_ne_none _)
  exact later rfl

end HlPmem

end StoredsBench
