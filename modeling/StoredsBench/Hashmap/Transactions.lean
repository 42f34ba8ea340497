/-
Module: StoredsBench.Hashmap.Transactions
Layer: Correctness
Purpose: Crashes of `HtPmemTx`.  Both branches of `insert` log what they store to, so that a crash
  leaves the chains before the call or the chains after it.
Trusted boundary: none
Main exports: Reached, logs_pushEntry, insert_reached, htPmemTx_insert_failureAtomic
-/
import StoredsBench.Hashmap.PmemRefinement

namespace StoredsBench.HtPmemTx

open Lib Lib.SortedAssoc Lists Hashmap HtPmem

/-- The snapshot of the bucket and the new object cover all stores. -/
theorem logs_pushed (garbage : Ptr → ListNode) (behind : HtMember → ListPlace HtMember → Bool)
    (index : UInt64) (first : Ptr) (key : Key) (value : Value) :
    Logs readPool (fun _ => false)
      (do
        (ListPool.tx garbage behind).mode.addRange
          ((ListPool.tx garbage behind).rangeFrom (.bucket index.toNat))
        let entry ← (ListPool.tx garbage behind).createNode key value
        storeNext first entry
        storeBucket index entry
        (ListPool.tx garbage behind).mode.persist
          ((ListPool.tx garbage behind).rangeFrom (.bucket index.toNat)))
      fun _ _ => True := by
  have snapshotted : Logs readPool (fun _ => false)
      (addRange ((ListPool.tx garbage behind).rangeFrom (.bucket index.toNat)))
      fun _ more => more = (ListPool.tx garbage behind).rangeFrom (.bucket index.toNat) :=
    Logs.addRange rfl
  apply snapshotted.bind
  rintro _ _ rfl
  apply (logs_createNode rootApart).bind
  rintro entry _ rfl
  apply (logs_storeNext rootApart (covers_added _ entry)).bind
  rintro _ _ rfl
  have published : Logs readPool
      (fun place => (ListPool.tx garbage behind).rangeFrom (.bucket index.toNat) place ||
        nodeBytes entry place) (storeBucket index entry) fun _ _ => True := by
    apply Logs.store
    · intro place inside
      simp [ListPool.rangeFrom, inside]
    · exact storeBucket_frames index entry
    · exact fun _ => trivial
  apply published.bind
  intro _ _ _
  exact EffectLogic.Holds.pure trivial

/-! ### Calls -/

/-- A durable table that inserts have made on a new pool. -/
structure Reached (coefficients : HashCoefficients) (store : HtPmem) (bucket : List Ptr)
    (chains : Nat → List Cell) : Prop where
  holds : Hashmap.Holds coefficients bucket (memory store) chains
  stopped : store.aux.running = false
  steady : Steady readPool (memory (init coefficients)) store.aux.trail (memory store)

/-- A pool with these chains, every key once and in its own bucket, and with the answers of `read`
that the chains determine. -/
structure Recovered (coefficients : HashCoefficients) (bucket : List Ptr) (chains : Nat → List Cell)
    (contents : Store ListNode (Option HtTable)) : Prop where
  holds : Hashmap.Holds coefficients bucket contents chains
  answers : ∀ key, answer key contents = .ok (lookupIn coefficients chains key)

theorem recovered_of_read {coefficients : HashCoefficients} {bucket : List Ptr}
    {chains : Nat → List Cell} {contents recovered : Store ListNode (Option HtTable)}
    (holds : Hashmap.Holds coefficients bucket contents chains)
    (same : readPool recovered = readPool contents) :
    Recovered coefficients bucket chains recovered :=
  ⟨holds_congr holds same, answer_ok (holds_congr holds same)⟩

theorem reached_init (coefficients : HashCoefficients) :
    Reached coefficients (init coefficients) (List.replicate coefficients.nbuckets.toNat null)
      fun _ => [] where
  holds := init_holds coefficients
  stopped := rfl
  steady := fun place => rfl

variable {coefficients : HashCoefficients} {store : HtPmem} {bucket : List Ptr}
  {chains : Nat → List Cell}

/-- One insert: it is failure-atomic and leaves a durable table. -/
theorem insert_reached (garbage : Ptr → ListNode) (behind : HtMember → ListPlace HtMember → Bool)
    (reached : Reached coefficients store bucket chains) (key : Key) (value : Value) :
    ∃ final bucket' chains', insert (ListPool.tx garbage behind) key value store = .ok (1, final) ∧
      Reached coefficients final bucket' chains' ∧
      (∀ other, lookupIn coefficients chains' other =
        if other = key then some value else lookupIn coefficients chains other) ∧
      ∃ call, final.aux.trail = store.aux.trail ++ call ∧
        FailureAtomic readPool (memory (init coefficients)) store.aux.trail call
          (Recovered coefficients bucket chains) (Recovered coefficients bucket' chains') := by
  obtain ⟨final, bucket', chains', ran, holds, lookups⟩ :=
    insert_runsTo (ListPool.tx garbage behind) reached.holds key value
  have logged : ∃ call, final.aux.running = false ∧ final.aux.trail = store.aux.trail ++ call ∧
      Steady readPool (memory (init coefficients)) final.aux.trail (memory final) ∧
      FailureAtomic readPool (memory (init coefficients)) store.aux.trail call
        (fun recovered => readPool recovered = readPool (memory store))
        (fun recovered => readPool recovered = readPool (memory final)) := by
    rcases insert_cases (ListPool.tx garbage behind) reached.holds key value with
      ⟨before, cell, rest, split, different, _, inserts⟩ | ⟨missing, first, linked, inserts⟩
    · rw [inserts] at ran
      obtain ⟨_, middle, overwriteRan, afterOverwrite⟩ := bind_ok_inv ran
      cases afterOverwrite
      exact transaction_atomic (logs_overwritten rootApart garbage behind value cell.label)
        reached.stopped overwriteRan reached.steady
    · rw [inserts] at ran
      obtain ⟨_, middle, pushRan, afterPush⟩ := bind_ok_inv ran
      cases afterPush
      exact transaction_atomic
        (logs_pushed garbage behind (hashFunction coefficients key) first key value)
        reached.stopped pushRan reached.steady
  obtain ⟨call, stopped, trail, steady, atomic⟩ := logged
  refine ⟨final, bucket', chains', ran, ⟨holds, stopped, steady⟩, lookups, call, trail, ?_⟩
  exact atomic.mono (fun _ same => recovered_of_read reached.holds same)
    fun _ same => recovered_of_read holds same

/-- Every sequence of inserts runs to its end. -/
theorem run_reached (garbage : Ptr → ListNode) (behind : HtMember → ListPlace HtMember → Bool)
    (reached : Reached coefficients store bucket chains) (pairs : List (Key × Value)) (past : List Call)
    (lookups : ∀ key, lookupIn coefficients chains key = lastInsert key past) :
    ∃ final bucket' chains', insertEach (insert (ListPool.tx garbage behind)) pairs store =
        .ok ((), final) ∧ Reached coefficients final bucket' chains' ∧
      ∀ key, lookupIn coefficients chains' key =
        lastInsert key (past ++ pairs.map fun pair => .insert pair.1 pair.2) := by
  induction pairs generalizing store bucket chains past with
  | nil => exact ⟨store, bucket, chains, rfl, reached, by simpa using lookups⟩
  | cons pair rest inductionHypothesis =>
      obtain ⟨next, nextBucket, nextChains, ran, nextReached, changed, _⟩ :=
        insert_reached garbage behind reached pair.1 pair.2
      obtain ⟨final, bucket', chains', restRan, last, lastLookups⟩ :=
        inductionHypothesis nextReached (past ++ [.insert pair.1 pair.2]) (by
          intro key
          rw [changed, lookups, lastInsert_insert]
          exact if_congr eq_comm rfl rfl)
      refine ⟨final, bucket', chains', ?_, last, ?_⟩
      · rw [insertEach, bind_ok ran]
        exact restRan
      · simpa using lastLookups

/-- After every sequence of inserts into a new pool the next insert is failure-atomic: whenever a crash
happens inside it, the pool holds exactly the chains before the call or exactly those after it, and
when one happens behind it those after it.  All chains hold every key once and in its own bucket. -/
theorem htPmemTx_insert_failureAtomic (garbage : Ptr → ListNode)
    (behind : HtMember → ListPlace HtMember → Bool) (coefficients : HashCoefficients)
    (pairs : List (Key × Value)) (key : Key) (value : Value) :
    ∃ store final bucket bucket' chains chains',
      insertEach (insert (ListPool.tx garbage behind)) pairs (init coefficients) = .ok ((), store) ∧
      insert (ListPool.tx garbage behind) key value store = .ok (1, final) ∧
      (∀ other, lookupIn coefficients chains other =
        lastInsert other (pairs.map fun pair => .insert pair.1 pair.2)) ∧
      (∀ other, lookupIn coefficients chains' other =
        if other = key then some value else lookupIn coefficients chains other) ∧
      Recovered coefficients bucket chains (memory store) ∧
      Recovered coefficients bucket' chains' (memory final) ∧
      ∃ call, final.aux.trail = store.aux.trail ++ call ∧
        FailureAtomic readPool (memory (init coefficients)) store.aux.trail call
          (Recovered coefficients bucket chains) (Recovered coefficients bucket' chains') := by
  obtain ⟨store, bucket, chains, ran, reached, lookups⟩ :=
    run_reached garbage behind (reached_init coefficients) pairs [] fun _ => rfl
  obtain ⟨final, bucket', chains', insertRan, last, changed, call, trail, atomic⟩ :=
    insert_reached garbage behind reached key value
  exact ⟨store, final, bucket, bucket', chains, chains', ran, insertRan, lookups, changed,
    recovered_of_read reached.holds rfl, recovered_of_read last.holds rfl, call, trail, atomic⟩

end StoredsBench.HtPmemTx
