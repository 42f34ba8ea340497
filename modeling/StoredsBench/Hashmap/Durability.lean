/-
Module: StoredsBench.Hashmap.Durability
Layer: Correctness
Purpose: `HtPmem` persists the bucket of a new entry and the bytes behind it, but not the entry: after a
  crash behind an insert the key may be gone.
Trusted boundary: none
Main exports: HtPmem.Durable, HtPmem.not_insertDurable
-/
import StoredsBench.Hashmap.PmemRefinement
import StoredsBench.Lists.Durability

namespace StoredsBench.HtPmem

open Lib Lib.SortedAssoc Lists Hashmap

variable {key : Option Key} {garbage : Ptr → ListNode} {coefficients : HashCoefficients}
  {store final : HtPmem} {bucket : List Ptr} {chains : Nat → List Cell}

/-- Every crash leaves, for all bindings of the chains, links from a bucket that lead to them. -/
def Durable (coefficients : HashCoefficients) (final : HtPmem) (chains : Nat → List Cell) : Prop :=
  ∀ recovered, Recovers readPool (memory (init coefficients)) final.aux.trail recovered →
    ∀ key value, lookupIn coefficients chains key = some value →
      ∃ index first, readRoot recovered (.bucket index) = some (.pointer (some first)) ∧
        Reaches recovered.heap first key value

/-- After these inserts another one is durable, wherever objects lie and whatever the allocator leaves
in them. -/
def InsertDurable (pairs : List (Key × Value)) (stored : Key) (value : Value) : Prop :=
  ∀ garbage behind coefficients store final bucket chains,
    insertEach (insert (ListPool.plain garbage behind)) pairs (init coefficients) = .ok ((), store) →
    insert (ListPool.plain garbage behind) stored value store = .ok (1, final) →
    Hashmap.Holds coefficients bucket (memory final) chains → Durable coefficients final chains

/-- The pool of the plain class with nothing behind the buckets. -/
abbrev bare (garbage : Ptr → ListNode) : ListPool HtMember := ListPool.plain garbage fun _ _ => false

theorem emits_insert (same : ∀ address, (garbage address).key = key) (stored : Key) (value : Value) :
    Emits readPool false (LosesKeys readRoot key) (insert (bare garbage) stored value) := by
  have checks : Emits readPool false (LosesKeys readRoot key) check := by
    apply EffectLogic.Holds.quiet
    · intro store table final ran
      obtain ⟨changed, checked, rfl⟩ := onMemory_inv ran
      obtain ⟨root, rooted, rootRan, branch⟩ := bind_ok_inv checked
      cases rootRan
      cases tableEq : (memory store).aux with
      | none =>
          simp only [tableEq] at branch
          cases branch
      | some found =>
          simp only [tableEq] at branch
          cases branch
          rfl
    · exact fun _ => trivial
  apply checks.bind
  intro table
  apply (Emits.lift _).bind
  intro first
  apply Emits.heapSize.bind
  intro bound
  apply emits_findNode.bind
  intro found
  apply EffectLogic.Holds.branch
  · intro _
    have copies : Emits readPool false (LosesKeys readRoot key)
        ((bare garbage).overwrite value found) := by
      apply emits_overwrite rootApart
      · exact fun _ _ _ => trivial
      · exact fun _ _ => trivial
      · exact fun _ _ => trivial
      · exact fun mode => by cases mode
    apply copies.bind
    intro _
    apply (Emits.persist fun _ => losesKeys_persist fun _ => rfl).bind
    exact fun _ => Emits.pure 1
  · intro _
    have pushes : Emits readPool false (LosesKeys readRoot key)
        (pushEntry (bare garbage) table first stored value) := by
      apply emits_pushEntry
      · exact fun _ _ _ => trivial
      · exact fun _ _ => trivial
      · exact fun _ _ => trivial
      · exact fun address memory live => losesKeys_allocate same address live
      · exact fun mode => by cases mode
      · exact fun _ _ _ _ => rfl
    apply pushes.bind
    exact fun _ => Emits.pure 1

theorem traced_run (same : ∀ address, (garbage address).key = key) {initial : HtPmem}
    (traced : Traced readPool (LosesKeys readRoot key) initial store)
    (holds : Hashmap.Holds coefficients bucket (memory store) chains) (pairs : List (Key × Value)) :
    ∃ final bucket' chains', insertEach (insert (bare garbage)) pairs store = .ok ((), final) ∧
      Traced readPool (LosesKeys readRoot key) initial final ∧
      Hashmap.Holds coefficients bucket' (memory final) chains' := by
  induction pairs generalizing store bucket chains with
  | nil => exact ⟨store, bucket, chains, rfl, traced, holds⟩
  | cons pair rest inductionHypothesis =>
      obtain ⟨next, nextBucket, nextChains, ran, nextHolds, _⟩ :=
        insert_runsTo (bare garbage) holds pair.1 pair.2
      obtain ⟨final, bucket', chains', restRan, finalTraced, finalHolds⟩ :=
        inductionHypothesis (traced.step (emits_insert same pair.1 pair.2) ran) nextHolds
      refine ⟨final, bucket', chains', ?_, finalTraced, finalHolds⟩
      rw [insertEach, bind_ok ran]
      exact restRan

/-- No insert is durable. -/
theorem not_insertDurable (coefficients : HashCoefficients) (pairs : List (Key × Value)) (stored : Key)
    (value : Value) : ¬ InsertDurable pairs stored value := by
  intro durable
  have same : ∀ address, (otherKey stored address).key = some (stored + 1) := fun _ => rfl
  obtain ⟨store, bucket, chains, ran, traced, holds⟩ :=
    traced_run same (Traced.refl rfl) (init_holds coefficients) pairs
  obtain ⟨final, bucket', chains', insertRan, finalHolds, lookups⟩ :=
    insert_runsTo (bare (otherKey stored)) holds stored value
  have finalTraced := traced.step (emits_insert same stored value) insertRan
  have crash := recovers_withoutKeys rootApart finalTraced (Accounted.fresh rfl rfl)
    fun address => Heap.get?_empty address
  have bound : lookupIn coefficients chains' stored = some value := by
    rw [lookups, if_pos rfl]
  obtain ⟨index, first, _, reaches⟩ :=
    durable (otherKey stored) _ coefficients store final bucket' chains' ran insertRan finalHolds
      _ crash stored value bound
  exact not_reaches_withoutKeys (otherKey_ne stored) first value reaches

end StoredsBench.HtPmem
