/-
Module: StoredsBench.Linkedlist.DramCasCorrectness
Layer: Correctness
Purpose: `LinkedlistDram_CAS` loses no insert as long as every call has a current view of what it
  changes.  Two inserts before the same head show that a call may lose sight of it.
Trusted boundary: none
Main exports: concurrent_inserts_kept
-/
import StoredsBench.Linkedlist.DramCasSteps

namespace StoredsBench.LinkedlistDramCAS

open Lib

section Threads

variable {T : Type}

/-- A step with a current view. -/
def CurrentAct (list : LinkedlistDramCAS) (place : Place) (list' : LinkedlistDramCAS) (place' : Place) :
    Prop :=
  list.Current place ∧ Act list place list' place'

theorem holds_start (T : Type) : outline.Holds ⟨[], none⟩ (Concurrent.start T) where
  invariant := by
    constructor
    · rfl
    · exact List.nodup_nil
    · exact List.Pairwise.nil
    · intro node flag isFlag
      rw [flagAt, Concurrent.start, init, Heap.get?_empty] at isFlag
      cases isFlag
    · intro node member
      cases member
    · intro before node split
      have lengths := congrArg List.length split
      simp at lengths
    · intro node impossible
      cases impossible
  asserts := fun _ => trivial
  apart := by
    intro first second _
    constructor
    · intro node own
      cases own
    · intro node isHeld
      cases isHeld

/-- A step of the thread `actor` in a run. -/
theorem reaches_moved [DecidableEq T] {act : LinkedlistDramCAS → Place → LinkedlistDramCAS → Place → Prop}
    {start threads : Concurrent T} (reached : Threads.Reaches act start threads) (actor : T)
    {list' : LinkedlistDramCAS} {place' : Place}
    (acted : act threads.shared (threads.thread actor) list' place') :
    Threads.Reaches act start (threads.moved actor list' place') :=
  reached.step (Threads.step_moved acted)

/-- One thread inserts the first node while another one is about to look at it. -/
theorem reaches_two (value : Value) : ∃ threads : Concurrent Bool,
    Threads.Reaches CurrentAct (Concurrent.start Bool) threads ∧ threads.shared.inserted = [1] ∧
      threads.thread false = .inside ⟨7, 2⟩ .loadHead := by
  have first := reaches_moved (.refl : Threads.Reaches CurrentAct (Concurrent.start Bool) _) true
    ⟨trivial, Act.call init 5 value null⟩
  have second := reaches_moved first false ⟨trivial, Act.call _ 7 value null⟩
  have tested := reaches_moved second true ⟨trivial, Act.access rfl⟩
  have hasTail := reaches_moved tested true ⟨⟨rfl, rfl⟩, Act.access rfl⟩
  have hasHead := reaches_moved hasTail true ⟨trivial, Act.access rfl⟩
  have otherTested := reaches_moved hasHead false ⟨trivial, Act.access rfl⟩
  exact ⟨_, otherTested, rfl, rfl⟩

/-- Whatever threads insert in whatever order of their steps, as long as each of them has a current
view: the nodes from `head` on are sorted, and every node whose `insert` returned 1 is one of them, at
one place. -/
theorem concurrent_inserts_kept {threads : Concurrent T}
    (reached : Threads.Reaches CurrentAct (Concurrent.start T) threads) :
    ∃ nodes, Linked threads.shared.nextAt threads.shared.head nodes ∧ nodes.Nodup ∧
      nodes.Pairwise threads.shared.KeysLe ∧ ∀ node ∈ threads.shared.inserted, node ∈ nodes := by
  obtain ⟨order, holds⟩ := Outline.reaches outline_sound Apart.symm (holds_start T) reached
  have invariant : ListInvariant order threads.shared := holds.invariant
  exact ⟨order.nodes, invariant.linked, invariant.distinct, invariant.sorted, invariant.inserted⟩

theorem concurrent_inserts_kept_two : ∃ threads : Concurrent Bool,
    Threads.Reaches CurrentAct (Concurrent.start Bool) threads ∧ threads.shared.inserted = [1] ∧
      threads.thread false = .inside ⟨7, 2⟩ .loadHead ∧
      ∃ nodes, Linked threads.shared.nextAt threads.shared.head nodes ∧ nodes.Nodup ∧
        nodes.Pairwise threads.shared.KeysLe ∧ ∀ node ∈ threads.shared.inserted, node ∈ nodes := by
  obtain ⟨threads, reached, inserted, other⟩ := reaches_two ⟨[97], by decide, by decide⟩
  exact ⟨threads, reached, inserted, other, concurrent_inserts_kept reached⟩

/-! ### A stale view -/

/-- So many accesses of one thread. -/
def perform [DecidableEq T] (actor : T) : Nat → Concurrent T → Option (Concurrent T)
  | 0, threads => some threads
  | count + 1, threads =>
      match threads.thread actor with
      | .idle => none
      | .inside call pc => do
          let (list, place) ← threads.shared.act call pc
          perform actor count (threads.moved actor list place)

theorem perform_reaches [DecidableEq T] {start : Concurrent T} {actor : T} {count : Nat}
    {threads next : Concurrent T} (reached : Threads.Reaches Act start threads)
    (performed : perform actor count threads = some next) : Threads.Reaches Act start next := by
  induction count generalizing threads with
  | zero =>
      cases performed
      exact reached
  | succ count inductionHypothesis =>
      unfold perform at performed
      split at performed
      · cases performed
      · next call pc place =>
          obtain ⟨⟨list, place'⟩, acted, rest⟩ := Option.bind_eq_some_iff.mp performed
          apply inductionHypothesis _ rest
          apply reaches_moved reached
          rw [place]
          exact Act.access acted

/-- A thread calls `insert`. -/
def callInsert [DecidableEq T] (actor : T) (key : Key) (value : Value) (threads : Concurrent T) :
    Option (Concurrent T) :=
  match threads.thread actor with
  | .idle =>
      some (threads.moved actor (threads.shared.createNode key value null)
        (.inside ⟨key, threads.shared.nodes.size + 1⟩ .testHead))
  | .inside _ _ => none

theorem callInsert_reaches [DecidableEq T] {start : Concurrent T} {actor : T} {key : Key} {value : Value}
    {threads next : Concurrent T} (reached : Threads.Reaches Act start threads)
    (called : callInsert actor key value threads = some next) : Threads.Reaches Act start next := by
  unfold callInsert at called
  split at called
  · next idle =>
      cases called
      apply reaches_moved reached
      rw [idle]
      exact Act.call _ _ _ _
  · cases called

/-- The handler's inserts of 100, 60 and 40: the call for 60 compares its key with 100 before the call for
40 puts its node in front, and takes that one for `prev_head` afterwards. -/
def handlerRun (value : Value) : Option (Concurrent Bool) := do
  let threads ← callInsert true 100 value (Concurrent.start Bool)
  let threads ← perform true 3 threads
  let threads ← callInsert false 60 value threads
  let threads ← perform false 3 threads
  let threads ← callInsert true 40 value threads
  let threads ← perform true 11 threads
  perform false 8 threads

theorem handlerRun_reaches {value : Value} {threads : Concurrent Bool}
    (ran : handlerRun value = some threads) :
    Threads.Reaches Act (Concurrent.start Bool) threads := by
  unfold handlerRun at ran
  obtain ⟨_, first, ran⟩ := Option.bind_eq_some_iff.mp ran
  obtain ⟨_, firstDone, ran⟩ := Option.bind_eq_some_iff.mp ran
  obtain ⟨_, second, ran⟩ := Option.bind_eq_some_iff.mp ran
  obtain ⟨_, secondCompared, ran⟩ := Option.bind_eq_some_iff.mp ran
  obtain ⟨_, third, ran⟩ := Option.bind_eq_some_iff.mp ran
  obtain ⟨_, thirdDone, secondDone⟩ := Option.bind_eq_some_iff.mp ran
  have firstReached := perform_reaches (callInsert_reaches .refl first) firstDone
  have secondReached := perform_reaches (callInsert_reaches firstReached second) secondCompared
  have thirdReached := perform_reaches (callInsert_reaches secondReached third) thirdDone
  exact perform_reaches thirdReached secondDone

theorem handlerRun_result (value : Value) : ∃ threads, handlerRun value = some threads ∧
    (∀ thread, threads.thread thread = .idle) ∧ threads.shared.inserted = [2, 3, 1] ∧
      Linked threads.shared.nextAt threads.shared.head [2, 3, 1] ∧
      threads.shared.keyAt 2 = some 60 ∧ threads.shared.keyAt 3 = some 40 := by
  refine ⟨_, rfl, ?_, rfl, ?_, rfl, rfl⟩
  · intro thread
    cases thread with
    | false => rfl
    | true => rfl
  · exact ⟨rfl, by decide, 3, rfl, rfl, by decide, 1, rfl, rfl, by decide, null, rfl, rfl⟩

/-- All three inserts return 1, and the list starts with 60 and 40. -/
theorem handlerRun_unsorted : ∃ threads : Concurrent Bool,
    Threads.Reaches Act (Concurrent.start Bool) threads ∧ (∀ thread, threads.thread thread = .idle) ∧
      threads.shared.inserted = [2, 3, 1] ∧
      ¬ ∃ nodes, Linked threads.shared.nextAt threads.shared.head nodes ∧ nodes.Nodup ∧
        nodes.Pairwise threads.shared.KeysLe ∧ ∀ node ∈ threads.shared.inserted, node ∈ nodes := by
  obtain ⟨threads, ran, idle, inserted, path, second, third⟩ :=
    handlerRun_result ⟨[97], by decide, by decide⟩
  refine ⟨threads, handlerRun_reaches ran, idle, inserted, ?_⟩
  rintro ⟨nodes, linked, _, sorted, _⟩
  obtain rfl : nodes = [2, 3, 1] := Leads.unique linked path
    (fun member => linked.ne_null _ member rfl) (by decide)
  obtain ⟨firstKey, secondKey, firstKnown, secondKnown, le⟩ :=
    (List.pairwise_cons.mp sorted).1 3 List.mem_cons_self
  rw [second] at firstKnown
  rw [third] at secondKnown
  cases firstKnown
  cases secondKnown
  exact absurd le (by decide)

end Threads

end StoredsBench.LinkedlistDramCAS
