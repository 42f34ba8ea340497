/-
Module: StoredsBench.Lib.Interleaving
Layer: Lib
Purpose: Threads that take atomic steps on shared memory, in any order.  `Outline` is a proof outline
  of such a program: an invariant of the shared memory and an assertion for every place a thread may
  be at, which the steps of the others do not interfere with.  Both may speak of a ghost value that the
  program does not hold.
Trusted boundary: none
Main exports: Threads, Threads.Step, Threads.Reaches, Outline, Outline.Sound, Outline.reaches
-/
import Mathlib.Logic.Function.Basic

namespace StoredsBench.Lib

variable {T S L G : Type}

/-- The shared memory, and where every thread is. -/
structure Threads (T S L : Type) where
  shared : S
  thread : T → L

namespace Threads

/-- One of the threads takes a step. -/
def Step (act : S → L → S → L → Prop) (before after : Threads T S L) : Prop :=
  ∃ actor, act before.shared (before.thread actor) after.shared (after.thread actor) ∧
    ∀ other, other ≠ actor → after.thread other = before.thread other

/-- Any number of steps of any threads. -/
inductive Reaches (act : S → L → S → L → Prop) (start : Threads T S L) : Threads T S L → Prop where
  | refl : Reaches act start start
  | step {threads next : Threads T S L} :
      Reaches act start threads → Step act threads next → Reaches act start next

theorem Reaches.mono {act wider : S → L → S → L → Prop} {start threads : Threads T S L}
    (reaches : Reaches act start threads)
    (included : ∀ {shared local' shared' next}, act shared local' shared' next →
      wider shared local' shared' next) : Reaches wider start threads := by
  induction reaches with
  | refl => exact .refl
  | step _ stepped inductionHypothesis =>
      obtain ⟨actor, acted, others⟩ := stepped
      exact inductionHypothesis.step ⟨actor, included acted, others⟩

/-- A step that comes first. -/
theorem Reaches.head {act : S → L → S → L → Prop} {start next threads : Threads T S L}
    (stepped : Step act start next) (reaches : Reaches act next threads) : Reaches act start threads := by
  induction reaches with
  | refl => exact Reaches.refl.step stepped
  | step _ last inductionHypothesis => exact inductionHypothesis.step last

/-- A step of the thread `actor`, with the place it goes to. -/
def moved [DecidableEq T] (threads : Threads T S L) (actor : T) (shared : S) (place : L) :
    Threads T S L where
  shared := shared
  thread := Function.update threads.thread actor place

theorem moved_self [DecidableEq T] (threads : Threads T S L) (actor : T) (shared : S) (place : L) :
    (threads.moved actor shared place).thread actor = place := by
  simp only [moved, Function.update_self]

theorem moved_of_ne [DecidableEq T] {threads : Threads T S L} {actor other : T}
    (different : other ≠ actor) (shared : S) (place : L) :
    (threads.moved actor shared place).thread other = threads.thread other := by
  simp only [moved, Function.update_of_ne different]

theorem step_moved [DecidableEq T] {act : S → L → S → L → Prop} {threads : Threads T S L} {actor : T}
    {shared : S} {place : L} (acted : act threads.shared (threads.thread actor) shared place) :
    Step act threads (threads.moved actor shared place) := by
  refine ⟨actor, ?_, ?_⟩
  · simpa only [moved, Function.update_self] using acted
  · intro other different
    exact Function.update_of_ne different _ _

end Threads

/-- Invariant, assertions, and how the places of two threads exclude each other. -/
structure Outline (G S L : Type) where
  Invariant : G → S → Prop
  Asserts : G → S → L → Prop
  Apart : L → L → Prop

namespace Outline

variable (outline : Outline G S L)

/-- The outline holds with this ghost value. -/
structure Holds (ghost : G) (threads : Threads T S L) : Prop where
  invariant : outline.Invariant ghost threads.shared
  asserts : ∀ thread, outline.Asserts ghost threads.shared (threads.thread thread)
  apart : ∀ first second, first ≠ second →
    outline.Apart (threads.thread first) (threads.thread second)

/-- Every step reestablishes what holds of its own thread, and does not interfere with another. -/
def Sound (act : S → L → S → L → Prop) : Prop :=
  ∀ {ghost shared place shared' place'}, outline.Invariant ghost shared →
    outline.Asserts ghost shared place → act shared place shared' place' →
    ∃ ghost', outline.Invariant ghost' shared' ∧ outline.Asserts ghost' shared' place' ∧
      ∀ other, outline.Asserts ghost shared other → outline.Apart place other →
        outline.Asserts ghost' shared' other ∧ outline.Apart place' other

variable {outline} {act : S → L → S → L → Prop}

/-- A sound outline holds in whatever the threads reach. -/
theorem reaches (sound : outline.Sound act)
    (symmetric : ∀ {first second}, outline.Apart first second → outline.Apart second first)
    {start threads : Threads T S L} {initial : G} (holds : outline.Holds initial start)
    (reached : Threads.Reaches act start threads) : ∃ ghost, outline.Holds ghost threads := by
  induction reached with
  | refl => exact ⟨initial, holds⟩
  | step _ stepped inductionHypothesis =>
      obtain ⟨ghost, invariant, asserts, apart⟩ := inductionHypothesis
      obtain ⟨actor, acted, others⟩ := stepped
      obtain ⟨ghost', invariant', asserts', kept⟩ := sound invariant (asserts actor) acted
      have keptOf : ∀ other, other ≠ actor → _ := fun other different =>
        kept _ (asserts other) (apart actor other (Ne.symm different))
      refine ⟨ghost', invariant', ?_, ?_⟩
      · intro thread
        by_cases isActor : thread = actor
        · rw [isActor]
          exact asserts'
        · rw [others thread isActor]
          exact (keptOf thread isActor).1
      · intro first second different
        by_cases firstActs : first = actor
        · rw [firstActs] at different ⊢
          rw [others second (Ne.symm different)]
          exact (keptOf second (Ne.symm different)).2
        · by_cases secondActs : second = actor
          · rw [secondActs, others first firstActs]
            exact symmetric (keptOf first firstActs).2
          · rw [others first firstActs, others second secondActs]
            exact apart first second different

end Outline

end StoredsBench.Lib
