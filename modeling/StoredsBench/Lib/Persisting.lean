/-
Module: StoredsBench.Lib.Persisting
Layer: Lib
Purpose: Programs outside of transactions that make explicit what is durable: a store makes its places
  dirty, a persist and an allocation clean theirs.  Behind code whose dirty places are known all other
  places hold nothing but their present contents after a crash.
Trusted boundary: none
Main exports: persisting, Persists, Cleaned, Cleaned.step
-/
import StoredsBench.Lib.Logging

namespace StoredsBench.Lib

open EffectLogic

variable {N Y L V α β : Type} {read : Store N Y → L → Option V}

/-- Known are the dirty places; all others are durable. -/
def persisting (read : Store N Y → L → Option V) : EffectLogic N Y L V (L → Bool) read where
  knows := fun dirty before steps final next =>
    ∀ (shelf : Shelf V) (place : L), shelf.Idle →
      (dirty place = false → shelf = Shelf.settled (read before place)) →
      (shelf.after read place steps).Idle ∧
        (next place = false → shelf.after read place steps = Shelf.settled (read final place))
  nil := by
    intro dirty before final same shelf place idle clean
    rw [same] at clean
    exact ⟨idle, clean⟩
  append := by
    intro dirty next last before middle final steps more first second shelf place idle clean
    obtain ⟨middleIdle, middleClean⟩ := first shelf place idle clean
    rw [Shelf.after_append]
    exact second _ place middleIdle middleClean

/-- Code outside of transactions; `dirty` places may be lost before it, those in the second argument of
`post` behind it. -/
abbrev Persists (read : Store N Y → L → Option V) (dirty : L → Bool) (code : PmemProg N Y L α)
    (post : α → (L → Bool) → Prop) : Prop :=
  (persisting read).Holds false dirty code post

namespace Persists

variable {dirty : L → Bool} {code : PmemProg N Y L α} {post : α → (L → Bool) → Prop}

/-- A store makes its places dirty. -/
theorem store {body : Prog N Y α} {range : L → Bool}
    (frames : ∀ before value after, body before = .ok (value, after) → ∀ place,
      (Effect.store range).Frames place (read before place) (read after place))
    (here : ∀ value, post value fun place => dirty place || range place) :
    Persists read dirty (perform (fun _ => .store range) body) post := by
  apply Holds.perform fun _ place => dirty place || range place
  · intro before value after ran shelf place idle clean
    refine ⟨idle.step rfl, fun stillClean => ?_⟩
    rw [Bool.or_eq_false_iff] at stillClean
    have same := (frames before value after ran place).1 stillClean.2
    rw [Shelf.after, Shelf.after, clean stillClean.1, same]
    exact Shelf.settled_step rfl
  · exact here

/-- A persist cleans its places. -/
theorem persist {range : L → Bool} {post : Unit → (L → Bool) → Prop}
    (here : post () fun place => dirty place && !range place) :
    Persists read dirty (persist range : PmemProg N Y L Unit) post := by
  apply Holds.record fun place => dirty place && !range place
  · intro memory shelf place idle clean
    refine ⟨idle.step rfl, fun nowClean => ?_⟩
    rw [Shelf.after, Shelf.after]
    cases inside : range place with
    | true => exact Shelf.step_persist idle inside
    | false =>
        have wasClean : dirty place = false := by simpa [inside] using nowClean
        rw [clean wasClean]
        exact Shelf.settled_step rfl
  · exact here

/-- An allocation leaves the new places clean. -/
theorem provide {body : Prog N Y α} {range : α → L → Bool}
    (frames : ∀ before value after, body before = .ok (value, after) → ∀ place,
      (Effect.provide (range value)).Frames place (read before place) (read after place))
    (here : ∀ value, post value fun place => dirty place && !range value place) :
    Persists read dirty (perform (fun value => .provide (range value)) body) post := by
  apply Holds.perform fun value place => dirty place && !range value place
  · intro before value after ran shelf place idle clean
    refine ⟨idle.step rfl, fun nowClean => ?_⟩
    rw [Shelf.after, Shelf.after]
    cases inside : range value place with
    | true => exact Shelf.step_provide inside
    | false =>
        have wasClean : dirty place = false := by simpa [inside] using nowClean
        rw [clean wasClean, (frames before value after ran place).1 inside]
        exact Shelf.settled_step rfl
  · exact here

end Persists

/-- All places but the dirty ones are durable, and no transaction is open. -/
structure Cleaned (read : Store N Y → L → Option V) (initial : Store N Y) (dirty : L → Bool)
    (store : Store N (Journal N Y L)) : Prop where
  stopped : store.aux.running = false
  idle : ∀ place, (shelfAt read initial store.aux.trail place).Idle
  clean : ∀ place, dirty place = false →
    SteadyAt read initial store.aux.trail (memory store) place

namespace Cleaned

variable {initial recovered : Store N Y} {dirty : L → Bool} {store final : Store N (Journal N Y L)}
  {code : PmemProg N Y L α} {post : α → (L → Bool) → Prop} {value : α}

theorem fresh (stopped : store.aux.running = false) (empty : store.aux.trail = []) :
    Cleaned read (memory store) (fun _ => false) store := by
  constructor
  · exact stopped
  · intro place
    rw [empty]
    exact Shelf.idle_settled _
  · intro place _
    rw [empty]
    exact SteadyAt.nil rfl

/-- One more call. -/
theorem step (cleaned : Cleaned read initial dirty store) (persists : Persists read dirty code post)
    (ran : code store = .ok (value, final)) :
    ∃ next, post value next ∧ Cleaned read initial next final := by
  obtain ⟨steps, next, stopped, trail, knows, here⟩ := persists cleaned.stopped ran
  have places := fun place => knows _ place (cleaned.idle place) (cleaned.clean place)
  refine ⟨next, here, stopped, ?_, ?_⟩
  · intro place
    rw [trail, shelfAt_append]
    exact (places place).1
  · intro place clean
    rw [SteadyAt, trail, shelfAt_append]
    exact (places place).2 clean

/-- What is clean survives. -/
theorem recovers (cleaned : Cleaned read initial dirty store)
    (crash : Recovers read initial store.aux.trail recovered) {place : L} (clean : dirty place = false) :
    read recovered place = read (memory store) place :=
  (cleaned.clean place clean).recovers crash

end Cleaned

end StoredsBench.Lib
