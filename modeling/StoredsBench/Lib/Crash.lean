/-
Module: StoredsBench.Lib.Crash
Layer: Lib
Purpose: What a crash leaves of persistent memory.  An unfinished transaction is rolled back:
  snapshotted places get the contents of their first snapshot, objects it allocated vanish, and every
  other place holds any content it had since it was last durable.  A commit makes snapshotted places
  and allocated objects durable.  When every store hits a place that is snapshotted or allocated by
  then, a crash leaves the memory before the transaction or the one after it.
Trusted boundary: human-reviewed spec
Main exports: Shelf, Shelf.step, Shelf.allows, Recovers, Framed, LoggedAt, Shelved, SteadyAt,
  Shelf.May, FailureAtomic, lastCommitted, AtOnce, LoggedIn, recovers_lastCommitted
-/
import StoredsBench.Lib.Persistence

namespace StoredsBench.Lib

variable {V L M : Type}

/-! ### Effects on one place -/

namespace Effect

variable {place : L} {old new : Option V}

/-- Whether the effect makes later stores of its transaction to the place safe. -/
def covers (effect : Effect L) (place : L) : Bool :=
  match effect with
  | .snapshot range => range place
  | .allocate range => range place
  | _ => false

/-- The effect neither protects the place nor makes it durable. -/
def Spares (place : L) : Effect L → Prop
  | .begin => True
  | .commit => True
  | .snapshot range => range place = false
  | .allocate range => range place = false
  | .provide range => range place = false
  | .store _ => True
  | .persist range => range place = false

/-- The effect leaves it open that a crash brings `content` back to the place: an allocation outside of
transactions puts it there, `present` being what the place holds after the effect, and nothing else
protects the place or makes it durable. -/
def Leaves (place : L) (content present : Option V) : Effect L → Prop
  | .begin => True
  | .commit => True
  | .snapshot range => range place = false
  | .allocate range => range place = false
  | .provide range => range place = true → present = content
  | .store _ => True
  | .persist range => range place = false

/-- Effects that occur inside a transaction. -/
def Inside : Effect L → Prop
  | .begin => False
  | .commit => False
  | .provide _ => False
  | _ => True

/-- Effects of transactions. -/
def Transactional : Effect L → Prop
  | .provide _ => False
  | _ => True

theorem Inside.transactional {effect : Effect L} (inside : effect.Inside) : effect.Transactional := by
  cases effect <;> trivial

/-- What an effect may do to the content of a place: only stores and allocations change it, only in
their range; allocated places were free before, and stores neither make nor free places. -/
def Frames (effect : Effect L) (place : L) (old new : Option V) : Prop :=
  match effect with
  | .store range => (range place = false → new = old) ∧ (new = none ↔ old = none)
  | .allocate range => (range place = false → new = old) ∧ (range place = true → old = none)
  | .provide range => (range place = false → new = old) ∧ (range place = true → old = none)
  | _ => new = old

end Effect

/-- What one place may hold after a crash: the contents it had since it was last durable, unless the
running transaction has a snapshot of it or allocated it. -/
@[ext] structure Shelf (V : Type) where
  durable : Option V → Prop
  undo : Option (Option V)
  fresh : Bool

namespace Shelf

/-- A place whose content is durable. -/
def settled (content : Option V) : Shelf V where
  durable := fun other => other = content
  undo := none
  fresh := false

/-- One effect; `content` is what the place holds after it. -/
def step (shelf : Shelf V) (effect : Effect L) (place : L) (content : Option V) : Shelf V :=
  match effect with
  | .begin => shelf
  | .commit => if shelf.fresh || shelf.undo.isSome then settled content else shelf
  | .snapshot range =>
      if range place && shelf.undo.isNone then { shelf with undo := some content } else shelf
  | .allocate range => if range place then { shelf with fresh := true } else shelf
  | .provide range => if range place then settled content else shelf
  | .store _ => { shelf with durable := fun other => shelf.durable other ∨ other = content }
  | .persist range => if range place then { shelf with durable := (· = content) } else shelf

/-- The contents a crash may leave; `none` is a place of no object. -/
def allows (shelf : Shelf V) (content : Option V) : Prop :=
  if shelf.fresh then content = none
  else
    match shelf.undo with
    | some old => content = old
    | none => shelf.durable content

/-- All effects of a trail. -/
def after (read : M → L → Option V) (place : L) (shelf : Shelf V) :
    List (Effect L × M) → Shelf V
  | [] => shelf
  | (effect, memory) :: rest =>
      after read place (shelf.step effect place (read memory place)) rest

theorem after_append (read : M → L → Option V) (place : L) (shelf : Shelf V)
    (steps more : List (Effect L × M)) :
    shelf.after read place (steps ++ more) = (shelf.after read place steps).after read place more := by
  induction steps generalizing shelf with
  | nil => rfl
  | cons step rest inductionHypothesis => exact inductionHypothesis _

@[simp] theorem settled_allows (content other : Option V) :
    (settled content).allows other ↔ other = content := Iff.rfl

/-- No transaction protects the place. -/
def Idle (shelf : Shelf V) : Prop := shelf.undo = none ∧ shelf.fresh = false

/-- Outside of transactions a crash may leave this content. -/
structure May (shelf : Shelf V) (content : Option V) : Prop where
  idle : shelf.Idle
  durable : shelf.durable content

variable {shelf : Shelf V} {place : L} {content new : Option V} {effect : Effect L}

theorem idle_settled (content : Option V) : (settled content).Idle := ⟨rfl, rfl⟩

theorem may_settled (content : Option V) : (settled content).May content :=
  ⟨idle_settled content, rfl⟩

theorem May.allows (may : shelf.May content) : shelf.allows content := by
  obtain ⟨⟨undo, fresh⟩, durable⟩ := may
  simpa [Shelf.allows, undo, fresh] using durable

theorem idle_commit (shelf : Shelf V) (place : L) (content : Option V) :
    (shelf.step .commit place content).Idle := by
  unfold step
  dsimp only
  split
  · exact idle_settled content
  · rename_i neither
    rw [Bool.or_eq_true, not_or] at neither
    constructor
    · simpa using neither.2
    · simpa using neither.1

/-- Effects that do not protect the place leave it unprotected. -/
theorem Idle.step (idle : shelf.Idle) (uncovered : effect.covers place = false) :
    (shelf.step effect place new).Idle := by
  cases effect with
  | begin => exact idle
  | commit => exact idle_commit shelf place new
  | snapshot range =>
      have outside : range place = false := uncovered
      simpa [Shelf.step, outside] using idle
  | allocate range =>
      have outside : range place = false := uncovered
      simpa [Shelf.step, outside] using idle
  | provide range =>
      unfold Shelf.step
      dsimp only
      split
      · exact idle_settled new
      · exact idle
  | store range => exact idle
  | persist range =>
      unfold Shelf.step
      dsimp only
      split
      · exact idle
      · exact idle

theorem May.step (may : shelf.May content) (spares : effect.Spares place) (new : Option V) :
    (shelf.step effect place new).May content := by
  obtain ⟨⟨undo, fresh⟩, durable⟩ := may
  have same (unchanged : shelf.step effect place new = shelf) :
      (shelf.step effect place new).May content := by
    rw [unchanged]
    exact ⟨⟨undo, fresh⟩, durable⟩
  cases effect with
  | begin => exact same rfl
  | commit => exact same (by simp [Shelf.step, undo, fresh])
  | snapshot range => exact same (by simp [Shelf.step, show range place = false from spares])
  | allocate range => exact same (by simp [Shelf.step, show range place = false from spares])
  | provide range => exact same (by simp [Shelf.step, show range place = false from spares])
  | store range => exact ⟨⟨undo, fresh⟩, Or.inl durable⟩
  | persist range => exact same (by simp [Shelf.step, show range place = false from spares])

theorem step_provide {range : L → Bool} (inside : range place = true) :
    shelf.step (.provide range) place content = settled content := by
  simp [step, inside]

/-- Effects that leave a content open keep it possible at a place that has been allocated. -/
theorem leaves_step {old : Option V} (idle : shelf.Idle) (may : old ≠ none → shelf.May content)
    (frames : effect.Frames place old new) (leaves : effect.Leaves place content new) :
    (shelf.step effect place new).Idle ∧
      (new ≠ none → (shelf.step effect place new).May content) := by
  have spared (spares : effect.Spares place) (uncovered : effect.covers place = false)
      (present : new ≠ none → old ≠ none) :
      (shelf.step effect place new).Idle ∧
        (new ≠ none → (shelf.step effect place new).May content) :=
    ⟨idle.step uncovered, fun some => (may (present some)).step spares new⟩
  cases effect with
  | begin => exact spared trivial rfl fun some => by rwa [← show new = old from frames]
  | commit => exact spared trivial rfl fun some => by rwa [← show new = old from frames]
  | snapshot range => exact spared leaves leaves fun some => by rwa [← show new = old from frames]
  | allocate range => exact spared leaves leaves fun some => by rwa [← frames.1 leaves]
  | store range => exact spared trivial rfl fun some missing => some (frames.2.mpr missing)
  | persist range => exact spared leaves rfl fun some => by rwa [← show new = old from frames]
  | provide range =>
      cases inside : range place with
      | false => exact spared inside rfl fun some => by rwa [← frames.1 inside]
      | true =>
          rw [step_provide inside, leaves inside]
          exact ⟨idle_settled content, fun _ => may_settled content⟩

/-- A place that no effect protects may still hold any content it may hold now. -/
theorem May.after {read : M → L → Option V} {steps : List (Effect L × M)} (may : shelf.May content)
    (spares : ∀ step ∈ steps, step.1.Spares place) : (shelf.after read place steps).May content := by
  induction steps generalizing shelf with
  | nil => exact may
  | cons step rest inductionHypothesis =>
      obtain ⟨effect, memory⟩ := step
      apply inductionHypothesis
      · exact may.step (spares (effect, memory) List.mem_cons_self) (read memory place)
      · exact fun later member => spares later (List.mem_cons_of_mem _ member)

/-- A place that no effect protects stays unprotected. -/
theorem Idle.after {read : M → L → Option V} {steps : List (Effect L × M)} (idle : shelf.Idle)
    (uncovered : ∀ step ∈ steps, step.1.covers place = false) : (shelf.after read place steps).Idle := by
  induction steps generalizing shelf with
  | nil => exact idle
  | cons step rest inductionHypothesis =>
      apply inductionHypothesis
      · exact idle.step (uncovered step List.mem_cons_self)
      · exact fun later member => uncovered later (List.mem_cons_of_mem _ member)

theorem Idle.stored (idle : shelf.Idle) (range : L → Bool) (place : L) (new : Option V) :
    (shelf.step (.store range) place new).May new := ⟨idle, Or.inr rfl⟩

/-- An unprotected place may hold what it holds. -/
theorem current_step (current : shelf.Idle → shelf.durable content)
    (frames : effect.Frames place content new) :
    (shelf.step effect place new).Idle → (shelf.step effect place new).durable new := by
  cases effect with
  | begin =>
      obtain rfl : new = content := frames
      exact current
  | commit =>
      obtain rfl : new = content := frames
      unfold step
      dsimp only
      split
      · exact fun _ => rfl
      · exact current
  | snapshot range =>
      obtain rfl : new = content := frames
      unfold step
      dsimp only
      split
      · intro idle
        cases idle.1
      · exact current
  | allocate range =>
      unfold step
      dsimp only
      split
      · intro idle
        cases idle.2
      · rename_i outside
        rw [frames.1 (by simpa using outside)]
        exact current
  | provide range =>
      unfold step
      dsimp only
      split
      · exact fun _ => rfl
      · rename_i outside
        rw [frames.1 (by simpa using outside)]
        exact current
  | store range => exact fun _ => Or.inr rfl
  | persist range =>
      obtain rfl : new = content := frames
      unfold step
      dsimp only
      split
      · exact fun _ => rfl
      · exact current

/-- A durable place that nobody protects or changes stays durable. -/
theorem settled_step (uncovered : effect.covers place = false) :
    (settled content).step effect place content = settled content := by
  cases effect with
  | begin => rfl
  | commit => rfl
  | snapshot range => simp [step, show range place = false from uncovered]
  | allocate range => simp [step, show range place = false from uncovered]
  | provide range => simp [step]
  | store range =>
      ext other
      · exact or_self_iff
      · rfl
      · rfl
  | persist range =>
      unfold step
      dsimp only
      split
      · rfl
      · rfl

theorem step_persist (idle : shelf.Idle) {range : L → Bool} (inside : range place = true) :
    shelf.step (.persist range) place content = settled content := by
  obtain ⟨undo, fresh⟩ := idle
  ext other
  · simp [step, inside, settled]
  · simp [step, inside, settled, undo]
  · simp [step, inside, settled, fresh]

end Shelf

/-! ### Trails -/

section Trails

variable {read : M → L → Option V}

/-- What a place may hold after the trail, when the memory was durable before it. -/
def shelfAt (read : M → L → Option V) (before : M) (trail : List (Effect L × M)) (place : L) :
    Shelf V :=
  (Shelf.settled (read before place)).after read place trail

/-- A crash after the trail may leave `recovered`, when the memory was durable before it. -/
def Recovers (read : M → L → Option V) (before : M) (trail : List (Effect L × M)) (recovered : M) :
    Prop :=
  ∀ place, (shelfAt read before trail place).allows (read recovered place)

/-- The effects account for every change between the memories. -/
def Framed (read : M → L → Option V) : M → List (Effect L × M) → M → Prop
  | before, [], final => read before = read final
  | before, (effect, memory) :: rest, final =>
      (∀ place, effect.Frames place (read before place) (read memory place)) ∧
        Framed read memory rest final

/-- Nothing but its present content may be left at the place. -/
def SteadyAt (read : M → L → Option V) (before : M) (trail : List (Effect L × M)) (final : M)
    (place : L) : Prop :=
  shelfAt read before trail place = Shelf.settled (read final place)

/-- The whole memory is durable after the trail. -/
def Steady (read : M → L → Option V) (before : M) (trail : List (Effect L × M)) (final : M) : Prop :=
  ∀ place, SteadyAt read before trail final place

/-- A crash within the call, which follows the `earlier` effects, leaves the `old` state or the `new`
one, and a crash behind it the new one. -/
structure FailureAtomic (read : M → L → Option V) (initial : M) (earlier call : List (Effect L × M))
    (old new : M → Prop) : Prop where
  within : ∀ count recovered, Recovers read initial (earlier ++ call.take count) recovered →
    old recovered ∨ new recovered
  returned : ∀ recovered, Recovers read initial (earlier ++ call) recovered → new recovered

variable {before middle final recovered : M} {trail steps more : List (Effect L × M)} {place : L}

theorem shelfAt_append : shelfAt read before (trail ++ more) place =
    (shelfAt read before trail place).after read place more :=
  Shelf.after_append read place _ trail more

theorem SteadyAt.nil (same : read before place = read final place) :
    SteadyAt read before [] final place := congrArg Shelf.settled same

theorem SteadyAt.trans (steady : SteadyAt read before trail middle place)
    (next : SteadyAt read middle more final place) :
    SteadyAt read before (trail ++ more) final place := by
  rw [SteadyAt, shelfAt_append, steady]
  exact next

theorem SteadyAt.recovers (steady : SteadyAt read before trail final place)
    (crash : Recovers read before trail recovered) : read recovered place = read final place := by
  have allowed := crash place
  rw [steady] at allowed
  exact allowed

theorem Steady.recovers (steady : Steady read before trail final)
    (crash : Recovers read before trail recovered) : read recovered = read final :=
  funext fun place => (steady place).recovers crash

/-- After a durable memory only the later effects matter. -/
theorem Steady.recovers_append (steady : Steady read before trail middle) :
    Recovers read before (trail ++ more) recovered ↔ Recovers read middle more recovered := by
  refine forall_congr' fun place => ?_
  rw [shelfAt_append, show shelfAt read before trail place = _ from steady place]
  rfl

theorem Steady.congr (steady : Steady read before trail final) (same : read middle = read final) :
    Steady read before trail middle := by
  intro place
  rw [SteadyAt, same]
  exact steady place

theorem FailureAtomic.mono {initial : M} {earlier call : List (Effect L × M)}
    {old new older newer : M → Prop} (atomic : FailureAtomic read initial earlier call old new)
    (before : ∀ memory, old memory → older memory) (after : ∀ memory, new memory → newer memory) :
    FailureAtomic read initial earlier call older newer where
  within := fun count recovered crash =>
    (atomic.within count recovered crash).imp (before recovered) (after recovered)
  returned := fun recovered crash => after recovered (atomic.returned recovered crash)

/-- A place without protection that nothing changes. -/
theorem SteadyAt.of_unchanged
    (unchanged : ∀ step ∈ steps, step.1.covers place = false ∧ read step.2 place = read before place)
    (same : read final place = read before place) : SteadyAt read before steps final place := by
  rw [SteadyAt, same, shelfAt]
  induction steps with
  | nil => rfl
  | cons step rest inductionHypothesis =>
      obtain ⟨effect, memory⟩ := step
      obtain ⟨uncovered, kept⟩ := unchanged (effect, memory) List.mem_cons_self
      rw [Shelf.after, kept, Shelf.settled_step uncovered]
      exact inductionHypothesis fun later member => unchanged later (List.mem_cons_of_mem _ member)

/-- A crash may leave every memory each of whose places may hold its content. -/
theorem recovers_of_may (may : ∀ place, (shelfAt read before trail place).May (read recovered place)) :
    Recovers read before trail recovered := fun place => (may place).allows

theorem Framed.current (framed : Framed read before steps final) (place : L) {shelf : Shelf V}
    (current : shelf.Idle → shelf.durable (read before place)) :
    (shelf.after read place steps).Idle →
      (shelf.after read place steps).durable (read final place) := by
  induction steps generalizing before shelf with
  | nil =>
      have same : read before place = read final place := congrFun framed place
      rw [← same]
      exact current
  | cons step rest inductionHypothesis =>
      exact inductionHypothesis framed.2 (Shelf.current_step current (framed.1 place))

/-- A trail of effects that leave a content open keeps it possible. -/
theorem Framed.leaves (framed : Framed read before steps final) {content : Option V} {shelf : Shelf V}
    (leaves : ∀ step ∈ steps, step.1.Leaves place content (read step.2 place)) (idle : shelf.Idle)
    (may : read before place ≠ none → shelf.May content) :
    (shelf.after read place steps).Idle ∧
      (read final place ≠ none → (shelf.after read place steps).May content) := by
  induction steps generalizing before shelf with
  | nil =>
      rw [show read before = read final from framed] at may
      exact ⟨idle, may⟩
  | cons step rest inductionHypothesis =>
      obtain ⟨nextIdle, nextMay⟩ :=
        Shelf.leaves_step idle may (framed.1 place) (leaves step List.mem_cons_self)
      exact inductionHypothesis framed.2
        (fun later member => leaves later (List.mem_cons_of_mem _ member)) nextIdle nextMay

/-- Between transactions a crash may take a place back that nothing protected or made durable. -/
theorem Framed.recovers_taken_back (framed : Framed read before trail final)
    (idle : ∀ place, (shelfAt read before trail place).Idle)
    (spares : ∀ step ∈ trail, step.1.Spares place) (back : read recovered place = read before place)
    (rest : ∀ other, other ≠ place → read recovered other = read final other) :
    Recovers read before trail recovered := by
  apply recovers_of_may
  intro other
  by_cases here : other = place
  · rw [here, back]
    exact (Shelf.may_settled _).after spares
  · rw [rest other here]
    exact ⟨idle other, framed.current other (fun _ => rfl) (idle other)⟩

/-- Between transactions the present memory may be left. -/
theorem Framed.may (framed : Framed read before trail final)
    (idle : (shelfAt read before trail place).Idle) :
    (shelfAt read before trail place).May (read final place) :=
  ⟨idle, framed.current place (fun _ => rfl) idle⟩

namespace Framed

theorem congr_final {other : M} (same : read other = read final)
    (framed : Framed read before steps final) : Framed read before steps other := by
  induction steps generalizing before with
  | nil => exact Eq.trans framed same.symm
  | cons step rest inductionHypothesis => exact ⟨framed.1, inductionHypothesis framed.2⟩

theorem congr {other : M} (same : read other = read before)
    (framed : Framed read before steps final) : Framed read other steps final := by
  cases steps with
  | nil => exact same.trans framed
  | cons step rest =>
      refine ⟨fun place => ?_, framed.2⟩
      rw [same]
      exact framed.1 place

/-- A place that no effect changes. -/
theorem unchanged (framed : Framed read before steps final)
    (same : ∀ step ∈ steps, read step.2 place = read before place) :
    read final place = read before place := by
  induction steps generalizing before with
  | nil => exact (congrFun framed place).symm
  | cons step rest inductionHypothesis =>
      have here := same step List.mem_cons_self
      rw [← here]
      apply inductionHypothesis framed.2
      intro later member
      rw [same later (List.mem_cons_of_mem _ member), here]

theorem append (framed : Framed read before steps middle) (next : Framed read middle more final) :
    Framed read before (steps ++ more) final := by
  induction steps generalizing before with
  | nil => exact next.congr framed
  | cons step rest inductionHypothesis => exact ⟨framed.1, inductionHypothesis framed.2⟩

theorem take (framed : Framed read before steps final) (count : Nat) :
    ∃ middle, Framed read before (steps.take count) middle := by
  induction steps generalizing before count with
  | nil => exact ⟨before, by simp [Framed]⟩
  | cons step rest inductionHypothesis =>
      cases count with
      | zero => exact ⟨before, rfl⟩
      | succ count =>
          obtain ⟨middle, shorter⟩ := inductionHypothesis framed.2 count
          exact ⟨middle, framed.1, shorter⟩

end Framed

end Trails

/-! ### Transactions that log their stores -/

section Logged

variable {read : M → L → Option V}

/-- Stores to the place happen only after a snapshot or an allocation of it. -/
def LoggedAt (place : L) : (covered : Bool) → List (Effect L × M) → Prop
  | _, [] => True
  | covered, (effect, _) :: rest =>
      (∀ range, effect = .store range → range place = true → covered = true) ∧
        LoggedAt place (covered || effect.covers place) rest

/-- Stores to the place happen in transactions only, each after a snapshot or an allocation of it in the
same transaction. -/
def LoggedIn (place : L) : (covered : Bool) → List (Effect L × M) → Prop
  | _, [] => True
  | _, (.begin, _) :: rest => LoggedIn place false rest
  | _, (.commit, _) :: rest => LoggedIn place false rest
  | covered, (effect, _) :: rest =>
      (∀ range, effect = .store range → range place = true → covered = true) ∧
        LoggedIn place (covered || effect.covers place) rest

/-- Transaction by transaction. -/
theorem loggedIn_transaction {place : L} {covered : Bool} {steps more : List (Effect L × M)} {begun done : M}
    (inside : ∀ step ∈ steps, step.1.Inside) :
    LoggedIn place covered ((.begin, begun) :: (steps ++ [(.commit, done)]) ++ more) ↔
      LoggedAt place false steps ∧ LoggedIn place false more := by
  have within : ∀ covered, LoggedIn place covered (steps ++ (.commit, done) :: more) ↔
      LoggedAt place covered steps ∧ LoggedIn place false more := by
    induction steps with
    | nil =>
        intro covered
        simp only [List.nil_append, LoggedIn, LoggedAt, true_and]
    | cons step rest inductionHypothesis =>
        obtain ⟨effect, memory⟩ := step
        intro covered
        have rested := inductionHypothesis (fun later member => inside later (List.mem_cons_of_mem _ member))
        have here : effect.Inside := inside _ List.mem_cons_self
        cases effect with
        | begin => cases here
        | commit => cases here
        | _ => simp only [List.cons_append, LoggedIn, LoggedAt, rested, and_assoc]
  rw [List.cons_append, List.append_assoc, LoggedIn]
  exact within false

/-- The places that are covered after some effects of a transaction. -/
def coveredBy (covered : L → Bool) (steps : List (Effect L × M)) (place : L) : Bool :=
  covered place || steps.any fun step => step.1.covers place

@[simp] theorem coveredBy_nil (covered : L → Bool) : coveredBy (M := M) covered [] = covered := by
  funext place
  simp [coveredBy]

theorem coveredBy_append (covered : L → Bool) (steps more : List (Effect L × M)) :
    coveredBy covered (steps ++ more) = coveredBy (coveredBy covered steps) more := by
  funext place
  simp [coveredBy, Bool.or_assoc]

theorem coveredBy_of_covered {covered : L → Bool} {place : L} (already : covered place = true)
    (steps : List (Effect L × M)) : coveredBy covered steps place = true := by
  simp [coveredBy, already]

theorem LoggedAt.append {place : L} {covered : L → Bool} {steps more : List (Effect L × M)}
    (first : LoggedAt place (covered place) steps)
    (second : LoggedAt place (coveredBy covered steps place) more) :
    LoggedAt place (covered place) (steps ++ more) := by
  induction steps generalizing covered with
  | nil => simpa using second
  | cons step rest inductionHypothesis =>
      obtain ⟨effect, memory⟩ := step
      have again : coveredBy (fun other => covered other || effect.covers other) rest place =
          coveredBy covered ((effect, memory) :: rest) place := by
        simp [coveredBy, Bool.or_assoc]
      refine ⟨first.1, ?_⟩
      apply @inductionHypothesis fun other => covered other || effect.covers other
      · exact first.2
      · rw [again]
        exact second

/-- What is not covered does not change. -/
theorem LoggedAt.unchanged {place : L} {steps : List (Effect L × M)} {before final : M}
    (logged : LoggedAt place false steps) (framed : Framed read before steps final)
    (inside : ∀ step ∈ steps, step.1.Inside) (uncovered : ∀ step ∈ steps, step.1.covers place = false) :
    read final place = read before place := by
  induction steps generalizing before with
  | nil => exact (congrFun framed place).symm
  | cons step rest inductionHypothesis =>
      obtain ⟨effect, memory⟩ := step
      have here := uncovered _ List.mem_cons_self
      have within : effect.Inside := inside _ List.mem_cons_self
      have kept : read memory place = read before place := by
        have frames := framed.1 place
        cases effect with
        | begin => cases within
        | commit => cases within
        | provide range => cases within
        | snapshot range => exact frames
        | persist range => exact frames
        | allocate range => exact frames.1 here
        | store range =>
            apply frames.1
            by_contra inRange
            exact absurd (logged.1 range rfl (Bool.of_not_eq_false inRange)) Bool.false_ne_true
      have rested : LoggedAt place false rest := by
        have later := logged.2
        rwa [here] at later
      rw [inductionHypothesis rested framed.2 (fun later member => inside later (List.mem_cons_of_mem _ member))
        fun later member => uncovered later (List.mem_cons_of_mem _ member)]
      exact kept

/-- More covered places do no harm. -/
theorem LoggedAt.mono {place : L} {covered more : Bool} {steps : List (Effect L × M)}
    (logged : LoggedAt place covered steps) (grows : covered = true → more = true) :
    LoggedAt place more steps := by
  induction steps generalizing covered more with
  | nil => trivial
  | cons step rest inductionHypothesis =>
      constructor
      · exact fun range same inside => grows (logged.1 range same inside)
      · apply inductionHypothesis logged.2
        rw [Bool.or_eq_true, Bool.or_eq_true]
        exact Or.imp_left grows

theorem LoggedAt.take {place : L} {covered : Bool} {steps : List (Effect L × M)}
    (logged : LoggedAt place covered steps) (count : Nat) :
    LoggedAt place covered (steps.take count) := by
  induction steps generalizing covered count with
  | nil => simpa using logged
  | cons step rest inductionHypothesis =>
      cases count with
      | zero => trivial
      | succ count => exact ⟨logged.1, inductionHypothesis logged.2 count⟩

/-- What the shelf of a logged place looks like inside a transaction; `old` is the content before
it, `content` the current one. -/
structure Shelved (old : Option V) (covered : Bool) (shelf : Shelf V) (content : Option V) : Prop where
  fresh : shelf.fresh = true → old = none
  saved : shelf.fresh = false → ∀ saved, shelf.undo = some saved → saved = old
  untouched : shelf.fresh = false → shelf.undo = none → content = old ∧ shelf = Shelf.settled old
  covered : covered = true → shelf.fresh = true ∨ shelf.undo.isSome = true
  live : old ≠ none → content ≠ none

namespace Shelved

variable {place : L} {old content : Option V} {covered : Bool} {shelf : Shelf V}

/-- The place was not changed yet when it is not covered. -/
theorem begun (old : Option V) : Shelved old false (Shelf.settled old) old where
  fresh := fun fresh => by cases fresh
  saved := fun _ saved found => by cases found
  untouched := fun _ _ => ⟨rfl, rfl⟩
  covered := fun covered => by cases covered
  live := fun some => some

theorem allows_iff (shelved : Shelved old covered shelf content) (other : Option V) :
    shelf.allows other ↔ other = old := by
  cases fresh : shelf.fresh with
  | true =>
      rw [shelved.fresh fresh]
      simp [Shelf.allows, fresh]
  | false =>
      cases undo : shelf.undo with
      | some saved =>
          rw [shelved.saved fresh saved undo] at undo
          simp [Shelf.allows, fresh, undo]
      | none =>
          rw [(shelved.untouched fresh undo).2]
          exact Shelf.settled_allows old other

/-- A commit makes the present content durable. -/
theorem committed (shelved : Shelved old covered shelf content) (spot : L) :
    shelf.step .commit spot content = Shelf.settled content := by
  unfold Shelf.step
  dsimp only
  split
  · rfl
  · rename_i neither
    rw [Bool.or_eq_true, not_or] at neither
    obtain ⟨same, isSettled⟩ := shelved.untouched (by simpa using neither.1) (by simpa using neither.2)
    rw [isSettled, same]

theorem snapshot (shelved : Shelved old covered shelf content) (range : L → Bool) :
    Shelved old (covered || range place) (shelf.step (.snapshot range) place content) content := by
  unfold Shelf.step
  dsimp only
  split
  · rename_i taken
    rw [Bool.and_eq_true] at taken
    have undo : shelf.undo = none := Option.isNone_iff_eq_none.mp taken.2
    constructor
    · exact shelved.fresh
    · intro fresh saved found
      rw [← Option.some.inj found]
      exact (shelved.untouched fresh undo).1
    · intro _ missing
      cases missing
    · intro _
      exact Or.inr rfl
    · exact shelved.live
  · rename_i skipped
    constructor
    · exact shelved.fresh
    · exact shelved.saved
    · exact shelved.untouched
    · intro covers
      cases before : covered with
      | true => exact shelved.covered before
      | false =>
          rw [before, Bool.false_or] at covers
          apply Or.inr
          cases undo : shelf.undo with
          | some saved => rfl
          | none => simp [covers, undo] at skipped
    · exact shelved.live

theorem allocate (shelved : Shelved old covered shelf content) {range : L → Bool}
    {next : Option V} (free : range place = true → content = none)
    (kept : range place = false → next = content) :
    Shelved old (covered || range place) (shelf.step (.allocate range) place next) next := by
  unfold Shelf.step
  dsimp only
  cases inside : range place with
  | true =>
      have wasFree : old = none := by
        by_contra present
        exact shelved.live present (free inside)
      constructor
      · intro _
        exact wasFree
      · intro stale
        cases stale
      · intro stale
        cases stale
      · intro _
        exact Or.inl rfl
      · exact fun present => absurd wasFree present
  | false =>
      rw [kept inside, Bool.or_false]
      simpa using shelved

theorem store (shelved : Shelved old covered shelf content) {range : L → Bool} {next : Option V}
    (safe : range place = true → covered = true) (kept : range place = false → next = content)
    (live : next = none ↔ content = none) :
    Shelved old covered (shelf.step (.store range) place next) next := by
  constructor
  · exact shelved.fresh
  · exact shelved.saved
  · intro fresh undo
    have outside : range place = false := by
      cases inside : range place with
      | false => rfl
      | true =>
          rcases shelved.covered (safe inside) with isFresh | saved
          · rw [show shelf.fresh = false from fresh] at isFresh
            cases isFresh
          · rw [show shelf.undo = none from undo] at saved
            cases saved
    obtain ⟨same, isSettled⟩ := shelved.untouched fresh undo
    refine ⟨(kept outside).trans same, ?_⟩
    rw [kept outside, same, isSettled]
    exact Shelf.settled_step rfl
  · exact shelved.covered
  · exact fun present missing => shelved.live present (live.mp missing)

theorem persist (shelved : Shelved old covered shelf content) (range : L → Bool) (place : L) :
    Shelved old covered (shelf.step (.persist range) place content) content := by
  unfold Shelf.step
  dsimp only
  split
  · constructor
    · exact shelved.fresh
    · exact shelved.saved
    · intro fresh undo
      obtain ⟨same, isSettled⟩ := shelved.untouched fresh undo
      refine ⟨same, ?_⟩
      rw [isSettled, same]
      rfl
    · exact shelved.covered
    · exact shelved.live
  · exact shelved

/-- The shelf of a logged place after some effects of a transaction. -/
theorem after {steps : List (Effect L × M)} {before final : M}
    (shelved : Shelved old covered shelf (read before place)) (framed : Framed read before steps final)
    (inside : ∀ step ∈ steps, step.1.Inside) (logged : LoggedAt place covered steps) :
    ∃ covered, Shelved old covered (shelf.after read place steps) (read final place) := by
  induction steps generalizing before covered shelf with
  | nil =>
      rw [show read before = read final from framed] at shelved
      exact ⟨covered, shelved⟩
  | cons step rest inductionHypothesis =>
      obtain ⟨effect, memory⟩ := step
      obtain ⟨changes, framed⟩ := framed
      obtain ⟨safe, logged⟩ := logged
      have here := changes place
      have restInside := fun later member => inside later (List.mem_cons_of_mem _ member)
      cases effect with
      | begin => exact (inside _ List.mem_cons_self).elim
      | commit => exact (inside _ List.mem_cons_self).elim
      | provide range => exact (inside _ List.mem_cons_self).elim
      | snapshot range =>
          rw [← show read memory place = read before place from here] at shelved
          exact inductionHypothesis (shelved.snapshot range) framed restInside logged
      | persist range =>
          rw [← show read memory place = read before place from here] at shelved
          have kept := shelved.persist range place
          rw [← Bool.or_false covered] at kept
          exact inductionHypothesis kept framed restInside logged
      | store range =>
          have kept := shelved.store (safe range rfl) here.1 here.2
          rw [← Bool.or_false covered] at kept
          exact inductionHypothesis kept framed restInside logged
      | allocate range =>
          exact inductionHypothesis (shelved.allocate here.2 here.1) framed restInside logged

end Shelved

variable {before final recovered : M} {steps : List (Effect L × M)}

/-- A crash inside a transaction may leave a logged place with its old content, and with no other. -/
theorem allows_before {place : L} (framed : Framed read before steps final)
    (inside : ∀ step ∈ steps, step.1.Inside) (logged : LoggedAt place false steps)
    (content : Option V) :
    (shelfAt read before ((.begin, before) :: steps) place).allows content ↔
      content = read before place := by
  obtain ⟨covered, shelved⟩ := (Shelved.begun (read before place)).after framed inside logged
  exact shelved.allows_iff content

/-- A crash inside a transaction that logs all its stores leaves the memory before it. -/
theorem recovers_before (framed : Framed read before steps final)
    (inside : ∀ step ∈ steps, step.1.Inside) (logged : ∀ place, LoggedAt place false steps)
    (count : Nat) (crash : Recovers read before (((.begin, before) :: steps).take count) recovered) :
    read recovered = read before := by
  funext place
  cases count with
  | zero => exact crash place
  | succ count =>
      obtain ⟨middle, shorter⟩ := framed.take count
      have restInside : ∀ step ∈ steps.take count, step.1.Inside :=
        fun step member => inside step (List.mem_of_mem_take member)
      exact (allows_before shorter restInside ((logged place).take count) _).mp (crash place)

/-- A crash inside a transaction leaves a place its old content when the place is logged or does not change. -/
theorem allows_kept {place : L} (framed : Framed read before steps final)
    (inside : ∀ step ∈ steps, step.1.Inside)
    (kept : LoggedAt place false steps ∨
      ∀ step ∈ steps, step.1.covers place = false ∧ read step.2 place = read before place)
    (content : Option V) :
    (shelfAt read before ((.begin, before) :: steps) place).allows content ↔
      content = read before place := by
  rcases kept with logged | unchanged
  · exact allows_before framed inside logged content
  · have steady : SteadyAt read before ((.begin, before) :: steps) before place := by
      apply SteadyAt.of_unchanged
      · rw [List.forall_mem_cons]
        exact ⟨⟨rfl, rfl⟩, unchanged⟩
      · rfl
    rw [show shelfAt read before ((.begin, before) :: steps) place = _ from steady]
    exact Shelf.settled_allows _ _

/-- A crash inside a transaction brings back what the transaction has logged, and may keep what happened
to places that it does not cover. -/
theorem recovers_torn (torn : L → Prop) (framed : Framed read before steps final)
    (inside : ∀ step ∈ steps, step.1.Inside)
    (logged : ∀ place, ¬ torn place → LoggedAt place false steps)
    (uncovered : ∀ step ∈ steps, ∀ place, torn place → step.1.covers place = false)
    (old : ∀ place, ¬ torn place → read recovered place = read before place)
    (new : ∀ place, torn place → read recovered place = read final place) :
    Recovers read before ((.begin, before) :: steps) recovered := by
  intro place
  by_cases here : torn place
  · have idle : (shelfAt read before ((.begin, before) :: steps) place).Idle := by
      apply (Shelf.idle_settled _).after
      rw [List.forall_mem_cons]
      exact ⟨rfl, fun step member => uncovered step member place here⟩
    have whole : Framed read before ((.begin, before) :: steps) final := ⟨fun _ => rfl, framed⟩
    rw [new place here]
    exact (whole.may idle).allows
  · rw [allows_before framed inside (logged place here)]
    exact old place here

/-- Once it has committed, the memory after it is durable. -/
theorem steady_after (framed : Framed read before steps final)
    (inside : ∀ step ∈ steps, step.1.Inside) (logged : ∀ place, LoggedAt place false steps) :
    Steady read before ((.begin, before) :: (steps ++ [(.commit, final)])) final := by
  intro place
  obtain ⟨covered, shelved⟩ :=
    (Shelved.begun (read before place)).after framed inside (logged place)
  rw [SteadyAt, ← List.cons_append, shelfAt_append]
  exact shelved.committed place

/-- A transaction that logs the places it changes is failure-atomic. -/
theorem failureAtomic_of_kept (framed : Framed read before steps final)
    (inside : ∀ step ∈ steps, step.1.Inside)
    (kept : ∀ place, LoggedAt place false steps ∨
      ∀ step ∈ steps, step.1.covers place = false ∧ read step.2 place = read before place) :
    FailureAtomic read before [] ((.begin, before) :: (steps ++ [(.commit, final)]))
      (fun recovered => read recovered = read before) (fun recovered => read recovered = read final) := by
  have returned : ∀ recovered,
      Recovers read before ((.begin, before) :: (steps ++ [(.commit, final)])) recovered →
        read recovered = read final := by
    intro recovered crash
    funext place
    apply SteadyAt.recovers _ crash
    rcases kept place with logged | unchanged
    · obtain ⟨covered, shelved⟩ := (Shelved.begun (read before place)).after framed inside logged
      rw [SteadyAt, ← List.cons_append, shelfAt_append]
      exact shelved.committed place
    · have same := framed.unchanged fun step member => (unchanged step member).2
      apply SteadyAt.of_unchanged _ same
      rw [List.forall_mem_cons, List.forall_mem_append, List.forall_mem_singleton]
      exact ⟨⟨rfl, rfl⟩, unchanged, rfl, same⟩
  refine ⟨?_, returned⟩
  intro count recovered crash
  by_cases bound : count ≤ steps.length + 1
  · apply Or.inl
    funext place
    cases count with
    | zero => exact crash place
    | succ count =>
        have bound : count ≤ steps.length := Nat.le_of_succ_le_succ bound
        obtain ⟨middle, shorter⟩ := framed.take count
        have allowed := crash place
        rw [List.nil_append, List.take_succ_cons, List.take_append_of_le_length bound] at allowed
        apply (allows_kept shorter (fun step member => inside step (List.mem_of_mem_take member)) _ _).mp allowed
        rcases kept place with logged | unchanged
        · exact Or.inl (logged.take count)
        · exact Or.inr fun step member => unchanged step (List.mem_of_mem_take member)
  · apply Or.inr
    apply returned
    rwa [List.nil_append, List.take_of_length_le (by simp; omega)] at crash

end Logged

/-! ### Transactions that happen at once -/

section AtOnce

/-- What a crash leaves when all transactions are atomic: the memory behind the last one that has
committed. -/
def lastCommitted (last : M) : List (Effect L × M) → M
  | [] => last
  | (.commit, memory) :: rest => lastCommitted memory rest
  | _ :: rest => lastCommitted last rest

/-- The effects are those of one transaction. -/
structure AtOnce (steps : List (Effect L × M)) (final : M) : Prop where
  inside : ∀ (last : M) (count : Nat), count < steps.length → lastCommitted last (steps.take count) = last
  behind : ∀ last : M, lastCommitted last steps = final

variable {steps more : List (Effect L × M)} {last middle final : M}

theorem lastCommitted_append : lastCommitted last (steps ++ more) =
    lastCommitted (lastCommitted last steps) more := by
  induction steps generalizing last with
  | nil => rfl
  | cons step rest inductionHypothesis =>
      obtain ⟨effect, memory⟩ := step
      cases effect <;> exact inductionHypothesis

/-- Nothing commits inside a transaction. -/
theorem lastCommitted_inside (inside : ∀ step ∈ steps, step.1.Inside) :
    lastCommitted last steps = last := by
  induction steps generalizing last with
  | nil => rfl
  | cons step rest inductionHypothesis =>
      obtain ⟨effect, memory⟩ := step
      have restInside := fun later member => inside later (List.mem_cons_of_mem _ member)
      cases effect with
      | commit => exact (inside _ List.mem_cons_self).elim
      | _ => exact inductionHypothesis restInside

theorem AtOnce.transaction (inside : ∀ step ∈ steps, step.1.Inside) (before : M) :
    AtOnce ((.begin, before) :: (steps ++ [(.commit, final)])) final where
  inside := by
    intro last count bound
    cases count with
    | zero => rfl
    | succ count =>
        have within : count ≤ steps.length := Nat.lt_succ_iff.mp (by simpa using bound)
        rw [List.take_succ_cons, List.take_append_of_le_length within, lastCommitted]
        · exact lastCommitted_inside fun step member => inside step (List.mem_of_mem_take member)
        · simp
  behind := by
    intro last
    rw [lastCommitted, lastCommitted_append]
    · rfl
    · simp

theorem AtOnce.take (atOnce : AtOnce steps final) (last : M) (count : Nat) :
    lastCommitted last (steps.take count) = last ∨ lastCommitted last (steps.take count) = final := by
  by_cases bound : count < steps.length
  · exact Or.inl (atOnce.inside last count bound)
  · rw [List.take_of_length_le (Nat.le_of_not_lt bound)]
    exact Or.inr (atOnce.behind last)

/-- A crash in a transaction, or behind it and in what follows. -/
theorem AtOnce.take_append (atOnce : AtOnce steps middle) (last : M) (count : Nat) :
    lastCommitted last ((steps ++ more).take count) = last ∨
      ∃ less, lastCommitted last ((steps ++ more).take count) =
        lastCommitted middle (more.take less) := by
  rw [List.take_append]
  by_cases bound : count < steps.length
  · rw [Nat.sub_eq_zero_of_le (Nat.le_of_lt bound), List.take_zero, List.append_nil]
    exact Or.inl (atOnce.inside last count bound)
  · refine Or.inr ⟨count - steps.length, ?_⟩
    rw [List.take_of_length_le (Nat.le_of_not_lt bound), lastCommitted_append, atOnce.behind]

end AtOnce

section LoggedTrails

variable {read : M → L → Option V} {before final last recovered : M} {trail : List (Effect L × M)}
  {place : L} {covered : Bool} {shelf : Shelf V}

theorem Shelved.uncovered {old content : Option V} (shelved : Shelved old covered shelf content) :
    Shelved old false shelf content where
  fresh := shelved.fresh
  saved := shelved.saved
  untouched := shelved.untouched
  covered := fun covers => by cases covers
  live := shelved.live

/-- Transaction by transaction a logged place keeps what it held at the last commit. -/
theorem Shelved.logged (shelved : Shelved (read last place) covered shelf (read before place))
    (framed : Framed read before trail final) (transactional : ∀ step ∈ trail, step.1.Transactional)
    (logged : LoggedIn place covered trail) :
    ∃ covered, Shelved (read (lastCommitted last trail) place) covered (shelf.after read place trail)
      (read final place) := by
  induction trail generalizing before covered shelf last with
  | nil =>
      rw [show read before = read final from framed] at shelved
      exact ⟨covered, shelved⟩
  | cons step rest inductionHypothesis =>
      obtain ⟨effect, memory⟩ := step
      obtain ⟨changes, framed⟩ := framed
      have here := changes place
      have rested := fun later member => transactional later (List.mem_cons_of_mem _ member)
      have isTransactional : effect.Transactional := transactional _ List.mem_cons_self
      cases effect with
      | begin =>
          rw [← here] at shelved
          exact inductionHypothesis shelved.uncovered framed rested logged
      | commit =>
          have done := shelved.committed place
          rw [← here] at done
          rw [lastCommitted, Shelf.after, done]
          exact inductionHypothesis (Shelved.begun _) framed rested logged
      | snapshot range =>
          rw [← here] at shelved
          exact inductionHypothesis (shelved.snapshot range) framed rested logged.2
      | allocate range =>
          exact inductionHypothesis (shelved.allocate here.2 here.1) framed rested logged.2
      | provide range => cases isTransactional
      | store range =>
          have stored := shelved.store (logged.1 range rfl) here.1 here.2
          rw [← Bool.or_false covered] at stored
          exact inductionHypothesis stored framed rested logged.2
      | persist range =>
          rw [← here] at shelved
          have persisted := shelved.persist range place
          rw [← Bool.or_false covered] at persisted
          exact inductionHypothesis persisted framed rested logged.2

/-- When all stores are logged a crash leaves the memory of the last commit. -/
theorem recovers_lastCommitted (framed : Framed read before trail final)
    (transactional : ∀ step ∈ trail, step.1.Transactional)
    (logged : ∀ place, LoggedIn place false trail) :
    Recovers read before trail recovered ↔ read recovered = read (lastCommitted before trail) := by
  have allows : ∀ place content, (shelfAt read before trail place).allows content ↔
      content = read (lastCommitted before trail) place := by
    intro place content
    obtain ⟨covered, shelved⟩ :=
      (Shelved.begun (read before place)).logged framed transactional (logged place)
    exact shelved.allows_iff content
  constructor
  · intro crash
    funext place
    exact (allows place _).mp (crash place)
  · intro same place
    rw [same]
    exact (allows place _).mpr rfl

theorem LoggedIn.take (logged : LoggedIn place covered trail) (count : Nat) :
    LoggedIn place covered (trail.take count) := by
  induction trail generalizing covered count with
  | nil =>
      rw [List.take_nil]
      trivial
  | cons step rest inductionHypothesis =>
      obtain ⟨effect, memory⟩ := step
      cases count with
      | zero => trivial
      | succ count =>
          cases effect with
          | begin => exact inductionHypothesis logged count
          | commit => exact inductionHypothesis logged count
          | _ => exact ⟨logged.1, inductionHypothesis logged.2 count⟩

/-- The last commit is one of the trail, or there is none. -/
theorem lastCommitted_cases (last : M) (trail : List (Effect L × M)) :
    lastCommitted last trail = last ∨ (.commit, lastCommitted last trail) ∈ trail := by
  induction trail generalizing last with
  | nil => exact Or.inl rfl
  | cons step rest inductionHypothesis =>
      obtain ⟨effect, memory⟩ := step
      cases effect with
      | commit =>
          apply Or.inr
          rw [lastCommitted]
          rcases inductionHypothesis memory with same | member
          · rw [same]
            exact List.mem_cons_self
          · exact List.mem_cons_of_mem _ member
      | _ =>
          rcases inductionHypothesis last with same | member
          · exact Or.inl same
          · exact Or.inr (List.mem_cons_of_mem _ member)

/-- The effects are those of transactions that leave `keeps` behind, and log all their stores if and only
if the condition holds. -/
structure Transactions (read : M → L → Option V) (keeps : M → Prop) (condition : Prop) (before : M)
    (steps : List (Effect L × M)) (final : M) : Prop where
  framed : Framed read before steps final
  transactional : ∀ step ∈ steps, step.1.Transactional
  commits : ∀ memory, (.commit, memory) ∈ steps → keeps memory
  logged : ∀ more : List (Effect L × M), (∀ place, LoggedIn place false (steps ++ more)) ↔
    condition ∧ ∀ place, LoggedIn place false more
  returned : ∀ last, read last = read before → read (lastCommitted last steps) = read final

namespace Transactions

variable {keeps : M → Prop} {condition other : Prop} {middle : M} {steps more : List (Effect L × M)}

theorem nil (memory : M) : Transactions (L := L) read keeps True memory [] memory where
  framed := rfl
  transactional := by
    intro step member
    cases member
  commits := by
    intro memory member
    cases member
  logged := by
    intro more
    rw [List.nil_append, true_and]
  returned := fun _ same => same

theorem append (first : Transactions read keeps condition before steps middle)
    (second : Transactions read keeps other middle more final) :
    Transactions read keeps (condition ∧ other) before (steps ++ more) final where
  framed := first.framed.append second.framed
  transactional := List.forall_mem_append.mpr ⟨first.transactional, second.transactional⟩
  commits := by
    intro memory member
    rcases List.mem_append.mp member with inFirst | inSecond
    · exact first.commits memory inFirst
    · exact second.commits memory inSecond
  logged := by
    intro later
    rw [List.append_assoc, first.logged, second.logged, and_assoc]
  returned := by
    intro last same
    rw [lastCommitted_append]
    exact second.returned _ (first.returned last same)

/-- The effects of one transaction. -/
theorem single (framed : Framed read before steps final) (inside : ∀ step ∈ steps, step.1.Inside)
    (kept : keeps final) :
    Transactions read keeps (∀ place, LoggedAt place false steps) before
      ((.begin, before) :: (steps ++ [(.commit, final)])) final where
  framed := ⟨fun _ => rfl, framed.append ⟨fun _ => rfl, rfl⟩⟩
  transactional := by
    rw [List.forall_mem_cons, List.forall_mem_append, List.forall_mem_singleton]
    exact ⟨trivial, fun step member => (inside step member).transactional, trivial⟩
  commits := by
    intro memory member
    rw [List.mem_cons, List.mem_append, List.mem_singleton] at member
    rcases member with isBegin | isInside | isCommit
    · cases isBegin
    · exact (inside _ isInside).elim
    · cases isCommit
      exact kept
  logged := by
    intro more
    simp only [loggedIn_transaction inside, forall_and]
  returned := by
    intro last _
    rw [(AtOnce.transaction inside before).behind last]

theorem mono {weaker : M → Prop} (transactions : Transactions read keeps condition before steps final)
    (implies : ∀ memory, keeps memory → weaker memory) (same : condition ↔ other) :
    Transactions read weaker other before steps final where
  framed := transactions.framed
  transactional := transactions.transactional
  commits := fun memory member => implies memory (transactions.commits memory member)
  logged := by
    intro more
    rw [transactions.logged, same]
  returned := transactions.returned

/-- The stores are logged under the condition. -/
theorem logged_iff (transactions : Transactions read keeps condition before steps final) :
    (∀ place, LoggedIn place false steps) ↔ condition := by
  have alone := transactions.logged []
  rw [List.append_nil] at alone
  rw [alone, and_iff_left]
  exact fun place => trivial

theorem recovers (transactions : Transactions read keeps condition before steps final)
    (holds : condition) {earlier : List (Effect L × M)} {count : Nat} (isPrefix : steps.take count = earlier) :
    Recovers read before earlier recovered ↔ read recovered = read (lastCommitted before earlier) := by
  obtain ⟨middle, framed⟩ := transactions.framed.take count
  have logged := fun place => (transactions.logged_iff.mpr holds place).take count
  rw [isPrefix] at framed
  apply recovers_lastCommitted framed
  · intro step member
    rw [← isPrefix] at member
    exact transactions.transactional step (List.mem_of_mem_take member)
  · intro place
    rw [← isPrefix]
    exact logged place

/-- Behind logged transactions other logged transactions are failure-atomic. -/
theorem failureAtomic {anything : M → Prop} (run : Transactions read anything condition before steps middle)
    (next : Transactions read keeps other middle more final) (holds : condition ∧ other)
    (kept : keeps final) :
    FailureAtomic read before steps more (fun recovered => read recovered = read middle)
      (fun recovered => ∃ memory, keeps memory ∧ read recovered = read memory) := by
  have whole : Transactions read (fun _ => True) (condition ∧ other) before (steps ++ more) final :=
    (run.mono (fun _ _ => trivial) Iff.rfl).append (next.mono (fun _ _ => trivial) Iff.rfl)
  constructor
  · intro count recovered crash
    rw [whole.recovers holds (List.take_length_add_append count), lastCommitted_append] at crash
    rcases lastCommitted_cases (lastCommitted before steps) (more.take count) with same | member
    · rw [same] at crash
      exact Or.inl (crash.trans (run.returned before rfl))
    · exact Or.inr ⟨_, next.commits _ (List.mem_of_mem_take member), crash⟩
  · intro recovered crash
    rw [whole.recovers holds (List.take_length), whole.returned before rfl] at crash
    exact ⟨final, kept, crash⟩

end Transactions

end LoggedTrails

end StoredsBench.Lib
