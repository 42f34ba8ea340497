/-
Module: StoredsBench.Lib.Logging
Layer: Lib
Purpose: Rules for the effects of programs.  An `EffectLogic` says what is known of the effects
  between two memories and what is known behind them; its rules follow the text of a program.
  `logging` knows that a program inside a transaction stores only to places it has snapshotted or
  allocated, and a transaction around such a program is failure-atomic.  `allowing` knows that all
  effects are of an allowed kind.
Trusted boundary: none
Main exports: EffectLogic, EffectLogic.Holds, logging, Logs, transaction_logged, transaction_atomic,
  transaction_atOnce, allowing, Emits, Accounted, Traced
-/
import StoredsBench.Lib.Crash

namespace StoredsBench.Lib

variable {N Y L V α β S : Type} {read : Store N Y → L → Option V}

/-- What is known of effects: `knows before steps final` takes what is known before them to what is
known behind them. -/
structure EffectLogic (N Y L V S : Type) (read : Store N Y → L → Option V) where
  knows : S → Store N Y → List (Effect L × Store N Y) → Store N Y → S → Prop
  nil : ∀ {known before final}, read before = read final → knows known before [] final known
  append : ∀ {known next last before middle final steps more}, knows known before steps middle next →
    knows next middle more final last → knows known before (steps ++ more) final last

namespace EffectLogic

variable (logic : EffectLogic N Y L V S read)

/-- Whenever the code runs, inside or outside a transaction, the logic knows of its effects. -/
def Holds (running : Bool) (known : S) (code : PmemProg N Y L α) (post : α → S → Prop) : Prop :=
  ∀ ⦃store final : Store N (Journal N Y L)⦄ ⦃value : α⦄, store.aux.running = running →
    code store = .ok (value, final) →
    ∃ steps next, final.aux.running = running ∧ final.aux.trail = store.aux.trail ++ steps ∧
      logic.knows known (memory store) steps (memory final) next ∧ post value next

variable {logic} {running : Bool} {known : S} {code : PmemProg N Y L α} {post : α → S → Prop}

theorem Holds.bind {rest : α → PmemProg N Y L β} {last : β → S → Prop}
    (first : logic.Holds running known code post)
    (second : ∀ value next, post value next → logic.Holds running next (rest value) last) :
    logic.Holds running known (code >>= rest) last := by
  intro store final value started ran
  obtain ⟨between, middle, firstRan, restRan⟩ := bind_ok_inv ran
  obtain ⟨steps, next, middleRunning, trail, known, holds⟩ := first started firstRan
  obtain ⟨more, after, finalRunning, moreTrail, moreKnown, moreHolds⟩ :=
    second between next holds middleRunning restRan
  refine ⟨steps ++ more, after, finalRunning, ?_, logic.append known moreKnown, moreHolds⟩
  rw [moreTrail, trail, List.append_assoc]

theorem Holds.weaken {weaker : α → S → Prop} (holds : logic.Holds running known code post)
    (implies : ∀ value next, post value next → weaker value next) :
    logic.Holds running known code weaker := by
  intro store final value started ran
  obtain ⟨steps, next, finalRunning, trail, knows, here⟩ := holds started ran
  exact ⟨steps, next, finalRunning, trail, knows, implies value next here⟩

/-- Code without effects that changes nothing persistent. -/
theorem Holds.unseen (quiet : ∀ store value final, code store = .ok (value, final) →
      final.aux.running = store.aux.running ∧ final.aux.trail = store.aux.trail ∧
        read (memory store) = read (memory final))
    (here : ∀ value, post value known) : logic.Holds running known code post := by
  intro store final value started ran
  obtain ⟨stillRunning, sameTrail, sameRead⟩ := quiet store value final ran
  refine ⟨[], known, stillRunning.trans started, ?_, logic.nil sameRead, here value⟩
  rw [sameTrail, List.append_nil]

/-- Code that changes nothing at all. -/
theorem Holds.quiet (reading : Reading code) (here : ∀ value, post value known) :
    logic.Holds running known code post := by
  apply Holds.unseen
  · intro store value final ran
    rw [reading ran]
    exact ⟨rfl, rfl, rfl⟩
  · exact here

theorem Holds.pure {value : α} (here : post value known) :
    logic.Holds running known (pure value : PmemProg N Y L α) post := by
  intro store final result started ran
  cases ran
  exact ⟨[], known, started, (List.append_nil _).symm, logic.nil rfl, here⟩

theorem Holds.load {post : N → S → Prop} (address : Ptr) (here : ∀ node, post node known) :
    logic.Holds running known (Prog.load address : PmemProg N Y L N) post :=
  Holds.quiet (Reading.load address) here

theorem Holds.lift (computation : Except Fault α) (here : ∀ value, post value known) :
    logic.Holds running known (Prog.lift computation : PmemProg N Y L α) post :=
  Holds.quiet (Reading.lift computation) here

theorem Holds.getRoot {post : Ptr → S → Prop} (here : ∀ root, post root known) :
    logic.Holds running known (Prog.getRoot : PmemProg N Y L Ptr) post :=
  Holds.quiet Reading.getRoot here

theorem Holds.heapSize {post : Nat → S → Prop} (here : ∀ size, post size known) :
    logic.Holds running known (Prog.heapSize : PmemProg N Y L Nat) post :=
  Holds.quiet Reading.heapSize here

/-- Code for the memory that changes nothing persistent. -/
theorem Holds.unseenOnMemory {body : Prog N Y α}
    (unseen : ∀ before value after, body before = .ok (value, after) → read before = read after)
    (here : ∀ value, post value known) :
    logic.Holds running known (onMemory body : PmemProg N Y L α) post := by
  apply Holds.unseen
  · intro store value final ran
    obtain ⟨changed, bodyRan, rfl⟩ := onMemory_inv ran
    exact ⟨rfl, rfl, unseen _ value changed bodyRan⟩
  · exact here

theorem Holds.reads {body : Prog N Y α} (reading : Reading body) (here : ∀ value, post value known) :
    logic.Holds running known (onMemory body : PmemProg N Y L α) post := by
  apply Holds.unseenOnMemory
  · intro before value after ran
    rw [reading ran]
  · exact here

theorem Holds.fault (reason : Fault) :
    logic.Holds running known (Prog.fault reason : PmemProg N Y L α) post := by
  intro store final value started ran
  cases ran

theorem Holds.branch {condition : Prop} [Decidable condition] {other : PmemProg N Y L α}
    (left : condition → logic.Holds running known code post)
    (right : ¬ condition → logic.Holds running known other post) :
    logic.Holds running known (if condition then code else other) post := by
  by_cases holds : condition
  · rw [if_pos holds]
    exact left holds
  · rw [if_neg holds]
    exact right holds

/-- One effect. -/
theorem Holds.perform {effect : α → Effect L} {body : Prog N Y α} (next : α → S)
    (knows : ∀ before value after, body before = .ok (value, after) →
      logic.knows known before [(effect value, after)] after (next value))
    (here : ∀ value, post value (next value)) :
    logic.Holds running known (perform effect body) post := by
  intro store final value started ran
  obtain ⟨changed, bodyRan, rfl⟩ := perform_inv ran
  exact ⟨[(effect value, changed)], next value, started, rfl, knows _ _ _ bodyRan, here value⟩

theorem Holds.record {effect : Effect L} (next : S) {post : Unit → S → Prop}
    (knows : ∀ memory, logic.knows known memory [(effect, memory)] memory next)
    (here : post () next) :
    logic.Holds running known (record effect : PmemProg N Y L Unit) post := by
  intro store final value started ran
  cases ran
  exact ⟨[(effect, memory store)], next, started, rfl, knows _, here⟩

/-- A transaction inside another one. -/
theorem Holds.nested (holds : logic.Holds true known code post) :
    logic.Holds true known (transaction code) post := by
  intro store final value started ran
  rw [transaction_running started] at ran
  exact holds started ran

/-- What a transaction adds to the trail, when its code runs there like `other`. -/
theorem Holds.inTransaction {other : PmemProg N Y L α} (holds : logic.Holds true known other post)
    {store final : Store N (Journal N Y L)} {value : α} (idle : store.aux.running = false)
    (same : code (setRunning true (logged .begin store)) = other (setRunning true (logged .begin store)))
    (ran : transaction code store = .ok (value, final)) :
    ∃ steps next, final.aux.running = false ∧
      final.aux.trail = store.aux.trail ++ (.begin, memory store) :: (steps ++ [(.commit, memory final)]) ∧
      logic.knows known (memory store) steps (memory final) next ∧ post value next := by
  obtain ⟨last, codeRan, rfl⟩ := transaction_inv idle ran
  rw [same] at codeRan
  obtain ⟨steps, next, _, trail, knows, here⟩ := holds rfl codeRan
  refine ⟨steps, next, rfl, ?_, knows, here⟩
  have grown : last.aux.trail = store.aux.trail ++ ((.begin, memory store) :: steps) := by
    rw [trail, trail_setRunning, trail_logged, List.append_assoc]
    rfl
  rw [trail_logged, trail_setRunning, grown]
  simp

end EffectLogic

open EffectLogic

/-! ### Programs that log what they store to -/

/-- Inside a transaction whose `covered` places are safe to store to, stores hit covered places only;
known are the covered places. -/
def logging (read : Store N Y → L → Option V) : EffectLogic N Y L V (L → Bool) read where
  knows := fun covered before steps final next =>
    Framed read before steps final ∧ (∀ step ∈ steps, step.1.Inside) ∧
      (∀ place, LoggedAt place (covered place) steps) ∧ next = coveredBy covered steps
  nil := by
    intro covered before final same
    refine ⟨same, ?_, fun _ => trivial, (coveredBy_nil covered).symm⟩
    intro step member
    cases member
  append := by
    rintro covered next last before middle final steps more ⟨framed, inside, logged, rfl⟩
      ⟨moreFramed, moreInside, moreLogged, rfl⟩
    refine ⟨framed.append moreFramed, ?_, ?_, (coveredBy_append covered steps more).symm⟩
    · exact List.forall_mem_append.mpr ⟨inside, moreInside⟩
    · exact fun place => (logged place).append (moreLogged place)

/-- Code inside a transaction that stores only to places covered by then. -/
abbrev Logs (read : Store N Y → L → Option V) (covered : L → Bool) (code : PmemProg N Y L α)
    (post : α → (L → Bool) → Prop) : Prop :=
  (logging read).Holds true covered code post

/-- What is covered stays covered. -/
def Extends (covered more : L → Bool) : Prop := ∀ place, covered place = true → more place = true

theorem Extends.refl (covered : L → Bool) : Extends covered covered := fun _ inside => inside

theorem Extends.trans {covered more most : L → Bool} (first : Extends covered more)
    (second : Extends more most) : Extends covered most := fun place inside =>
  second place (first place inside)

namespace Logs

variable {covered : L → Bool} {code : PmemProg N Y L α} {post : α → (L → Bool) → Prop}

theorem knows_single (covered : L → Bool) (effect : Effect L) {before after : Store N Y} (inside : effect.Inside)
    (safe : ∀ range, effect = .store range → ∀ place, range place = true → covered place = true)
    (frames : ∀ place, effect.Frames place (read before place) (read after place)) :
    (logging read).knows covered before [(effect, after)] after
      fun place => covered place || effect.covers place := by
  refine ⟨⟨frames, rfl⟩, ?_, ?_, ?_⟩
  · exact List.forall_mem_singleton.mpr inside
  · exact fun place => ⟨fun range same => safe range same place, trivial⟩
  · funext place
    simp [coveredBy]

/-- A snapshot covers its range. -/
theorem addRange {range : L → Bool} {post : Unit → (L → Bool) → Prop}
    (here : post () fun place => covered place || range place) :
    Logs read covered (addRange range : PmemProg N Y L Unit) post :=
  Holds.record (fun place => covered place || range place)
    (fun _ => knows_single covered (.snapshot range) trivial (fun _ same => by cases same)
      fun _ => rfl) here

/-- A store to covered places. -/
theorem store {body : Prog N Y α} {range : L → Bool}
    (safe : ∀ place, range place = true → covered place = true)
    (frames : ∀ before value after, body before = .ok (value, after) → ∀ place,
      (Effect.store range).Frames place (read before place) (read after place))
    (here : ∀ value, post value covered) :
    Logs read covered (perform (fun _ => .store range) body) post := by
  apply Holds.perform fun _ => covered
  · intro before value after ran
    have knows := knows_single covered (.store range) trivial
      (fun other same => by cases same; exact safe) (frames before value after ran)
    simpa only [Effect.covers, Bool.or_false] using knows
  · exact here

/-- An allocation covers the new object. -/
theorem allocate {body : Prog N Y α} {range : α → L → Bool}
    (frames : ∀ before value after, body before = .ok (value, after) → ∀ place,
      (Effect.allocate (range value)).Frames place (read before place) (read after place))
    (here : ∀ value, post value fun place => covered place || range value place) :
    Logs read covered (perform (fun value => .allocate (range value)) body) post :=
  Holds.perform (fun value place => covered place || range value place)
    (fun before value after ran => knows_single covered (.allocate (range value)) trivial
      (fun _ same => by cases same) (frames before value after ran)) here

end Logs

/-- A transaction whose code logs its stores: what it adds to the trail, that it leaves the memory
durable, and what a crash inside it leaves. -/
theorem transaction_logged {code : PmemProg N Y L α} {post : α → (L → Bool) → Prop}
    (logs : Logs read (fun _ => false) code post) {store final : Store N (Journal N Y L)} {value : α}
    (idle : store.aux.running = false) (ran : transaction code store = .ok (value, final)) :
    ∃ trail, final.aux.running = false ∧ final.aux.trail = store.aux.trail ++ trail ∧
      Steady read (memory store) trail (memory final) ∧
      ∀ count < trail.length, ∀ recovered,
        Recovers read (memory store) (trail.take count) recovered →
          read recovered = read (memory store) := by
  obtain ⟨steps, _, stopped, trail, ⟨framed, inside, logged, _⟩, _⟩ := logs.inTransaction idle rfl ran
  refine ⟨(.begin, memory store) :: (steps ++ [(.commit, memory final)]), stopped, trail, ?_, ?_⟩
  · exact steady_after framed inside logged
  · intro count bound recovered crash
    apply recovers_before framed inside logged count
    have within : count ≤ ((.begin, memory store) :: steps).length := by
      simpa using Nat.lt_succ_iff.mp (by simpa using bound)
    rwa [← List.cons_append, List.take_append_of_le_length within] at crash

/-- Such a transaction on durable memory is failure-atomic and leaves the memory durable. -/
theorem transaction_atomic {code : PmemProg N Y L α} {post : α → (L → Bool) → Prop}
    (logs : Logs read (fun _ => false) code post) {store final : Store N (Journal N Y L)} {value : α}
    (idle : store.aux.running = false) (ran : transaction code store = .ok (value, final))
    {initial : Store N Y} (steady : Steady read initial store.aux.trail (memory store)) :
    ∃ call, final.aux.running = false ∧ final.aux.trail = store.aux.trail ++ call ∧
      Steady read initial final.aux.trail (memory final) ∧
      FailureAtomic read initial store.aux.trail call
        (fun recovered => read recovered = read (memory store))
        (fun recovered => read recovered = read (memory final)) := by
  obtain ⟨call, stopped, trail, after, before⟩ := transaction_logged logs idle ran
  refine ⟨call, stopped, trail, ?_, ?_, ?_⟩
  · rw [trail]
    exact fun place => (steady place).trans (after place)
  · intro count recovered crash
    rw [steady.recovers_append] at crash
    by_cases bound : count < call.length
    · exact Or.inl (before count bound recovered crash)
    · rw [List.take_of_length_le (Nat.le_of_not_lt bound)] at crash
      exact Or.inr (after.recovers crash)
  · intro recovered crash
    rw [steady.recovers_append] at crash
    exact after.recovers crash

/-- A transaction whose code logs its stores is one transaction in the trail. -/
theorem transaction_atOnce {code : PmemProg N Y L α} {post : α → (L → Bool) → Prop}
    (logs : Logs read (fun _ => false) code post)
    {store final : Store N (Journal N Y L)} {value : α} (idle : store.aux.running = false)
    (ran : transaction code store = .ok (value, final)) :
    ∃ trail, final.aux.running = false ∧ final.aux.trail = store.aux.trail ++ trail ∧
      AtOnce trail (memory final) := by
  obtain ⟨steps, _, stopped, trail, ⟨_, inside, _⟩, _⟩ := logs.inTransaction idle rfl ran
  exact ⟨_, stopped, trail, AtOnce.transaction inside (memory store)⟩

/-! ### Programs with effects of an allowed kind -/

/-- Effects behind which no place is protected when none was before them. -/
def Closed (read : Store N Y → L → Option V) (steps : List (Effect L × Store N Y)) : Prop :=
  ∀ (shelf : Shelf V) (place : L), shelf.Idle → (shelf.after read place steps).Idle

/-- All effects are allowed, each with the memory after it, and outside of transactions none is left
open. -/
def allowing (read : Store N Y → L → Option V) (running : Bool)
    (allowed : Effect L → Store N Y → Prop) : EffectLogic N Y L V Unit read where
  knows := fun _ before steps final _ =>
    Framed read before steps final ∧ (∀ step ∈ steps, allowed step.1 step.2) ∧
      (running = false → Closed read steps)
  nil := by
    intro _ before final same
    refine ⟨same, ?_, fun _ _ _ idle => idle⟩
    intro step member
    cases member
  append := by
    rintro _ _ _ before middle final steps more ⟨framed, allows, closed⟩
      ⟨moreFramed, moreAllows, moreClosed⟩
    refine ⟨framed.append moreFramed, List.forall_mem_append.mpr ⟨allows, moreAllows⟩, ?_⟩
    intro outside shelf place idle
    rw [Shelf.after_append]
    exact moreClosed outside _ place (closed outside shelf place idle)

/-- Code with allowed effects only; `running` tells whether it runs inside a transaction. -/
abbrev Emits (read : Store N Y → L → Option V) (running : Bool)
    (allowed : Effect L → Store N Y → Prop) (code : PmemProg N Y L α) : Prop :=
  (allowing read running allowed).Holds running () code fun _ _ => True

namespace Emits

variable {running : Bool} {allowed : Effect L → Store N Y → Prop} {code : PmemProg N Y L α}

theorem bind {rest : α → PmemProg N Y L β} (first : Emits read running allowed code)
    (second : ∀ value, Emits read running allowed (rest value)) :
    Emits read running allowed (code >>= rest) :=
  Holds.bind first fun value _ _ => second value

theorem pure (value : α) : Emits read running allowed (pure value : PmemProg N Y L α) :=
  Holds.pure trivial

theorem load (address : Ptr) : Emits read running allowed (Prog.load address : PmemProg N Y L N) :=
  Holds.load address fun _ => trivial

theorem lift (computation : Except Fault α) :
    Emits read running allowed (Prog.lift computation : PmemProg N Y L α) :=
  Holds.lift computation fun _ => trivial

theorem getRoot : Emits read running allowed (Prog.getRoot : PmemProg N Y L Ptr) :=
  Holds.getRoot fun _ => trivial

theorem heapSize : Emits read running allowed (Prog.heapSize : PmemProg N Y L Nat) :=
  Holds.heapSize fun _ => trivial

theorem perform {effect : α → Effect L} {body : Prog N Y α}
    (allows : ∀ before value after, body before = .ok (value, after) → allowed (effect value) after)
    (uncovered : running = false → ∀ value place, (effect value).covers place = false)
    (frames : ∀ before value after, body before = .ok (value, after) → ∀ place,
      (effect value).Frames place (read before place) (read after place)) :
    Emits read running allowed (perform effect body) := by
  apply Holds.perform fun _ => ()
  · intro before value after ran
    exact ⟨⟨frames before value after ran, rfl⟩,
      List.forall_mem_singleton.mpr (allows before value after ran),
      fun outside shelf place idle => idle.step (uncovered outside value place)⟩
  · exact fun _ => trivial

theorem store {range : L → Bool} {body : Prog N Y α}
    (allows : ∀ memory, allowed (.store range) memory)
    (frames : ∀ before value after, body before = .ok (value, after) → ∀ place,
      (Effect.store range).Frames place (read before place) (read after place)) :
    Emits read running allowed (Lib.perform (fun _ => .store range) body) :=
  perform (fun _ _ after _ => allows after) (fun _ _ _ => rfl) frames

theorem addRange {range : L → Bool} (allows : ∀ memory, allowed (.snapshot range) memory) :
    Emits read true allowed (addRange range : PmemProg N Y L Unit) := by
  apply Holds.record ()
  · intro memory
    refine ⟨⟨fun _ => rfl, rfl⟩, List.forall_mem_singleton.mpr (allows memory), ?_⟩
    intro outside
    cases outside
  · trivial

theorem persist {range : L → Bool} (allows : ∀ memory, allowed (.persist range) memory) :
    Emits read running allowed (persist range : PmemProg N Y L Unit) := by
  apply Holds.record ()
  · intro memory
    exact ⟨⟨fun _ => rfl, rfl⟩, List.forall_mem_singleton.mpr (allows memory),
      fun _ shelf place idle => idle.step rfl⟩
  · trivial

/-- A transaction opens and closes. -/
theorem transaction (emits : Emits read true allowed code) (begins : ∀ memory, allowed .begin memory)
    (commits : ∀ memory, allowed .commit memory) :
    Emits read false allowed (transaction code) := by
  intro store final value idle ran
  obtain ⟨steps, _, stopped, trail, ⟨framed, allows, _⟩, _⟩ := emits.inTransaction idle rfl ran
  refine ⟨(.begin, memory store) :: (steps ++ [(.commit, memory final)]), (), stopped, trail, ⟨?_, ?_, ?_⟩,
    trivial⟩
  · refine ⟨fun place => rfl, framed.append ⟨fun place => rfl, rfl⟩⟩
  · rw [List.forall_mem_cons, List.forall_mem_append, List.forall_mem_singleton]
    exact ⟨begins _, allows, commits _⟩
  · intro _ shelf place _
    rw [← List.cons_append, Shelf.after_append]
    exact Shelf.idle_commit _ place _

end Emits

/-! ### Runs of several calls -/

/-- The trail accounts for the memory since `initial`, and no transaction is open. -/
structure Accounted (read : Store N Y → L → Option V) (initial : Store N Y)
    (store : Store N (Journal N Y L)) : Prop where
  stopped : store.aux.running = false
  framed : Framed read initial store.aux.trail (memory store)
  idle : ∀ place, (shelfAt read initial store.aux.trail place).Idle

namespace Accounted

variable {allowed : Effect L → Store N Y → Prop} {code : PmemProg N Y L α} {initial recovered : Store N Y}
  {store final : Store N (Journal N Y L)} {value : α} {place : L}

theorem fresh (stopped : store.aux.running = false) (empty : store.aux.trail = []) :
    Accounted read (memory store) store := by
  constructor
  · exact stopped
  · rw [empty]
    rfl
  · intro place
    rw [empty]
    exact Shelf.idle_settled _

/-- One more call. -/
theorem step (accounted : Accounted read initial store) (emits : Emits read false allowed code)
    (ran : code store = .ok (value, final)) :
    ∃ steps, final.aux.trail = store.aux.trail ++ steps ∧ Accounted read initial final ∧
      ∀ step ∈ steps, allowed step.1 step.2 := by
  obtain ⟨steps, _, stopped, trail, ⟨framed, allows, closed⟩, _⟩ := emits accounted.stopped ran
  refine ⟨steps, trail, ⟨stopped, ?_, ?_⟩, allows⟩
  · rw [trail]
    exact accounted.framed.append framed
  · intro place
    rw [trail, shelfAt_append]
    exact closed rfl _ place (accounted.idle place)

/-- A crash may leave any mix of what the places may hold; each may hold its present content. -/
theorem recovers (accounted : Accounted read initial store)
    (may : ∀ place, read recovered place = read (memory store) place ∨
      (shelfAt read initial store.aux.trail place).May (read recovered place)) :
    Recovers read initial store.aux.trail recovered := by
  apply recovers_of_may
  intro place
  rcases may place with same | may
  · rw [same]
    exact accounted.framed.may (accounted.idle place)
  · exact may

end Accounted

/-- What the calls since `start` added to the trail: allowed effects, which leave no transaction open. -/
structure Traced (read : Store N Y → L → Option V) (allowed : Effect L → Store N Y → Prop)
    (start store : Store N (Journal N Y L)) : Prop where
  stopped : store.aux.running = false
  effects : ∃ steps, store.aux.trail = start.aux.trail ++ steps ∧
    Framed read (memory start) steps (memory store) ∧ Closed read steps ∧
    ∀ step ∈ steps, allowed step.1 step.2

namespace Traced

variable {allowed : Effect L → Store N Y → Prop} {code : PmemProg N Y L α} {initial : Store N Y}
  {start store final : Store N (Journal N Y L)} {value : α} {place : L}

theorem refl (stopped : store.aux.running = false) : Traced read allowed store store where
  stopped := stopped
  effects := by
    refine ⟨[], (List.append_nil _).symm, rfl, fun _ _ idle => idle, ?_⟩
    intro step member
    cases member

/-- One more call. -/
theorem step (traced : Traced read allowed start store) (emits : Emits read false allowed code)
    (ran : code store = .ok (value, final)) : Traced read allowed start final := by
  obtain ⟨earlier, earlierTrail, earlierFramed, earlierClosed, earlierAllowed⟩ := traced.effects
  obtain ⟨steps, _, stopped, trail, ⟨framed, allows, closed⟩, _⟩ := emits traced.stopped ran
  refine ⟨stopped, earlier ++ steps, ?_, earlierFramed.append framed, ?_, ?_⟩
  · rw [trail, earlierTrail, List.append_assoc]
  · intro shelf place idle
    rw [Shelf.after_append]
    exact closed rfl _ place (earlierClosed shelf place idle)
  · exact List.forall_mem_append.mpr ⟨earlierAllowed, allows⟩

theorem accounted (traced : Traced read allowed start store)
    (before : Accounted read initial start) : Accounted read initial store := by
  obtain ⟨steps, trail, framed, closed, _⟩ := traced.effects
  refine ⟨traced.stopped, ?_, ?_⟩
  · rw [trail]
    exact before.framed.append framed
  · intro place
    rw [trail, shelfAt_append]
    exact closed _ place (before.idle place)

/-- A content that all effects leave open stays possible, also at a place that was allocated on the
way. -/
theorem leaves {content : Option V} (traced : Traced read allowed start store)
    (before : Accounted read initial start)
    (leaves : ∀ effect memory, allowed effect memory → effect.Leaves place content (read memory place))
    (may : read (memory start) place ≠ none →
      (shelfAt read initial start.aux.trail place).May content)
    (present : read (memory store) place ≠ none) :
    (shelfAt read initial store.aux.trail place).May content := by
  obtain ⟨steps, trail, framed, _, allows⟩ := traced.effects
  have opened : ∀ step ∈ steps, step.1.Leaves place content (read step.2 place) :=
    fun step member => leaves step.1 step.2 (allows step member)
  rw [trail, shelfAt_append]
  exact (framed.leaves opened (before.idle place) may).2 present

theorem may {content : Option V} (traced : Traced read allowed start store)
    (before : Accounted read initial start)
    (leaves : ∀ effect memory, allowed effect memory → effect.Leaves place content (read memory place))
    (absent : read (memory start) place = none) (present : read (memory store) place ≠ none) :
    (shelfAt read initial store.aux.trail place).May content :=
  traced.leaves before leaves (fun live => absurd absent live) present

end Traced

/-! ### Runs of transactions -/

/-- What the calls since `start` added to the trail: transactions that leave `keeps` behind, and log all
their stores if and only if the condition holds. -/
structure LoggedIf (read : Store N Y → L → Option V) (keeps : Store N Y → Prop) (condition : Prop)
    (start store : Store N (Journal N Y L)) : Prop where
  stopped : store.aux.running = false
  effects : ∃ steps, store.aux.trail = start.aux.trail ++ steps ∧
    Transactions read keeps condition (memory start) steps (memory store)

namespace LoggedIf

variable {keeps weaker : Store N Y → Prop} {code : PmemProg N Y L α} {condition other : Prop}
  {start store final : Store N (Journal N Y L)} {value : α} {place : L}

theorem refl (stopped : store.aux.running = false) : LoggedIf read keeps True store store where
  stopped := stopped
  effects := ⟨[], (List.append_nil _).symm, Transactions.nil _⟩

theorem trans (first : LoggedIf read keeps condition start store)
    (second : LoggedIf read keeps other store final) :
    LoggedIf read keeps (condition ∧ other) start final where
  stopped := second.stopped
  effects := by
    obtain ⟨earlier, earlierTrail, transactions⟩ := first.effects
    obtain ⟨steps, trail, next⟩ := second.effects
    refine ⟨earlier ++ steps, ?_, transactions.append next⟩
    rw [trail, earlierTrail, List.append_assoc]

theorem mono (logged : LoggedIf read keeps condition start store)
    (implies : ∀ memory, keeps memory → weaker memory) (same : condition ↔ other) :
    LoggedIf read weaker other start store where
  stopped := logged.stopped
  effects := by
    obtain ⟨steps, trail, transactions⟩ := logged.effects
    exact ⟨steps, trail, transactions.mono implies same⟩

theorem congr (logged : LoggedIf read keeps condition start store) (same : condition ↔ other) :
    LoggedIf read keeps other start store := logged.mono (fun _ keeps => keeps) same

/-- A transaction that logs its stores; where it starts its code may be read as `other`. -/
theorem transaction {other : PmemProg N Y L α} {post : α → (L → Bool) → Prop}
    (logs : Logs read (fun _ => false) other post) (idle : store.aux.running = false)
    (same : code (setRunning true (logged .begin store)) = other (setRunning true (logged .begin store)))
    (ran : transaction code store = .ok (value, final)) (kept : keeps (memory final)) :
    LoggedIf read keeps True store final := by
  obtain ⟨steps, _, stopped, trail, ⟨framed, inside, logged, _⟩, _⟩ := logs.inTransaction idle same ran
  refine ⟨stopped, _, trail, (Transactions.single framed inside kept).mono (fun _ keeps => keeps) ?_⟩
  rw [iff_true]
  exact logged

/-- A transaction that changes a place without ever covering it. -/
theorem never
    (emits : Emits read true (fun effect _ => effect.Inside ∧ effect.covers place = false) code)
    (idle : store.aux.running = false) (ran : Lib.transaction code store = .ok (value, final))
    (changed : read (memory final) place ≠ read (memory store) place) (kept : keeps (memory final)) :
    LoggedIf read keeps False store final := by
  obtain ⟨steps, _, stopped, trail, ⟨framed, uncovered, _⟩, _⟩ := emits.inTransaction idle rfl ran
  have inside := fun step member => (uncovered step member).1
  refine ⟨stopped, _, trail, (Transactions.single framed inside kept).mono (fun _ keeps => keeps) ?_⟩
  rw [iff_false]
  intro logged
  exact changed ((logged place).unchanged framed inside fun step member => (uncovered step member).2)

end LoggedIf

end StoredsBench.Lib
