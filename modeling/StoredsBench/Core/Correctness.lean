/-
Module: StoredsBench.Core.Correctness
Layer: Correctness
Purpose: The keys of the load phase are distinct.  The keys of transactions are those of loaded records
  in some configurations only, because `insert_key_sequence_` stays where `Init` sets it.
Trusted boundary: none
Main exports: nextSequenceKey_distinct, last_follows_inserts_iff, transactions_touch_loaded
-/
import StoredsBench.Core.Workload
import StoredsBench.Core.Hashing
import Mathlib.Data.List.Nodup

namespace StoredsBench.Core

/-! ### Keys of sequence numbers -/

/-- The numbers a counter hands out. -/
def numbersFrom (start : UInt64) (count : Nat) : List UInt64 :=
  (List.range count).map fun index => start + UInt64.ofNat index

theorem numbersFrom_succ (start : UInt64) (count : Nat) :
    numbersFrom start (count + 1) = numbersFrom start count ++ [start + UInt64.ofNat count] := by
  rw [numbersFrom, List.range_succ, List.map_append]
  rfl

theorem add_ofNat_succ (start : UInt64) (count : Nat) :
    start + UInt64.ofNat (count + 1) = start + UInt64.ofNat count + 1 := by
  rw [UInt64.ofNat_add, UInt64.add_assoc]
  rfl

/-- Numbers below `2 ^ 32` have not wrapped around. -/
theorem numberAt_toNat {start : UInt64} {count : Nat}
    (small : ∀ keyNum ∈ numbersFrom start count, keyNum.toNat < 2 ^ 32) {index : Nat}
    (inside : index < count) : (start + UInt64.ofNat index).toNat = start.toNat + index := by
  have below : ∀ {other}, other < count → (start + UInt64.ofNat other).toNat < 2 ^ 32 := by
    intro other otherInside
    exact small _ (List.mem_map.mpr ⟨other, List.mem_range.mpr otherInside, rfl⟩)
  induction index with
  | zero => simp
  | succ index inductionHypothesis =>
      have earlier : index < count := by omega
      have previous := inductionHypothesis earlier
      have bound := below earlier
      have one : (1 : UInt64).toNat = 1 := rfl
      rw [add_ofNat_succ, UInt64.toNat_add, previous, one]
      omega

theorem numbersFrom_nodup {start : UInt64} {count : Nat}
    (small : ∀ keyNum ∈ numbersFrom start count, keyNum.toNat < 2 ^ 32) :
    (numbersFrom start count).Nodup := by
  apply List.Nodup.map_on _ List.nodup_range
  intro first firstMember second secondMember same
  have firstEq := numberAt_toNat small (List.mem_range.mp firstMember)
  have secondEq := numberAt_toNat small (List.mem_range.mp secondMember)
  rw [same] at firstEq
  omega

/-- The key of a number below `2 ^ 32` determines it. -/
theorem buildKeyName_injective (workload : CoreWorkload) {first second : UInt64}
    (firstSmall : first.toNat < 2 ^ 32) (secondSmall : second.toNat < 2 ^ 32)
    (same : workload.buildKeyName first = workload.buildKeyName second) : first = second := by
  unfold CoreWorkload.buildKeyName at same
  split at same
  · exact same
  · exact fnvHash64_injective firstSmall secondSmall same

/-! ### Threads that load -/

section Threads

variable {T : Type} {workload : CoreWorkload} {calls next : Calls T}

/-- What the threads keep: the counter is past all numbers drawn, and each of them belongs to a call
that is pending or has returned its key. -/
structure Counted (workload : CoreWorkload) (calls : Calls T) : Prop where
  order : calls.workload.orderedInserts = workload.orderedInserts
  drawn : calls.drawn = numbersFrom workload.keyGenerator.counter calls.drawn.length
  counter : calls.workload.keyGenerator.counter =
    workload.keyGenerator.counter + UInt64.ofNat calls.drawn.length
  served : ∃ finished, calls.returned = finished.map workload.buildKeyName ∧
    (finished ++ calls.pending.map Prod.snd).Perm calls.drawn

theorem counted_start (workload : CoreWorkload) : Counted workload (Calls.start workload : Calls T) where
  order := rfl
  drawn := rfl
  counter := (UInt64.add_zero _).symm
  served := ⟨[], rfl, List.Perm.refl _⟩

theorem buildKeyName_congr {other : CoreWorkload}
    (same : other.orderedInserts = workload.orderedInserts) :
    other.buildKeyName = workload.buildKeyName := by
  funext keyNum
  rw [CoreWorkload.buildKeyName, CoreWorkload.buildKeyName, same]

theorem Counted.step (counted : Counted workload calls) (stepped : CallStep calls next) :
    Counted workload next := by
  obtain ⟨order, drawn, counter, finished, returned, served⟩ := counted
  cases stepped with
  | draw thread idle =>
      constructor
      · exact order
      · rw [List.length_append, List.length_singleton, numbersFrom_succ, ← drawn, ← counter]
        rfl
      · rw [List.length_append, List.length_singleton, add_ofNat_succ, ← counter]
        rfl
      · refine ⟨finished, returned, ?_⟩
        rw [List.map_cons]
        exact List.perm_middle.trans ((served.cons _).trans (List.perm_append_singleton _ _).symm)
  | finish before after pending =>
      rename_i thread keyNum
      constructor
      · exact order
      · exact drawn
      · exact counter
      · refine ⟨finished ++ [keyNum], ?_, ?_⟩
        · rw [returned, buildKeyName_congr order, List.map_append]
          rfl
        · rw [pending, List.map_append, List.map_cons] at served
          refine List.Perm.trans ?_ served
          have middle : (keyNum :: (before.map Prod.snd ++ after.map Prod.snd)).Perm
              (before.map Prod.snd ++ keyNum :: after.map Prod.snd) := List.perm_middle.symm
          rw [List.append_assoc, List.map_append]
          exact middle.append_left finished

theorem Counted.reaches (reaches : Reaches (Calls.start workload) calls) : Counted workload calls := by
  induction reaches with
  | refl => exact counted_start workload
  | step _ stepped inductionHypothesis => exact inductionHypothesis.step stepped

/-- However threads interleave their calls of `NextSequenceKey`, with any start and either order of
inserts, all keys returned are distinct as long as the numbers drawn are below `2 ^ 32`: the hash is
injective there. -/
theorem nextSequenceKey_distinct (workload : CoreWorkload) {calls : Calls T}
    (reaches : Reaches (Calls.start workload) calls)
    (small : ∀ keyNum ∈ calls.drawn, keyNum.toNat < 2 ^ 32) :
    calls.returned.Nodup ∧ ∀ first second : UInt64, first.toNat < 2 ^ 32 → second.toNat < 2 ^ 32 →
      fnvHash64 first = fnvHash64 second → first = second := by
  obtain ⟨_, drawn, _, finished, returned, served⟩ := Counted.reaches reaches
  constructor
  · have distinct : calls.drawn.Nodup := by
      rw [drawn] at small ⊢
      exact numbersFrom_nodup small
    have finishedDistinct := (List.nodup_append.mp (served.nodup_iff.mpr distinct)).1
    have finishedSmall : ∀ keyNum ∈ finished, keyNum.toNat < 2 ^ 32 := fun keyNum member =>
      small keyNum (served.subset (List.mem_append_left _ member))
    rw [returned]
    apply List.Nodup.map_on _ finishedDistinct
    intro first firstMember second secondMember same
    exact buildKeyName_injective workload (finishedSmall first firstMember)
      (finishedSmall second secondMember) same
  · exact fun first second firstSmall secondSmall same =>
      fnvHash64_injective firstSmall secondSmall same

/-- Two threads draw one after the other and return in the opposite order. -/
theorem reaches_two (workload : CoreWorkload) : ∃ calls : Calls Bool,
    Reaches (Calls.start workload) calls ∧
      calls.drawn = [workload.keyGenerator.counter, workload.keyGenerator.counter + 1] ∧
      calls.returned = [workload.buildKeyName (workload.keyGenerator.counter + 1),
        workload.buildKeyName workload.keyGenerator.counter] := by
  have idle : ∀ call ∈ (Calls.start workload : Calls Bool).pending, call.1 ≠ true := by
    intro call member
    cases member
  have one := Reaches.refl.step (CallStep.draw true idle)
  have two := one.step (.draw false fun call member => by
    obtain rfl := List.mem_singleton.mp member
    exact Bool.noConfusion)
  have three := two.step (.finish [] _ rfl)
  have four := three.step (.finish [] _ rfl)
  exact ⟨_, four, rfl, rfl⟩

theorem nextSequenceKey_distinct_two : ∃ calls : Calls Bool,
    Reaches (Calls.start (Configuration.init ⟨5, 10, .uniform, false, 2⟩)) calls ∧
      (∀ keyNum ∈ calls.drawn, keyNum.toNat < 2 ^ 32) ∧ calls.returned.Nodup := by
  obtain ⟨calls, reaches, drawn, _⟩ := reaches_two (Configuration.init ⟨5, 10, .uniform, false, 2⟩)
  have small : ∀ keyNum ∈ calls.drawn, keyNum.toNat < 2 ^ 32 := by
    rw [drawn]
    intro keyNum member
    rcases List.mem_pair.mp member with rfl | rfl
    · exact (by omega : 5 < 2 ^ 32)
    · exact (by omega : 6 < 2 ^ 32)
  exact ⟨calls, reaches, small, (nextSequenceKey_distinct _ reaches small).1⟩

end Threads

/-! ### Runs -/

/-- The numbers of the inserts among the events. -/
def insertedNumbers : List Event → List UInt64
  | [] => []
  | .nextSequenceKey keyNum _ :: events => keyNum :: insertedNumbers events
  | .nextTransactionKey _ _ :: events => insertedNumbers events

theorem insertedNumbers_append (events more : List Event) :
    insertedNumbers (events ++ more) = insertedNumbers events ++ insertedNumbers more := by
  induction events with
  | nil => rfl
  | cons event events inductionHypothesis =>
      cases event with
      | nextSequenceKey keyNum key =>
          simp only [List.cons_append, insertedNumbers, inductionHypothesis]
      | nextTransactionKey keyNum key => exact inductionHypothesis

theorem numbersFrom_succ' (start : UInt64) (count : Nat) :
    numbersFrom start (count + 1) = start :: numbersFrom (start + 1) count := by
  rw [numbersFrom, List.range_succ_eq_map, List.map_cons, List.map_map, numbersFrom]
  congr 1
  · exact UInt64.add_zero start
  · apply List.map_congr_left
    intro index _
    rw [Function.comp_apply, Nat.succ_eq_add_one, add_ofNat_succ, UInt64.add_assoc, UInt64.add_assoc,
      UInt64.add_comm 1]

section Runs

variable {workload next final : CoreWorkload} {event : Event} {events : List Event}

/-- What no call changes. -/
structure Kept (before after : CoreWorkload) : Prop where
  chooser : after.keyChooser = before.keyChooser
  sequence : after.insertKeySequence = before.insertKeySequence
  order : after.orderedInserts = before.orderedInserts

theorem Step.kept (stepped : Step workload event next) : Kept workload next := by
  cases stepped with
  | nextSequenceKey => exact ⟨rfl, rfl, rfl⟩
  | nextTransactionKey => exact ⟨rfl, rfl, rfl⟩

theorem Run.kept (run : Run workload events final) : Kept workload final := by
  induction run with
  | nil => exact ⟨rfl, rfl, rfl⟩
  | cons stepped _ inductionHypothesis =>
      have first := stepped.kept
      exact ⟨inductionHypothesis.chooser.trans first.chooser,
        inductionHypothesis.sequence.trans first.sequence,
        inductionHypothesis.order.trans first.order⟩

/-- Inserts take the numbers from the counter on, and leave it behind them. -/
theorem Run.numbers (run : Run workload events final) :
    insertedNumbers events =
        numbersFrom workload.keyGenerator.counter (insertedNumbers events).length ∧
      final.keyGenerator.counter =
        workload.keyGenerator.counter + UInt64.ofNat (insertedNumbers events).length := by
  induction run with
  | nil => exact ⟨rfl, (UInt64.add_zero _).symm⟩
  | cons stepped _ inductionHypothesis =>
      obtain ⟨numbers, counter⟩ := inductionHypothesis
      cases stepped with
      | nextSequenceKey =>
          simp only [insertedNumbers, List.length_cons]
          constructor
          · rw [numbersFrom_succ']
            exact congrArg _ numbers
          · rw [counter, add_ofNat_succ, UInt64.add_assoc, UInt64.add_comm _ 1, ← UInt64.add_assoc]
            rfl
      | nextTransactionKey => exact ⟨numbers, counter⟩

theorem Run.split {before after : List Event} (run : Run workload (before ++ event :: after) final) :
    ∃ middle next, Run workload before middle ∧ Step middle event next := by
  induction before generalizing workload with
  | nil =>
      cases run with
      | cons stepped _ => exact ⟨workload, _, .nil workload, stepped⟩
  | cons first before inductionHypothesis =>
      cases run with
      | cons stepped rest =>
          obtain ⟨middle, next, beforeRun, eventStep⟩ := inductionHypothesis rest
          exact ⟨middle, next, .cons stepped beforeRun, eventStep⟩

/-- The key of an insert is built from its number. -/
theorem Run.key_inserted (run : Run workload events final) {keyNum key : UInt64}
    (member : Event.nextSequenceKey keyNum key ∈ events) :
    keyNum ∈ insertedNumbers events ∧ key = workload.buildKeyName keyNum := by
  induction run with
  | nil => cases member
  | cons stepped rest inductionHypothesis =>
      rcases List.mem_cons.mp member with rfl | later
      · cases stepped
        exact ⟨List.mem_cons_self, rfl⟩
      · obtain ⟨inside, keyEq⟩ := inductionHypothesis later
        rw [buildKeyName_congr stepped.kept.order] at keyEq
        refine ⟨?_, keyEq⟩
        cases stepped with
        | nextSequenceKey => exact List.mem_cons_of_mem _ inside
        | nextTransactionKey => exact inside

theorem Run.exists_insert (run : Run workload events final) {keyNum : UInt64}
    (member : keyNum ∈ insertedNumbers events) :
    Event.nextSequenceKey keyNum (workload.buildKeyName keyNum) ∈ events := by
  induction run with
  | nil => cases member
  | cons stepped _ inductionHypothesis =>
      rw [← buildKeyName_congr stepped.kept.order]
      cases stepped with
      | nextSequenceKey =>
          rcases List.mem_cons.mp member with rfl | later
          · exact List.mem_cons_self
          · exact List.mem_cons_of_mem _ (inductionHypothesis later)
      | nextTransactionKey => exact List.mem_cons_of_mem _ (inductionHypothesis member)

/-- Events of the load phase are inserts. -/
theorem length_insertedNumbers (inserts : ∀ event ∈ events, event.Inserts) :
    (insertedNumbers events).length = events.length := by
  induction events with
  | nil => rfl
  | cons event events inductionHypothesis =>
      obtain ⟨first, rest⟩ := List.forall_mem_cons.mp inserts
      cases event with
      | nextSequenceKey keyNum key =>
          rw [insertedNumbers, List.length_cons, List.length_cons, inductionHypothesis rest]
      | nextTransactionKey keyNum key => exact first.elim

theorem Run.append {middle : CoreWorkload} {more : List Event} (run : Run workload events middle)
    (rest : Run middle more final) : Run workload (events ++ more) final := by
  induction run with
  | nil => exact rest
  | cons stepped _ inductionHypothesis => exact .cons stepped (inductionHypothesis rest)

end Runs

/-! ### The latest record -/

section Latest

variable {configuration : Configuration} {calls : Nat} {loads events : List Event}
variable {loaded final : CoreWorkload}

theorem toUInt64_eq_ofNat {number : Int32} {size : Nat} (nonneg : (size : Int) = number.toInt) :
    Configuration.toUInt64 number = UInt64.ofNat size := by
  have bounded : number.toInt < 2 ^ 32 := by
    have := number.toInt_lt
    omega
  rw [Configuration.toUInt64, UInt64.ofInt, ← nonneg, Int.emod_eq_of_lt (by omega) (by omega),
    Int.toNat_natCast]

/-- The numbers of a run that follows the load phase. -/
theorem Loads.numbers (load : Loads configuration calls loads loaded) (run : Run loaded events final) :
    insertedNumbers (loads ++ events) =
      numbersFrom (Configuration.toUInt64 configuration.insertStart)
        (calls + (insertedNumbers events).length) := by
  obtain ⟨loadRun, inserts, lengthEq⟩ := load
  have all := (loadRun.append run).numbers.1
  rw [insertedNumbers_append, List.length_append, length_insertedNumbers inserts, lengthEq] at all
  rw [insertedNumbers_append]
  exact all

theorem Loads.kept (load : Loads configuration calls loads loaded) (run : Run loaded events final) :
    Kept configuration.init final :=
  (load.1.append run).kept

theorem exists_inserts (workload : CoreWorkload) (count : Nat) :
    ∃ events final, Run workload events final ∧ (∀ event ∈ events, event.Inserts) ∧
      events.length = count := by
  induction count generalizing workload with
  | zero => exact ⟨[], workload, .nil workload, by simp, rfl⟩
  | succ count inductionHypothesis =>
      obtain ⟨events, final, run, inserts, lengthEq⟩ := inductionHypothesis workload.nextSequenceKey.2
      refine ⟨_, final, .cons (.nextSequenceKey workload) run, ?_, congrArg _ lengthEq⟩
      exact List.forall_mem_cons.mpr ⟨trivial, inserts⟩

theorem exists_loads (configuration : Configuration) (calls : Nat) :
    ∃ loads loaded, Loads configuration calls loads loaded :=
  exists_inserts configuration.init calls

end Latest

/-! ### Loaded records -/

/-- Every key that `NextTransactionKey` returned was returned by `NextSequenceKey` before. -/
def TouchesLoaded (events : List Event) : Prop :=
  ∀ before keyNum key after, events = before ++ .nextTransactionKey keyNum key :: after →
    ∃ earlier, Event.nextSequenceKey earlier key ∈ before

/-- So it is in every run of the load phase followed by transactions. -/
def TransactionsTouchLoaded (configuration : Configuration) : Prop :=
  ∀ loads loaded events final, Loads configuration configuration.loadCalls loads loaded →
    Run loaded events final → TouchesLoaded (loads ++ events)

/-- The load phase writes the records that `insert_key_sequence_` counts: it starts at zero, and the
threads share them without a remainder. -/
structure LoadsAll (configuration : Configuration) : Prop where
  startsAtZero : configuration.insertStart.toInt = 0
  someRecord : 0 < configuration.recordCount.toInt
  someThread : 0 < configuration.threadCount.toInt
  divides : configuration.threadCount.toInt ∣ configuration.recordCount.toInt

section Loaded

variable {configuration : Configuration} {loads events : List Event} {loaded final : CoreWorkload}

theorem mem_numbersFrom {start keyNum : UInt64} {count : Nat} (inRange : start.toNat + count ≤ 2 ^ 64) :
    keyNum ∈ numbersFrom start count ↔
      start.toNat ≤ keyNum.toNat ∧ keyNum.toNat < start.toNat + count := by
  have numberEq : ∀ index, index < count →
      (start + UInt64.ofNat index).toNat = start.toNat + index := by
    intro index inside
    rw [UInt64.toNat_add, UInt64.toNat_ofNat', Nat.mod_eq_of_lt (by omega : index < 2 ^ 64)]
    exact Nat.mod_eq_of_lt (by omega)
  rw [numbersFrom, List.mem_map]
  constructor
  · rintro ⟨index, member, rfl⟩
    have inside := List.mem_range.mp member
    rw [numberEq index inside]
    omega
  · intro between
    have inside : keyNum.toNat - start.toNat < count := by omega
    refine ⟨_, List.mem_range.mpr inside, ?_⟩
    rw [← UInt64.toNat_inj, numberEq _ inside]
    omega

theorem Configuration.loadCalls_none
    (none : configuration.recordCount.toInt ≤ 0 ∨ configuration.threadCount.toInt ≤ 0) :
    configuration.loadCalls = 0 := by
  rw [Configuration.loadCalls]
  rcases Int.lt_or_le 0 configuration.threadCount.toInt with someThread | noThread
  · have noRecord := none.resolve_right (Int.not_le.mpr someThread)
    have share : configuration.recordCount.toInt.tdiv configuration.threadCount.toInt ≤ 0 := by
      have negated := Int.tdiv_nonneg (Int.neg_nonneg_of_nonpos noRecord) (Int.le_of_lt someThread)
      rw [Int.neg_tdiv] at negated
      omega
    rw [Int.toNat_of_nonpos share, Nat.mul_zero]
  · rw [Int.toNat_of_nonpos noThread, Nat.zero_mul]

/-- The threads leave out what remains of the division. -/
theorem Configuration.loadCalls_some (someRecord : 0 < configuration.recordCount.toInt)
    (someThread : 0 < configuration.threadCount.toInt) :
    configuration.loadCalls + configuration.recordCount.toInt.tmod configuration.threadCount.toInt =
      configuration.recordCount.toInt := by
  have share := Int.tdiv_nonneg (Int.le_of_lt someRecord) (Int.le_of_lt someThread)
  rw [Configuration.loadCalls, Int.natCast_mul, Int.toNat_of_nonneg (Int.le_of_lt someThread),
    Int.toNat_of_nonneg share, Int.mul_tdiv_add_tmod]

theorem Configuration.loadCalls_lt (configuration : Configuration) :
    configuration.loadCalls < 2 ^ 31 := by
  by_cases none : configuration.recordCount.toInt ≤ 0 ∨ configuration.threadCount.toInt ≤ 0
  · rw [Configuration.loadCalls_none none]
    decide
  · have someRecord : 0 < configuration.recordCount.toInt := by omega
    have sum := Configuration.loadCalls_some someRecord (by omega)
    have rest := Int.tmod_nonneg configuration.threadCount.toInt (Int.le_of_lt someRecord)
    have bounded := configuration.recordCount.toInt_lt
    omega

theorem LoadsAll.loadCalls (all : LoadsAll configuration) :
    (configuration.loadCalls : Int) = configuration.recordCount.toInt := by
  have sum := Configuration.loadCalls_some all.someRecord all.someThread
  rw [Int.tmod_eq_zero_of_dvd all.divides, Int.add_zero] at sum
  exact sum

/-- An event of a transaction comes after the load phase. -/
theorem Loads.before_draw {calls : Nat} {before after : List Event} {keyNum key : UInt64}
    (load : Loads configuration calls loads loaded)
    (split : loads ++ events = before ++ .nextTransactionKey keyNum key :: after) :
    ∃ earlier, before = loads ++ earlier := by
  rcases List.append_eq_append_iff.mp split with ⟨earlier, beforeEq, _⟩ | ⟨rest, loadsEq, restEq⟩
  · exact ⟨earlier, beforeEq⟩
  · cases rest with
    | nil => exact ⟨[], by rw [loadsEq, List.append_nil, List.append_nil]⟩
    | cons event rest =>
        rw [List.cons_append, List.cons.injEq] at restEq
        have inserts := load.2.1 event (by rw [loadsEq]; simp)
        rw [← restEq.1] at inserts
        exact inserts.elim

/-- The last number of a sequence that is set to a positive `int`. -/
theorem last_toNat {number : Int32} (positive : 0 < number.toInt) :
    (CounterGenerator.last ⟨Configuration.toUInt64 number⟩).toNat = number.toInt.toNat - 1 := by
  have bounded := number.toInt_lt
  have one : (1 : UInt64).toNat = 1 := rfl
  have countEq := toUInt64_eq_ofNat (Int.toNat_of_nonneg (Int.le_of_lt positive))
  have toNatEq : (UInt64.ofNat number.toInt.toNat).toNat = number.toInt.toNat := by
    rw [UInt64.toNat_ofNat']
    exact Nat.mod_eq_of_lt (by omega)
  rw [CounterGenerator.last, countEq, UInt64.toNat_sub_of_le, toNatEq, one]
  rw [UInt64.le_iff_toNat_le, toNatEq, one]
  omega

theorem mem_loaded {calls : Nat} {keyNum : UInt64} (nonneg : 0 ≤ configuration.insertStart.toInt)
    (fits : calls < 2 ^ 31) (load : Loads configuration calls loads loaded) :
    keyNum ∈ insertedNumbers loads ↔ configuration.insertStart.toInt ≤ keyNum.toNat ∧
      (keyNum.toNat : Int) < configuration.insertStart.toInt + calls := by
  have bounded := configuration.insertStart.toInt_lt
  have startNat : (Configuration.toUInt64 configuration.insertStart).toNat =
      configuration.insertStart.toInt.toNat := by
    rw [toUInt64_eq_ofNat (Int.toNat_of_nonneg nonneg), UInt64.toNat_ofNat']
    exact Nat.mod_eq_of_lt (by omega)
  have numbers := load.numbers (.nil loaded)
  rw [List.append_nil, insertedNumbers, List.length_nil, Nat.add_zero] at numbers
  rw [numbers, mem_numbersFrom (by omega), startNat]
  omega

theorem LoadsAll.touches (all : LoadsAll configuration) : TransactionsTouchLoaded configuration := by
  intro loads loaded events final load run before keyNum key after split
  obtain ⟨earlier, beforeEq⟩ := load.before_draw split
  have allRun := load.1.append run
  rw [split] at allRun
  obtain ⟨middle, next, beforeRun, drawn⟩ := allRun.split
  have kept := beforeRun.kept
  cases drawn with
  | nextTransactionKey mayReturn notAbove =>
      have callsEq := all.loadCalls
      have bounded := configuration.recordCount.toInt_lt
      have member : keyNum ∈ insertedNumbers loads := by
        rw [mem_loaded (Int.le_of_eq all.startsAtZero.symm) (by omega) load, all.startsAtZero]
        rw [kept.sequence] at notAbove
        have upTo := UInt64.le_iff_toNat_le.mp (UInt64.not_lt.mp notAbove)
        have lastEq := last_toNat all.someRecord
        have positive := all.someRecord
        simp only [Configuration.init] at upTo
        omega
      have inserted := load.1.exists_insert member
      rw [← buildKeyName_congr kept.order] at inserted
      exact ⟨keyNum, beforeEq ▸ List.mem_append_left _ inserted⟩

/-- A number that the uniform distribution draws right after the load phase is one of those loaded. -/
theorem TransactionsTouchLoaded.drawn {keyNum : UInt64}
    (touch : TransactionsTouchLoaded configuration)
    (uniform : configuration.requestDistribution = .uniform)
    (nonneg : 0 ≤ configuration.insertStart.toInt)
    (upTo : keyNum ≤ CounterGenerator.last ⟨Configuration.toUInt64 configuration.recordCount⟩)
    (small : keyNum.toNat < 2 ^ 32) :
    configuration.insertStart.toInt ≤ keyNum.toNat ∧
      (keyNum.toNat : Int) < configuration.insertStart.toInt + configuration.loadCalls := by
  obtain ⟨loads, loaded, load⟩ := exists_loads configuration configuration.loadCalls
  have kept := load.1.kept
  have draw : Step loaded (.nextTransactionKey keyNum (loaded.buildKeyName keyNum)) loaded := by
    constructor
    · rw [kept.chooser, kept.sequence, Configuration.init, uniform]
      exact ⟨UInt64.zero_le, upTo⟩
    · rw [kept.sequence]
      exact UInt64.not_lt.mpr upTo
  obtain ⟨earlier, member⟩ := touch loads loaded _ _ load (.cons draw (.nil _)) loads keyNum _ [] rfl
  obtain ⟨inside, keyEq⟩ := load.1.key_inserted member
  have fits := configuration.loadCalls_lt
  have range := (mem_loaded nonneg fits load).mp inside
  rw [buildKeyName_congr kept.order] at keyEq
  have bounded := configuration.insertStart.toInt_lt
  have same : keyNum = earlier := by
    apply buildKeyName_injective _ small _ keyEq
    omega
  rw [same]
  exact range

/-- The uniform distribution draws the first and the last number that `insert_key_sequence_` counts. -/
theorem TransactionsTouchLoaded.loadsAll (touch : TransactionsTouchLoaded configuration)
    (uniform : configuration.requestDistribution = .uniform)
    (nonneg : 0 ≤ configuration.insertStart.toInt) : LoadsAll configuration := by
  have first := touch.drawn uniform nonneg UInt64.zero_le (by decide)
  have zero : (0 : UInt64).toNat = 0 := rfl
  rw [zero] at first
  by_cases none : configuration.recordCount.toInt ≤ 0 ∨ configuration.threadCount.toInt ≤ 0
  · rw [Configuration.loadCalls_none none] at first
    omega
  · have someRecord : 0 < configuration.recordCount.toInt := by omega
    have someThread : 0 < configuration.threadCount.toInt := by omega
    have lastEq := last_toNat someRecord
    have bounded := configuration.recordCount.toInt_lt
    have last := (touch.drawn uniform nonneg UInt64.le_rfl (by omega)).2
    have sum := Configuration.loadCalls_some someRecord someThread
    have rest := Int.tmod_nonneg configuration.threadCount.toInt (Int.le_of_lt someRecord)
    constructor
    · omega
    · exact someRecord
    · exact someThread
    · apply Int.dvd_of_tmod_eq_zero
      omega

/-- Transactions touch loaded records only if the load phase starts at zero and the threads share all
records, whatever the request distribution.  The uniform distribution finds a record that is missing in
every other configuration with a start that is not negative. -/
theorem transactions_touch_loaded (configuration : Configuration) :
    (LoadsAll configuration → TransactionsTouchLoaded configuration) ∧
      (configuration.requestDistribution = .uniform → 0 ≤ configuration.insertStart.toInt →
        TransactionsTouchLoaded configuration → LoadsAll configuration) := by
  constructor
  · exact LoadsAll.touches
  · intro uniform nonneg touch
    exact touch.loadsAll uniform nonneg

theorem transactions_touch_loaded_latest : TransactionsTouchLoaded ⟨0, 4, .latest, false, 2⟩ :=
  (transactions_touch_loaded _).1 ⟨rfl, by decide, by decide, 2, rfl⟩

/-- Three threads load nine of ten records, and a transaction reads the tenth. -/
theorem transaction_misses_record : ∃ loads loaded events final,
    Loads ⟨0, 10, .uniform, true, 3⟩ (Configuration.loadCalls ⟨0, 10, .uniform, true, 3⟩) loads loaded ∧
      Run loaded events final ∧ events = [.nextTransactionKey 9 9] ∧
      ∀ earlier, Event.nextSequenceKey earlier 9 ∉ loads := by
  obtain ⟨loads, loaded, load⟩ := exists_loads ⟨0, 10, .uniform, true, 3⟩ 9
  have kept := load.1.kept
  have draw : Step loaded (.nextTransactionKey 9 (loaded.buildKeyName 9)) loaded := by
    constructor
    · rw [kept.chooser, kept.sequence]
      exact ⟨by decide, by decide⟩
    · rw [kept.sequence]
      decide
  refine ⟨loads, loaded, _, loaded, load, .cons draw (.nil _), ?_, ?_⟩
  · rw [buildKeyName_congr kept.order]
    rfl
  · intro earlier member
    obtain ⟨inside, keyEq⟩ := load.1.key_inserted member
    have same : (9 : UInt64) = earlier := keyEq
    rw [← same, mem_loaded (by decide) (by decide) load] at inside
    exact absurd inside (by decide)

end Loaded

end StoredsBench.Core
