/-
Module: StoredsBench.Db.Loading
Layer: Correctness
Purpose: The load phase stores what it reports, however the threads take turns: one record for every key
  of the numbers drawn, unless records have no fields.
Trusted boundary: none
Main exports: Loading, Loading.step, Loading.progress, Loaded, load_phase
-/
import StoredsBench.Db.Driver
import StoredsBench.Core.Correctness
import StoredsBench.BTree.Correctness
import StoredsBench.BPlusTree.Correctness
import StoredsBench.Rbtree.Correctness
import StoredsBench.Skiplist.Correctness
import StoredsBench.Hashmap.Correctness

namespace StoredsBench.Driver

open Lib Lib.SortedAssoc StoredsBench.Core

/-! ### Sums over the threads -/

/-- Only the part of one thread changes. -/
theorem sum_moved {L : Type} {n : Nat} (part : L → Nat) {before after : Fin n → L} {actor : Fin n}
    (others : ∀ other, other ≠ actor → after other = before other) :
    ∑ thread, part (after thread) + part (before actor) =
      ∑ thread, part (before thread) + part (after actor) := by
  have rest : ∑ thread ∈ Finset.univ.erase actor, part (after thread) =
      ∑ thread ∈ Finset.univ.erase actor, part (before thread) := by
    apply Finset.sum_congr rfl
    intro other member
    rw [others other (Finset.ne_of_mem_erase member)]
  rw [← Finset.add_sum_erase _ (fun thread => part (after thread)) (Finset.mem_univ actor),
    ← Finset.add_sum_erase _ (fun thread => part (before thread)) (Finset.mem_univ actor), rest]
  omega

/-- The calls of `DoInsert` a thread has begun. -/
def Loader.begun (loader : Loader) : Nat :=
  match loader.inserting with
  | none => loader.oks
  | some _ => loader.oks + 1

/-- The steps a thread still has to take, for records of so many fields. -/
def Loader.work (count : Nat) (loader : Loader) : Nat :=
  match loader.inserting with
  | none => loader.remaining * (count + 2)
  | some (_, values) => loader.remaining * (count + 2) + values.length + 1

/-- The keys of the numbers drawn. -/
def drawnKeys (configuration : Configuration) (drawn : Nat) : List Key :=
  (numbersFrom configuration.init.keyGenerator.counter drawn).map configuration.init.buildKeyName

/-- A backend that shows entries from the first insert on. -/
structure Fills {S : Type} (backend : Backend S) (fresh : S) (shows : S → List (Key × Value) → Prop) :
    Prop where
  represents : Represents backend shows
  first : ∀ key value, ∃ next, backend.insert key value fresh = .ok next ∧ shows next [(key, value)]

section Threads

variable {S : Type} {backend : Backend S} {fresh : S} {shows : S → List (Key × Value) → Prop}
variable {configuration : Configuration} {fields : Fields} {n : Nat}
variable {threads next : Threads (Fin n) (Shared S) Loader}

/-- What the threads keep: the store holds keys that were drawn, and every key that was drawn is stored,
or a thread has it and all its values in hand. -/
structure Loading (fresh : S) (shows : S → List (Key × Value) → Prop) (configuration : Configuration)
    (fields : Fields) (threads : Threads (Fin n) (Shared S) Loader) (drawn : Nat)
    (entries : List (Key × Value)) : Prop where
  counter : threads.shared.workload.keyGenerator.counter =
    configuration.init.keyGenerator.counter + UInt64.ofNat drawn
  ordered : threads.shared.workload.orderedInserts = configuration.init.orderedInserts
  shown : entries ≠ [] ∧ shows threads.shared.store entries ∨
    entries = [] ∧ threads.shared.store = fresh
  sorted : Sorted entries
  values : ∀ entry ∈ entries, fields.IsValue entry.2
  fromDrawn : ∀ entry ∈ entries, entry.1 ∈ drawnKeys configuration drawn
  inHand : ∀ thread key values, (threads.thread thread).inserting = some (key, values) →
    key ∈ drawnKeys configuration drawn ∧ (∀ value ∈ values, fields.IsValue value) ∧
      values.length ≤ fields.count
  complete : fields.count ≠ 0 → ∀ key ∈ drawnKeys configuration drawn,
    (∃ value, (key, value) ∈ entries) ∨
      ∃ thread values, (threads.thread thread).inserting = some (key, values) ∧
        values.length = fields.count
  nothing : fields.count = 0 → entries = []
  counted : ∑ thread, (threads.thread thread).begun = drawn
  share : ∀ thread, (threads.thread thread).begun + (threads.thread thread).remaining =
    numOps configuration

theorem drawnKeys_succ (configuration : Configuration) (drawn : Nat) :
    drawnKeys configuration (drawn + 1) = drawnKeys configuration drawn ++
      [configuration.init.buildKeyName
        (configuration.init.keyGenerator.counter + UInt64.ofNat drawn)] := by
  rw [drawnKeys, numbersFrom_succ, List.map_append]
  rfl

theorem loading_start (configuration : Configuration) (fields : Fields) (fresh : S) :
    Loading fresh shows configuration fields (loadStart configuration fresh) 0 [] where
  counter := by
    rw [loadStart]
    exact (UInt64.add_zero _).symm
  ordered := rfl
  shown := Or.inr ⟨rfl, rfl⟩
  sorted := sorted_nil
  values := by simp
  fromDrawn := by simp
  inHand := by simp [loadStart]
  complete := by simp [drawnKeys, numbersFrom]
  nothing := fun _ => rfl
  counted := by simp [loadStart, Loader.begun]
  share := by simp [loadStart, Loader.begun]

/-- An insert in a state that shows entries, and in a fresh one. -/
theorem Fills.insert (fills : Fills backend fresh shows) {store : S} {entries : List (Key × Value)}
    (shown : entries ≠ [] ∧ shows store entries ∨ entries = [] ∧ store = fresh) (key : Key)
    (value : Value) :
    ∃ after, backend.insert key value store = .ok after ∧ shows after (upsert key value entries) := by
  rcases shown with ⟨-, shown⟩ | ⟨rfl, rfl⟩
  · exact fills.represents.insert key value shown
  · exact fills.first key value

section Steps

variable {drawn : Nat} {entries : List (Key × Value)} {actor : Fin n}

/-- The sum of the calls begun changes by what the step does to its own thread. -/
theorem Loading.counted_moved (loading : Loading fresh shows configuration fields threads drawn entries)
    (others : ∀ other, other ≠ actor → next.thread other = threads.thread other) :
    ∑ thread, (next.thread thread).begun + (threads.thread actor).begun =
      drawn + (next.thread actor).begun := by
  rw [← loading.counted]
  exact sum_moved Loader.begun others

theorem Loading.share_moved (loading : Loading fresh shows configuration fields threads drawn entries)
    (others : ∀ other, other ≠ actor → next.thread other = threads.thread other)
    (kept : (next.thread actor).begun + (next.thread actor).remaining =
      (threads.thread actor).begun + (threads.thread actor).remaining) :
    ∀ thread, (next.thread thread).begun + (next.thread thread).remaining = numOps configuration := by
  intro thread
  by_cases acts : thread = actor
  · rw [acts, kept, loading.share actor]
  · rw [others thread acts, loading.share thread]

theorem Loading.draw (loading : Loading fresh shows configuration fields threads drawn entries)
    (others : ∀ other, other ≠ actor → next.thread other = threads.thread other)
    {remaining oks : Nat} {values : List Value} (builds : fields.BuildsValues values)
    (here : threads.thread actor = { remaining := remaining + 1, oks := oks, inserting := none })
    (there : next.thread actor =
      { remaining := remaining
        oks := oks
        inserting := some (threads.shared.workload.nextSequenceKey.1, values) })
    (shared : next.shared =
      { threads.shared with workload := threads.shared.workload.nextSequenceKey.2 }) :
    Loading fresh shows configuration fields next (drawn + 1) entries := by
  have keyEq : threads.shared.workload.nextSequenceKey.1 = configuration.init.buildKeyName
      (configuration.init.keyGenerator.counter + UInt64.ofNat drawn) := by
    rw [← loading.counter]
    simp only [CoreWorkload.nextSequenceKey, CounterGenerator.next, CoreWorkload.buildKeyName,
      loading.ordered]
  have newKey : threads.shared.workload.nextSequenceKey.1 ∈ drawnKeys configuration (drawn + 1) := by
    rw [drawnKeys_succ, keyEq]
    exact List.mem_append_right _ List.mem_cons_self
  have older : ∀ {key}, key ∈ drawnKeys configuration drawn →
      key ∈ drawnKeys configuration (drawn + 1) := by
    intro key member
    rw [drawnKeys_succ]
    exact List.mem_append_left _ member
  constructor
  · rw [shared, add_ofNat_succ, ← loading.counter]
    rfl
  · rw [shared, ← loading.ordered]
    rfl
  · rw [shared]
    exact loading.shown
  · exact loading.sorted
  · exact loading.values
  · exact fun entry member => older (loading.fromDrawn entry member)
  · intro thread key held isHeld
    by_cases acts : thread = actor
    · rw [acts, there] at isHeld
      cases isHeld
      exact ⟨newKey, builds.all, builds.length.le⟩
    · rw [others thread acts] at isHeld
      obtain ⟨isDrawn, areValues, short⟩ := loading.inHand thread key held isHeld
      exact ⟨older isDrawn, areValues, short⟩
  · intro someField key member
    rw [drawnKeys_succ, List.mem_append, List.mem_singleton, ← keyEq] at member
    rcases member with isOlder | isNew
    · rcases loading.complete someField key isOlder with stored | ⟨thread, held, isHeld, full⟩
      · exact Or.inl stored
      · have acts : thread ≠ actor := by
          intro acts
          rw [acts, here] at isHeld
          cases isHeld
        refine Or.inr ⟨thread, held, ?_, full⟩
        rw [others thread acts]
        exact isHeld
    · refine Or.inr ⟨actor, values, ?_, builds.length⟩
      rw [there, isNew]
  · exact loading.nothing
  · have sum := loading.counted_moved others
    rw [here, there] at sum
    simp only [Loader.begun] at sum ⊢
    omega
  · apply loading.share_moved others
    rw [here, there]
    simp only [Loader.begun]
    omega

theorem Loading.insert (fills : Fills backend fresh shows)
    (loading : Loading fresh shows configuration fields threads drawn entries)
    (others : ∀ other, other ≠ actor → next.thread other = threads.thread other)
    {remaining oks : Nat} {key : Key} {value : Value} {values : List Value} {store : S}
    (ran : backend.insert key value threads.shared.store = .ok store)
    (here : threads.thread actor =
      { remaining := remaining, oks := oks, inserting := some (key, value :: values) })
    (there : next.thread actor =
      { remaining := remaining, oks := oks, inserting := some (key, values) })
    (shared : next.shared = { threads.shared with store := store }) :
    Loading fresh shows configuration fields next drawn (upsert key value entries) := by
  obtain ⟨after, afterRan, afterShown⟩ := fills.insert loading.shown key value
  rw [ran, Except.ok.injEq] at afterRan
  have inHand := loading.inHand actor key (value :: values) (by rw [here])
  obtain ⟨isDrawn, areValues, short⟩ := inHand
  have stored : ∀ {other found}, (other, found) ∈ entries →
      ∃ kept, (other, kept) ∈ upsert key value entries := by
    intro other found member
    have isFound := lookup_of_mem loading.sorted member
    by_cases same : other = key
    · rw [same]
      exact ⟨value, mem_of_lookup_eq_some (lookup_upsert_self key value entries)⟩
    · refine ⟨found, mem_of_lookup_eq_some ?_⟩
      rw [lookup_upsert_of_ne same]
      exact isFound
  constructor
  · rw [shared]
    exact loading.counter
  · rw [shared]
    exact loading.ordered
  · rw [shared, afterRan]
    exact Or.inl ⟨upsert_ne_nil key value entries, afterShown⟩
  · exact sorted_upsert loading.sorted
  · intro entry member
    rcases mem_upsert member with rfl | old
    · exact areValues value List.mem_cons_self
    · exact loading.values entry old
  · intro entry member
    rcases mem_upsert member with rfl | old
    · exact isDrawn
    · exact loading.fromDrawn entry old
  · intro thread other held isHeld
    by_cases acts : thread = actor
    · rw [acts, there] at isHeld
      cases isHeld
      refine ⟨isDrawn, fun one member => areValues one (List.mem_cons_of_mem value member), ?_⟩
      exact (Nat.le_succ _).trans short
    · rw [others thread acts] at isHeld
      exact loading.inHand thread other held isHeld
  · intro someField other member
    rcases loading.complete someField other member with ⟨found, inEntries⟩ | ⟨thread, held, isHeld, full⟩
    · exact Or.inl (stored inEntries)
    · by_cases acts : thread = actor
      · -- The thread has just inserted the first value.
        rw [acts, here] at isHeld
        cases isHeld
        exact Or.inl ⟨value, mem_of_lookup_eq_some (lookup_upsert_self key value entries)⟩
      · refine Or.inr ⟨thread, held, ?_, full⟩
        rw [others thread acts]
        exact isHeld
  · intro noField
    rw [noField] at short
    cases short
  · have sum := loading.counted_moved others
    rw [here, there] at sum
    simp only [Loader.begun] at sum ⊢
    omega
  · apply loading.share_moved others
    rw [here, there]
    rfl

theorem Loading.done (loading : Loading fresh shows configuration fields threads drawn entries)
    (others : ∀ other, other ≠ actor → next.thread other = threads.thread other)
    {remaining oks : Nat} {key : Key}
    (here : threads.thread actor =
      { remaining := remaining, oks := oks, inserting := some (key, []) })
    (there : next.thread actor = { remaining := remaining, oks := oks + 1, inserting := none })
    (shared : next.shared = threads.shared) :
    Loading fresh shows configuration fields next drawn entries := by
  constructor
  · rw [shared]
    exact loading.counter
  · rw [shared]
    exact loading.ordered
  · rw [shared]
    exact loading.shown
  · exact loading.sorted
  · exact loading.values
  · exact loading.fromDrawn
  · intro thread other held isHeld
    by_cases acts : thread = actor
    · rw [acts, there] at isHeld
      cases isHeld
    · rw [others thread acts] at isHeld
      exact loading.inHand thread other held isHeld
  · intro someField other member
    rcases loading.complete someField other member with stored | ⟨thread, held, isHeld, full⟩
    · exact Or.inl stored
    · have acts : thread ≠ actor := by
        -- A thread that is done has no value left, and began with one for every field.
        intro acts
        rw [acts, here] at isHeld
        cases isHeld
        exact someField full.symm
      refine Or.inr ⟨thread, held, ?_, full⟩
      rw [others thread acts]
      exact isHeld
  · exact loading.nothing
  · have sum := loading.counted_moved others
    rw [here, there] at sum
    simp only [Loader.begun] at sum ⊢
    omega
  · apply loading.share_moved others
    rw [here, there]
    rfl

/-- One step of any thread. -/
theorem Loading.step (fills : Fills backend fresh shows)
    (loading : Loading fresh shows configuration fields threads drawn entries)
    (stepped : Threads.Step (LoadStep backend fields) threads next) :
    ∃ drawn' entries', Loading fresh shows configuration fields next drawn' entries' := by
  obtain ⟨actor, acted, others⟩ := stepped
  generalize here : threads.thread actor = place at acted
  generalize there : next.thread actor = place' at acted
  generalize after : next.shared = shared' at acted
  cases acted with
  | draw builds => exact ⟨_, _, loading.draw others builds here there after⟩
  | insert ran => exact ⟨_, _, loading.insert fills others ran here there after⟩
  | done => exact ⟨_, _, loading.done others here there after⟩

end Steps

theorem loading_reaches (fills : Fills backend fresh shows)
    {threads : Threads (Fin (numThreads configuration)) (Shared S) Loader}
    (reached : Threads.Reaches (LoadStep backend fields) (loadStart configuration fresh) threads) :
    ∃ drawn entries, Loading fresh shows configuration fields threads drawn entries := by
  induction reached with
  | refl => exact ⟨_, _, loading_start configuration fields fresh⟩
  | step _ stepped inductionHypothesis =>
      obtain ⟨drawn, entries, loading⟩ := inductionHypothesis
      exact loading.step fills stepped

/-! ### Until all threads are done -/

/-- A thread that is not done can take a step, and has less to do after it. -/
theorem Loading.progress (fills : Fills backend fresh shows) {drawn : Nat}
    {entries : List (Key × Value)}
    (loading : Loading fresh shows configuration fields threads drawn entries)
    (unfinished : ¬ Finished threads) :
    ∃ next, Threads.Step (LoadStep backend fields) threads next ∧
      ∑ thread, (next.thread thread).work fields.count <
        ∑ thread, (threads.thread thread).work fields.count := by
  obtain ⟨actor, busy⟩ := not_forall.mp unfinished
  have moves : ∀ shared place, LoadStep backend fields threads.shared (threads.thread actor) shared place →
      place.work fields.count < (threads.thread actor).work fields.count →
      ∃ next, Threads.Step (LoadStep backend fields) threads next ∧
        ∑ thread, (next.thread thread).work fields.count <
          ∑ thread, (threads.thread thread).work fields.count := by
    intro shared place acted less
    refine ⟨threads.moved actor shared place, Threads.step_moved acted, ?_⟩
    have others : ∀ other, other ≠ actor →
        (threads.moved actor shared place).thread other = threads.thread other :=
      fun other different => Threads.moved_of_ne different shared place
    have sum := sum_moved (Loader.work fields.count) others
    rw [Threads.moved_self] at sum
    omega
  cases here : threads.thread actor with
  | mk remaining oks inserting =>
      rw [here] at moves busy
      cases inserting with
      | none =>
          cases remaining with
          | zero => exact absurd ⟨rfl, rfl⟩ busy
          | succ remaining =>
              obtain ⟨length, may⟩ := fields.returns
              let value : Value :=
                { chars := List.replicate length fixedPrintChar
                  noNul := fun member => absurd (List.eq_of_mem_replicate member) (by decide)
                  fits := by
                    rw [List.length_replicate]
                    exact fields.fits length may }
              have builds : fields.BuildsValues (List.replicate fields.count value) := by
                constructor
                · intro other member
                  rw [List.eq_of_mem_replicate member]
                  exact ⟨length, may, rfl⟩
                · exact List.length_replicate
              apply moves _ _ (.draw builds)
              simp only [Loader.work, builds.length, Nat.succ_mul]
              omega
      | some held =>
          obtain ⟨key, values⟩ := held
          cases values with
          | nil =>
              apply moves _ _ .done
              simp only [Loader.work]
              omega
          | cons value values =>
              obtain ⟨store, ran, -⟩ := fills.insert loading.shown key value
              apply moves _ _ (.insert ran)
              simp only [Loader.work, List.length_cons]
              omega

/-- The load phase can be finished from every state it reaches. -/
theorem Loading.finishes (fills : Fills backend fresh shows) {drawn : Nat}
    {entries : List (Key × Value)}
    (loading : Loading fresh shows configuration fields threads drawn entries) :
    ∃ final, Threads.Reaches (LoadStep backend fields) threads final ∧ Finished final := by
  generalize toDo : ∑ thread, (threads.thread thread).work fields.count = work
  induction work using Nat.strong_induction_on generalizing threads drawn entries with
  | h work inductionHypothesis =>
      by_cases finished : Finished threads
      · exact ⟨threads, .refl, finished⟩
      · obtain ⟨next, stepped, less⟩ := loading.progress fills finished
        obtain ⟨drawn', entries', nextLoading⟩ := loading.step fills stepped
        obtain ⟨final, reached, isFinished⟩ :=
          inductionHypothesis _ (by rw [← toDo]; exact less) nextLoading rfl
        exact ⟨final, Threads.Reaches.head stepped reached, isFinished⟩

end Threads

/-! ### The records -/

/-- Different numbers get different keys: they count from a start below `2 ^ 31`, or are keys themselves. -/
def KeysDiffer (configuration : Configuration) : Prop :=
  0 ≤ configuration.insertStart.toInt ∨ configuration.orderedInserts = true

theorem drawnKeys_nodup {configuration : Configuration} (differ : KeysDiffer configuration)
    {drawn : Nat} (few : drawn < 2 ^ 31) : (drawnKeys configuration drawn).Nodup := by
  rcases differ with nonneg | ordered
  · have bounded := configuration.insertStart.toInt_lt
    have start : configuration.init.keyGenerator.counter.toNat =
        configuration.insertStart.toInt.toNat := by
      show (Configuration.toUInt64 configuration.insertStart).toNat = _
      rw [toUInt64_eq_ofNat (Int.toNat_of_nonneg nonneg), UInt64.toNat_ofNat']
      exact Nat.mod_eq_of_lt (by omega)
    have small : ∀ keyNum ∈ numbersFrom configuration.init.keyGenerator.counter drawn,
        keyNum.toNat < 2 ^ 32 := by
      intro keyNum member
      have inside := (mem_numbersFrom (by omega)).mp member
      omega
    apply List.Nodup.map_on _ (numbersFrom_nodup small)
    intro first firstMember second secondMember same
    exact buildKeyName_injective configuration.init (small first firstMember) (small second secondMember)
      same
  · have isNumber : ∀ keyNum, configuration.init.buildKeyName keyNum = keyNum :=
      fun keyNum => if_pos ordered
    apply List.Nodup.map_on
    · intro first _ second _ same
      rwa [isNumber, isNumber] at same
    · apply List.Nodup.map_on _ List.nodup_range
      intro first firstMember second secondMember same
      have firstSmall := List.mem_range.mp firstMember
      have secondSmall := List.mem_range.mp secondMember
      have numbers := congrArg UInt64.toNat ((UInt64.add_right_inj _).mp same)
      rw [UInt64.toNat_ofNat', UInt64.toNat_ofNat', Nat.mod_eq_of_lt (by omega),
        Nat.mod_eq_of_lt (by omega)] at numbers
      exact numbers

/-- What the load phase leaves in the store: one record for each of the keys, with a value the workload
builds, or nothing at all where a record has no fields. -/
structure Loaded {S : Type} (backend : Backend S) (fresh : S) (configuration : Configuration)
    (fields : Fields) (store : S) : Prop where
  untouched : fields.count = 0 ∨ configuration.loadCalls = 0 → store = fresh
  records : fields.count ≠ 0 → configuration.loadCalls ≠ 0 → ∃ records : List (Key × Value),
    records.length = configuration.loadCalls ∧ (records.map Prod.fst).Nodup ∧
      (records.map Prod.fst).Perm (drawnKeys configuration configuration.loadCalls) ∧
      (∀ record ∈ records, fields.IsValue record.2) ∧
      ∀ key, backend.read key store = .ok (records.lookup key)

/-- Whatever order the threads take their steps in, they can all finish, and when they have, the number
that is reported is the number of calls, with the store as `Loaded` says. -/
def LoadsRecords {S : Type} (backend : Backend S) (fresh : S) (configuration : Configuration)
    (fields : Fields) : Prop :=
  ∀ threads, Threads.Reaches (LoadStep backend fields) (loadStart configuration fresh) threads →
    (∃ final, Threads.Reaches (LoadStep backend fields) threads final ∧ Finished final) ∧
      (Finished threads → reported threads = configuration.loadCalls ∧
        Loaded backend fresh configuration fields threads.shared.store)

section Finished

variable {S : Type} {backend : Backend S} {fresh : S} {shows : S → List (Key × Value) → Prop}
variable {configuration : Configuration} {fields : Fields} {drawn : Nat} {entries : List (Key × Value)}
variable {threads : Threads (Fin (numThreads configuration)) (Shared S) Loader}

/-- All the calls were made. -/
theorem Loading.finished (loading : Loading fresh shows configuration fields threads drawn entries)
    (finished : Finished threads) :
    drawn = configuration.loadCalls ∧ reported threads = configuration.loadCalls := by
  have oks : ∀ thread, (threads.thread thread).begun = (threads.thread thread).oks := by
    intro thread
    rw [Loader.begun, (finished thread).2]
  have each : ∀ thread, (threads.thread thread).oks = numOps configuration := by
    intro thread
    have share := loading.share thread
    rw [(finished thread).1, oks] at share
    exact share
  have sum : reported threads = configuration.loadCalls := by
    rw [reported, Finset.sum_congr rfl fun thread _ => each thread, Finset.sum_const, Finset.card_univ,
      Fintype.card_fin]
    rfl
  refine ⟨?_, sum⟩
  rw [← sum, ← loading.counted]
  exact Finset.sum_congr rfl fun thread _ => oks thread

theorem Loading.loaded (fills : Fills backend fresh shows) (differ : KeysDiffer configuration)
    (loading : Loading fresh shows configuration fields threads drawn entries)
    (finished : Finished threads) :
    Loaded backend fresh configuration fields threads.shared.store := by
  obtain ⟨isAll, -⟩ := loading.finished finished
  subst isAll
  have distinct := drawnKeys_nodup differ configuration.loadCalls_lt
  have keysDistinct : (entries.map Prod.fst).Nodup := by
    apply List.pairwise_map.mpr
    exact loading.sorted.imp fun below => below.ne
  constructor
  · intro none
    have noEntry : entries = [] := by
      rcases none with noField | noCall
      · exact loading.nothing noField
      · apply List.eq_nil_iff_forall_not_mem.mpr
        intro entry member
        have isDrawn := loading.fromDrawn entry member
        rw [noCall] at isDrawn
        cases isDrawn
    rcases loading.shown with ⟨someEntry, -⟩ | ⟨-, isFresh⟩
    · exact absurd noEntry someEntry
    · exact isFresh
  · intro someField someCall
    have same : ∀ key, key ∈ entries.map Prod.fst ↔
        key ∈ drawnKeys configuration configuration.loadCalls := by
      intro key
      constructor
      · intro member
        obtain ⟨entry, inEntries, rfl⟩ := List.mem_map.mp member
        exact loading.fromDrawn entry inEntries
      · intro member
        rcases loading.complete someField key member with ⟨value, inEntries⟩ | ⟨thread, held, isHeld, -⟩
        · exact List.mem_map.mpr ⟨(key, value), inEntries, rfl⟩
        · rw [(finished thread).2] at isHeld
          cases isHeld
    have alike := (List.perm_ext_iff_of_nodup keysDistinct distinct).mpr same
    have length := alike.length_eq
    rw [List.length_map, drawnKeys, List.length_map, numbersFrom, List.length_map,
      List.length_range] at length
    refine ⟨entries, length, keysDistinct, alike, loading.values, ?_⟩
    intro key
    rcases loading.shown with ⟨-, shown⟩ | ⟨noEntry, -⟩
    · exact fills.represents.read key shown
    · rw [noEntry] at length
      exact absurd length.symm someCall

theorem loadsRecords (fills : Fills backend fresh shows) (differ : KeysDiffer configuration)
    (fields : Fields) : LoadsRecords backend fresh configuration fields := by
  intro threads reached
  obtain ⟨drawn, entries, loading⟩ := loading_reaches fills reached
  refine ⟨loading.finishes fills, fun finished => ?_⟩
  exact ⟨(loading.finished finished).2, loading.loaded fills differ finished⟩

end Finished

/-- Over each of the classes that lock a mutex around the operations of these backends, and for every
order in which the threads of the load phase take their steps: the phase can always be finished, the
number of records it reports is the number of calls, and the store then holds just so many records, one
for each key, unless a record has no field. -/
theorem load_phase (outcomes : Skiplist.Outcomes) (coefficients : Hashmap.HashCoefficients)
    (configuration : Configuration) (fields : Fields) (differ : KeysDiffer configuration) :
    LoadsRecords BTreeDram.backend BTreeDram.init configuration fields ∧
      LoadsRecords BPlusTreeDram.backend BPlusTreeDram.init configuration fields ∧
      LoadsRecords RbtreeDram.backend RbtreeDram.init configuration fields ∧
      (∃ fresh, SkiplistDram.init (SkiplistDram.blank outcomes) = .ok (1, fresh) ∧
        LoadsRecords SkiplistDram.backend fresh configuration fields) ∧
      LoadsRecords HtDram.backend (HtDram.init coefficients) configuration fields := by
  refine ⟨?_, ?_, ?_, ?_, ?_⟩
  · have fills := Fills.mk (BTreeDram.implements.represents BTreeDram.serves)
      (BTreeDram.implements.insert_first BTreeDram.serves (show BTreeDram.init.root = null from rfl))
    exact loadsRecords fills differ fields
  · have fills := Fills.mk (BPlusTreeDram.implements.represents BPlusTreeDram.serves)
      (BPlusTreeDram.implements.insert_first BPlusTreeDram.serves
        (show BPlusTreeDram.init.root = null from rfl))
    exact loadsRecords fills differ fields
  · have fills := Fills.mk RbtreeDram.serves.represents RbtreeDram.insert_first
    exact loadsRecords fills differ fields
  · obtain ⟨fresh, initialised, holds⟩ := SkiplistDram.init_ok outcomes
    have fills := Fills.mk SkiplistDram.represents fun key value =>
      SkiplistDram.represents.insert key value ⟨[], holds, rfl⟩
    exact ⟨fresh, initialised, loadsRecords fills differ fields⟩
  · have fills := Fills.mk (HtDram.represents coefficients) fun key value =>
      (HtDram.represents coefficients).insert key value
        ⟨_, _, HtDram.init_holds coefficients, fun _ => rfl⟩
    exact loadsRecords fills differ fields

/-- Two threads load four records of one field into a red-black tree. -/
theorem load_phase_four : ∃ (fields : Fields)
    (final : Threads (Fin (numThreads ⟨0, 4, .uniform, false, 2⟩)) (Shared RbtreeDram) Loader)
    (records : List (Key × Value)), fields.count = 1 ∧
      Threads.Reaches (LoadStep RbtreeDram.backend fields)
        (loadStart ⟨0, 4, .uniform, false, 2⟩ RbtreeDram.init) final ∧
      Finished final ∧ reported final = 4 ∧ records.length = 4 ∧
      ∀ key, RbtreeDram.backend.read key final.shared.store = .ok (records.lookup key) := by
  let fields : Fields :=
    { fieldCount := 1
      MayReturn := fun length => length = 100
      returns := ⟨100, rfl⟩
      fits := by
        rintro length rfl
        decide }
  have outcomes : Skiplist.Outcomes := fun _ => 0
  have loads := (load_phase outcomes ⟨1, 0, 7, 2, by decide, by decide, by decide⟩
    ⟨0, 4, .uniform, false, 2⟩ fields (Or.inl (by decide))).2.2.1
  obtain ⟨final, reached, finished⟩ := (loads _ .refl).1
  obtain ⟨sum, loaded⟩ := (loads final reached).2 finished
  obtain ⟨records, length, -, -, -, reads⟩ := loaded.records (by decide) (by decide)
  exact ⟨fields, final, records, rfl, reached, finished, sum, length, reads⟩

end StoredsBench.Driver
