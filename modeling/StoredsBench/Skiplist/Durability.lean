/-
Module: StoredsBench.Skiplist.Durability
Layer: Correctness
Purpose: What `SkiplistPmem` has made durable when `insert` returns.  The links that publish a node are
  persisted, but neither is its entry nor are its own links: the argument is the address of a local
  variable.  Overwriting the value persists the whole node, so that a history is durable exactly when it
  inserts every key twice.
Trusted boundary: human-reviewed spec for `InsertsDurable`
Main exports: Reaches, InsertsDurable, Clean, insertsDurable_iff
-/
import StoredsBench.Skiplist.PmemRefinement

namespace StoredsBench.SkiplistPmem

open Lib Lib.SortedAssoc Skiplist EffectLogic

variable {exact : Prop} {memory initial : SkiplistDram} {store final start : SkiplistPmem}
  {towers low rest : List Tower} {key : Key} {value : Value} {pool : SkPool}
  {dirty : SkPlace → Bool} {address : Ptr}

/-- Following the links of the base level from the head on one comes to an entry. -/
def Reaches (memory : SkiplistDram) (key : Key) (value : Value) : Prop :=
  ∃ first between address, linkAt memory.heap SKIPLIST_BASE_LEVEL memory.root = some first ∧
    Leads (linkAt memory.heap SKIPLIST_BASE_LEVEL) address first between ∧
    entryAt memory.heap address = some (key, value)

/-- After these inserts into a new pool every crash leaves links to all entries, wherever objects lie
and whatever the allocator leaves in those behind the first. -/
def InsertsDurable (outcomes : Outcomes) (pairs : List (Key × Value)) : Prop :=
  ∀ pool store final towers, SkPool.Zeroed pool →
    init .persistent pool (blank outcomes) = .ok (1, store) →
    insertEach (insert .persistent pool) pairs store = .ok ((), final) →
    Levels False (Lib.memory final) towers →
    ∀ recovered, Recovers readPool (Lib.memory (blank outcomes)) final.aux.trail recovered →
      ∀ tower ∈ towers, Reaches recovered tower.entry.1 tower.entry.2

/-! ### Towers -/

theorem linked_base (holds : Levels exact memory towers) :
    LinkedAfter (linkAt memory.heap SKIPLIST_BASE_LEVEL) memory.root (labels towers) := by
  have linked := holds.linked SKIPLIST_BASE_LEVEL (by decide)
  rwa [level_base fun tower member => (holds.tall tower member).1] at linked

theorem reaches_of_levels (holds : Levels exact memory towers) {tower : Tower}
    (member : tower ∈ towers) : Reaches memory tower.entry.1 tower.entry.2 := by
  obtain ⟨before, after, rfl⟩ := List.append_of_mem member
  obtain ⟨first, found, linked⟩ := linked_base holds
  have split : labels (before ++ tower :: after) ++ [null] =
      labels before ++ tower.label :: (labels after ++ [null]) := by simp [labels]
  exact ⟨first, labels before, tower.label, found, Leads.reach linked split, holds.shown tower member⟩

/-! ### What stays dirty -/

theorem persists_storeKey (key : Key) (address : Ptr) :
    Persists readPool dirty (storeKey key address)
      fun _ next => next = fun place => dirty place || fieldBytes address .key place :=
  Persists.store (modify_frames rootApart (key_kept key address)) fun _ => rfl

theorem persists_storeValue (value : Value) (address : Ptr) :
    Persists readPool dirty (storeValue value address) fun _ next =>
      next = fun place => dirty place || stringBytes address (value.chars.length + 1) place :=
  Persists.store (modify_frames rootApart (value_kept value address)) fun _ => rfl

theorem persists_storeNext (level : Nat) (target address : Ptr) :
    Persists readPool dirty (storeNext level target address)
      fun _ next => next = fun place => dirty place || fieldBytes address (.next level) place :=
  Persists.store (modify_frames rootApart (next_kept level target address)) fun _ => rfl

theorem persists_persist (range : SkPlace → Bool) :
    Persists readPool dirty (persist range : M Unit)
      fun _ next => next = fun place => dirty place && !range place := Persists.persist rfl

/-- Only the new node becomes dirty. -/
def Spoils (dirty : SkPlace → Bool) (node : Ptr) (next : SkPlace → Bool) : Prop :=
  ∀ place, next place = true → dirty place = true ∨ nodeBytes node place = true

theorem Spoils.trans {middle next : SkPlace → Bool} {node : Ptr} (first : Spoils dirty node middle)
    (second : Spoils middle node next) : Spoils dirty node next := by
  intro place isDirty
  rcases second place isDirty with before | inside
  · exact first place before
  · exact Or.inr inside

/-- The slot before the new node is persisted in the same round. -/
theorem persists_linkIn (newNode : Ptr) (path : Path) (level : Nat) (dirty : SkPlace → Bool) :
    Persists readPool dirty (linkIn .persistent pool newNode path level)
      fun _ next => Spoils dirty newNode next := by
  have lookup : Persists readPool dirty (Prog.lift (path.get level)) fun _ next => next = dirty :=
    Holds.lift _ fun _ => rfl
  apply lookup.bind
  rintro previous dirty rfl
  have unchanged : Persists readPool dirty (pure () : M Unit) fun _ next => next = dirty :=
    Holds.pure rfl
  apply unchanged.bind
  rintro _ dirty rfl
  have follow : Persists readPool dirty (onMemory (SkiplistDram.nextOnPath path level))
      fun _ next => next = dirty := Holds.reads (reading_nextOnPath path level) fun _ => rfl
  apply follow.bind
  rintro following dirty rfl
  apply (persists_storeNext level following newNode).bind
  rintro _ _ rfl
  apply (persists_storeNext level newNode previous).bind
  rintro _ _ rfl
  apply (persists_persist fun _ => false).bind
  rintro _ _ rfl
  apply (persists_persist (pool.rangeFrom previous level)).weaken
  rintro _ _ rfl place isDirty
  simp only [Bool.not_false, Bool.and_true, Bool.and_eq_true, Bool.or_eq_true] at isDirty
  obtain ⟨(before | inNew) | inPrevious, outside⟩ := isDirty
  · exact Or.inl before
  · apply Or.inr
    obtain rfl := eq_of_fieldBytes inNew
    exact covers_nodeBytes newNode _
  · obtain rfl := eq_of_fieldBytes inPrevious
    simp [SkPool.rangeFrom, slotsFrom] at outside

theorem persists_insertNodeFrom (newNode : Ptr) (path : Path) : ∀ (fuel level : Nat)
    (dirty : SkPlace → Bool), Persists readPool dirty
      (insertNodeFrom .persistent pool newNode path fuel level) fun _ next => Spoils dirty newNode next
  | 0, _, _ => Holds.fault .diverged
  | fuel + 1, level, dirty => by
      apply (persists_linkIn newNode path level dirty).bind
      intro _ linked spoils
      apply Holds.branch
      · intro _
        have draw : Persists readPool linked (onMemory SkiplistDram.rand) fun _ next => next = linked :=
          Holds.unseenOnMemory rand_unseen fun _ => rfl
        apply draw.bind
        rintro outcome linked rfl
        apply Holds.branch
        · intro _
          apply (persists_insertNodeFrom newNode path fuel (level + 1) linked).weaken
          exact fun _ _ more => spoils.trans more
        · exact fun _ => Holds.pure spoils
      · exact fun _ => Holds.pure spoils

/-- What `insert` does to the node it has allocated. -/
theorem persists_filled (newNode : Ptr) (path : Path) (key : Key) (value : Value)
    (dirty : SkPlace → Bool) :
    Persists readPool dirty
      (do
        storeKey key newNode
        storeValue value newNode
        insertNode .persistent pool newNode path)
      fun _ next => Spoils dirty newNode next := by
  apply (persists_storeKey key newNode).bind
  rintro _ _ rfl
  apply (persists_storeValue value newNode).bind
  rintro _ _ rfl
  apply (persists_insertNodeFrom newNode path _ _ _).weaken
  intro _ next spoils place isDirty
  rcases spoils place isDirty with stored | inside
  · simp only [Bool.or_eq_true] at stored
    obtain (before | inKey) | inValue := stored
    · exact Or.inl before
    · apply Or.inr
      obtain rfl := eq_of_fieldBytes inKey
      exact covers_nodeBytes newNode _
    · apply Or.inr
      cases place with
      | root member => cases inValue
      | node other field =>
          cases field with
          | key => cases inValue
          | next level => cases inValue
          | valueByte offset =>
              have both : other = newNode ∧ offset < value.chars.length + 1 := by
                simpa [stringBytes] using inValue
              rw [both.1]
              exact covers_nodeBytes newNode _
  · exact Or.inr inside

/-- Overwriting the value leaves the whole node clean. -/
theorem persists_overwrite (value : Value) (address : Ptr) :
    Persists readPool dirty (overwrite .persistent value address)
      fun _ next => ∀ place, next place = true → dirty place = true ∧ nodeBytes address place = false := by
  have unchanged : Persists readPool dirty (pure () : M Unit) fun _ next => next = dirty :=
    Holds.pure rfl
  have copies : Persists readPool dirty
      (Mode.persistent.transaction do
        Mode.persistent.addRange (entryBytes address)
        storeValue value address) fun _ next =>
          next = fun place => dirty place || stringBytes address (value.chars.length + 1) place := by
    apply unchanged.bind
    rintro _ dirty rfl
    exact persists_storeValue value address
  apply copies.bind
  rintro _ _ rfl
  apply (persists_persist (nodeBytes address)).weaken
  rintro _ _ rfl place isDirty
  simp only [Bool.and_eq_true, Bool.or_eq_true, Bool.not_eq_true'] at isDirty
  obtain ⟨before | inValue, outside⟩ := isDirty
  · exact ⟨before, outside⟩
  · cases place with
    | root member => cases inValue
    | node other field =>
        cases field with
        | key => cases inValue
        | next level => cases inValue
        | valueByte offset =>
            have both : other = address ∧ offset < value.chars.length + 1 := by
              simpa [stringBytes] using inValue
            simp [nodeBytes, both.1] at outside

/-! ### Histories that insert every key twice -/

/-- Behind a history of inserts only nodes of keys that were inserted once are dirty. -/
structure Clean (initial : SkiplistDram) (store : SkiplistPmem) (towers : List Tower)
    (history : List Key) (dirty : SkPlace → Bool) : Prop where
  holds : Levels False (Lib.memory store) towers
  cleaned : Cleaned readPool initial dirty store
  spoiled : ∀ place, dirty place = true → ∃ tower ∈ towers,
    history.count tower.entry.1 = 1 ∧ nodeBytes tower.label place = true
  known : ∀ key, key ∈ history ↔ ∃ tower ∈ towers, tower.entry.1 = key

theorem count_snoc_of_ne {history : List Key} {other : Key} (different : other ≠ key) :
    (history ++ [key]).count other = history.count other := by
  rw [List.count_append, List.count_singleton, beq_eq_false_iff_ne.mpr different.symm]
  rfl

/-- An insert of a key that is stored. -/
theorem Clean.updated {history : List Key} {tower : Tower} {after : SkiplistPmem}
    (clean : Clean initial store (low ++ tower :: rest) history dirty)
    (ran : overwrite .persistent value tower.label store = .ok ((), after)) :
    ∃ next, Clean initial after (low ++ { tower with entry := (tower.entry.1, value) } :: rest)
      (history ++ [tower.entry.1]) next := by
  obtain ⟨next, persisted, cleaned⟩ := clean.cleaned.step (persists_overwrite value tower.label) ran
  obtain ⟨memory, runs, holds⟩ := overwrite_runsTo .persistent clean.holds value
  have tower_mem : tower ∈ low ++ tower :: rest := List.mem_append_right low List.mem_cons_self
  rw [← (runs.of_ok ran).2] at holds
  refine ⟨next, holds, cleaned, ?_, ?_⟩
  · intro place isDirty
    obtain ⟨wasDirty, outside⟩ := persisted place isDirty
    obtain ⟨other, member, once, inside⟩ := clean.spoiled place wasDirty
    have apart : other ≠ tower := by
      rintro rfl
      rw [inside] at outside
      cases outside
    have different : other.entry.1 ≠ tower.entry.1 := fun same =>
      apart (clean.holds.eq_of_key member tower_mem same)
    refine ⟨other, ?_, ?_, inside⟩
    · rcases List.mem_append.mp member with inLow | later
      · exact List.mem_append_left _ inLow
      · rcases List.mem_cons.mp later with same | inRest
        · exact absurd same apart
        · exact List.mem_append_right _ (List.mem_cons_of_mem _ inRest)
    · rw [count_snoc_of_ne different, once]
  · intro key
    have inserted : Inserted store.aux.side null tower.entry.1 value (low ++ tower :: rest)
        (low ++ { tower with entry := (tower.entry.1, value) } :: rest) := .updated low rest tower rfl
    rw [inserted.stored_iff, ← clean.known, List.mem_append, List.mem_singleton]

/-- An insert of a key that is not stored. -/
theorem Clean.spliced {history : List Key} {path : Path} {after : SkiplistPmem}
    (clean : Clean initial store (low ++ rest) history dirty)
    (finds : Finds store.root low path) (below : ∀ tower ∈ low, tower.entry.1 < key)
    (above : ∀ tower ∈ rest, key < tower.entry.1)
    (ran : insertNew .persistent pool key value path store = .ok ((), after)) :
    ∃ next, Clean initial after
      (low ++ ⟨store.heap.size + 1, (key, value), drawnHeight 0 store.aux.side⟩ :: rest)
      (history ++ [key]) next := by
  have missing : ∀ tower ∈ low ++ rest, tower.entry.1 ≠ key := by
    intro tower member
    rcases List.mem_append.mp member with inLow | inRest
    · exact (below tower inLow).ne
    · exact (above tower inRest).ne'
  have fresh : history.count key = 0 := by
    rw [List.count_eq_zero]
    intro inHistory
    obtain ⟨tower, member, same⟩ := (clean.known key).mp inHistory
    exact missing tower member same
  obtain ⟨memory, runs, holds⟩ :=
    insertNew_runsTo .persistent pool clean.holds finds below above value
  rw [← (runs.of_ok ran).2] at holds
  obtain ⟨address, middle, allocated, afterAllocate⟩ := bind_ok_inv ran
  obtain ⟨rfl, _⟩ :=
    (Mode.persistent.allocate_runsTo pool.garbage (Lib.memory store)).of_ok allocated
  obtain ⟨_, rfl, provided⟩ :=
    clean.cleaned.step (Mode.persists_allocate rootApart pool.garbage dirty) allocated
  obtain ⟨next, spoils, cleaned⟩ :=
    provided.step (persists_filled _ path key value _) afterAllocate
  refine ⟨next, holds, cleaned, ?_, ?_⟩
  · intro place isDirty
    rcases spoils place isDirty with before | inside
    · rw [Bool.and_eq_true] at before
      obtain ⟨other, member, once, inside⟩ := clean.spoiled place before.1
      refine ⟨other, ?_, ?_, inside⟩
      · rcases List.mem_append.mp member with inLow | inRest
        · exact List.mem_append_left _ inLow
        · exact List.mem_append_right _ (List.mem_cons_of_mem _ inRest)
      · rw [count_snoc_of_ne (missing other member), once]
    · refine ⟨_, List.mem_append_right low List.mem_cons_self, ?_, inside⟩
      simp [fresh]
  · intro other
    rw [(Inserted.spliced low rest missing).stored_iff, ← clean.known, List.mem_append,
      List.mem_singleton]

/-- One more insert. -/
theorem Clean.step {history : List Key} (clean : Clean initial store towers history dirty)
    (pool : SkPool) (key : Key) (value : Value) :
    ∃ final towers' next, insert .persistent pool key value store = .ok (1, final) ∧
      Clean initial final towers' (history ++ [key]) next := by
  rcases insert_cases .persistent pool clean.holds key value with
    ⟨low, tower, rest, rfl, rfl, inserts⟩ | ⟨low, rest, path, rfl, below, above, finds, inserts⟩
  · obtain ⟨after, runs, _⟩ := overwrite_runsTo .persistent clean.holds value
    obtain ⟨final, ran, _⟩ := runs store rfl
    obtain ⟨next, updated⟩ := clean.updated ran
    refine ⟨final, _, next, ?_, updated⟩
    rw [inserts, bind_ok ran]
    rfl
  · obtain ⟨after, runs, _⟩ := insertNew_runsTo .persistent pool clean.holds finds below above value
    obtain ⟨final, ran, _⟩ := runs store rfl
    obtain ⟨next, spliced⟩ := clean.spliced finds below above ran
    refine ⟨final, _, next, ?_, spliced⟩
    rw [inserts, bind_ok ran]
    rfl

theorem Clean.run {history : List Key} (clean : Clean initial store towers history dirty)
    (pool : SkPool) (pairs : List (Key × Value)) :
    ∃ final towers' next, insertEach (insert .persistent pool) pairs store = .ok ((), final) ∧
      Clean initial final towers' (history ++ pairs.map Prod.fst) next := by
  induction pairs generalizing store towers history dirty with
  | nil =>
      refine ⟨store, towers, dirty, rfl, ?_⟩
      rw [List.map_nil, List.append_nil]
      exact clean
  | cons pair rest inductionHypothesis =>
      obtain ⟨middle, between, spoiled, ran, nextClean⟩ := clean.step pool pair.1 pair.2
      obtain ⟨final, towers', next, restRan, finalClean⟩ := inductionHypothesis nextClean
      refine ⟨final, towers', next, ?_, ?_⟩
      · rw [insertEach, bind_ok ran]
        exact restRan
      · rw [List.append_assoc] at finalClean
        exact finalClean

theorem storeRoot_frames (node : Ptr) (before : SkiplistDram) (value : Unit) (after : SkiplistDram)
    (ran : Prog.setRoot node before = .ok (value, after)) (place : SkPlace) :
    (Effect.store (memberBytes ())).Frames place (readPool before place) (readPool after place) := by
  cases ran
  cases place with
  | root member =>
      constructor
      · intro outside
        cases outside
      · simp [readPool, readObjects, readRoot]
  | node address field => exact ⟨fun _ => rfl, Iff.rfl⟩

/-- Behind `init` everything is durable. -/
theorem clean_init {pool : SkPool} (zeroed : pool.Zeroed) (outcomes : Outcomes) :
    ∃ store dirty, init .persistent pool (blank outcomes) = .ok (1, store) ∧
      Clean (Lib.memory (blank outcomes)) store [] [] dirty := by
  obtain ⟨store, ran, memoryEq⟩ := init_runsTo .persistent pool outcomes (blank outcomes) rfl
  have persists : Persists readPool (fun _ => false) (init .persistent pool)
      fun _ next => ∀ place, next place = false := by
    have sets : Persists readPool (fun _ => false)
        (Mode.persistent.transaction do
          Mode.persistent.addRange (memberBytes ())
          let head ← Mode.persistent.allocate pool.garbage
          storeRoot head
          Mode.persistent.persist (memberBytes ()))
        fun _ next => ∀ place, next place = false := by
      have unchanged : Persists readPool (fun _ => false) (pure () : M Unit)
          fun _ next => next = fun _ => false := Holds.pure rfl
      apply unchanged.bind
      rintro _ _ rfl
      apply (Mode.persists_allocate rootApart pool.garbage _).bind
      rintro head _ rfl
      have roots : Persists readPool (fun place => false && !nodeBytes head place) (storeRoot head)
          fun _ next => next = fun place => (false && !nodeBytes head place) || memberBytes () place :=
        Persists.store (storeRoot_frames head) fun _ => rfl
      apply roots.bind
      rintro _ _ rfl
      apply (persists_persist (memberBytes ())).weaken
      rintro _ _ rfl place
      simp
    apply sets.bind
    intro _ next clean
    exact Holds.bind (Holds.pure clean) fun _ _ stillClean => Holds.pure stillClean
  obtain ⟨dirty, clean, cleaned⟩ := (Cleaned.fresh rfl rfl).step persists ran
  refine ⟨store, dirty, ran, ?_, cleaned, ?_, ?_⟩
  · rw [memoryEq]
    exact levels_newPool zeroed outcomes
  · intro place isDirty
    rw [clean place] at isDirty
    cases isDirty
  · intro key
    simp

/-- Where every key was inserted twice everything is durable. -/
theorem durable_of_twice (outcomes : Outcomes) {pairs : List (Key × Value)}
    (twice : ∀ key ∈ pairs.map Prod.fst, 2 ≤ (pairs.map Prod.fst).count key) :
    InsertsDurable outcomes pairs := by
  intro pool store final towers zeroed initRan ran holds recovered crash tower member
  obtain ⟨started, dirty, startRan, clean⟩ := clean_init zeroed outcomes
  rw [initRan] at startRan
  cases startRan
  obtain ⟨ended, _, next, endRan, last⟩ := clean.run pool pairs
  rw [ran] at endRan
  cases endRan
  have same : readPool recovered = readPool (Lib.memory final) := by
    funext place
    apply last.cleaned.recovers crash
    cases isDirty : next place with
    | false => rfl
    | true =>
        obtain ⟨other, otherMember, once, _⟩ := last.spoiled place isDirty
        have stored := (last.known other.entry.1).mpr ⟨other, otherMember, rfl⟩
        rw [List.nil_append] at stored once
        have enough := twice other.entry.1 stored
        rw [once] at enough
        exact absurd enough (by decide)
  exact reaches_of_levels (holds.of_read same) member

/-! ### Histories that insert some key once -/

/-- What inserts do is allowed, persists of whole nodes apart. -/
structure Permits (pool : SkPool) (allowed : Effect SkPlace → SkiplistDram → Prop) : Prop where
  stores : ∀ range memory, allowed (.store range) memory
  slots : ∀ previous level memory, allowed (.persist (pool.rangeFrom previous level)) memory
  nothing : ∀ memory, allowed (.persist fun _ => false) memory
  allocates : ∀ address memory, memory.heap.get? address = some (pool.garbage address) →
    allowed (.provide (nodeBytes address)) memory

section Effects

variable {allowed : Effect SkPlace → SkiplistDram → Prop}

theorem emits_storeNext (permits : Permits pool allowed) (level : Nat) (target address : Ptr) :
    Emits readPool false allowed (storeNext level target address) :=
  Emits.modify rootApart (next_kept level target address) (permits.stores _)

theorem emits_linkIn (permits : Permits pool allowed) (newNode : Ptr) (path : Path) (level : Nat) :
    Emits readPool false allowed (linkIn .persistent pool newNode path level) := by
  apply (Emits.lift _).bind
  intro previous
  apply (Emits.pure ()).bind
  intro _
  have follow : Emits readPool false allowed (onMemory (SkiplistDram.nextOnPath path level)) :=
    Holds.reads (reading_nextOnPath path level) fun _ => trivial
  apply follow.bind
  intro following
  apply (emits_storeNext permits level following newNode).bind
  intro _
  apply (emits_storeNext permits level newNode previous).bind
  intro _
  apply (Emits.persist permits.nothing).bind
  intro _
  exact Emits.persist (permits.slots previous level)

theorem emits_insertNodeFrom (permits : Permits pool allowed) (newNode : Ptr) (path : Path) :
    ∀ fuel level, Emits readPool false allowed
      (insertNodeFrom .persistent pool newNode path fuel level)
  | 0, _ => Holds.fault .diverged
  | fuel + 1, level => by
      apply (emits_linkIn permits newNode path level).bind
      intro _
      apply Holds.branch
      · intro _
        have draw : Emits readPool false allowed (onMemory SkiplistDram.rand) :=
          Holds.unseenOnMemory rand_unseen fun _ => trivial
        apply draw.bind
        intro outcome
        apply Holds.branch
        · exact fun _ => emits_insertNodeFrom permits newNode path fuel (level + 1)
        · exact fun _ => Emits.pure ()
      · exact fun _ => Emits.pure ()

theorem emits_insertNew (permits : Permits pool allowed) (key : Key) (value : Value) (path : Path) :
    Emits readPool false allowed (insertNew .persistent pool key value path) := by
  have allocates : Emits readPool Mode.persistent.inside allowed
      (Mode.persistent.allocate pool.garbage) := Mode.emits_allocate rootApart permits.allocates
  apply allocates.bind
  intro newNode
  apply (Emits.modify rootApart (key_kept key newNode) (permits.stores _)).bind
  intro _
  apply (Emits.modify rootApart (value_kept value newNode) (permits.stores _)).bind
  intro _
  exact emits_insertNodeFrom permits newNode path _ _

theorem emits_overwrite (permits : Permits pool allowed) (value : Value)
    (persists : ∀ memory, allowed (.persist (nodeBytes address)) memory) :
    Emits readPool false allowed (overwrite .persistent value address) := by
  have copies : Emits readPool false allowed
      (Mode.persistent.transaction do
        Mode.persistent.addRange (entryBytes address)
        storeValue value address) := by
    apply (Emits.pure ()).bind
    intro _
    exact Emits.modify rootApart (value_kept value address) (permits.stores _)
  apply Emits.bind copies
  intro _
  exact Emits.persist persists

/-- One insert; `nodes` says that the node of its key may be persisted. -/
theorem traced_insert (permits : Permits pool allowed) (traced : Traced readPool allowed start store)
    (holds : Levels False (Lib.memory store) towers) (value : Value)
    (nodes : ∀ tower ∈ towers, tower.entry.1 = key →
      ∀ memory, allowed (.persist (nodeBytes tower.label)) memory) :
    ∃ final towers', insert .persistent pool key value store = .ok (1, final) ∧
      Traced readPool allowed start final ∧ Levels False (Lib.memory final) towers' ∧
      Inserted store.aux.side (store.heap.size + 1) key value towers towers' := by
  obtain ⟨final, towers', ran, finalHolds, inserted⟩ := insert_ok .persistent pool holds key value
  refine ⟨final, towers', ran, ?_, finalHolds, inserted⟩
  rcases insert_cases .persistent pool holds key value with
    ⟨low, tower, rest, rfl, same, inserts⟩ | ⟨low, rest, path, _, _, _, _, inserts⟩
  · rw [inserts] at ran
    have allows := nodes tower (List.mem_append_right low List.mem_cons_self) same
    exact traced.step ((emits_overwrite permits value allows).bind fun _ => Emits.pure 1) ran
  · rw [inserts] at ran
    exact traced.step ((emits_insertNew permits key value path).bind fun _ => Emits.pure 1) ran

/-- A run that keeps some places; where they are, the nodes of all keys of the run may be persisted. -/
theorem traced_run (permits : Permits pool allowed) (kept : List (Nat × Key))
    (pairs : List (Key × Value)) (traced : Traced readPool allowed start store)
    (holds : Levels False (Lib.memory store) towers) (keeps : kept ⊆ places towers)
    (nodes : ∀ (memory : SkiplistDram) towers, Levels False memory towers → kept ⊆ places towers →
      ∀ tower ∈ towers, tower.entry.1 ∈ pairs.map Prod.fst →
        ∀ memory, allowed (.persist (nodeBytes tower.label)) memory) :
    ∃ final towers', insertEach (insert .persistent pool) pairs store = .ok ((), final) ∧
      Traced readPool allowed start final ∧ Levels False (Lib.memory final) towers' ∧
      kept ⊆ places towers' ∧ ∀ key, (∃ tower ∈ towers', tower.entry.1 = key) ↔
        (∃ tower ∈ towers, tower.entry.1 = key) ∨ key ∈ pairs.map Prod.fst := by
  induction pairs generalizing store towers with
  | nil => exact ⟨store, towers, rfl, traced, holds, keeps, fun key => by simp⟩
  | cons pair rest inductionHypothesis =>
      have here : ∀ tower ∈ towers, tower.entry.1 = pair.1 →
          ∀ memory, allowed (.persist (nodeBytes tower.label)) memory := by
        intro tower member same
        apply nodes (Lib.memory store) towers holds keeps tower member
        rw [same]
        exact List.mem_cons_self
      obtain ⟨middle, between, ran, nextTraced, nextHolds, inserted⟩ :=
        traced_insert permits traced holds pair.2 here
      obtain ⟨final, towers', restRan, finalTraced, finalHolds, finalKeeps, stored⟩ :=
        inductionHypothesis nextTraced nextHolds (List.Subset.trans keeps inserted.places_subset)
          fun memory towers levels places tower member inRest =>
            nodes memory towers levels places tower member (List.mem_cons_of_mem _ inRest)
      refine ⟨final, towers', ?_, finalTraced, finalHolds, finalKeeps, ?_⟩
      · rw [insertEach, bind_ok ran]
        exact restRan
      · intro key
        rw [stored, inserted.stored_iff, List.map_cons, List.mem_cons, or_assoc]

end Effects

/-- The effect leaves it open that the node at the address gets the key back that the allocator left. -/
def LosesKey (address : Ptr) (key : Key) (effect : Effect SkPlace) (memory : SkiplistDram) : Prop :=
  effect.Leaves (.node address .key) (some (.word (some key))) (readPool memory (.node address .key))

theorem losesKey_permits (address : Ptr) (key : Key) :
    Permits (SkPool.bare key) (LosesKey address key) where
  stores := fun _ _ => trivial
  slots := fun _ _ _ => rfl
  nothing := fun _ => rfl
  allocates := by
    intro other memory live inside
    obtain rfl : address = other := by simpa [nodeBytes] using inside
    simp [readPool, readObjects, live, SkNode.content, SkPool.bare, SkNode.zeros]

/-- The memory with another key in one node. -/
def withKey (memory : SkiplistDram) (address : Ptr) (node : SkNode) (key : Key) : SkiplistDram :=
  { memory with
    heap := memory.heap.set address { node with entry := { node.entry with key := some key } } }

section Losing

variable {node : SkNode} {other : Key}

theorem linkAt_withKey (live : memory.heap.get? address = some node) (index : Nat) :
    linkAt (withKey memory address node key).heap index = linkAt memory.heap index := by
  funext place
  rw [linkAt, withKey, Heap.get?_set live]
  split
  · rename_i same
    rw [same, linkAt, live]
    rfl
  · rfl

theorem read_withKey (live : memory.heap.get? address = some node) {place : SkPlace}
    (elsewhere : place ≠ .node address .key) :
    readPool (withKey memory address node key) place = readPool memory place := by
  cases place with
  | root member => rfl
  | node place field =>
      simp only [readPool, readObjects, withKey, Heap.get?_set live]
      by_cases same : place = address
      · rw [if_pos same, same, live]
        cases field with
        | key => exact absurd (congrArg (fun place => ObjectPlace.node place SkField.key) same) elsewhere
        | valueByte offset => rfl
        | next level => rfl
      · rw [if_neg same]

/-- The entry of the only node with a key is not reached once that node has another key. -/
theorem not_reaches_withKey (holds : Levels exact memory towers) {tower : Tower}
    (member : tower ∈ towers) (live : memory.heap.get? tower.label = some node)
    (different : key ≠ tower.entry.1) (value : Value) :
    ¬ Reaches (withKey memory tower.label node key) tower.entry.1 value := by
  rintro ⟨first, between, address, found, leads, entry⟩
  rw [linkAt_withKey live] at found leads
  obtain ⟨start, rootFound, linked⟩ := linked_base holds
  have rootSame : (withKey memory tower.label node key).root = memory.root := rfl
  rw [rootSame, rootFound] at found
  obtain rfl := Option.some.inj found
  rw [entryAt, withKey, Heap.get?_set live] at entry
  rcases leads.mem_of_linked linked with isNull | inLabels
  · have notHere : address ≠ tower.label := fun same =>
      Heap.ne_null_of_get? live (same.symm.trans isNull)
    rw [if_neg notHere, isNull, Heap.get?_null] at entry
    cases entry
  · by_cases here : address = tower.label
    · rw [if_pos here, Option.bind_some, SkNode.view, Option.bind_some] at entry
      obtain ⟨string, _, pair⟩ := Option.map_eq_some_iff.mp entry
      exact different (congrArg Prod.fst pair)
    · rw [if_neg here] at entry
      obtain ⟨candidate, candidateMember, labelEq⟩ := List.mem_map.mp inLabels
      have shown := holds.shown candidate candidateMember
      rw [labelEq, entryAt, entry] at shown
      have sameKey := congrArg Prod.fst (Option.some.inj shown)
      have sameTower := holds.eq_of_key member candidateMember sameKey
      exact here (labelEq.symm.trans (congrArg Tower.label sameTower.symm))

end Losing

theorem emits_init (pool : SkPool) :
    Emits readPool false (fun _ _ => True) (init .persistent pool) := by
  have sets : Emits readPool false (fun _ _ => True)
      (Mode.persistent.transaction do
        Mode.persistent.addRange (memberBytes ())
        let head ← Mode.persistent.allocate pool.garbage
        storeRoot head
        Mode.persistent.persist (memberBytes ())) := by
    apply (Emits.pure ()).bind
    intro _
    have allocates : Emits readPool Mode.persistent.inside (fun _ _ => True)
        (Mode.persistent.allocate pool.garbage) := Mode.emits_allocate rootApart fun _ _ _ => trivial
    apply allocates.bind
    intro head
    have roots : Emits readPool false (fun _ _ => True) (storeRoot head) :=
      Emits.store (fun _ => trivial) (storeRoot_frames head)
    apply roots.bind
    intro _
    exact Emits.persist fun _ => trivial
  apply sets.bind
  intro _
  exact (Emits.pure ()).bind fun _ => Emits.pure 1

/-- The key of a node whose key was inserted once may be lost. -/
theorem not_durable_of_once (outcomes : Outcomes) {pairs : List (Key × Value)}
    (once : (pairs.map Prod.fst).count key = 1) : ¬ InsertsDurable outcomes pairs := by
  intro durable
  have stored : key ∈ pairs.map Prod.fst := List.count_pos_iff.mp (by omega)
  obtain ⟨⟨_, value⟩, pairMember, rfl⟩ := List.mem_map.mp stored
  obtain ⟨earlier, later, rfl⟩ := List.append_of_mem pairMember
  rename_i wanted
  have counts : (earlier.map Prod.fst).count wanted + ((later.map Prod.fst).count wanted + 1) = 1 := by
    simpa using once
  have notEarlier : wanted ∉ earlier.map Prod.fst := List.count_eq_zero.mp (by omega)
  have notLater : wanted ∉ later.map Prod.fst := List.count_eq_zero.mp (by omega)
  obtain ⟨started, startRan, startedEq⟩ :=
    init_runsTo .persistent (SkPool.bare (wanted + 1)) outcomes (blank outcomes) rfl
  have anything : Permits (SkPool.bare (wanted + 1)) fun _ _ => True :=
    ⟨fun _ _ => trivial, fun _ _ _ => trivial, fun _ => trivial, fun _ _ _ => trivial⟩
  have startTraced : Traced readPool (fun _ _ => True) (blank outcomes) started :=
    (Traced.refl rfl).step (emits_init _) startRan
  have startHolds : Levels False (Lib.memory started) [] := by
    rw [startedEq]
    exact levels_newPool (SkPool.zeroed_bare _) outcomes
  -- Until the key is inserted only the trail as a whole matters.
  obtain ⟨before, low, beforeRan, beforeTraced, beforeHolds, _, beforeStored⟩ :=
    traced_run anything [] earlier startTraced startHolds (List.nil_subset _)
      fun _ _ _ _ _ _ _ _ => trivial
  have accounted : Accounted readPool (Lib.memory (blank outcomes)) before :=
    beforeTraced.accounted (Accounted.fresh rfl rfl)
  have missing : ∀ tower ∈ low, tower.entry.1 ≠ wanted := by
    intro tower member same
    rcases (beforeStored wanted).mp ⟨tower, member, same⟩ with ⟨other, none, _⟩ | inEarlier
    · cases none
    · exact notEarlier inEarlier
  -- From then on its node stays where it is, and its key may be lost.
  have permits := losesKey_permits (before.heap.size + 1) (wanted + 1)
  obtain ⟨middle, between, middleRan, middleTraced, middleHolds, inserted⟩ :=
    traced_insert permits (Traced.refl beforeTraced.stopped) beforeHolds value
      fun tower member same => absurd same (missing tower member)
  have placed : [(before.heap.size + 1, wanted)] ⊆ places between := by
    intro place member
    obtain rfl := List.mem_singleton.mp member
    exact inserted.places_fresh missing
  have others : ∀ (memory : SkiplistDram) towers, Levels False memory towers →
      [(before.heap.size + 1, wanted)] ⊆ places towers →
      ∀ tower ∈ towers, tower.entry.1 ∈ later.map Prod.fst →
        ∀ memory, LosesKey (before.heap.size + 1) (wanted + 1)
          (.persist (nodeBytes tower.label)) memory := by
    intro memory towers holds keeps tower member inLater _
    obtain ⟨kept, keptMember, keptEq⟩ := List.mem_map.mp (keeps List.mem_cons_self)
    have apart : before.heap.size + 1 ≠ tower.label := by
      intro same
      have sameTower := holds.eq_of_label keptMember member ((congrArg Prod.fst keptEq).trans same)
      have keyEq : kept.entry.1 = wanted := congrArg Prod.snd keptEq
      rw [← sameTower, keyEq] at inLater
      exact notLater inLater
    simpa [LosesKey, Effect.Leaves, nodeBytes] using apart
  obtain ⟨final, towers, finalRan, finalTraced, finalHolds, keeps, _⟩ :=
    traced_run permits _ later middleTraced middleHolds placed others
  obtain ⟨tower, member, towerEq⟩ := List.mem_map.mp (keeps List.mem_cons_self)
  have labelEq : tower.label = before.heap.size + 1 := congrArg Prod.fst towerEq
  have keyEq : tower.entry.1 = wanted := congrArg Prod.snd towerEq
  obtain ⟨node, live, _⟩ := exists_entry (finalHolds.shown tower member)
  have absent : readPool (Lib.memory before) (.node tower.label .key) = none := by
    rw [labelEq]
    cases there : before.heap.get? (before.heap.size + 1) with
    | none => simp [readPool, readObjects, Lib.memory, there]
    | some node => exact absurd rfl (Heap.ne_fresh_of_get? there)
  have crash : Recovers readPool (Lib.memory (blank outcomes)) final.aux.trail
      (withKey (Lib.memory final) tower.label node (wanted + 1)) := by
    apply (finalTraced.accounted accounted).recovers
    intro place
    by_cases here : place = .node tower.label .key
    · apply Or.inr
      have lost : readPool (withKey (Lib.memory final) tower.label node (wanted + 1)) place =
          some (.word (some (wanted + 1))) := by
        rw [here]
        simp [readPool, readObjects, withKey, Heap.get?_set live, SkNode.content]
      rw [lost, here]
      apply finalTraced.may accounted
      · intro effect memory loses
        rw [labelEq]
        exact loses
      · exact absent
      · simp [readPool, readObjects, live]
    · exact Or.inl (read_withKey live here)
  have ran : insertEach (insert .persistent (SkPool.bare (wanted + 1)))
      (earlier ++ (wanted, value) :: later) started = .ok ((), final) := by
    rw [insertEach_append, bind_ok beforeRan, insertEach, bind_ok middleRan]
    exact finalRan
  have reaches := durable _ started final towers (SkPool.zeroed_bare _) startRan ran finalHolds _ crash tower member
  have different : wanted + 1 ≠ tower.entry.1 := by
    rw [keyEq]
    exact key_succ_ne wanted
  exact not_reaches_withKey finalHolds member live different _ reaches

/-- Inserts into a new pool are durable exactly when every key is inserted twice, whatever `rand()`
returns. -/
theorem insertsDurable_iff (outcomes : Outcomes) (pairs : List (Key × Value)) :
    InsertsDurable outcomes pairs ↔
      ∀ key ∈ pairs.map Prod.fst, 2 ≤ (pairs.map Prod.fst).count key := by
  constructor
  · intro durable key member
    by_contra few
    have positive : 0 < (pairs.map Prod.fst).count key := List.count_pos_iff.mpr member
    have once : (pairs.map Prod.fst).count key = 1 := by omega
    exact not_durable_of_once outcomes once durable
  · exact durable_of_twice outcomes

end StoredsBench.SkiplistPmem
