/-
Module: StoredsBench.Hashmap.PmemRefinement
Layer: Refinement
Purpose: The chains a pool of `HtPmem` or `HtPmemTx` shows are determined by what its places hold;
  `insert` changes the chain of its key and no other, `read` finds the entry of its key.
Trusted boundary: none
Main exports: Holds.congr, insert_cases, insert_runsTo, read_ok
-/
import StoredsBench.Hashmap.Pmem
import StoredsBench.Hashmap.Correctness
import StoredsBench.Lists.PmemRefinement

namespace StoredsBench.HtPmem

open Lib Lib.SortedAssoc Lists Hashmap

theorem rootApart : RootApart readRoot := by
  intro store heap
  funext member
  cases member <;> rfl

section Reading

variable {coefficients : HashCoefficients} {bucket : List Ptr} {chains : Nat → List Cell}
  {store other : Store ListNode (Option HtTable)}

/-- The places of the table determine it. -/
theorem aux_eq_of_read (same : readPool other = readPool store)
    (table : store.aux = some { coefficients := coefficients, bucket := bucket }) :
    other.aux = some { coefficients := coefficients, bucket := bucket } := by
  have members : ∀ member, readRoot other member = readRoot store member :=
    fun member => congrFun same (.root member)
  have a := members .a
  have b := members .b
  have p := members .p
  have nbuckets := members .nbuckets
  have buckets := fun index => members (.bucket index)
  cases otherTable : other.aux with
  | none => simp [readRoot, otherTable, table] at a
  | some found =>
      obtain ⟨otherCoefficients, otherBucket⟩ := found
      obtain ⟨a', b', p', nbuckets', _, _, _⟩ := otherCoefficients
      simp only [readRoot, otherTable, table, Option.map_some, Option.some.injEq,
        Content.word.injEq, UInt32.toUInt64_inj] at a b p nbuckets
      have sameBucket : otherBucket = bucket := by
        apply List.ext_getElem?
        intro index
        have here := buckets index
        simp only [readRoot, otherTable, table, Option.bind_some] at here
        apply Option.map_injective _ here
        intro left right sameContent
        simpa using sameContent
      subst a b p nbuckets sameBucket
      rfl

/-- What the pool holds determines the chains. -/
theorem holds_congr (holds : Hashmap.Holds coefficients bucket store chains)
    (same : readPool other = readPool store) : Hashmap.Holds coefficients bucket other chains where
  table := aux_eq_of_read same holds.table
  linked := by
    intro index inside
    rw [nextAt_eq_of_read same]
    exact holds.linked index inside
  shown := by
    intro index cell member
    rw [entryAt_eq_of_read same]
    exact holds.shown index cell member
  placed := holds.placed
  distinct := holds.distinct

/-- What the loop of `read` is left with after some cells. -/
def lastOf (key : Key) (result : Ptr) (cells : List Cell) : Ptr :=
  cells.foldl (fun result cell => if cell.entry.1 = key then cell.label else result) result

theorem lastOf_of_ne {key : Key} {cells : List Cell} (result : Ptr)
    (different : ∀ cell ∈ cells, cell.entry.1 ≠ key) : lastOf key result cells = result := by
  induction cells with
  | nil => rfl
  | cons cell cells inductionHypothesis =>
      rw [lastOf, List.foldl_cons, if_neg (different cell List.mem_cons_self)]
      exact inductionHypothesis fun other member => different other (List.mem_cons_of_mem _ member)

theorem findLast_ok {key : Key} {cells : List Cell} {first fuel : Nat} {store : HtPmem}
    (linked : Linked (nextAt store.heap) first (labels cells))
    (shown : ∀ cell ∈ cells, entryAt store.heap cell.label = some cell.entry)
    (bound : cells.length < fuel) (result : Ptr) :
    findLast key fuel first result store = .ok (lastOf key result cells, store) := by
  induction cells generalizing first fuel result with
  | nil =>
      obtain rfl : first = null := linked
      obtain ⟨fuel, rfl⟩ := Nat.exists_eq_add_of_lt bound
      rfl
  | cons cell cells inductionHypothesis =>
      obtain ⟨rfl, notNull, following, followed, restLinked⟩ := linked
      obtain ⟨node, live, keyWritten, _⟩ := exists_entry (shown cell List.mem_cons_self)
      obtain ⟨same, sameLive, nextWritten⟩ := exists_next followed
      obtain rfl : same = node := Option.some.inj (sameLive.symm.trans live)
      have keyRead : written same.key = .ok cell.entry.1 := by
        rw [keyWritten]
        rfl
      have nextRead : written same.next = .ok following := by
        rw [nextWritten]
        rfl
      cases fuel with
      | zero => simp at bound
      | succ fuel =>
          rw [findLast, if_neg notNull, bind_ok (Prog.load_ok live),
            bind_ok (Prog.lift_ok keyRead store), bind_ok (Prog.lift_ok nextRead store)]
          apply inductionHypothesis restLinked
          · exact fun other member => shown other (List.mem_cons_of_mem _ member)
          · simpa using bound

/-- `read` leads to the value in the chain of the key. -/
theorem read_ok {store : HtPmem} (holds : Hashmap.Holds coefficients bucket (memory store) chains)
    (key : Key) :
    ((read key store).bind fun found => stringAt found.2 found.1) =
      .ok (lookupIn coefficients chains key) := by
  obtain ⟨first, atBucket, linked⟩ := holds.bucketAt_ok key
  have checked : check store = .ok ({ coefficients := coefficients, bucket := bucket }, store) :=
    onMemory_reads holds.check_ok
  have ran : read key store = .ok (lastOf key null (chains (home coefficients key)), store) := by
    refine (bind_ok checked).trans ((bind_ok (Prog.lift_ok atBucket _)).trans
      ((bind_ok (Prog.heapSize_ok _)).trans ?_))
    exact findLast_ok linked (holds.shown _) (Nat.lt_succ_of_le (holds.length_le _)) null
  rw [ran]
  dsimp only [Except.bind]
  rcases exists_first key (chains (home coefficients key)) with
    ⟨before, cell, rest, split, different, rfl⟩ | different
  · have distinct := holds.distinct (home coefficients cell.entry.1)
    rw [split, List.pairwise_append, List.pairwise_cons] at distinct
    have member : cell ∈ chains (home coefficients cell.entry.1) := by
      rw [split]
      exact List.mem_append_right _ List.mem_cons_self
    have found : lastOf cell.entry.1 null (chains (home coefficients cell.entry.1)) = cell.label := by
      have afterDifferent := lastOf_of_ne cell.label fun other otherMember =>
        (distinct.2.1.1 other otherMember).symm
      rw [lastOf] at afterDifferent
      rw [split, lastOf, List.foldl_append, List.foldl_cons, if_pos rfl, afterDifferent]
    rw [found, lookupIn, split, lookup_entries_first different rfl]
    exact stringAt_ok (holds.shown _ cell member)
  · rw [lastOf_of_ne null different, lookupIn, lookup_entries_of_ne different]
    rfl

/-- What the pool holds determines what `read` returns. -/
theorem answer_ok (holds : Hashmap.Holds coefficients bucket store chains) (key : Key) :
    answer key store = .ok (lookupIn coefficients chains key) :=
  read_ok (show Hashmap.Holds coefficients bucket (memory (opened store)) chains from holds) key

end Reading

theorem init_holds (coefficients : HashCoefficients) :
    Hashmap.Holds coefficients (List.replicate coefficients.nbuckets.toNat null)
      (memory (init coefficients)) fun _ => [] := HtDram.init_holds coefficients

/-! ### The effects of a new entry -/

theorem storeBucket_frames (index : UInt64) (entry : Ptr) (before : HtDram) (result : Unit)
    (after : HtDram)
    (ran : (do let table ← HtDram.check; HtDram.setBucket table index entry : HtDram.M Unit) before =
      .ok (result, after)) (place : ListPlace HtMember) :
    (Effect.store (memberBytes (.bucket index.toNat))).Frames place (readPool before place)
      (readPool after place) := by
  obtain ⟨table, checked, checkRan, setRan⟩ := bind_ok_inv ran
  obtain ⟨root, rooted, rootRan, branch⟩ := bind_ok_inv checkRan
  cases rootRan
  cases tableEq : before.aux with
  | none =>
      simp only [tableEq] at branch
      cases branch
  | some found =>
      simp only [tableEq] at branch
      cases branch
      unfold HtDram.setBucket at setRan
      split at setRan
      · rename_i inside
        cases setRan
        cases place with
        | node address field => exact ⟨fun _ => rfl, Iff.rfl⟩
        | root member =>
            cases member with
            | bucket other =>
                simp only [readPool, readPlace, readObjects, readRoot, tableEq, Option.bind_some]
                constructor
                · intro outside
                  have different : other ≠ index.toNat := by simpa [memberBytes] using outside
                  rw [List.getElem?_set_ne different.symm]
                · simp
            | a => simp [readPool, readPlace, readObjects, readRoot, tableEq, Effect.Frames]
            | b => simp [readPool, readPlace, readObjects, readRoot, tableEq, Effect.Frames]
            | p => simp [readPool, readPlace, readObjects, readRoot, tableEq, Effect.Frames]
            | nbuckets => simp [readPool, readPlace, readObjects, readRoot, tableEq, Effect.Frames]
      · cases setRan

section Effects

variable {pool : ListPool HtMember}
  {allowed : Effect (ListPlace HtMember) → Store ListNode (Option HtTable) → Prop}

/-- A new entry in front of the chain of its bucket. -/
def pushEntry (pool : ListPool HtMember) (table : HtTable) (first : Ptr) (key : Key) (value : Value) :
    M Unit :=
  pool.mode.transaction do
    let index := hashFunction table.coefficients key
    pool.mode.addRange (pool.rangeFrom (.bucket index.toNat))
    let entry ← pool.createNode key value
    storeNext first entry
    storeBucket index entry
    pool.mode.persist (pool.rangeFrom (.bucket index.toNat))

theorem emits_pushEntry (stores : ∀ range memory, allowed (.store range) memory)
    (begins : ∀ memory, allowed .begin memory) (commits : ∀ memory, allowed .commit memory)
    (allocates : ∀ address memory, memory.heap.get? address = some (pool.garbage address) →
      allowed (pool.mode.allocation (nodeBytes address)) memory)
    (snapshots : pool.mode = .transactional → ∀ range memory, allowed (.snapshot range) memory)
    (persists : pool.mode = .persistent →
      ∀ index memory, allowed (.persist (pool.rangeFrom (.bucket index))) memory)
    (table : HtTable) (first : Ptr) (key : Key) (value : Value) :
    Emits readPool false allowed (pushEntry pool table first key value) := by
  refine Mode.emits_transaction ?_ begins commits
  apply (Mode.emits_addRange fun mode => snapshots mode _).bind
  intro _
  apply (emits_createNode rootApart stores allocates).bind
  intro entry
  apply (emits_storeNext rootApart stores).bind
  intro _
  apply (Emits.store (stores _) (storeBucket_frames _ entry)).bind
  intro _
  exact Mode.emits_persist fun mode => persists mode _

end Effects

/-! ### Inserting -/

section Inserting

variable {coefficients : HashCoefficients} {bucket : List Ptr} {chains : Nat → List Cell}
  {store : HtPmem} {key : Key} {value : Value}

/-- The insert of a stored key overwrites its value, that of another key enters a new entry. -/
theorem insert_cases (pool : ListPool HtMember)
    (holds : Hashmap.Holds coefficients bucket (memory store) chains) (key : Key) (value : Value) :
    (∃ before cell after, chains (home coefficients key) = before ++ cell :: after ∧
        (∀ other ∈ before, other.entry.1 ≠ key) ∧ cell.entry.1 = key ∧
        insert pool key value store =
          (do
            pool.overwrite value cell.label
            pool.mode.persist (stringBytes cell.label (value.chars.length + 1))
            return 1 : M Int) store) ∨
      ((∀ cell ∈ chains (home coefficients key), cell.entry.1 ≠ key) ∧
        ∃ first, Linked (nextAt store.heap) first (labels (chains (home coefficients key))) ∧
          insert pool key value store =
            (do
              pushEntry pool { coefficients := coefficients, bucket := bucket } first key value
              return 1 : M Int) store) := by
  obtain ⟨first, atBucket, linked⟩ := holds.bucketAt_ok key
  have checked : check store = .ok ({ coefficients := coefficients, bucket := bucket }, store) :=
    onMemory_reads holds.check_ok
  have start : insert pool key value store = _ :=
    (bind_ok checked).trans ((bind_ok (Prog.lift_ok atBucket store)).trans
      (bind_ok (Prog.heapSize_ok store)))
  have sameHeap : store.heap = (memory store).heap := rfl
  rw [start]
  rcases holds.findNode_ok key linked with
    ⟨before, cell, rest, split, different, rfl, found⟩ | ⟨different, missing⟩
  · refine Or.inl ⟨before, cell, rest, split, different, rfl, ?_⟩
    have notNull : cell.label ≠ null := by
      apply Nat.ne_of_gt
      have member : cell ∈ chains (home coefficients cell.entry.1) := by
        rw [split]
        exact List.mem_append_right _ List.mem_cons_self
      exact (holds.label_bounds member).1
    refine (bind_ok (findNode_of_heap store sameHeap found)).trans ?_
    rw [if_pos notNull]
  · refine Or.inr ⟨different, first, linked, ?_⟩
    refine (bind_ok (findNode_of_heap store sameHeap missing)).trans ?_
    rw [if_neg (fun notNull => notNull rfl)]
    rfl

theorem storeBucket_runsTo {before other : HtDram}
    (holds : Hashmap.Holds coefficients bucket before chains) (key : Key) {entry : Ptr}
    (table : other.aux = some { coefficients := coefficients, bucket := bucket }) :
    RunsTo (storeBucket (HtDram.hashFunction coefficients key) entry) other ()
      { other with aux := some ⟨coefficients, bucket.set (home coefficients key) entry⟩ } := by
  apply RunsTo.perform
  have root : Prog.getAux other =
      .ok (some { coefficients := coefficients, bucket := bucket }, other) := by
    rw [Prog.getAux_ok, table]
  have checked : HtDram.check other = .ok ({ coefficients := coefficients, bucket := bucket }, other) := by
    rw [HtDram.check, bind_ok root]
    rfl
  rw [bind_ok checked]
  exact holds.setBucket_ok key entry other

/-- A new entry is pushed in front of the chain of its bucket. -/
theorem pushEntry_runsTo (pool : ListPool HtMember) {before : HtDram}
    (holds : Hashmap.Holds coefficients bucket before chains) {first : Ptr}
    (linked : Linked (nextAt before.heap) first (labels (chains (home coefficients key))))
    (missing : ∀ cell ∈ chains (home coefficients key), cell.entry.1 ≠ key) (value : Value) :
    ∃ after, RunsTo (pushEntry pool { coefficients := coefficients, bucket := bucket } first key value)
        before () after ∧
      Hashmap.Holds coefficients (bucket.set (home coefficients key) (before.heap.size + 1)) after
        (Function.update chains (home coefficients key)
          (⟨before.heap.size + 1, (key, value)⟩ :: chains (home coefficients key))) := by
  have view : ({ pool.newNode key value (before.heap.size + 1) with next := some first } :
      ListNode).view = some (key, value) := by
    simp [ListNode.view, ListPool.newNode]
  refine ⟨Store.mk (before.heap.push { pool.newNode key value (before.heap.size + 1) with
      next := some first }) before.root
    (some ⟨coefficients, bucket.set (home coefficients key) (before.heap.size + 1)⟩), ?_, ?_⟩
  · apply pool.mode.runsTo_transaction
    apply (pool.mode.runsTo_addRange _ _).bind
    apply (createNode_runsTo pool key value before).bind
    apply (RunsTo.perform (Prog.modify_allocated before _ fun contents =>
      { contents with next := some first })).bind
    apply RunsTo.bind
    · apply storeBucket_runsTo holds key
      exact holds.table
    · exact pool.mode.runsTo_persist _ _
  · apply holds.push linked missing (Nat.succ_ne_zero _) rfl
    · rw [nextAt_allocated, Function.update_self]
    · rw [entryAt_allocated, Function.update_self, view]
    · intro address old
      rw [nextAt_allocated, Function.update_of_ne (by omega)]
    · intro address old
      rw [entryAt_allocated, Function.update_of_ne (by omega)]

/-- `insert` changes what its key reads and nothing else. -/
theorem insert_runsTo (pool : ListPool HtMember)
    (holds : Hashmap.Holds coefficients bucket (memory store) chains) (key : Key) (value : Value) :
    ∃ final bucket' chains', insert pool key value store = .ok (1, final) ∧
      Hashmap.Holds coefficients bucket' (memory final) chains' ∧
      ∀ other, lookupIn coefficients chains' other =
        if other = key then some value else lookupIn coefficients chains other := by
  rcases insert_cases pool holds key value with
    ⟨before, cell, rest, split, different, rfl, inserts⟩ | ⟨missing, first, linked, inserts⟩
  · obtain ⟨after, ran, afterHolds⟩ := update_ok holds split value
    have runs : RunsTo (do
        pool.overwrite value cell.label
        pool.mode.persist (stringBytes cell.label (value.chars.length + 1))
        return 1 : M Int) (memory store) 1 after := by
      apply (overwrite_runsTo pool ran).bind
      apply (pool.mode.runsTo_persist _ _).bind
      exact RunsTo.pure 1 after
    obtain ⟨final, finalRan, finalEq⟩ := runs store rfl
    rw [← inserts] at finalRan
    rw [← finalEq] at afterHolds
    exact ⟨final, bucket, _, finalRan, afterHolds, lookupIn_update split different value⟩
  · obtain ⟨after, runs, afterHolds⟩ := pushEntry_runsTo pool holds linked missing value
    have returns : RunsTo (do
        pushEntry pool { coefficients := coefficients, bucket := bucket } first key value
        return 1 : M Int) (memory store) 1 after := by
      apply runs.bind
      exact RunsTo.pure 1 after
    obtain ⟨final, finalRan, finalEq⟩ := returns store rfl
    rw [← inserts] at finalRan
    rw [← finalEq] at afterHolds
    exact ⟨final, _, _, finalRan, afterHolds, lookupIn_push coefficients chains _ key value⟩

end Inserting

end StoredsBench.HtPmem
