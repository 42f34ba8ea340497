/-
Module: StoredsBench.Skiplist.Transactions
Layer: Correctness
Purpose: Crashes of `SkiplistPmemTx`.  Every slot `insert_node` stores to lies in the new node or in a
  range that was snapshotted in the same round of the loop, so that a crash leaves the list before the
  call or the list after it, for every sequence of coin flips.
Trusted boundary: none
Main exports: logs_linkIn, logs_insertNodeFrom, skiplistPmemTx_insert_failureAtomic
-/
import StoredsBench.Skiplist.PmemRefinement

namespace StoredsBench.SkiplistPmemTx

open Lib Lib.SortedAssoc Skiplist SkiplistPmem EffectLogic

variable {covered : SkPlace → Bool} {address newNode next : Ptr} {level : Nat} {pool : SkPool}

/-! ### Code that logs its stores -/

theorem logs_storeKey (key : Key) (covers : Covers covered address) :
    Logs readPool covered (storeKey key address) fun _ more => more = covered := by
  apply Logs.modify rootApart
  · exact key_kept key address
  · intro place inside
    obtain rfl := eq_of_fieldBytes inside
    exact covers .key

theorem logs_storeValue (value : Value)
    (covers : ∀ offset, covered (.node address (.valueByte offset)) = true) :
    Logs readPool covered (storeValue value address) fun _ more => more = covered := by
  apply Logs.modify rootApart
  · exact value_kept value address
  · intro place inside
    cases place with
    | root member => cases inside
    | node other field =>
        cases field with
        | key => cases inside
        | next level => cases inside
        | valueByte offset =>
            have both : other = address ∧ offset < value.chars.length + 1 := by
              simpa [stringBytes] using inside
            rw [both.1]
            exact covers offset

theorem logs_storeNext (covers : covered (.node address (.next level)) = true) :
    Logs readPool covered (storeNext level next address) fun _ more => more = covered := by
  apply Logs.modify rootApart
  · exact next_kept level next address
  · intro place inside
    obtain rfl := eq_of_fieldBytes inside
    exact covers

/-- One round of the loop stores to the new node and to the slot it has just snapshotted. -/
theorem logs_linkIn (path : Path) (level : Nat) (covers : Covers covered newNode) :
    Logs readPool covered (linkIn .transactional pool newNode path level)
      fun _ more => Covers more newNode := by
  have lookup : Logs readPool covered (Prog.lift (path.get level)) fun _ more => more = covered :=
    Holds.lift _ fun _ => rfl
  apply lookup.bind
  rintro previous covered rfl
  have snapshotted : Logs readPool covered
      (Mode.transactional.addRange (pool.rangeFrom previous level)) fun _ more =>
        more = fun place => covered place || pool.rangeFrom previous level place :=
    Logs.addRange rfl
  apply snapshotted.bind
  rintro _ _ rfl
  have follow : Logs readPool (fun place => covered place || pool.rangeFrom previous level place)
      (onMemory (SkiplistDram.nextOnPath path level))
      fun _ more => more = fun place => covered place || pool.rangeFrom previous level place :=
    Holds.reads (reading_nextOnPath path level) fun _ => rfl
  apply follow.bind
  rintro next _ rfl
  have own : ∀ field, (covered (.node newNode field) ||
      pool.rangeFrom previous level (.node newNode field)) = true := by
    intro field
    rw [covers field, Bool.true_or]
  apply (logs_storeNext (own (.next level))).bind
  rintro _ _ rfl
  have here : (covered (.node previous (.next level)) ||
      pool.rangeFrom previous level (.node previous (.next level))) = true := by
    simp [SkPool.rangeFrom, slotsFrom]
  apply (logs_storeNext here).bind
  rintro _ _ rfl
  exact Holds.pure own

/-- The loop, whatever `rand()` returns and whatever nodes are on the path. -/
theorem logs_insertNodeFrom (path : Path) : ∀ (fuel level : Nat) (covered : SkPlace → Bool),
    Covers covered newNode → Logs readPool covered
      (insertNodeFrom .transactional pool newNode path fuel level) fun _ _ => True
  | 0, _, _, _ => Holds.fault .diverged
  | fuel + 1, level, covered, covers => by
      apply (logs_linkIn path level covers).bind
      intro _ linked linkedCovers
      apply Holds.branch
      · intro _
        have draw : Logs readPool linked (onMemory SkiplistDram.rand) fun _ more => more = linked :=
          Holds.unseenOnMemory rand_unseen fun _ => rfl
        apply draw.bind
        rintro outcome _ rfl
        apply Holds.branch
        · exact fun _ => logs_insertNodeFrom path fuel (level + 1) _ linkedCovers
        · exact fun _ => Holds.pure trivial
      · exact fun _ => Holds.pure trivial

/-- The transaction for a key that is not stored. -/
theorem logs_inserted (pool : SkPool) (key : Key) (value : Value) (path : Path) :
    Logs readPool (fun _ => false)
      (do
        let newNode ← Mode.transactional.allocate pool.garbage
        storeKey key newNode
        storeValue value newNode
        insertNode .transactional pool newNode path)
      fun _ _ => True := by
  apply (Mode.logs_allocate rootApart pool.garbage _).bind
  rintro newNode _ rfl
  have covers := covers_added (fun _ : SkPlace => false) newNode
  apply (logs_storeKey key covers).bind
  rintro _ _ rfl
  apply (logs_storeValue value fun offset => covers (.valueByte offset)).bind
  rintro _ _ rfl
  exact logs_insertNodeFrom path _ _ _ covers

/-- The transaction for a key that is stored. -/
theorem logs_overwritten (value : Value) (address : Ptr) :
    Logs readPool (fun _ => false)
      (do
        Mode.transactional.addRange (entryBytes address)
        storeValue value address)
      fun _ _ => True := by
  have snapshotted : Logs readPool (fun _ => false)
      (Mode.transactional.addRange (entryBytes address)) fun _ more => more = entryBytes address :=
    Logs.addRange rfl
  apply snapshotted.bind
  rintro _ _ rfl
  have entry : ∀ offset, entryBytes address (.node address (.valueByte offset)) = true := by
    intro offset
    simp [entryBytes]
  exact (logs_storeValue value entry).weaken fun _ _ _ => trivial

/-! ### Calls -/

/-- The same head pointer and the same nodes. -/
structure SameList (recovered memory : SkiplistDram) : Prop where
  root : recovered.root = memory.root
  nodes : ∀ address, recovered.heap.get? address = memory.heap.get? address

theorem sameList_of_read {recovered memory : SkiplistDram}
    (same : readPool recovered = readPool memory) : SameList recovered memory :=
  ⟨root_eq_of_read same, object_eq_of_read same⟩

/-- From any durable list of towers on, with any nodes on the path, any garbage in the new node and any
coin flips, `insert` is failure-atomic: a crash inside it leaves exactly the list before the call or
exactly the one after it, and a crash behind it the one after it.  That one has the entry of the key
overwritten, or a new tower that hangs in exactly the levels below the height the coins gave it. -/
theorem skiplistPmemTx_insert_failureAtomic (pool : SkPool) {initial : SkiplistDram}
    {store : SkiplistPmem} {towers : List Tower} (holds : Levels False (memory store) towers)
    (stopped : store.aux.running = false)
    (steady : Steady readPool initial store.aux.trail (memory store)) (key : Key) (value : Value) :
    ∃ final towers' call, insert .transactional pool key value store = .ok (1, final) ∧
      Inserted store.aux.side (store.heap.size + 1) key value towers towers' ∧
      Levels False (memory final) towers' ∧ final.aux.trail = store.aux.trail ++ call ∧
      FailureAtomic readPool initial store.aux.trail call
        (fun recovered => SameList recovered (memory store) ∧ Levels False recovered towers)
        (fun recovered => SameList recovered (memory final) ∧ Levels False recovered towers') := by
  obtain ⟨final, towers', ran, finalHolds, inserted⟩ := insert_ok .transactional pool holds key value
  have logged : ∃ call, final.aux.running = false ∧ final.aux.trail = store.aux.trail ++ call ∧
      Steady readPool initial final.aux.trail (memory final) ∧
      FailureAtomic readPool initial store.aux.trail call
        (fun recovered => readPool recovered = readPool (memory store))
        (fun recovered => readPool recovered = readPool (memory final)) := by
    rcases insert_cases .transactional pool holds key value with
      ⟨low, tower, rest, _, _, inserts⟩ | ⟨low, rest, path, _, _, _, _, inserts⟩
    · rw [inserts] at ran
      obtain ⟨_, middle, overwriteRan, afterOverwrite⟩ := bind_ok_inv ran
      cases afterOverwrite
      obtain ⟨_, _, transactionRan, afterTransaction⟩ := bind_ok_inv overwriteRan
      cases afterTransaction
      exact transaction_atomic (logs_overwritten value tower.label) stopped transactionRan steady
    · rw [inserts] at ran
      obtain ⟨_, middle, insertRan, afterInsert⟩ := bind_ok_inv ran
      cases afterInsert
      exact transaction_atomic (logs_inserted pool key value path) stopped insertRan steady
  obtain ⟨call, _, trail, _, atomic⟩ := logged
  refine ⟨final, towers', call, ran, inserted, finalHolds, trail, ?_⟩
  apply atomic.mono
  · exact fun _ same => ⟨sameList_of_read same, holds.of_read same⟩
  · exact fun _ same => ⟨sameList_of_read same, finalHolds.of_read same⟩

/-- On a new pool whose coins all fall odd the new tower hangs in the base level. -/
theorem skiplistPmemTx_insert_failureAtomic_newPool :
    ∃ value : Value, ∃ final call,
      insert .transactional (SkPool.bare 0) 5 value
          (withMemory (blank (Stream'.const 1)) (newPool (SkPool.bare 0) (Stream'.const 1))) =
        .ok (1, final) ∧
      FailureAtomic readPool (newPool (SkPool.bare 0) (Stream'.const 1)) [] call
        (fun recovered => Levels False recovered [])
        (fun recovered => Levels False recovered [⟨2, (5, value), 1⟩]) := by
  refine ⟨⟨[97], by decide, by decide⟩, ?_⟩
  have holds : Levels False (memory (withMemory (blank (Stream'.const 1))
      (newPool (SkPool.bare 0) (Stream'.const 1)))) [] := levels_newPool (SkPool.zeroed_bare 0) _
  obtain ⟨final, towers', call, ran, inserted, _, _, atomic⟩ :=
    skiplistPmemTx_insert_failureAtomic (SkPool.bare 0) holds rfl (fun _ => rfl) 5
      ⟨[97], by decide, by decide⟩
  generalize emptyEq : ([] : List Tower) = towers at inserted
  cases inserted with
  | updated low rest tower => simp at emptyEq
  | spliced low rest =>
      obtain ⟨rfl, rfl⟩ := List.append_eq_nil_iff.mp emptyEq.symm
      exact ⟨final, call, ran, atomic.mono (fun _ both => both.2) fun _ both => both.2⟩

end StoredsBench.SkiplistPmemTx
