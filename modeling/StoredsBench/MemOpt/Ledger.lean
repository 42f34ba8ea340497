/-
Module: StoredsBench.MemOpt.Ledger
Layer: Refinement
Purpose: The ledger of the trees with values outside their nodes lists for which key each record was
  allocated, and with it which record belongs to a key.  Inserts of new keys append to it; nothing
  else changes it.
Trusted boundary: none
Main exports: MemOpt.OwnedBy, MemOpt.Finds, MemOpt.Ledger, MemOpt.Ledger.overwrite,
  MemOpt.Ledger.append, MemOpt.storeNode_memory, MemOpt.overwrite_memory
-/
import StoredsBench.MemOpt.Pool
import StoredsBench.Trees.Filled

namespace StoredsBench.MemOpt

open Lib

open Lib.SortedAssoc Valued

/-- The record was allocated for the key. -/
def OwnedBy (owners : List Key) (record : Ptr) (key : Key) : Prop :=
  ∃ index, record = index + 1 ∧ owners[index]? = some key

section Owning

variable {owners : List Key} {record other : Ptr} {key stored : Key}

theorem OwnedBy.append (owned : OwnedBy owners record key) (later : List Key) :
    OwnedBy (owners ++ later) record key := by
  obtain ⟨index, rfl, found⟩ := owned
  refine ⟨index, rfl, ?_⟩
  rw [List.getElem?_append_left (List.getElem?_eq_some_iff.mp found).1, found]

/-- The record allocated last. -/
theorem OwnedBy.last (owners : List Key) (key : Key) :
    OwnedBy (owners ++ [key]) (owners.length + 1) key :=
  ⟨owners.length, rfl, by simp⟩

theorem OwnedBy.append_inv (owned : OwnedBy (owners ++ [key]) record stored) :
    OwnedBy owners record stored ∨ record = owners.length + 1 ∧ stored = key := by
  obtain ⟨index, rfl, found⟩ := owned
  rw [List.getElem?_append] at found
  split at found
  · exact Or.inl ⟨index, rfl, found⟩
  · rename_i beyond
    rw [List.getElem?_singleton] at found
    split at found
    · rename_i atEnd
      have reached := Nat.le_antisymm (Nat.sub_eq_zero_iff_le.mp atEnd) (Nat.le_of_not_lt beyond)
      exact Or.inr ⟨congrArg (· + 1) reached, (Option.some.inj found).symm⟩
    · cases found

theorem OwnedBy.key_eq (owned : OwnedBy owners record key) (alike : OwnedBy owners record stored) :
    stored = key := by
  obtain ⟨index, rfl, found⟩ := owned
  obtain ⟨position, same, foundAlike⟩ := alike
  rw [Nat.succ.inj same, foundAlike] at found
  exact Option.some.inj found

theorem OwnedBy.record_eq (distinct : owners.Nodup) (owned : OwnedBy owners record key)
    (alike : OwnedBy owners other key) : other = record := by
  obtain ⟨index, rfl, found⟩ := owned
  obtain ⟨position, rfl, foundAlike⟩ := alike
  have inside := (List.getElem?_eq_some_iff.mp foundAlike).1
  exact congrArg (· + 1) ((List.getElem?_inj inside distinct).mp (foundAlike.trans found.symm))

theorem OwnedBy.le_length (owned : OwnedBy owners record key) : record ≤ owners.length := by
  obtain ⟨index, rfl, found⟩ := owned
  exact (List.getElem?_eq_some_iff.mp found).1

theorem OwnedBy.mem (owned : OwnedBy owners record key) : key ∈ owners := by
  obtain ⟨index, rfl, found⟩ := owned
  exact List.mem_of_getElem? found

theorem exists_ownedBy (member : key ∈ owners) : ∃ record, OwnedBy owners record key := by
  obtain ⟨index, found⟩ := List.getElem?_of_mem member
  exact ⟨index + 1, index, rfl, found⟩

/-- The record of a key, as the ledger numbers them. -/
def recordOf (owners : List Key) (key : Key) : Ptr := owners.idxOf key + 1

theorem ownedBy_recordOf (member : key ∈ owners) : OwnedBy owners (recordOf owners key) key :=
  ⟨owners.idxOf key, rfl, List.getElem?_idxOf member⟩

theorem OwnedBy.eq_recordOf (distinct : owners.Nodup) (owned : OwnedBy owners record key) :
    record = recordOf owners key :=
  (ownedBy_recordOf owned.mem).record_eq distinct owned

end Owning

/-- The slot a tree with its values in the nodes finds, and the record another one finds. -/
def Finds (owners : List Key) (key : Key) : Option Trees.SlotRef → Option Ptr → Prop
  | none, found => found = none
  | some _, found => ∃ record, found = some record ∧ OwnedBy owners record key

/-- What a record itself says about the key it was allocated for. -/
class Tagged (R : Type) [Valued R] where
  tag : R → Key → Prop
  tag_setSlot : ∀ {record : R} {key : Key} (value : ValueSlot), tag record key →
    tag (setSlot record value) key

open Tagged

/-- Every record is tagged with its key. -/
def Tags {R : Type} [Valued R] [Tagged R] (owners : List Key) (records : Heap R) : Prop :=
  ∀ record key, OwnedBy owners record key → ∃ object, records.get? record = some object ∧ tag object key

/-- The records of a tree that stores `entries`: one for each stored key, which holds its value. -/
structure Ledger {R : Type} [Valued R] [Tagged R] (owners : List Key) (entries : List (Key × Value))
    (records : Heap R) : Prop where
  level : records.size = owners.length
  distinct : owners.Nodup
  tags : Tags owners records
  values : ∀ {record : Ptr} {key : Key}, OwnedBy owners record key →
    ∃ object value, records.get? record = some object ∧ (slot object).string? = some value ∧
      entries.lookup key = some value
  complete : ∀ {key : Key} {value : Value}, entries.lookup key = some value → key ∈ owners

namespace Ledger

variable {R : Type} [Valued R] [Tagged R] {owners : List Key} {entries : List (Key × Value)}
  {records : Heap R} {key : Key}

theorem empty : Ledger [] [] (Heap.empty : Heap R) where
  level := rfl
  distinct := List.nodup_nil
  tags := by
    rintro record key ⟨index, _, found⟩
    cases found
  values := by
    rintro record key ⟨index, _, found⟩
    cases found
  complete := fun found => by cases found

/-- The record of a key holds its value. -/
theorem valueOf_ok {N : Type} {store : Store N (Heap R)} (ledger : Ledger owners entries store.aux)
    {record : Ptr} (owned : OwnedBy owners record key) :
    ∃ value, entries.lookup key = some value ∧ valueOf record store = .ok (value, store) := by
  obtain ⟨object, value, live, holds, found⟩ := ledger.values owned
  refine ⟨value, found, ?_⟩
  rw [valueOf, bind_ok (Prog.loadBeside_ok live)]
  simp only [holds]
  rfl

/-- An update writes to the record of its key. -/
theorem overwrite (ledger : Ledger owners entries records) {record : Ptr}
    (owned : OwnedBy owners record key) {object : R} (live : records.get? record = some object)
    (value : Value) :
    Ledger owners (upsert key value entries)
      (records.set record (setSlot object ((slot object).copyString value))) where
  level := by rw [Heap.size_set, ledger.level]
  distinct := ledger.distinct
  tags := by
    intro other stored owns
    rw [Heap.get?_set live]
    by_cases same : other = record
    · rw [if_pos same]
      rw [same] at owns
      obtain ⟨old, liveOld, tagged⟩ := ledger.tags _ _ owns
      rw [live, Option.some.injEq] at liveOld
      exact ⟨_, rfl, tag_setSlot _ (liveOld ▸ tagged)⟩
    · rw [if_neg same]
      exact ledger.tags _ _ owns
  values := by
    intro other stored owns
    rw [Heap.get?_set live]
    by_cases same : other = record
    · subst same
      rw [owned.key_eq owns, if_pos rfl, lookup_upsert_self]
      refine ⟨_, value, rfl, ?_, rfl⟩
      rw [slot_setSlot, CharArray.string?_copyString]
    · rw [if_neg same]
      have different : stored ≠ key := by
        rintro rfl
        exact same (owned.record_eq ledger.distinct owns)
      rw [lookup_upsert_of_ne different]
      exact ledger.values owns
  complete := by
    intro other stored found
    by_cases same : other = key
    · rw [same]
      exact owned.mem
    · rw [lookup_upsert_of_ne same] at found
      exact ledger.complete found

/-- Only stored keys have records. -/
theorem not_mem (ledger : Ledger owners entries records) (fresh : entries.lookup key = none) :
    key ∉ owners := by
  intro member
  obtain ⟨record, owned⟩ := exists_ownedBy member
  obtain ⟨_, old, _, _, found⟩ := ledger.values owned
  rw [fresh] at found
  cases found

/-- An insert of a new key appends its record. -/
theorem append (ledger : Ledger owners entries records) (fresh : entries.lookup key = none)
    {object : R} {value : Value} (tagged : tag object key)
    (holds : (slot object).string? = some value) :
    Ledger (owners ++ [key]) (upsert key value entries) (records.push object) where
  level := by rw [Heap.size_push, ledger.level, List.length_append, List.length_singleton]
  distinct := by
    rw [List.nodup_append]
    refine ⟨ledger.distinct, List.pairwise_singleton _ key, ?_⟩
    rintro other member last isLast rfl
    rw [List.mem_singleton.mp isLast] at member
    exact ledger.not_mem fresh member
  tags := by
    intro record stored owned
    rw [Heap.get?_push, ledger.level]
    rcases owned.append_inv with old | ⟨rfl, rfl⟩
    · rw [if_neg (Nat.ne_of_lt (Nat.lt_succ_of_le old.le_length))]
      exact ledger.tags _ _ old
    · rw [if_pos rfl]
      exact ⟨object, rfl, tagged⟩
  values := by
    intro record stored owned
    rw [Heap.get?_push, ledger.level]
    rcases owned.append_inv with old | ⟨rfl, rfl⟩
    · obtain ⟨there, value, live, read, found⟩ := ledger.values old
      have different : stored ≠ key := by
        rintro rfl
        rw [fresh] at found
        cases found
      rw [if_neg (Nat.ne_of_lt (Nat.lt_succ_of_le old.le_length)), lookup_upsert_of_ne different]
      exact ⟨there, value, live, read, found⟩
    · rw [if_pos rfl, lookup_upsert_self]
      exact ⟨object, value, rfl, holds, rfl⟩
  complete := by
    intro other stored found
    by_cases same : other = key
    · rw [same]
      exact List.mem_append_right owners (List.mem_singleton.mpr rfl)
    · rw [lookup_upsert_of_ne same] at found
      exact List.mem_append_left [key] (ledger.complete found)

end Ledger

section Programs

variable {N R : Type} (pool : Pool N R)

/-- What a store to a node leaves in memory. -/
theorem storeNode_memory {state : PoolState N R} {address : Ptr} (change : N → Except Fault N)
    {node changed : N} (live : (memory state).heap.get? address = some node)
    (ran : change node = .ok changed) :
    ∃ final, storeNode address change state = .ok ((), final) ∧
      memory final = { memory state with heap := (memory state).heap.set address changed } :=
  perform_memory _ (Prog.modify_ok live ran)

theorem quiet_persistAll (first second third : Place → Bool) :
    Quiet (do
      pool.mode.persist first
      pool.mode.persist second
      pool.mode.persist third : PoolProg N R Unit) :=
  (Mode.quiet_persist _ _).bind ((Mode.quiet_persist _ _).bind (Mode.quiet_persist _ _))

theorem copyInto_memory [Valued R] {state : PoolState N R} {record : Ptr} {object : R}
    (live : (memory state).aux.get? record = some object) (value : Value) :
    ∃ final, copyInto record value state = .ok ((), final) ∧ memory final = { memory state with
      aux := (memory state).aux.set record (setSlot object ((slot object).copyString value)) } :=
  perform_memory _ (Prog.modifyBeside_ok _ live)

/-- What an update of a record with a value leaves in memory, in every mode. -/
theorem overwrite_memory [Valued R] {state : PoolState N R} {record : Ptr} {object : R} {old : Value}
    (live : (memory state).aux.get? record = some object) (holds : (slot object).string? = some old)
    (value : Value) :
    ∃ final, pool.overwrite record value state = .ok ((), final) ∧ memory final = { memory state with
      aux := (memory state).aux.set record (setSlot object ((slot object).copyString value)) } := by
  have plain : ∃ final, (do
      copyInto record value
      pool.mode.persist (recordBytes record (value.chars.length + 1)) : PoolProg N R Unit) state =
        .ok ((), final) ∧ memory final = { memory state with
          aux := (memory state).aux.set record (setSlot object ((slot object).copyString value)) } := by
    obtain ⟨copied, copyRan, copiedEq⟩ := copyInto_memory live value
    obtain ⟨final, persistRan, finalEq⟩ := Mode.quiet_persist pool.mode
      (recordBytes record (value.chars.length + 1)) copied
    exact ⟨final, by rw [bind_ok copyRan, persistRan], finalEq.trans copiedEq⟩
  cases modeEq : pool.mode with
  | volatile =>
      rw [modeEq] at plain
      simpa only [Pool.overwrite, modeEq] using plain
  | persistent =>
      rw [modeEq] at plain
      simpa only [Pool.overwrite, modeEq] using plain
  | transactional =>
      simp only [Pool.overwrite, modeEq]
      apply transaction_memory
      intro started same
      rw [← same] at live ⊢
      obtain ⟨covered, addRan, coveredEq⟩ := Quiet.record
        (.snapshot (recordBytes record old.chars.length)) started
      rw [← coveredEq] at live ⊢
      obtain ⟨final, copyRan, finalEq⟩ := copyInto_memory live value
      refine ⟨final, ?_, finalEq⟩
      rw [coveredEq] at live
      rw [bind_ok (onMemory_ok (Prog.loadBeside_ok live))]
      simp only [holds]
      exact (bind_ok addRan).trans copyRan

end Programs

end StoredsBench.MemOpt
