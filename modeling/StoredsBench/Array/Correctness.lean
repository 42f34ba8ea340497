/-
Module: StoredsBench.Array.Correctness
Layer: Correctness
Purpose: A slot of an `ArrayDram` holds the value of the last insert for one of its keys.
Trusted boundary: none
Main exports: lastInsertInSlot, run_ok
-/
import StoredsBench.Array.Dram

namespace StoredsBench.ArrayDram

open Lib

/-- The value of the last insert into the slot of `key` in a history, if there is one. -/
def lastInsertInSlot (key : Key) (history : List Call) : Option Value :=
  history.foldl
    (fun last call =>
      match call with
      | .insert other value => if offset other = offset key then some value else last
      | .read _ => last)
    none

@[simp] theorem lastInsertInSlot_insert (key other : Key) (value : Value) (past : List Call) :
    lastInsertInSlot key (past ++ [.insert other value]) =
      if offset other = offset key then some value else lastInsertInSlot key past := by
  simp [lastInsertInSlot]

@[simp] theorem lastInsertInSlot_read (key other : Key) (past : List Call) :
    lastInsertInSlot key (past ++ [.read other]) = lastInsertInSlot key past := by
  simp [lastInsertInSlot]

/-- Every slot something was inserted into holds its last value. -/
structure Shows (state : ArrayDram) (history : List Call) : Prop where
  length : state.array.length = ARRAY_SIZE
  slots : ∀ key value, lastInsertInSlot key history = some value →
    ∃ slot, state.array[offset key]? = some slot ∧ slot.string? = some value

theorem offset_lt (key : Key) : offset key < ARRAY_SIZE := Nat.mod_lt _ (by decide)

theorem init_shows : Shows init [] where
  length := List.length_replicate
  slots := fun key value found => by cases found

section Steps

variable {state : ArrayDram} {past : List Call}

theorem slotAt_ok (shown : Shows state past) (key : Key) :
    ∃ slot, state.array[offset key]? = some slot ∧ state.slotAt (offset key) = .ok slot := by
  have inside : offset key < state.array.length := by
    rw [shown.length]
    exact offset_lt key
  refine ⟨state.array[offset key], List.getElem?_eq_getElem inside, ?_⟩
  simp only [slotAt, List.getElem?_eq_getElem inside]

theorem insert_shows (key : Key) (value : Value) (shown : Shows state past) :
    ∃ after, backend.insert key value state = .ok after ∧
      Shows after (past ++ [.insert key value]) := by
  obtain ⟨slot, found, slotEq⟩ := slotAt_ok shown key
  refine ⟨{ array := state.array.set (offset key) (slot.copyString value) }, ?_, ?_⟩
  · simp only [backend, insert, slotEq]
    rfl
  · constructor
    · rw [List.length_set, shown.length]
    · intro other result last
      rw [lastInsertInSlot_insert] at last
      by_cases same : offset key = offset other
      · rw [if_pos same, Option.some.injEq] at last
        subst last
        have inside : offset other < state.array.length := by
          rw [shown.length]
          exact offset_lt other
        refine ⟨slot.copyString value, ?_, CharArray.string?_copyString _ _⟩
        rw [same, List.getElem?_set_self inside]
      · rw [if_neg same] at last
        rw [List.getElem?_set_ne same]
        exact shown.slots other result last

theorem read_ok {key : Key} {value : Value} (shown : Shows state past)
    (last : lastInsertInSlot key past = some value) :
    backend.read key state = .ok (some value) := by
  obtain ⟨slot, found, string⟩ := shown.slots key value last
  simp only [backend, read, slotAt, found, bind, Except.bind, stringOf, string]
  rfl

end Steps

/-- A key that was inserted has a value in its slot. -/
theorem lastInsertInSlot_ne_none {key : Key} {history : List Call}
    (stored : lastInsert key history ≠ none) : lastInsertInSlot key history ≠ none := by
  induction history using List.reverseRecOn with
  | nil => exact absurd rfl stored
  | append_singleton past call inductionHypothesis =>
      cases call with
      | read other =>
          rw [lastInsert_read] at stored
          rw [lastInsertInSlot_read]
          exact inductionHypothesis stored
      | insert other value =>
          rw [lastInsertInSlot_insert]
          by_cases same : offset other = offset key
          · rw [if_pos same]
            exact Option.some_ne_none value
          · have different : other ≠ key := fun equal => same (congrArg offset equal)
            rw [lastInsert_insert, if_neg different] at stored
            rw [if_neg same]
            exact inductionHypothesis stored

/-- Every history whose reads ask for stored keys runs to its end, and each read returns the value of
the last insert into the slot of its key. -/
theorem run_ok {calls : List Call} (asks : AsksStored [] calls) :
    ∃ state, backend.run calls init = .ok (answersBy lastInsertInSlot [] calls, state) := by
  have reads : ∀ {state : ArrayDram} {past : List Call} (key : Key), Shows state past →
      lastInsert key past ≠ none →
      backend.read key state = .ok (lastInsertInSlot key past) := by
    intro state past key shown stored
    obtain ⟨value, last⟩ := Option.ne_none_iff_exists'.mp (lastInsertInSlot_ne_none stored)
    rw [last]
    exact read_ok shown last
  have keeps : ∀ {state : ArrayDram} {past : List Call} (key : Key), Shows state past →
      Shows state (past ++ [.read key]) := by
    intro state past key shown
    refine ⟨shown.length, fun other value last => shown.slots other value ?_⟩
    rwa [lastInsertInSlot_read] at last
  obtain ⟨state, ran, _⟩ := run_answersBy insert_shows reads keeps asks init_shows
  exact ⟨state, ran⟩

/-- Without two inserted keys in one slot the last insert into the slot is the one for the key. -/
theorem lastInsertInSlot_eq_lastInsert {key : Key} {history : List Call}
    (apart : ∀ other value, Call.insert other value ∈ history → offset other = offset key →
      other = key) :
    lastInsertInSlot key history = lastInsert key history := by
  induction history using List.reverseRecOn with
  | nil => rfl
  | append_singleton past call inductionHypothesis =>
      have earlier := inductionHypothesis fun other value member =>
        apart other value (List.mem_append_left _ member)
      cases call with
      | read other => rw [lastInsertInSlot_read, lastInsert_read, earlier]
      | insert other value =>
          rw [lastInsertInSlot_insert, lastInsert_insert, earlier]
          by_cases same : other = key
          · rw [if_pos same, if_pos (congrArg offset same)]
          · rw [if_neg same, if_neg fun slot => same
              (apart other value (List.mem_append_right _ List.mem_cons_self) slot)]

end StoredsBench.ArrayDram
