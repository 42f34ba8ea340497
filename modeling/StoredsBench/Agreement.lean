/-
Module: StoredsBench.Agreement
Layer: Correctness
Purpose: What the interchangeable backends answer to one history.  The trees, the skip list and the
  hash table agree on the last insert; the linked list answers with the first one, and the array
  with the last one into the slot of the key.
Trusted boundary: none
Main exports: MapsDeliver, ListDelivers, ArrayDelivers, backends_agree, backends_disagree
-/
import StoredsBench.BTree.Correctness
import StoredsBench.BPlusTree.Correctness
import StoredsBench.Rbtree.Correctness
import StoredsBench.Skiplist.Correctness
import StoredsBench.Hashmap.Correctness
import StoredsBench.Linkedlist.Correctness
import StoredsBench.Array.Correctness

namespace StoredsBench

open Lib LinkedlistDram ArrayDram

/-- The five backends that look for a key before they insert it run a history on a fresh state and
deliver these values. -/
structure MapsDeliver (outcomes : Skiplist.Outcomes) (coefficients : Hashmap.HashCoefficients)
    (history : List Call) (values : List (Option Value)) : Prop where
  btree : ∃ store, BTreeDram.backend.run history BTreeDram.init = .ok (values, store)
  bplustree : ∃ store, BPlusTreeDram.backend.run history BPlusTreeDram.init = .ok (values, store)
  rbtree : ∃ store, RbtreeDram.backend.run history RbtreeDram.init = .ok (values, store)
  skiplist : ∃ fresh store, SkiplistDram.init (SkiplistDram.blank outcomes) = .ok (1, fresh) ∧
    SkiplistDram.backend.run history fresh = .ok (values, store)
  hashmap : ∃ store, HtDram.backend.run history (HtDram.init coefficients) = .ok (values, store)

def ListDelivers (history : List Call) (values : List (Option Value)) : Prop :=
  ∃ store, LinkedlistDram.backend.run history LinkedlistDram.init = .ok (values, store)

def ArrayDelivers (history : List Call) (values : List (Option Value)) : Prop :=
  ∃ state, ArrayDram.backend.run history ArrayDram.init = .ok (values, state)

theorem maps_deliver (outcomes : Skiplist.Outcomes) (coefficients : Hashmap.HashCoefficients)
    (key : Key) (value : Value) (calls : List Call) :
    MapsDeliver outcomes coefficients (.insert key value :: calls)
      (answers (.insert key value :: calls)) where
  btree := by
    obtain ⟨next, first, shown⟩ :=
      BTreeDram.implements.insert_first BTreeDram.serves
        (show BTreeDram.init.root = null from rfl) key value
    obtain ⟨store, ran, _⟩ :=
      (BTreeDram.implements.represents BTreeDram.serves).run_from_first first shown calls
    exact ⟨store, ran⟩
  bplustree := by
    obtain ⟨next, first, shown⟩ :=
      BPlusTreeDram.implements.insert_first BPlusTreeDram.serves
        (show BPlusTreeDram.init.root = null from rfl) key value
    obtain ⟨store, ran, _⟩ :=
      (BPlusTreeDram.implements.represents BPlusTreeDram.serves).run_from_first first shown calls
    exact ⟨store, ran⟩
  rbtree := by
    obtain ⟨next, first, shown⟩ := RbtreeDram.insert_first key value
    obtain ⟨store, ran, _⟩ := RbtreeDram.serves.represents.run_from_first first shown calls
    exact ⟨store, ran⟩
  skiplist := by
    obtain ⟨fresh, initialised, holds⟩ := SkiplistDram.init_ok outcomes
    obtain ⟨store, ran, _⟩ := SkiplistDram.represents.run_ok (.insert key value :: calls) []
      ⟨[], holds, rfl⟩
    exact ⟨fresh, store, initialised, ran⟩
  hashmap := by
    obtain ⟨store, ran, _⟩ := (HtDram.represents coefficients).run_ok (.insert key value :: calls) []
      ⟨_, _, HtDram.init_holds coefficients, fun _ => rfl⟩
    exact ⟨store, ran⟩

theorem ListDelivers.eq {history : List Call} {values : List (Option Value)}
    (delivers : ListDelivers history values) (asks : AsksStored [] history) :
    values = answersBy firstInsert [] history := by
  obtain ⟨store, ran⟩ := delivers
  obtain ⟨other, actual⟩ := LinkedlistDram.run_ok asks
  exact congrArg Prod.fst (Except.ok.inj (ran.symm.trans actual))

theorem ArrayDelivers.eq {history : List Call} {values : List (Option Value)}
    (delivers : ArrayDelivers history values) (asks : AsksStored [] history) :
    values = answersBy lastInsertInSlot [] history := by
  obtain ⟨state, ran⟩ := delivers
  obtain ⟨other, actual⟩ := ArrayDram.run_ok asks
  exact congrArg Prod.fst (Except.ok.inj (ran.symm.trans actual))

/-- Two inserted keys in one slot are one key. -/
def Apart (history : List Call) : Prop :=
  ∀ key value other otherValue, Call.insert key value ∈ history →
    Call.insert other otherValue ∈ history → offset key = offset other → key = other

theorem list_delivers {history : List Call} (asks : AsksStored [] history)
    (once : ((insertsOf history).map Prod.fst).Nodup) : ListDelivers history (answers history) := by
  obtain ⟨store, ran⟩ := LinkedlistDram.run_ok asks
  refine ⟨store, ?_⟩
  rw [ran, answers, ← answersBy_lastInsert]
  congr 2
  apply answersBy_congr asks
  intro key before after split _
  apply firstInsert_eq_lastInsert
  rw [List.nil_append] at split
  rw [split, insertsOf_append, List.map_append] at once
  exact (List.nodup_append.mp once).1

theorem array_delivers {history : List Call} (asks : AsksStored [] history)
    (apart : Apart history) : ArrayDelivers history (answers history) := by
  obtain ⟨state, ran⟩ := ArrayDram.run_ok asks
  refine ⟨state, ?_⟩
  rw [ran, answers, ← answersBy_lastInsert]
  congr 2
  apply answersBy_congr asks
  intro key before after split stored
  apply lastInsertInSlot_eq_lastInsert
  intro other value member same
  obtain ⟨stored, storedMember⟩ := exists_insert stored
  have before_sub : ∀ call ∈ before, call ∈ history := by
    rw [List.nil_append] at split
    rw [split]
    exact fun call => List.mem_append_left after
  exact apart other value key stored (before_sub _ member) (before_sub _ storedMember) same

/-- On every history that begins with an insert and reads stored keys only, the trees, the skip list
and the hash table deliver for each read the value of the last insert for its key.  The linked list
delivers the value of the first insert for the key and the array that of the last insert into its
slot, which are the same values when no key is inserted twice, or no two keys share a slot. -/
theorem backends_agree (outcomes : Skiplist.Outcomes) (coefficients : Hashmap.HashCoefficients)
    (key : Key) (value : Value) (calls : List Call)
    (asks : AsksStored [] (.insert key value :: calls)) :
    MapsDeliver outcomes coefficients (.insert key value :: calls)
        (answers (.insert key value :: calls)) ∧
      ListDelivers (.insert key value :: calls)
        (answersBy firstInsert [] (.insert key value :: calls)) ∧
      ArrayDelivers (.insert key value :: calls)
        (answersBy lastInsertInSlot [] (.insert key value :: calls)) ∧
      (((insertsOf (.insert key value :: calls)).map Prod.fst).Nodup →
        ListDelivers (.insert key value :: calls) (answers (.insert key value :: calls))) ∧
      (Apart (.insert key value :: calls) →
        ArrayDelivers (.insert key value :: calls) (answers (.insert key value :: calls))) :=
  ⟨maps_deliver outcomes coefficients key value calls, LinkedlistDram.run_ok asks,
    ArrayDram.run_ok asks, list_delivers asks, array_delivers asks⟩

theorem backends_agree_once :
    ∃ (outcomes : Skiplist.Outcomes) (coefficients : Hashmap.HashCoefficients) (value : Value),
      AsksStored [] [.insert 7 value, .read 7] ∧
      MapsDeliver outcomes coefficients [.insert 7 value, .read 7]
        (answers [.insert 7 value, .read 7]) ∧
      ListDelivers [.insert 7 value, .read 7] (answers [.insert 7 value, .read 7]) ∧
      ArrayDelivers [.insert 7 value, .read 7] (answers [.insert 7 value, .read 7]) := by
  have asks : AsksStored [] [.insert 7 ⟨[97], by decide, by decide⟩, .read 7] := by
    simp [AsksStored, lastInsert]
  obtain ⟨maps, _, _, list, array⟩ := backends_agree (fun _ => 0)
    ⟨1, 0, 5, 3, by decide, by decide, by decide⟩ 7 ⟨[97], by decide, by decide⟩ [.read 7] asks
  refine ⟨fun _ => 0, _, _, asks, maps, list (by decide), array ?_⟩
  intro key value other otherValue member otherMember _
  simp only [List.mem_cons, reduceCtorEq, List.not_mem_nil, or_false, Call.insert.injEq] at *
  rw [member.1, otherMember.1]

/-- A key inserted twice tells the list from the other backends, two keys in one slot the array. -/
theorem backends_disagree :
    ∃ old new : Value,
      (AsksStored [] [.insert 1 old, .insert 1 new, .read 1] ∧
        ¬ ListDelivers [.insert 1 old, .insert 1 new, .read 1]
          (answers [.insert 1 old, .insert 1 new, .read 1])) ∧
      (AsksStored [] [.insert 0 old, .insert 1000000 new, .read 0] ∧
        ¬ ArrayDelivers [.insert 0 old, .insert 1000000 new, .read 0]
          (answers [.insert 0 old, .insert 1000000 new, .read 0])) := by
  refine ⟨⟨[97], by decide, by decide⟩, ⟨[98], by decide, by decide⟩, ?_, ?_⟩
  · have asks : AsksStored [] [.insert 1 ⟨[97], by decide, by decide⟩,
        .insert 1 ⟨[98], by decide, by decide⟩, .read 1] := by
      simp [AsksStored, lastInsert]
    refine ⟨asks, fun delivers => ?_⟩
    have same := delivers.eq asks
    revert same
    decide
  · have asks : AsksStored [] [.insert 0 ⟨[97], by decide, by decide⟩,
        .insert 1000000 ⟨[98], by decide, by decide⟩, .read 0] := by
      simp [AsksStored, lastInsert]
    refine ⟨asks, fun delivers => ?_⟩
    have same := delivers.eq asks
    revert same
    decide

end StoredsBench
