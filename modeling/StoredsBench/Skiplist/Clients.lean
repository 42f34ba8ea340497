/-
Module: StoredsBench.Skiplist.Clients
Layer: Correctness
Purpose: `SkiplistDramConcurrentMLock` of `storeds/skiplist/skiplist_dram_concurrent_mlock.cc`:
  `SkiplistDram` with a lock around every call.  Splicing a node in rewrites `next` pointers only, so
  the node of a key, and with it the slot of its value, stays where it is.
Trusted boundary: human-reviewed spec for `shared`
Main exports: SkiplistDramConcurrentMLock.shared, SkiplistDramConcurrentMLock.keepsPointers
-/
import StoredsBench.Clients
import StoredsBench.Lib.Frame
import StoredsBench.Skiplist.Correctness

namespace StoredsBench

open Lib Lib.SortedAssoc Skiplist

namespace Skiplist

/-- The entries of all nodes. -/
theorem frames_setNext (level : Nat) (next address : Ptr) :
    Frames SkNode.entry (Prog.modify address (SkNode.setNext level next) : SkiplistDram.M Unit) := by
  apply Frames.modify
  intro node changed ran
  obtain ⟨_, _, made⟩ := except_bind_inv ran
  cases made
  rfl

theorem frames_nextOnPath (path : Path) (level : Nat) :
    Frames SkNode.entry (SkiplistDram.nextOnPath path level) := by
  apply Frames.bind (Frames.lift _)
  intro node
  apply Frames.bind (Frames.load node)
  intro contents
  exact Frames.lift _

theorem frames_linkIn (newNode : Ptr) (path : Path) (level : Nat) :
    Frames SkNode.entry (SkiplistDram.linkIn newNode path level) := by
  apply Frames.bind (frames_nextOnPath path level)
  intro next
  apply Frames.bind (frames_setNext level next newNode)
  intro _
  apply Frames.bind (Frames.lift _)
  intro previous
  exact frames_setNext level newNode previous

theorem frames_rand : Frames SkNode.entry SkiplistDram.rand := by
  apply Frames.of_heap_eq
  intro store value after ran
  cases ran
  rfl

/-- `insert_node` leaves all entries where they are. -/
theorem frames_insertNodeFrom (newNode : Ptr) (path : Path) : ∀ (fuel level : Nat),
    Frames SkNode.entry (SkiplistDram.insertNodeFrom newNode path fuel level)
  | 0, _ => Frames.fault _
  | fuel + 1, level => by
      apply Frames.bind (frames_linkIn newNode path level)
      intro _
      apply Frames.branch
      · intro _
        apply Frames.bind frames_rand
        intro outcome
        apply Frames.branch
        · exact fun _ => frames_insertNodeFrom newNode path fuel (level + 1)
        · exact fun _ => Frames.pure ()
      · exact fun _ => Frames.pure ()

/-- A key has one place. -/
theorem Holds.place_unique {store : SkiplistDram} {towers : List Tower} (holds : Holds store towers)
    {first second : Nat} {key : Key} (firstPlace : (first, key) ∈ places towers)
    (secondPlace : (second, key) ∈ places towers) : first = second := by
  obtain ⟨tower, member, towerEq⟩ := List.mem_map.mp firstPlace
  obtain ⟨other, otherMember, otherEq⟩ := List.mem_map.mp secondPlace
  have sameKey : tower.entry.1 = other.entry.1 :=
    (congrArg Prod.snd towerEq).trans (congrArg Prod.snd otherEq).symm
  have sameTower := holds.eq_of_key member otherMember sameKey
  exact (congrArg Prod.fst towerEq).symm.trans
    ((congrArg Tower.label sameTower).trans (congrArg Prod.fst otherEq))

/-- An insert changes the value of its own key only. -/
theorem Holds.insert_frame {store after : SkiplistDram} {towers : List Tower}
    (holds : Holds store towers) {key other : Key} {value : Value} {result : Int} {address : Nat}
    (place : (address, other) ∈ places towers) (different : other ≠ key)
    (ran : SkiplistDram.insert key value store = .ok (result, after)) :
    (after.heap.get? address).map (fun node => node.entry.value) =
      (store.heap.get? address).map fun node => node.entry.value := by
  obtain ⟨tower, member, towerEq⟩ := List.mem_map.mp place
  obtain ⟨node, live, _⟩ := exists_entry (holds.shown tower member)
  have labelEq : tower.label = address := congrArg Prod.fst towerEq
  have keyEq : tower.entry.1 = other := congrArg Prod.snd towerEq
  rw [labelEq] at live
  obtain ⟨low, rest, path, rfl, below, found, finds, next, cases⟩ := locate_ok holds key
  rw [SkiplistDram.insert, bind_ok holds.check_ok, bind_ok found, bind_ok next] at ran
  rcases cases with ⟨hit, higher, rfl, rfl, above, stored⟩ | ⟨above, missing⟩
  · rw [labels, List.map_cons, List.headD_cons, bind_ok stored, if_pos rfl] at ran
    obtain ⟨_, middle, overwrote, rest⟩ := bind_ok_inv ran
    cases rest
    obtain ⟨target, changed, targetLive, _, rfl⟩ := Prog.modify_inv overwrote
    have elsewhere : address ≠ hit.label := by
      rintro rfl
      have hitPlace : (hit.label, hit.entry.1) ∈ places (low ++ hit :: higher) :=
        List.mem_map.mpr ⟨hit, List.mem_append_right low List.mem_cons_self, rfl⟩
      apply different
      rw [← keyEq]
      rw [holds.eq_of_label member (List.mem_append_right low List.mem_cons_self) labelEq]
    rw [Heap.get?_set targetLive, if_neg elsewhere]
  · rw [bind_ok missing, if_neg Bool.false_ne_true] at ran
    have frames : Frames SkNode.entry (do
        let newNode ← Prog.malloc (SkiplistDram.newNodeContents key value)
        SkiplistDram.insertNode newNode path
        return (1 : Int)) := by
      apply Frames.bind (Frames.malloc _)
      intro newNode
      apply Frames.bind (frames_insertNodeFrom newNode path _ _)
      intro _
      exact Frames.pure 1
    obtain ⟨changed, changedLive, same⟩ := frames ran live
    rw [live, changedLive, Option.map_some, Option.map_some, same]

end Skiplist

namespace SkiplistDramConcurrentMLock

/-- `SkiplistDramConcurrentMLock`: the calls of `SkiplistDram`, each in a critical section. -/
def shared : SharedBackend SkiplistDram where
  insert := fun key value state => (SkiplistDram.insert key value state).map Prod.snd
  update := fun key value state => (SkiplistDram.update key value state).map Prod.snd
  read := fun key state => (SkiplistDram.read key none state).map Prod.fst
  slot := fun state address => (state.heap.get? address).map fun node => node.entry.value

/-- The store holds towers, and the places are those of their nodes. -/
def Placed (store : SkiplistDram) (places : List (Ptr × Key)) : Prop :=
  ∃ towers, Holds store towers ∧ places = Skiplist.places towers

/-- Nodes stay with their keys. -/
theorem keepsPointers : KeepsPointers shared Placed where
  unique := by
    rintro store _ first second key ⟨towers, holds, rfl⟩ firstPlace secondPlace
    exact holds.place_unique firstPlace secondPlace
  read := by
    rintro store _ ⟨towers, holds, rfl⟩ key
    rcases SkiplistDram.read_slot holds key with ⟨tower, member, rfl, ran⟩ | ⟨_, ran⟩
    · refine Or.inl ⟨tower.label, ?_, List.mem_map.mpr ⟨tower, member, rfl⟩⟩
      simp only [shared, ran]
      rfl
    · refine Or.inr ?_
      simp only [shared, ran]
      rfl
  complete := by
    rintro store _ address key ⟨towers, holds, rfl⟩ place missing
    rcases SkiplistDram.read_slot holds key with ⟨tower, _, _, ran⟩ | ⟨absent, _⟩
    · simp only [shared, ran] at missing
      cases missing
    · obtain ⟨tower, member, same⟩ := List.mem_map.mp place
      exact absent tower member (congrArg Prod.snd same)
  insert := by
    rintro store _ ⟨towers, holds, rfl⟩ key value
    obtain ⟨next, later, ran, nextHolds, _, grows, _⟩ := insert_ok holds key value
    refine ⟨next, _, ?_, ⟨later, nextHolds, rfl⟩, grows, ?_⟩
    · simp only [shared, ran]
      rfl
    · exact fun address other place different => holds.insert_frame place different ran
  update := fun _ _ _ => rfl

end SkiplistDramConcurrentMLock

end StoredsBench
