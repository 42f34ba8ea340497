/-
Module: StoredsBench.Lib.Multiway.Slots
Layer: Lib
Purpose: The slots of a tree: for every separator and every entry the label of its node and the index
  in it.  Read node by node they hold the same marks as the left-to-right trace, so a mark that occurs
  once in the order of the tree is in one slot.
Trusted boundary: none
Main exports: slots, slots_perm_trace, slot_unique
-/
import StoredsBench.Lib.Multiway.Valid
import Mathlib.Data.List.Nodup

namespace StoredsBench.Lib.Multiway

variable {K L I E : Type}

/-- The marks of one node, each with its place. -/
def slotsOf {α : Type} (name : L) (marks : List α) : List ((L × Nat) × α) :=
  marks.zipIdx.map fun mark => ((name, mark.2), mark.1)

theorem mem_slotsOf {α : Type} {name : L} {marks : List α} {place : L × Nat} {mark : α} :
    (place, mark) ∈ slotsOf name marks ↔ place.1 = name ∧ marks[place.2]? = some mark := by
  obtain ⟨label, index⟩ := place
  simp only [slotsOf, List.mem_map, Prod.exists, List.mem_zipIdx_iff_getElem?, Prod.mk.injEq]
  constructor
  · rintro ⟨_, _, found, ⟨rfl, rfl⟩, rfl⟩
    exact ⟨rfl, found⟩
  · rintro ⟨rfl, found⟩
    exact ⟨_, _, found, ⟨rfl, rfl⟩, rfl⟩

theorem slotsOf_marks {α : Type} (name : L) (marks : List α) :
    (slotsOf name marks).map Prod.snd = marks := by
  rw [slotsOf, List.map_map]
  exact List.zipIdx_map_fst 0 marks

/-- All marks of a tree, node by node. -/
def slots : {depth : Nat} → Tree L I E depth → List ((L × Nat) × (I ⊕ E))
  | 0, leaf => slotsOf leaf.label (leaf.entries.map Sum.inr)
  | _ + 1, node => slotsOf node.label (node.items.map Sum.inl) ++ node.children.flatMap slots

theorem interleave_perm {α : Type} : ∀ (separators : List α) (children : List (List α)),
    children.length = separators.length + 1 →
    (interleave separators children).Perm (separators ++ children.flatten)
  | [], [child], _ => by simp [interleave]
  | separator :: separators, first :: second :: children, arity => by
      have rest := interleave_perm separators (second :: children) (by simpa using arity)
      simp only [interleave, opened_cons, List.flatten_cons, List.cons_append] at rest ⊢
      calc (first ++ separator :: (second ++ opened separators children)).Perm
            (first ++ separator :: (separators ++ (second ++ children.flatten))) :=
          (rest.cons separator).append_left first
        List.Perm _ (separator :: (separators ++ (second ++ children.flatten)) ++ first) :=
          List.perm_append_comm
        List.Perm _ (separator :: (separators ++ (first ++ (second ++ children.flatten)))) := by
          rw [List.cons_append, List.append_assoc]
          exact (List.perm_append_comm.append_left separators).cons separator
  | [], [], arity => by simp at arity
  | [], _ :: _ :: _, arity => by simp at arity
  | _ :: _, [], arity => by simp at arity
  | _ :: _, [_], arity => by simp at arity

variable {scheme : Scheme K I E}

theorem slots_perm_trace : ∀ {depth low : Nat} {tree : Tree L I E depth}, Shape scheme low tree →
    ((slots tree).map Prod.snd).Perm (trace tree)
  | 0, _, leaf, _ => by
      rw [slots, slotsOf_marks, trace]
  | depth + 1, _, node, shape => by
      obtain ⟨_, arity, childShapes⟩ := shape
      have below : ∀ children : List (Tree L I E depth),
          (∀ child ∈ children, Shape scheme (scheme.minDegree - 1) child) →
          ((children.flatMap slots).map Prod.snd).Perm (children.map trace).flatten := by
        intro children
        induction children with
        | nil => exact fun _ => .refl _
        | cons child children inductionHypothesis =>
            intro shapes
            rw [List.flatMap_cons, List.map_append, List.map_cons, List.flatten_cons]
            apply List.Perm.append
            · exact slots_perm_trace (shapes child List.mem_cons_self)
            · exact inductionHypothesis fun other member =>
                shapes other (List.mem_cons_of_mem child member)
      rw [slots, List.map_append, slotsOf_marks, trace]
      apply List.Perm.trans ((below node.children childShapes).append_left _)
      exact (interleave_perm _ _ (by simpa using arity)).symm

/-- Slots that agree on a value which all marks of the tree have different are one slot. -/
theorem slot_unique {β : Type} (valueOf : I ⊕ E → β) {depth low : Nat} {tree : Tree L I E depth}
    (shape : Shape scheme low tree) (distinct : ((trace tree).map valueOf).Nodup)
    {first second : (L × Nat) × (I ⊕ E)} (firstIn : first ∈ slots tree) (secondIn : second ∈ slots tree)
    (same : valueOf first.2 = valueOf second.2) : first = second := by
  have nodup : ((slots tree).map fun slot => valueOf slot.2).Nodup := by
    have alike := ((slots_perm_trace shape).map valueOf).nodup_iff.mpr distinct
    rwa [List.map_map] at alike
  exact List.inj_on_of_nodup_map nodup firstIn secondIn same

/-- Every mark in the order of the tree is in a slot. -/
theorem exists_slot {depth low : Nat} {tree : Tree L I E depth} (shape : Shape scheme low tree)
    {mark : I ⊕ E} (member : mark ∈ trace tree) : ∃ place, (place, mark) ∈ slots tree := by
  obtain ⟨slot, inSlots, rfl⟩ := List.mem_map.mp ((slots_perm_trace shape).mem_iff.mpr member)
  exact ⟨slot.1, inSlots⟩

end StoredsBench.Lib.Multiway
