/-
Module: StoredsBench.Lib.Multiway.Valid
Layer: Lib
Purpose: The invariant of a whole multiway tree, that inserting a new key keeps it and splices one
  entry into the contents, and the size a tree of a given depth must have.
Trusted boundary: none
Main exports: Valid, insertRoot_valid, length_trace_ge
-/
import StoredsBench.Lib.Multiway.Order

namespace StoredsBench.Lib.Multiway

variable {K L I E : Type} [LinearOrder K] {scheme : Scheme K I E}

/-- A non-empty search tree within its fill bounds. -/
structure Valid (scheme : Scheme K I E) {depth : Nat} (tree : Tree L I E depth) : Prop where
  shape : Shape scheme 1 tree
  ordered : Ordered scheme (trace tree)
  anchored : Anchored scheme (trace tree)

omit [LinearOrder K] in
/-- A key none of the entries has is the key of no separator either. -/
theorem absent_of_not_mem_contents {marks : List (I ⊕ E)}
    (anchored : Anchored scheme marks) {key : K}
    (absent : ∀ entry ∈ entriesOf scheme marks, scheme.entryKey entry ≠ key) :
    Absent scheme key marks := by
  intro mark member
  cases mark with
  | inl item =>
      obtain ⟨entry, entryMember, same⟩ := anchored item member
      exact fun keyEq => absent entry entryMember (same.trans keyEq)
  | inr entry => exact absent entry (mem_entriesOf_entry member)

theorem valid_singleton (label : L) (entry : E) (room : 1 ≤ scheme.maxKeys) :
    Valid scheme (mkLeaf (I := I) label [entry]) where
  shape := ⟨Nat.le_refl 1, room⟩
  ordered := List.pairwise_singleton _ _
  anchored := fun item member => by simp [trace] at member

omit [LinearOrder K] in
/-- A full root has at least the keys any other node needs. -/
theorem Shape.of_full {low depth : Nat} {tree : Tree L I E depth} (shape : Shape scheme low tree)
    (full : width tree = scheme.maxKeys) (enough : scheme.minDegree - 1 ≤ scheme.maxKeys) :
    Shape scheme (scheme.minDegree - 1) tree := by
  cases depth with
  | zero =>
      have entriesFull : tree.entries.length = scheme.maxKeys := full
      exact ⟨by rw [entriesFull]; exact enough, shape.2⟩
  | succ depth =>
      have itemsFull : tree.items.length = scheme.maxKeys := full
      exact ⟨⟨by rw [itemsFull]; exact enough, shape.1.2⟩, shape.2⟩

/-- Inserting an absent key keeps the invariant and adds the entry to the trace. -/
theorem insertRoot_grows (lawful : Lawful scheme) (fresh : Nat → L) (entry : E) {depth : Nat}
    {tree : Tree L I E depth} (valid : Valid scheme tree)
    (absent : ∀ other ∈ contents scheme tree, scheme.entryKey other ≠ scheme.entryKey entry) :
    Shape scheme 1 (insertRoot scheme fresh entry tree).2 ∧
      Grows scheme entry (trace tree) (trace (insertRoot scheme fresh entry tree).2) := by
  have noMark := absent_of_not_mem_contents valid.anchored absent
  have maxKeys := lawful.maxKeys_eq
  have degree := lawful.degree
  by_cases full : width tree = scheme.maxKeys
  · rw [insertRoot, if_pos full]
    -- The new root has no separator yet; the insertion splits its only child.
    have pseudoShape : Shape scheme 0 (mkNode (fresh (depth + 1)) [] [tree]) :=
      ⟨⟨Nat.le_refl 0, Nat.zero_le _⟩, rfl, fun child member => by
        rw [List.mem_singleton.mp member]
        exact valid.shape.of_full full (by omega)⟩
    have pseudoTrace : trace (mkNode (fresh (depth + 1)) [] [tree]) =
        trace tree := by
      simp [trace, interleave]
    have room : width (mkNode (fresh (depth + 1)) [] [tree]) <
        scheme.maxKeys := by
      show 0 < scheme.maxKeys
      omega
    have grown := insertNotFull_grows lawful fresh entry pseudoShape room
      (pseudoTrace ▸ valid.ordered) (pseudoTrace ▸ noMark)
    rw [pseudoTrace] at grown
    refine ⟨?_, grown⟩
    have shape := shape_insertNotFull lawful fresh entry pseudoShape room
    refine ⟨⟨?_, shape.1.2⟩, shape.2⟩
    exact splitRoot_width lawful fresh entry pseudoShape full
  · rw [insertRoot, if_neg full]
    have room : width tree < scheme.maxKeys := lt_of_le_of_ne valid.shape.width_le full
    exact ⟨shape_insertNotFull lawful fresh entry valid.shape room,
      insertNotFull_grows lawful fresh entry valid.shape room valid.ordered noMark⟩
where
  splitRoot_width (lawful : Lawful scheme) (fresh : Nat → L) (entry : E) {depth : Nat}
      {tree : Tree L I E depth}
      (shape : Shape scheme 0 (mkNode (fresh (depth + 1)) [] [tree]))
      (full : width tree = scheme.maxKeys) :
      1 ≤ width (insertNotFull scheme fresh entry (mkNode (fresh (depth + 1)) [] [tree])) := by
    obtain ⟨before, after, left, child, right, itemsEq, childrenEq, _, _, _, _, cases⟩ :=
      insertNotFull_cases lawful fresh entry shape
    have onlyChild : left = [] ∧ child = tree ∧ right = [] := by
      have sides : [tree] = left ++ child :: right := childrenEq
      cases left with
      | nil => simpa [eq_comm] using sides
      | cons first left => simp at sides
    obtain ⟨rfl, rfl, rfl⟩ := onlyChild
    rcases cases with ⟨childRoom, _⟩ | ⟨_, _, separator, _, _, halves⟩
    · omega
    · rcases halves with ⟨_, resultEq⟩ | ⟨_, resultEq⟩ <;>
      · rw [resultEq]
        show 1 ≤ (before ++ separator :: after).length
        simp only [List.length_append, List.length_cons]
        omega

/-- Inserting an absent key keeps the invariant and splices the entry into the contents. -/
theorem insertRoot_valid (lawful : Lawful scheme) (fresh : Nat → L) (entry : E) {depth : Nat}
    {tree : Tree L I E depth} (valid : Valid scheme tree)
    (absent : ∀ other ∈ contents scheme tree, scheme.entryKey other ≠ scheme.entryKey entry) :
    Valid scheme (insertRoot scheme fresh entry tree).2 ∧
      ∃ front back, contents scheme (insertRoot scheme fresh entry tree).2 = front ++ entry :: back ∧
        contents scheme tree = front ++ back ∧
        (∀ low ∈ front, scheme.entryKey low < scheme.entryKey entry) ∧
        (∀ high ∈ back, scheme.entryKey entry < scheme.entryKey high) := by
  obtain ⟨shape, grows⟩ := insertRoot_grows lawful fresh entry valid absent
  exact ⟨⟨shape, grows.ordered, grows.keeps_anchored valid.anchored⟩, grows.contents_splice lawful⟩

/-- Contents of a valid tree ascend. -/
theorem Valid.contents_ascending (lawful : Lawful scheme) {depth : Nat} {tree : Tree L I E depth}
    (valid : Valid scheme tree) :
    (contents scheme tree).Pairwise fun a b => scheme.entryKey a < scheme.entryKey b :=
  entriesOf_ascending lawful valid.ordered

/-! ### Size of a tree of given depth -/

theorem length_interleave {α : Type} : ∀ (separators : List α) (children : List (List α)),
    children.length = separators.length + 1 →
    (interleave separators children).length = separators.length + (children.map List.length).sum
  | [], [child], _ => by simp [interleave]
  | separator :: separators, first :: second :: children, arity => by
      have rest := length_interleave separators (second :: children) (by simpa using arity)
      simp only [interleave, opened_cons, List.length_append, List.length_cons, List.map_cons,
        List.sum_cons] at rest ⊢
      omega
  | [], [], arity => by simp at arity
  | [], _ :: _ :: _, arity => by simp at arity
  | _ :: _, [], arity => by simp at arity
  | _ :: _, [_], arity => by simp at arity

/-- A tree whose root has `low` keys holds at least `(low + 1) * minDegree ^ depth - 1` of them. -/
theorem length_trace_ge (lawful : Lawful scheme) :
    ∀ {depth low : Nat} {tree : Tree L I E depth}, Shape scheme low tree →
      (low + 1) * scheme.minDegree ^ depth ≤ (trace tree).length + 1
  | 0, low, tree, shape => by
      have := shape.1
      simpa [trace] using this
  | depth + 1, low, node, shape => by
      obtain ⟨⟨lowBound, _⟩, arity, childShapes⟩ := shape
      have degree := lawful.degree
      have childSizes : ∀ child ∈ node.children,
          scheme.minDegree ^ (depth + 1) ≤ (trace child).length + 1 := by
        intro child member
        have bound := length_trace_ge lawful (childShapes child member)
        rwa [show scheme.minDegree - 1 + 1 = scheme.minDegree by omega, ← pow_succ'] at bound
      have total : ∀ children : List (Tree L I E depth),
          (∀ child ∈ children, scheme.minDegree ^ (depth + 1) ≤ (trace child).length + 1) →
          children.length * scheme.minDegree ^ (depth + 1) ≤
            ((children.map trace).map List.length).sum + children.length := by
        intro children
        induction children with
        | nil => intro _; simp
        | cons child children inductionHypothesis =>
            intro sizes
            have first := sizes child (by simp)
            have rest := inductionHypothesis fun other member => sizes other (by simp [member])
            simp only [List.length_cons, List.map_cons, List.sum_cons, Nat.add_mul, Nat.one_mul]
            omega
      have sum := total node.children childSizes
      have lengthEq : (trace node).length =
          node.items.length + ((node.children.map trace).map List.length).sum := by
        rw [trace, length_interleave _ _ (by simpa using arity), List.length_map]
      have scaled : (low + 1) * scheme.minDegree ^ (depth + 1) ≤
          node.children.length * scheme.minDegree ^ (depth + 1) :=
        Nat.mul_le_mul_right _ (by omega)
      omega

end StoredsBench.Lib.Multiway
