/-
Module: StoredsBench.Lib.Multiway.Rewrite
Layer: Lib
Purpose: Overwriting one stored entry of a multiway tree in place.  `rewriteAt` changes the node with
  a given label and nothing else; when it replaces one mark of the trace by another with the same
  key, the invariant of the tree survives and one entry of its contents is replaced.
Trusted boundary: none
Main exports: rewriteAt, rewriteAt_child, carried, Valid.replace
-/
import StoredsBench.Lib.Multiway.Labels
import StoredsBench.Lib.Multiway.Valid

namespace StoredsBench.Lib.Multiway

variable {K L I E : Type}

section Rewriting

variable [DecidableEq L] (target : L) (onItems : List I → List I) (onEntries : List E → List E)

/-- Change what the node labelled `target` stores. -/
def rewriteAt : {depth : Nat} → Tree L I E depth → Tree L I E depth
  | 0, leaf => ⟨leaf.label, if leaf.label = target then onEntries leaf.entries else leaf.entries⟩
  | _ + 1, node =>
      ⟨node.label, if node.label = target then onItems node.items else node.items,
        node.children.map rewriteAt⟩

theorem label_rewriteAt {depth : Nat} (tree : Tree L I E depth) :
    label (rewriteAt target onItems onEntries tree) = label tree := by
  cases depth <;> rfl

theorem labels_rewriteAt : ∀ {depth : Nat} (tree : Tree L I E depth),
    labels (rewriteAt target onItems onEntries tree) = labels tree
  | 0, _ => rfl
  | depth + 1, node => by
      simp only [rewriteAt, labels, List.flatMap_map]
      congr 2
      funext child
      exact labels_rewriteAt child

theorem leafLabels_rewriteAt : ∀ {depth : Nat} (tree : Tree L I E depth),
    leafLabels (rewriteAt target onItems onEntries tree) = leafLabels tree
  | 0, _ => rfl
  | depth + 1, node => by
      rw [leafLabels_node, leafLabels_node]
      simp only [rewriteAt, List.flatMap_map]
      congr 1
      funext child
      exact leafLabels_rewriteAt child

/-- Nothing happens to a tree that does not contain the target. -/
theorem rewriteAt_of_not_mem : ∀ {depth : Nat} {tree : Tree L I E depth}, target ∉ labels tree →
    rewriteAt target onItems onEntries tree = tree
  | 0, leaf, absent => by
      have different : leaf.label ≠ target := fun same => absent (by simp [labels, same])
      simp [rewriteAt, different]
  | depth + 1, node, absent => by
      have different : node.label ≠ target := fun same => absent (by simp [labels, same])
      have children : node.children.map (rewriteAt target onItems onEntries) = node.children := by
        conv_rhs => rw [← List.map_id node.children]
        refine List.map_congr_left fun child member => ?_
        exact rewriteAt_of_not_mem fun inChild =>
          absent (List.mem_cons_of_mem _ (List.mem_flatMap.mpr ⟨child, member, inChild⟩))
      simp only [rewriteAt, if_neg different, children]

theorem map_rewriteAt_of_not_mem {depth : Nat} (others : List (Tree L I E depth))
    (absent : ∀ other ∈ others, target ∉ labels other) :
    others.map (rewriteAt target onItems onEntries) = others := by
  conv_rhs => rw [← List.map_id others]
  exact List.map_congr_left fun other member =>
    rewriteAt_of_not_mem target onItems onEntries (absent other member)

/-- When the target is the root, only its items change. -/
theorem rewriteAt_root {depth : Nat} {items : List I} {children : List (Tree L I E depth)}
    (nodup : (labels (mkNode target items children)).Nodup) :
    rewriteAt target onItems onEntries (mkNode target items children) =
      mkNode target (onItems items) children := by
  have unchanged : children.map (rewriteAt target onItems onEntries) = children :=
    map_rewriteAt_of_not_mem _ _ _ _ fun other member inOther =>
      (List.nodup_cons.mp nodup).1 (List.mem_flatMap.mpr ⟨other, member, inOther⟩)
  simp only [rewriteAt, unchanged, if_true]

/-- When the target lies below one child, only that child changes. -/
theorem rewriteAt_child {depth : Nat} {name : L} {items : List I}
    {left right : List (Tree L I E depth)} {child : Tree L I E depth}
    (nodup : (labels (mkNode name items (left ++ child :: right))).Nodup)
    (member : target ∈ labels child) :
    rewriteAt target onItems onEntries (mkNode name items (left ++ child :: right)) =
      mkNode name items (left ++ rewriteAt target onItems onEntries child :: right) := by
  rw [labels_mkNode] at nodup
  obtain ⟨nameFresh, restNodup⟩ := List.nodup_cons.mp nodup
  obtain ⟨_, childRightNodup, leftApart⟩ := List.nodup_append.mp restNodup
  obtain ⟨_, _, rightApart⟩ := List.nodup_append.mp childRightNodup
  have different : name ≠ target := fun same => nameFresh (by simp [same, member])
  have leftSame := map_rewriteAt_of_not_mem target onItems onEntries left
    fun other inLeft inOther =>
      leftApart target (List.mem_flatMap.mpr ⟨other, inLeft, inOther⟩) target (by simp [member]) rfl
  have rightSame := map_rewriteAt_of_not_mem target onItems onEntries right
    fun other inRight inOther =>
      rightApart target member target (List.mem_flatMap.mpr ⟨other, inRight, inOther⟩) rfl
  simp [rewriteAt, different, leftSame, rightSame]

theorem shape_rewriteAt {scheme : Scheme K I E} (items : ∀ list, (onItems list).length = list.length)
    (entries : ∀ list, (onEntries list).length = list.length) :
    ∀ {depth low : Nat} {tree : Tree L I E depth}, Shape scheme low tree →
      Shape scheme low (rewriteAt target onItems onEntries tree)
  | 0, low, leaf, shape => by
      have same : (rewriteAt target onItems onEntries leaf).entries.length = leaf.entries.length := by
        simp only [rewriteAt]
        split
        · exact entries _
        · rfl
      refine ⟨?_, ?_⟩
      · rw [same]
        exact shape.1
      · rw [same]
        exact shape.2
  | depth + 1, low, node, shape => by
      have same : (rewriteAt target onItems onEntries node).items.length = node.items.length := by
        simp only [rewriteAt]
        split
        · exact items _
        · rfl
      refine ⟨by rw [same]; exact shape.1, ?_, ?_⟩
      · rw [same]
        simpa [rewriteAt] using shape.2.1
      · intro child member
        obtain ⟨old, oldMember, rfl⟩ := List.mem_map.mp member
        exact shape_rewriteAt items entries (shape.2.2 old oldMember)

end Rewriting

/-! ### Replacing one mark -/

section Replacing

variable [LinearOrder K] {scheme : Scheme K I E}

/-- The entry a mark stores, if it stores one. -/
def carried (scheme : Scheme K I E) : I ⊕ E → Option E := Sum.elim scheme.carries some

omit [LinearOrder K] in
theorem entriesOf_middle {front back : List (I ⊕ E)} {mark : I ⊕ E} {entry : E}
    (stored : carried scheme mark = some entry) :
    entriesOf scheme (front ++ mark :: back) =
      entriesOf scheme front ++ entry :: entriesOf scheme back := by
  have stored : Sum.elim scheme.carries some mark = some entry := stored
  simp [entriesOf, stored]

theorem Ordered.replace {front back : List (I ⊕ E)} {mark other : I ⊕ E}
    (ordered : Ordered scheme (front ++ mark :: back))
    (same : position scheme other = position scheme mark) :
    Ordered scheme (front ++ other :: back) := by
  have positions : ∀ marks : List (I ⊕ E),
      Ordered scheme marks ↔ (marks.map (position scheme)).Pairwise (· < ·) :=
    fun marks => List.pairwise_map.symm
  rw [positions] at ordered ⊢
  simpa [same] using ordered

/-- Storing another entry under the same key keeps the invariant. -/
theorem Valid.replace (lawful : Lawful scheme) {depth : Nat} {tree changed : Tree L I E depth}
    {front back : List (I ⊕ E)} {mark other : I ⊕ E} {entry stored : E}
    (valid : Valid scheme tree) (shape : Shape scheme 1 changed)
    (before : trace tree = front ++ mark :: back) (after : trace changed = front ++ other :: back)
    (samePosition : position scheme other = position scheme mark)
    (old : carried scheme mark = some entry) (new : carried scheme other = some stored)
    (sameKey : scheme.entryKey stored = scheme.entryKey entry) : Valid scheme changed where
  shape := shape
  ordered := by
    rw [after]
    exact (before ▸ valid.ordered).replace samePosition
  anchored := by
    have anchored := valid.anchored
    rw [before, Anchored, entriesOf_middle old] at anchored
    rw [after, Anchored, entriesOf_middle new]
    have kept : ∀ item, Sum.inl item ∈ front ∨ Sum.inl item ∈ back →
        ∃ entry ∈ entriesOf scheme front ++ stored :: entriesOf scheme back,
          scheme.entryKey entry = scheme.itemKey item := by
      intro item side
      obtain ⟨found, member, keyEq⟩ := anchored item (by
        simp only [List.mem_append, List.mem_cons]
        tauto)
      simp only [List.mem_append, List.mem_cons] at member
      rcases member with inFront | rfl | inBack
      · exact ⟨found, by simp [inFront], keyEq⟩
      · exact ⟨stored, by simp, sameKey.trans keyEq⟩
      · exact ⟨found, by simp [inBack], keyEq⟩
    intro item member
    simp only [List.mem_append, List.mem_cons] at member
    rcases member with inFront | here | inBack
    · exact kept item (Or.inl inFront)
    · subst here
      exact ⟨stored, by simp, (lawful.carries item stored new).1⟩
    · exact kept item (Or.inr inBack)

end Replacing

end StoredsBench.Lib.Multiway
