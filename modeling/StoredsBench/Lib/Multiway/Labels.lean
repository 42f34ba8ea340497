/-
Module: StoredsBench.Lib.Multiway.Labels
Layer: Lib
Purpose: How splitting and insertion treat the labels of a multiway tree: every node keeps its
  label, a split distributes the labels below the cut node over the halves, and an insertion only
  draws on the supply of fresh labels below its own depth.
Trusted boundary: none
Main exports: labelsBelow, labels_eq, split_labels, split_leafLabels, label_insertNotFull,
  insertNotFull_congr, depth_lt_length_labels
-/
import StoredsBench.Lib.Multiway.Insert

namespace StoredsBench.Lib.Multiway

variable {K L I E : Type}

/-- Labels of all nodes except the root. -/
def labelsBelow : {depth : Nat} → Tree L I E depth → List L
  | 0, _ => []
  | _ + 1, node => node.children.flatMap labels

theorem labels_eq {depth : Nat} (tree : Tree L I E depth) :
    labels tree = label tree :: labelsBelow tree := by
  cases depth <;> rfl

theorem label_mem_labels {depth : Nat} (tree : Tree L I E depth) : label tree ∈ labels tree := by
  rw [labels_eq]
  exact List.mem_cons_self

theorem leafLabels_node {depth : Nat} (node : Tree L I E (depth + 1)) :
    leafLabels node = node.children.flatMap leafLabels := by
  show (node.children.flatMap leaves).map Leaf.label = _
  rw [List.map_flatMap]
  rfl

theorem leafLabels_subset : ∀ {depth : Nat} (tree : Tree L I E depth),
    ∀ name ∈ leafLabels tree, name ∈ labels tree
  | 0, _, _, member => member
  | depth + 1, node, name, member => by
      rw [leafLabels_node, List.mem_flatMap] at member
      obtain ⟨child, childMember, inChild⟩ := member
      exact List.mem_cons_of_mem _
        (List.mem_flatMap.mpr ⟨child, childMember, leafLabels_subset child name inChild⟩)

/-- Labels of a node as seen from one of its children. -/
theorem labels_mkNode {depth : Nat} (name : L) (items : List I) (left right : List (Tree L I E depth))
    (child : Tree L I E depth) :
    labels (mkNode name items (left ++ child :: right)) =
      name :: (left.flatMap labels ++ (labels child ++ right.flatMap labels)) := by
  simp [labels]

theorem leafLabels_mkNode {depth : Nat} (name : L) (items : List I)
    (left right : List (Tree L I E depth)) (child : Tree L I E depth) :
    leafLabels (mkNode name items (left ++ child :: right)) =
      left.flatMap leafLabels ++ (leafLabels child ++ right.flatMap leafLabels) := by
  rw [leafLabels_node]
  simp

theorem nodup_child {depth : Nat} {name : L} {items : List I} {left right : List (Tree L I E depth)}
    {child : Tree L I E depth}
    (nodup : (labels (mkNode name items (left ++ child :: right))).Nodup) : (labels child).Nodup := by
  rw [labels_mkNode] at nodup
  exact (nodup.sublist (List.sublist_cons_self _ _)).sublist
    ((List.sublist_append_left _ _).trans (List.sublist_append_right _ _))

section Insertion

variable {scheme : Scheme K I E}

/-- The halves of a split share out the labels below the node; only the new root is new. -/
theorem split_labels {fresh : L} {depth : Nat} {tree lower upper : Tree L I E depth} {separator : I}
    (splitEq : split scheme fresh tree = some (lower, separator, upper)) :
    label lower = label tree ∧ label upper = fresh ∧
      labelsBelow tree = labelsBelow lower ++ labelsBelow upper := by
  cases depth with
  | zero =>
      simp only [split, Option.map_eq_some_iff] at splitEq
      obtain ⟨cut, _, pairEq⟩ := splitEq
      simp only [Prod.mk.injEq] at pairEq
      obtain ⟨rfl, rfl, rfl⟩ := pairEq
      exact ⟨rfl, rfl, rfl⟩
  | succ depth =>
      simp only [split] at splitEq
      split at splitEq
      · cases splitEq
      · simp only [Option.some.injEq, Prod.mk.injEq] at splitEq
        obtain ⟨rfl, rfl, rfl⟩ := splitEq
        refine ⟨rfl, rfl, ?_⟩
        show tree.children.flatMap labels = _ ++ _
        conv_lhs => rw [← List.take_append_drop scheme.minDegree tree.children]
        exact List.flatMap_append

/-- Splitting a leaf puts the new leaf behind the old one; splitting an inner node leaves the
sequence of leaves alone. -/
theorem split_leafLabels {fresh : L} {depth : Nat} {tree lower upper : Tree L I E depth}
    {separator : I} (splitEq : split scheme fresh tree = some (lower, separator, upper)) :
    leafLabels lower ++ leafLabels upper =
      if depth = 0 then leafLabels tree ++ [fresh] else leafLabels tree := by
  cases depth with
  | zero =>
      simp only [split, Option.map_eq_some_iff] at splitEq
      obtain ⟨cut, _, pairEq⟩ := splitEq
      simp only [Prod.mk.injEq] at pairEq
      obtain ⟨rfl, rfl, rfl⟩ := pairEq
      rfl
  | succ depth =>
      simp only [split] at splitEq
      split at splitEq
      · cases splitEq
      · simp only [Option.some.injEq, Prod.mk.injEq] at splitEq
        obtain ⟨rfl, rfl, rfl⟩ := splitEq
        rw [if_neg (Nat.succ_ne_zero depth)]
        simp only [leafLabels_node]
        conv_rhs => rw [← List.take_append_drop scheme.minDegree tree.children]
        exact List.flatMap_append.symm

variable [LinearOrder K]

theorem label_insertNotFull (fresh : Nat → L) (entry : E) {depth : Nat} (tree : Tree L I E depth) :
    label (insertNotFull scheme fresh entry tree) = label tree := by
  cases depth with
  | zero => rfl
  | succ depth =>
      simp only [insertNotFull]
      split
      · rfl
      · split
        · split
          · rfl
          · split <;> rfl
        · rfl

/-- An insertion at depth `depth` uses the fresh labels below `depth` only. -/
theorem insertNotFull_congr {fresh other : Nat → L} (entry : E) :
    ∀ {depth : Nat} (tree : Tree L I E depth), (∀ level < depth, fresh level = other level) →
      insertNotFull scheme fresh entry tree = insertNotFull scheme other entry tree
  | 0, _, _ => rfl
  | depth + 1, node, same => by
      have below : ∀ child : Tree L I E depth,
          insertNotFull scheme fresh entry child = insertNotFull scheme other entry child :=
        fun child => insertNotFull_congr entry child fun level less => same level (by omega)
      simp only [insertNotFull, below, same depth (Nat.lt_succ_self depth)]

/-- A supply that hands out `first` at `depth` and the labels of `rest` elsewhere. -/
def supply (depth : Nat) (first : L) (rest : Nat → L) : Nat → L :=
  fun level => if level = depth then first else rest level

omit [LinearOrder K] in
@[simp] theorem supply_self (depth : Nat) (first : L) (rest : Nat → L) :
    supply depth first rest depth = first := if_pos rfl

/-- What a supply hands out at `depth` does not matter further down. -/
theorem insertNotFull_supply (first : L) (fresh : Nat → L) (entry : E) {depth : Nat}
    (tree : Tree L I E depth) :
    insertNotFull scheme (supply depth first fresh) entry tree =
      insertNotFull scheme fresh entry tree :=
  insertNotFull_congr entry tree fun _ less => if_neg (by omega)

end Insertion

/-- A tree has a node at every depth. -/
theorem depth_lt_length_labels {scheme : Scheme K I E} :
    ∀ {depth low : Nat} {tree : Tree L I E depth}, Shape scheme low tree →
      depth < (labels tree).length
  | 0, _, _, _ => Nat.zero_lt_one
  | depth + 1, low, node, shape => by
      obtain ⟨_, arity, childShapes⟩ := shape
      obtain ⟨child, rest, childrenEq⟩ : ∃ child rest, node.children = child :: rest := by
        cases childrenEq : node.children with
        | nil => simp [childrenEq] at arity
        | cons child rest => exact ⟨child, rest, rfl⟩
      have deeper := depth_lt_length_labels (childShapes child (by simp [childrenEq]))
      simp only [labels, childrenEq, List.flatMap_cons, List.length_cons, List.length_append]
      omega

end StoredsBench.Lib.Multiway
