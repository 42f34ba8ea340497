/-
Module: StoredsBench.Lib.Multiway.Tree
Layer: Lib
Purpose: Multiway search trees with pre-emptive splitting, generic in what an inner node stores.
  A `Scheme` says what a separator is and how a full leaf is cut: a B-tree moves the middle entry
  up, a B+-tree copies its key.  The depth is an index of the type, so all leaves of a tree are at
  the same depth by construction.  Nodes carry labels (addresses, or nothing); the labels of new
  nodes come from a supply indexed by depth, since one insertion splits at most one node per depth.
Trusted boundary: human-reviewed spec
Main exports: Tree, Scheme, split, insertNotFull, insertRoot, trace, contents, Shape
-/
import Mathlib.Data.List.DropRight
import Mathlib.Data.Prod.Lex
import Mathlib.Tactic.Ring
import Mathlib.Tactic.Linarith

namespace StoredsBench.Lib.Multiway

structure Leaf (L E : Type) where
  label : L
  entries : List E
deriving DecidableEq

structure Inner (L I C : Type) where
  label : L
  items : List I
  children : List C
deriving DecidableEq

/-- A tree whose leaves are all `depth` edges below its root. -/
@[reducible] def Tree (L I E : Type) : Nat → Type
  | 0 => Leaf L E
  | depth + 1 => Inner L I (Tree L I E depth)

@[reducible] def mkLeaf {L I E : Type} (label : L) (entries : List E) : Tree L I E 0 :=
  ⟨label, entries⟩

@[reducible] def mkNode {L I E : Type} {depth : Nat} (label : L) (items : List I)
    (children : List (Tree L I E depth)) : Tree L I E (depth + 1) :=
  ⟨label, items, children⟩

/-- What distinguishes one kind of multiway tree from another. -/
structure Scheme (K I E : Type) where
  minDegree : Nat
  itemKey : I → K
  entryKey : E → K
  /-- Cut the entries of a full leaf around the separator that goes up. -/
  splitLeaf : List E → Option (List E × I × List E)
  /-- The entry a separator stores itself, if separators store entries. -/
  carries : I → Option E
  /-- Where a separator stands against an entry with its own key: `false` places it before. -/
  rank : Bool

namespace Scheme

variable {K I E : Type}

def maxKeys (scheme : Scheme K I E) : Nat := 2 * scheme.minDegree - 1

end Scheme

section Trees

variable {L I E : Type}

def label : {depth : Nat} → Tree L I E depth → L
  | 0, leaf => leaf.label
  | _ + 1, node => node.label

/-- Number of keys in the root node of a tree. -/
def width : {depth : Nat} → Tree L I E depth → Nat
  | 0, leaf => leaf.entries.length
  | _ + 1, node => node.items.length

/-- Labels of all nodes, parents before children. -/
def labels : {depth : Nat} → Tree L I E depth → List L
  | 0, leaf => [leaf.label]
  | _ + 1, node => node.label :: node.children.flatMap labels

/-- The leaves from left to right. -/
def leaves : {depth : Nat} → Tree L I E depth → List (Leaf L E)
  | 0, leaf => [leaf]
  | _ + 1, node => node.children.flatMap leaves

def leafLabels {depth : Nat} (tree : Tree L I E depth) : List L :=
  (leaves tree).map Leaf.label

/-- Children with the separators behind them. -/
def closed {α : Type} (separators : List α) (children : List (List α)) : List α :=
  (List.zipWith (fun separator child => child ++ [separator]) separators children).flatten

/-- Children with the separators in front of them. -/
def opened {α : Type} (separators : List α) (children : List (List α)) : List α :=
  (List.zipWith List.cons separators children).flatten

/-- Children with the separators between them. -/
def interleave {α : Type} (separators : List α) : List (List α) → List α
  | [] => []
  | child :: children => child ++ opened separators children

/-- Separators and entries in left-to-right order. -/
def trace : {depth : Nat} → Tree L I E depth → List (I ⊕ E)
  | 0, leaf => leaf.entries.map Sum.inr
  | _ + 1, node => interleave (node.items.map Sum.inl) (node.children.map trace)

end Trees

section Interleaving

variable {α : Type}

theorem closed_cons (separator : α) (separators : List α) (child : List α)
    (children : List (List α)) :
    closed (separator :: separators) (child :: children) =
      child ++ separator :: closed separators children := by
  simp [closed]

@[simp] theorem closed_nil (children : List (List α)) : closed ([] : List α) children = [] := rfl

theorem opened_cons (separator : α) (separators : List α) (child : List α)
    (children : List (List α)) :
    opened (separator :: separators) (child :: children) =
      separator :: child ++ opened separators children := by
  simp [opened]

@[simp] theorem opened_nil (children : List (List α)) : opened ([] : List α) children = [] := rfl

theorem interleave_singleton (child : List α) : interleave [] [child] = child := by
  simp [interleave]

theorem sublist_closed : ∀ {separators : List α} {children : List (List α)},
    children.length = separators.length → List.Sublist separators (closed separators children)
  | [], _, _ => List.nil_sublist _
  | separator :: separators, [], aligned => by simp at aligned
  | separator :: separators, child :: children, aligned => by
      rw [closed_cons]
      exact ((sublist_closed (by simpa using aligned)).cons_cons separator).trans
        (List.sublist_append_right child _)

theorem sublist_opened : ∀ {separators : List α} {children : List (List α)},
    children.length = separators.length → List.Sublist separators (opened separators children)
  | [], _, _ => List.nil_sublist _
  | separator :: separators, [], aligned => by simp at aligned
  | separator :: separators, child :: children, aligned => by
      rw [opened_cons, List.cons_append]
      exact ((sublist_opened (by simpa using aligned)).trans
        (List.sublist_append_right child _)).cons_cons separator

theorem mem_closed {mark : α} : ∀ {separators : List α} {children : List (List α)},
    children.length = separators.length → ∀ child ∈ children, mark ∈ child →
      mark ∈ closed separators children
  | [], [], _, child, member, _ => by simp at member
  | [], _ :: _, aligned, _, _, _ => by simp at aligned
  | _ :: _, [], aligned, _, _, _ => by simp at aligned
  | separator :: separators, first :: children, aligned, child, member, inChild => by
      rw [closed_cons, List.mem_append, List.mem_cons]
      rcases List.mem_cons.mp member with rfl | later
      · exact Or.inl inChild
      · exact Or.inr (Or.inr (mem_closed (by simpa using aligned) child later inChild))

theorem mem_opened {mark : α} : ∀ {separators : List α} {children : List (List α)},
    children.length = separators.length → ∀ child ∈ children, mark ∈ child →
      mark ∈ opened separators children
  | [], [], _, child, member, _ => by simp at member
  | [], _ :: _, aligned, _, _, _ => by simp at aligned
  | _ :: _, [], aligned, _, _, _ => by simp at aligned
  | separator :: separators, first :: children, aligned, child, member, inChild => by
      rw [opened_cons, List.cons_append, List.mem_cons, List.mem_append]
      rcases List.mem_cons.mp member with rfl | later
      · exact Or.inr (Or.inl inChild)
      · exact Or.inr (Or.inr (mem_opened (by simpa using aligned) child later inChild))

/-- The view of an interleaving from one of its children. -/
theorem interleave_append {before : List α} {left : List (List α)} (after : List α)
    (child : List α) (right : List (List α)) (aligned : left.length = before.length) :
    interleave (before ++ after) (left ++ child :: right) =
      closed before left ++ (child ++ opened after right) := by
  induction left generalizing before with
  | nil =>
      have empty : before = [] := List.eq_nil_of_length_eq_zero aligned.symm
      simp [empty, interleave]
  | cons first left inductionHypothesis =>
      cases before with
      | nil => simp at aligned
      | cons separator before =>
          have rest := inductionHypothesis (show left.length = before.length by simpa using aligned)
          rw [closed_cons]
          cases left with
          | nil =>
              have empty : before = [] := List.eq_nil_of_length_eq_zero (by simpa using aligned.symm)
              simp [empty, interleave, opened_cons]
          | cons second left =>
              simp only [List.cons_append, interleave, opened_cons, List.append_assoc] at rest ⊢
              rw [rest]

/-- The trace of a node as seen from one of its children. -/
theorem trace_mkNode {L I E : Type} {depth : Nat} (name : L) {before : List I} (after : List I)
    {left : List (Tree L I E depth)} (child : Tree L I E depth) (right : List (Tree L I E depth))
    (aligned : left.length = before.length) :
    trace (mkNode name (before ++ after) (left ++ child :: right)) =
      closed (before.map Sum.inl) (left.map trace) ++
        (trace child ++ opened (after.map Sum.inl) (right.map trace)) := by
  simp only [trace, List.map_append, List.map_cons]
  exact interleave_append _ _ _ (by simpa using aligned)

/-- The trace of a node as seen from one of its separators. -/
theorem trace_around {L I E : Type} {depth : Nat} (name : L) {before : List I} (item : I)
    (after : List I) {left : List (Tree L I E depth)} (child next : Tree L I E depth)
    (right : List (Tree L I E depth)) (aligned : left.length = before.length) :
    trace (mkNode name (before ++ item :: after) (left ++ child :: next :: right)) =
      (closed (before.map Sum.inl) (left.map trace) ++ trace child) ++
        .inl item :: (trace next ++ opened (after.map Sum.inl) (right.map trace)) := by
  rw [trace_mkNode name (item :: after) child (next :: right) aligned, List.map_cons, List.map_cons,
    opened_cons]
  simp

end Interleaving

section Operations

variable {K L I E : Type} [LinearOrder K]

/-- How many leading elements are left after those above `key` are dropped from the end. -/
def upperIndex {α : Type} (keyOf : α → K) (key : K) (elements : List α) : Nat :=
  (elements.rdropWhile fun element => key < keyOf element).length

/-- How many leading elements are below `key`. -/
def lowerIndex {α : Type} (keyOf : α → K) (key : K) (elements : List α) : Nat :=
  (elements.takeWhile fun element => keyOf element < key).length

/-- Cut a full node into two halves and the separator between them; `fresh` labels the right
half. -/
def split (scheme : Scheme K I E) (fresh : L) :
    {depth : Nat} → Tree L I E depth → Option (Tree L I E depth × I × Tree L I E depth)
  | 0, leaf =>
      (scheme.splitLeaf leaf.entries).map fun (low, separator, high) =>
        (⟨leaf.label, low⟩, separator, ⟨fresh, high⟩)
  | _ + 1, node =>
      match node.items.drop (scheme.minDegree - 1) with
      | [] => none
      | separator :: high =>
          some
            (⟨node.label, node.items.take (scheme.minDegree - 1),
                node.children.take scheme.minDegree⟩,
              separator,
              ⟨fresh, high, node.children.drop scheme.minDegree⟩)

/-- Insert below a node that has room, splitting a full child before descending into it.
`fresh depth` labels the node created at `depth`, if one is. -/
def insertNotFull (scheme : Scheme K I E) (fresh : Nat → L) (entry : E) :
    {depth : Nat} → Tree L I E depth → Tree L I E depth
  | 0, leaf =>
      let index := upperIndex scheme.entryKey (scheme.entryKey entry) leaf.entries
      ⟨leaf.label, leaf.entries.take index ++ entry :: leaf.entries.drop index⟩
  | depth + 1, node =>
      let index := upperIndex scheme.itemKey (scheme.entryKey entry) node.items
      let left := node.children.take index
      let right := node.children.drop (index + 1)
      match node.children[index]? with
      | none => node
      | some child =>
          if width child = scheme.maxKeys then
            match split scheme (fresh depth) child with
            | none => node
            | some (low, separator, high) =>
                let items := node.items.take index ++ separator :: node.items.drop index
                if scheme.itemKey separator < scheme.entryKey entry then
                  ⟨node.label, items,
                    left ++ low :: insertNotFull scheme fresh entry high :: right⟩
                else
                  ⟨node.label, items,
                    left ++ insertNotFull scheme fresh entry low :: high :: right⟩
          else
            ⟨node.label, node.items, left ++ insertNotFull scheme fresh entry child :: right⟩

/-- Insert into a whole tree; a full root becomes the only child of a new root first. -/
def insertRoot (scheme : Scheme K I E) (fresh : Nat → L) (entry : E) {depth : Nat}
    (tree : Tree L I E depth) : (depth : Nat) × Tree L I E depth :=
  if width tree = scheme.maxKeys then
    ⟨depth + 1, insertNotFull scheme fresh entry (mkNode (fresh (depth + 1)) [] [tree])⟩
  else ⟨depth, insertNotFull scheme fresh entry tree⟩

/-- The entries among the marks, those stored by separators included. -/
def entriesOf (scheme : Scheme K I E) (marks : List (I ⊕ E)) : List E :=
  marks.filterMap (Sum.elim scheme.carries some)

/-- The entries of a tree in order. -/
def contents (scheme : Scheme K I E) {depth : Nat} (tree : Tree L I E depth) : List E :=
  entriesOf scheme (trace tree)

/-- Every node has between `low` (its root) or `minDegree - 1` (the others) and `maxKeys` keys,
and one child more than it has separators. -/
def Shape (scheme : Scheme K I E) : (low : Nat) → {depth : Nat} → Tree L I E depth → Prop
  | low, 0, leaf => low ≤ leaf.entries.length ∧ leaf.entries.length ≤ scheme.maxKeys
  | low, _ + 1, node =>
      (low ≤ node.items.length ∧ node.items.length ≤ scheme.maxKeys) ∧
        node.children.length = node.items.length + 1 ∧
        ∀ child ∈ node.children, Shape scheme (scheme.minDegree - 1) child

end Operations

section Lemmas

variable {K L I E : Type} {scheme : Scheme K I E}

@[simp] theorem entriesOf_append (first second : List (I ⊕ E)) :
    entriesOf scheme (first ++ second) = entriesOf scheme first ++ entriesOf scheme second := by
  simp [entriesOf]

@[simp] theorem entriesOf_entries (entries : List E) :
    entriesOf scheme (entries.map Sum.inr) = entries := by
  induction entries with
  | nil => rfl
  | cons entry entries inductionHypothesis =>
      simp only [entriesOf, List.map_cons, List.filterMap_cons, Sum.elim_inr] at inductionHypothesis ⊢
      rw [inductionHypothesis]

@[simp] theorem entriesOf_separator_cons (item : I) (marks : List (I ⊕ E)) :
    entriesOf scheme (.inl item :: marks) =
      (scheme.carries item).toList ++ entriesOf scheme marks := by
  cases carried : scheme.carries item <;> simp [entriesOf, carried]

@[simp] theorem entriesOf_entry_cons (entry : E) (marks : List (I ⊕ E)) :
    entriesOf scheme (.inr entry :: marks) = entry :: entriesOf scheme marks := by
  simp [entriesOf]

theorem mem_entriesOf_entry {entry : E} {marks : List (I ⊕ E)} (member : .inr entry ∈ marks) :
    entry ∈ entriesOf scheme marks :=
  List.mem_filterMap.mpr ⟨.inr entry, member, rfl⟩

/-! ### Bounds on the root node -/

theorem Shape.mono {low high depth : Nat} {tree : Tree L I E depth} (shape : Shape scheme high tree)
    (le : low ≤ high) : Shape scheme low tree := by
  cases depth with
  | zero => exact ⟨le.trans shape.1, shape.2⟩
  | succ depth => exact ⟨⟨le.trans shape.1.1, shape.1.2⟩, shape.2⟩

theorem Shape.width_ge {low depth : Nat} {tree : Tree L I E depth} (shape : Shape scheme low tree) :
    low ≤ width tree := by
  cases depth with
  | zero => exact shape.1
  | succ depth => exact shape.1.1

theorem Shape.width_le {low depth : Nat} {tree : Tree L I E depth} (shape : Shape scheme low tree) :
    width tree ≤ scheme.maxKeys := by
  cases depth with
  | zero => exact shape.2
  | succ depth => exact shape.1.2

/-- Every gap between the separators of a node belongs to one child. -/
theorem Shape.child_at {low depth : Nat} {node : Tree L I E (depth + 1)}
    (shape : Shape scheme low node) {before after : List I} (itemsEq : node.items = before ++ after) :
    ∃ left child right, node.children = left ++ child :: right ∧ left.length = before.length ∧
      right.length = after.length := by
  obtain ⟨_, arity, _⟩ := shape
  rw [itemsEq, List.length_append] at arity
  have inside : before.length < node.children.length := by omega
  refine ⟨node.children.take before.length, node.children[before.length],
    node.children.drop (before.length + 1), ?_, ?_, ?_⟩
  · rw [← List.drop_eq_getElem_cons inside, List.take_append_drop]
  · simp only [List.length_take]
    omega
  · simp only [List.length_drop]
    omega

end Lemmas

/-! ### Descent indices -/


section Index

variable {K α : Type} [LinearOrder K] (keyOf : α → K) (key : K) (elements : List α)

theorem upperIndex_le : upperIndex keyOf key elements ≤ elements.length :=
  (List.rdropWhile_prefix (p := fun element => decide (key < keyOf element)) elements).length_le

theorem lowerIndex_le : lowerIndex keyOf key elements ≤ elements.length :=
  (List.takeWhile_prefix _).length_le

theorem take_upperIndex :
    elements.take (upperIndex keyOf key elements) =
      elements.rdropWhile fun element => key < keyOf element :=
  (List.prefix_iff_eq_take.mp (List.rdropWhile_prefix _ elements)).symm

theorem take_lowerIndex :
    elements.take (lowerIndex keyOf key elements) =
      elements.takeWhile fun element => keyOf element < key :=
  (List.prefix_iff_eq_take.mp (List.takeWhile_prefix _)).symm

theorem drop_lowerIndex :
    elements.drop (lowerIndex keyOf key elements) =
      elements.dropWhile fun element => keyOf element < key := by
  have whole := List.takeWhile_append_dropWhile (p := fun element => decide (keyOf element < key))
    (l := elements)
  conv_lhs => rw [← whole]
  rw [lowerIndex, whole]
  nth_rewrite 2 [← whole]
  exact List.drop_left

/-- Everything from the upper index on is above the key. -/
theorem lt_of_mem_drop_upperIndex {element : α}
    (member : element ∈ elements.drop (upperIndex keyOf key elements)) : key < keyOf element := by
  induction elements using List.reverseRecOn with
  | nil => simp at member
  | append_singleton elements last inductionHypothesis =>
      by_cases above : key < keyOf last
      · have kept : upperIndex keyOf key (elements ++ [last]) = upperIndex keyOf key elements := by
          simp [upperIndex, above]
        rw [kept, List.drop_append_of_le_length (upperIndex_le keyOf key elements)] at member
        rcases List.mem_append.mp member with earlier | here
        · exact inductionHypothesis earlier
        · rw [List.mem_singleton] at here
          exact here ▸ above
      · have all : upperIndex keyOf key (elements ++ [last]) = (elements ++ [last]).length := by
          rw [upperIndex, List.rdropWhile_concat_neg _ _ _ (by simpa using above)]
        simp [all] at member

/-- In an ascending list everything before the upper index is at most the key. -/
theorem le_of_mem_take_upperIndex (ascending : elements.Pairwise fun a b => keyOf a < keyOf b)
    {element : α} (member : element ∈ elements.take (upperIndex keyOf key elements)) :
    keyOf element ≤ key := by
  rw [take_upperIndex] at member
  by_cases empty : (elements.rdropWhile fun element => decide (key < keyOf element)) = []
  · simp [empty] at member
  · have last : keyOf ((elements.rdropWhile fun element => decide (key < keyOf element)).getLast
        empty) ≤ key := by
      simpa using List.rdropWhile_last_not (fun element => decide (key < keyOf element)) elements empty
    have keptAscending := ascending.sublist
      (List.rdropWhile_prefix (fun element => decide (key < keyOf element)) elements).sublist
    rcases eq_or_ne element (List.getLast _ empty) with same | different
    · rw [same]; exact last
    · have order := (List.dropLast_append_getLast empty) ▸ keptAscending
      rw [List.pairwise_append] at order
      have inFront : element ∈ List.dropLast _ :=
        List.mem_dropLast_of_mem_of_ne_getLast member different
      exact (order.2.2 element inFront _ (List.mem_singleton_self _)).le.trans last

/-- In an ascending list the lower index separates what is below the key from what is above it;
only the first element behind it can have the key. -/
theorem lowerIndex_cases (ascending : elements.Pairwise fun a b => keyOf a < keyOf b) :
    ∃ before after, elements = before ++ after ∧
      before.length = lowerIndex keyOf key elements ∧ (∀ element ∈ before, keyOf element < key) ∧
      ((∃ hit rest, after = hit :: rest ∧ keyOf hit = key ∧
          ∀ element ∈ rest, key < keyOf element) ∨
        ∀ element ∈ after, key < keyOf element) := by
  refine ⟨elements.takeWhile fun element => keyOf element < key,
    elements.dropWhile fun element => keyOf element < key,
    List.takeWhile_append_dropWhile.symm, rfl, ?_, ?_⟩
  · intro element member
    simpa using List.mem_takeWhile_imp member
  · have rest := ascending.sublist
      (List.dropWhile_sublist fun element => decide (keyOf element < key))
    cases dropped : elements.dropWhile fun element => decide (keyOf element < key) with
    | nil => exact Or.inr fun element member => by simp at member
    | cons first others =>
        rw [dropped] at rest
        obtain ⟨firstBelow, _⟩ := List.pairwise_cons.mp rest
        have stopped : ¬ keyOf first < key := by
          have := List.head?_dropWhile_not (fun element => decide (keyOf element < key)) elements
          simpa [dropped] using this
        rcases (not_lt.mp stopped).eq_or_lt with hit | above
        · exact Or.inl ⟨first, others, rfl, hit.symm, fun element member =>
            hit ▸ firstBelow element member⟩
        · refine Or.inr fun element member => ?_
          rcases List.mem_cons.mp member with rfl | later
          · exact above
          · exact above.trans (firstBelow element later)

end Index

end StoredsBench.Lib.Multiway
