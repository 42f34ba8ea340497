/-
Module: StoredsBench.Lib.Multiway.Insert
Layer: Lib
Purpose: What one insertion does to a multiway tree.  `insertNotFull_cases` says once which child
  the descent takes and how a full child is cut; the shape bounds and the order of the trace are
  then two short inductions.  Order is a single strict order on the trace: a separator and an
  entry are compared by key, and `rank` decides where a separator stands against an entry with
  its own key.
Trusted boundary: none
Main exports: Lawful, Ordered, insertNotFull_cases, shape_insertNotFull, Grows,
  insertNotFull_grows, insertRoot_grows
-/
import StoredsBench.Lib.Multiway.Tree

namespace StoredsBench.Lib.Multiway

variable {K L I E : Type} [LinearOrder K]

/-- Where an element of a trace stands in the order. -/
def position (scheme : Scheme K I E) : I ⊕ E → K ×ₗ Bool
  | .inl item => toLex (scheme.itemKey item, scheme.rank)
  | .inr entry => toLex (scheme.entryKey entry, true)

def markKey (scheme : Scheme K I E) : I ⊕ E → K
  | .inl item => scheme.itemKey item
  | .inr entry => scheme.entryKey entry

def Ordered (scheme : Scheme K I E) (marks : List (I ⊕ E)) : Prop :=
  marks.Pairwise fun first second => position scheme first < position scheme second

/-- The separator `separator` and the halves `low`, `high` are a proper cut of a full leaf. -/
structure LeafCut (scheme : Scheme K I E) (entries low : List E) (separator : I)
    (high : List E) : Prop where
  low_length : low.length = scheme.minDegree - 1
  high_length_ge : scheme.minDegree - 1 ≤ high.length
  high_length_le : high.length ≤ scheme.minDegree
  contents_eq : low ++ ((scheme.carries separator).toList ++ high) = entries
  key_mem : ∃ entry ∈ entries, scheme.entryKey entry = scheme.itemKey separator
  ordered : Ordered scheme (entries.map Sum.inr) →
    Ordered scheme (low.map Sum.inr ++ Sum.inl separator :: high.map Sum.inr)

/-- A scheme that cuts every full leaf properly. -/
structure Lawful (scheme : Scheme K I E) : Prop where
  degree : 2 ≤ scheme.minDegree
  cuts : ∀ entries : List E, entries.length = scheme.maxKeys →
    ∃ low separator high, scheme.splitLeaf entries = some (low, separator, high) ∧
      LeafCut scheme entries low separator high
  carries : ∀ item entry, scheme.carries item = some entry →
    scheme.entryKey entry = scheme.itemKey item ∧ scheme.rank = true

variable {scheme : Scheme K I E}

theorem Lawful.maxKeys_eq (lawful : Lawful scheme) :
    scheme.maxKeys + 1 = 2 * scheme.minDegree := by
  have := lawful.degree
  unfold Scheme.maxKeys
  omega

theorem position_lt_of_markKey_lt {first second : I ⊕ E}
    (below : markKey scheme first < markKey scheme second) :
    position scheme first < position scheme second := by
  cases first <;> cases second <;> exact Prod.Lex.toLex_lt_toLex.mpr (Or.inl below)

theorem markKey_le_of_position_lt {first second : I ⊕ E}
    (below : position scheme first < position scheme second) :
    markKey scheme first ≤ markKey scheme second := by
  cases first <;> cases second <;>
    rcases Prod.Lex.toLex_lt_toLex.mp below with strict | tied <;>
    first | exact strict.le | exact tied.1.le

theorem markKey_lt_of_position_lt {mark : I ⊕ E} {key : K}
    (below : position scheme mark < toLex (key, false)) : markKey scheme mark < key := by
  cases mark <;>
    rcases Prod.Lex.toLex_lt_toLex.mp below with strict | ⟨_, impossible⟩ <;>
    first | exact strict | exact absurd impossible (by simp)

theorem position_entry_lt_iff {first second : E} :
    position scheme (.inr first) < position scheme (.inr second) ↔
      scheme.entryKey first < scheme.entryKey second := by
  simp [position, Prod.Lex.toLex_lt_toLex]

theorem ordered_append {first second : List (I ⊕ E)} :
    Ordered scheme (first ++ second) ↔ Ordered scheme first ∧ Ordered scheme second ∧
      ∀ low ∈ first, ∀ high ∈ second, position scheme low < position scheme high :=
  List.pairwise_append

theorem ordered_cons {mark : I ⊕ E} {marks : List (I ⊕ E)} :
    Ordered scheme (mark :: marks) ↔
      (∀ other ∈ marks, position scheme mark < position scheme other) ∧ Ordered scheme marks :=
  List.pairwise_cons

/-! ### Splitting -/

/-- A full node of a lawful scheme is cut into two halves that have room. -/
theorem split_full (lawful : Lawful scheme) (fresh : L) {low depth : Nat} {tree : Tree L I E depth}
    (shape : Shape scheme low tree) (full : width tree = scheme.maxKeys) :
    ∃ left separator right, split scheme fresh tree = some (left, separator, right) ∧
      Shape scheme (scheme.minDegree - 1) left ∧ Shape scheme (scheme.minDegree - 1) right ∧
      width left < scheme.maxKeys ∧ width right < scheme.maxKeys := by
  have degree := lawful.degree
  have maxKeys := lawful.maxKeys_eq
  cases depth with
  | zero =>
      obtain ⟨low, separator, high, cutEq, cut⟩ := lawful.cuts tree.entries full
      have lowLength := cut.low_length
      have highGe := cut.high_length_ge
      have highLe := cut.high_length_le
      refine ⟨⟨tree.label, low⟩, separator, ⟨fresh, high⟩, by simp [split, cutEq], ?_, ?_, ?_, ?_⟩
      · show _ ≤ low.length ∧ low.length ≤ _
        omega
      · show _ ≤ high.length ∧ high.length ≤ _
        omega
      · show low.length < _
        omega
      · show high.length < _
        omega
  | succ depth =>
      obtain ⟨label, items, children⟩ := tree
      obtain ⟨⟨_, _⟩, arity, childShapes⟩ := shape
      have itemsFull : items.length = scheme.maxKeys := full
      have childrenLength : children.length = items.length + 1 := arity
      obtain ⟨separator, high, dropEq⟩ :
          ∃ separator high, items.drop (scheme.minDegree - 1) = separator :: high := by
        cases dropEq : items.drop (scheme.minDegree - 1) with
        | nil =>
            have := congrArg List.length dropEq
            simp only [List.length_drop, List.length_nil] at this
            omega
        | cons separator high => exact ⟨separator, high, rfl⟩
      have highLength : high.length + 1 = items.length - (scheme.minDegree - 1) := by
        have := congrArg List.length dropEq
        simpa using this.symm
      refine ⟨⟨label, items.take (scheme.minDegree - 1), children.take scheme.minDegree⟩,
        separator, ⟨fresh, high, children.drop scheme.minDegree⟩, by simp [split, dropEq],
        ?_, ?_, ?_, ?_⟩
      · refine ⟨⟨?_, ?_⟩, ?_, fun child member => childShapes child (List.mem_of_mem_take member)⟩ <;>
          simp only [List.length_take] <;> omega
      · refine ⟨⟨?_, ?_⟩, ?_, fun child member => childShapes child (List.mem_of_mem_drop member)⟩ <;>
          simp only [List.length_drop] <;> omega
      · show (items.take (scheme.minDegree - 1)).length < _
        simp only [List.length_take]
        omega
      · show high.length < _
        omega

/-! ### One step of the descent -/

/-- The child an insertion descends into, with what stands on either side of it. -/
theorem exists_child (key : K) {low depth : Nat} {node : Tree L I E (depth + 1)}
    (shape : Shape scheme low node) :
    ∃ before after left child right,
      node.items = before ++ after ∧ node.children = left ++ child :: right ∧
      left.length = before.length ∧ right.length = after.length ∧
      before.length = upperIndex scheme.itemKey key node.items := by
  have within := upperIndex_le scheme.itemKey key node.items
  have itemsEq := (List.take_append_drop (upperIndex scheme.itemKey key node.items) node.items).symm
  obtain ⟨left, child, right, childrenEq, leftAligned, rightAligned⟩ := shape.child_at itemsEq
  exact ⟨_, _, left, child, right, itemsEq, childrenEq, leftAligned, rightAligned,
    List.length_take_of_le within⟩

section Step

variable {depth : Nat} {name : L} {before after : List I} {left right : List (Tree L I E depth)}
  {child lower upper : Tree L I E depth} {separator : I} {entry : E}

/-- A child with room is descended into as it is. -/
theorem insertNotFull_room (fresh : Nat → L) (aligned : left.length = before.length)
    (chosen : before.length =
      upperIndex scheme.itemKey (scheme.entryKey entry) (before ++ after))
    (room : width child ≠ scheme.maxKeys) :
    insertNotFull scheme fresh entry (mkNode name (before ++ after) (left ++ child :: right)) =
      mkNode name (before ++ after) (left ++ insertNotFull scheme fresh entry child :: right) := by
  simp [insertNotFull, ← chosen, ← aligned, room, List.drop_append]

/-- A full child is cut first, and the entry goes into one of the halves. -/
theorem insertNotFull_full (fresh : Nat → L) (aligned : left.length = before.length)
    (chosen : before.length =
      upperIndex scheme.itemKey (scheme.entryKey entry) (before ++ after))
    (full : width child = scheme.maxKeys)
    (splitEq : split scheme (fresh depth) child = some (lower, separator, upper)) :
    insertNotFull scheme fresh entry (mkNode name (before ++ after) (left ++ child :: right)) =
      if scheme.itemKey separator < scheme.entryKey entry then
        mkNode name (before ++ separator :: after)
          (left ++ lower :: insertNotFull scheme fresh entry upper :: right)
      else
        mkNode name (before ++ separator :: after)
          (left ++ insertNotFull scheme fresh entry lower :: upper :: right) := by
  have rest : left.drop (left.length + 1) = [] := List.drop_eq_nil_of_le (Nat.le_succ _)
  simp [insertNotFull, ← chosen, ← aligned, full, splitEq, List.drop_append, rest]

end Step

/-- The ways an inner node can handle an insertion.  The separators before the chosen child are
at most the key when they ascend, those behind it are above the key; a full child is cut first and
the entry goes into one of the halves. -/
theorem insertNotFull_cases (lawful : Lawful scheme) (fresh : Nat → L) (entry : E) {low depth : Nat}
    {node : Tree L I E (depth + 1)} (shape : Shape scheme low node) :
    ∃ before after left child right,
      node.items = before ++ after ∧ node.children = left ++ child :: right ∧
      left.length = before.length ∧
      before.length = upperIndex scheme.itemKey (scheme.entryKey entry) node.items ∧
      (∀ item ∈ after, scheme.entryKey entry < scheme.itemKey item) ∧
      (node.items.Pairwise (fun a b => scheme.itemKey a < scheme.itemKey b) →
        ∀ item ∈ before, scheme.itemKey item ≤ scheme.entryKey entry) ∧
      ((width child < scheme.maxKeys ∧
          insertNotFull scheme fresh entry node =
            ⟨node.label, before ++ after,
              left ++ insertNotFull scheme fresh entry child :: right⟩) ∨
        (width child = scheme.maxKeys ∧
          ∃ lower separator upper,
            split scheme (fresh depth) child = some (lower, separator, upper) ∧
            ((scheme.itemKey separator < scheme.entryKey entry ∧
                insertNotFull scheme fresh entry node =
                  ⟨node.label, before ++ separator :: after,
                    left ++ lower :: insertNotFull scheme fresh entry upper :: right⟩) ∨
              (¬ scheme.itemKey separator < scheme.entryKey entry ∧
                insertNotFull scheme fresh entry node =
                  ⟨node.label, before ++ separator :: after,
                    left ++ insertNotFull scheme fresh entry lower :: upper :: right⟩)))) := by
  obtain ⟨before, after, left, child, right, itemsEq, childrenEq, aligned, _, chosen⟩ :=
    exists_child (scheme.entryKey entry) shape
  obtain ⟨label, items, children⟩ := node
  simp only at itemsEq childrenEq chosen
  subst itemsEq childrenEq
  have childShape := shape.2.2 child (by simp)
  have beforeEq : (before ++ after).take before.length = before := List.take_left
  have afterEq : (before ++ after).drop before.length = after := List.drop_left
  refine ⟨before, after, left, child, right, rfl, rfl, aligned, chosen, ?_, ?_, ?_⟩
  · intro item member
    refine lt_of_mem_drop_upperIndex scheme.itemKey _ (before ++ after) ?_
    rwa [← chosen, afterEq]
  · intro ascending item member
    refine le_of_mem_take_upperIndex scheme.itemKey _ _ ascending ?_
    rwa [← chosen, beforeEq]
  · by_cases full : width child = scheme.maxKeys
    · obtain ⟨lower, separator, upper, splitEq, _⟩ :=
        split_full lawful (fresh depth) childShape full
      refine Or.inr ⟨full, lower, separator, upper, splitEq, ?_⟩
      by_cases goesRight : scheme.itemKey separator < scheme.entryKey entry
      · exact Or.inl ⟨goesRight,
          (insertNotFull_full fresh aligned chosen full splitEq).trans (if_pos goesRight)⟩
      · exact Or.inr ⟨goesRight,
          (insertNotFull_full fresh aligned chosen full splitEq).trans (if_neg goesRight)⟩
    · exact Or.inl ⟨lt_of_le_of_ne childShape.width_le full,
        insertNotFull_room fresh aligned chosen full⟩

/-! ### Shape -/

/-- Insertion keeps the shape of a node that has room. -/
theorem shape_insertNotFull (lawful : Lawful scheme) (fresh : Nat → L) (entry : E) :
    ∀ {depth low : Nat} {tree : Tree L I E depth}, Shape scheme low tree →
      width tree < scheme.maxKeys → Shape scheme low (insertNotFull scheme fresh entry tree)
  | 0, low, tree, shape, room => by
      have bound : tree.entries.length < scheme.maxKeys := room
      have lowBound : low ≤ tree.entries.length := shape.1
      have within := upperIndex_le scheme.entryKey (scheme.entryKey entry) tree.entries
      constructor <;>
        simp only [insertNotFull, List.length_append, List.length_take, List.length_cons,
          List.length_drop] <;> omega
  | depth + 1, low, node, shape, room => by
      obtain ⟨before, after, left, child, right, itemsEq, childrenEq, _, _, _, _, cases⟩ :=
        insertNotFull_cases lawful fresh entry shape
      obtain ⟨⟨lowBound, highBound⟩, arity, childShapes⟩ := shape
      have itemsLength := congrArg List.length itemsEq
      have childrenLength := congrArg List.length childrenEq
      simp only [List.length_append, List.length_cons] at itemsLength childrenLength
      have roomItems : node.items.length < scheme.maxKeys := room
      have childShape := childShapes child (by simp [childrenEq])
      have others : ∀ other, other ∈ left ∨ other ∈ right →
          Shape scheme (scheme.minDegree - 1) other := fun other member =>
        childShapes other (by rw [childrenEq]; rcases member with member | member <;> simp [member])
      rcases cases with ⟨childRoom, resultEq⟩ | ⟨full, lower, separator, upper, splitEq, halves⟩
      · have childResult := shape_insertNotFull lawful fresh entry childShape childRoom
        rw [resultEq]
        refine ⟨⟨?_, ?_⟩, ?_, ?_⟩
        · show low ≤ (before ++ after).length
          simp only [List.length_append]; omega
        · show (before ++ after).length ≤ _
          simp only [List.length_append]; omega
        · show (left ++ _ :: right).length = (before ++ after).length + 1
          simp only [List.length_append, List.length_cons]; omega
        · intro other member
          rcases List.mem_append.mp member with inLeft | rest
          · exact others other (Or.inl inLeft)
          · rcases List.mem_cons.mp rest with here | inRight
            · rw [here]; exact childResult
            · exact others other (Or.inr inRight)
      · obtain ⟨_, _, _, splitEq', lowerShape, upperShape, lowerRoom, upperRoom⟩ :=
          split_full lawful (fresh depth) childShape full
        rw [splitEq] at splitEq'
        cases splitEq'
        have grown : ∀ first second : Tree L I E depth,
            Shape scheme (scheme.minDegree - 1) first → Shape scheme (scheme.minDegree - 1) second →
            Shape scheme low
              (mkNode node.label (before ++ separator :: after) (left ++ first :: second :: right)) := by
          intro first second firstShape secondShape
          refine ⟨⟨?_, ?_⟩, ?_, ?_⟩
          · show low ≤ (before ++ separator :: after).length
            simp only [List.length_append, List.length_cons]; omega
          · show (before ++ separator :: after).length ≤ _
            simp only [List.length_append, List.length_cons]; omega
          · show (left ++ first :: second :: right).length = (before ++ separator :: after).length + 1
            simp only [List.length_append, List.length_cons]; omega
          · intro other member
            rcases List.mem_append.mp member with inLeft | rest
            · exact others other (Or.inl inLeft)
            · rcases List.mem_cons.mp rest with here | rest
              · rw [here]; exact firstShape
              · rcases List.mem_cons.mp rest with here | inRight
                · rw [here]; exact secondShape
                · exact others other (Or.inr inRight)
        rcases halves with ⟨_, resultEq⟩ | ⟨_, resultEq⟩
        · rw [resultEq]
          exact grown _ _ lowerShape (shape_insertNotFull lawful fresh entry upperShape upperRoom)
        · rw [resultEq]
          exact grown _ _ (shape_insertNotFull lawful fresh entry lowerShape lowerRoom) upperShape

end StoredsBench.Lib.Multiway
