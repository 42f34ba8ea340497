/-
Module: StoredsBench.Lib.Multiway.Schemes
Layer: Lib
Purpose: The two classical schemes.  In a B-tree the separators are entries and a full leaf gives its
  middle entry away; in a B+-tree the separators are keys and a full leaf gives away a copy of the
  first key of its upper half, so that all entries stay in the leaves.
Trusted boundary: none
Main exports: btree, bplus, btree_lawful, bplus_lawful
-/
import StoredsBench.Lib.Multiway.Rewrite

namespace StoredsBench.Lib.Multiway

variable {K E : Type}

/-- Entries in all nodes; the middle entry of a full leaf moves up. -/
def btree (minDegree : Nat) (keyOf : E → K) : Scheme K E E where
  minDegree := minDegree
  itemKey := keyOf
  entryKey := keyOf
  splitLeaf := fun entries =>
    match entries.drop (minDegree - 1) with
    | [] => none
    | middle :: high => some (entries.take (minDegree - 1), middle, high)
  carries := some
  rank := true

/-- Entries in the leaves only; the first key of the upper half of a full leaf is copied up. -/
def bplus (minDegree : Nat) (keyOf : E → K) : Scheme K K E where
  minDegree := minDegree
  itemKey := id
  entryKey := keyOf
  splitLeaf := fun entries =>
    match entries.drop (minDegree - 1) with
    | [] => none
    | first :: rest => some (entries.take (minDegree - 1), keyOf first, first :: rest)
  carries := fun _ => none
  rank := false

/-- A full leaf has an entry in the middle. -/
theorem exists_middle {minDegree : Nat} {entries : List E} (degree : 2 ≤ minDegree)
    (full : entries.length = 2 * minDegree - 1) :
    ∃ middle high, entries.drop (minDegree - 1) = middle :: high ∧
      entries = entries.take (minDegree - 1) ++ middle :: high ∧
      high.length = minDegree - 1 := by
  cases dropped : entries.drop (minDegree - 1) with
  | nil =>
      have := congrArg List.length dropped
      simp only [List.length_drop, List.length_nil] at this
      omega
  | cons middle high =>
      refine ⟨middle, high, rfl, ?_, ?_⟩
      · rw [← dropped, List.take_append_drop]
      · have := congrArg List.length dropped
        simp only [List.length_drop, List.length_cons] at this
        omega

/-- In a B+-tree the separators contribute nothing to the contents. -/
theorem entriesOf_opened_bplus (minDegree : Nat) (keyOf : E → K) :
    ∀ (separators : List K) (children : List (List (K ⊕ E))),
      children.length = separators.length →
      entriesOf (bplus minDegree keyOf) (opened (separators.map Sum.inl) children) =
        children.flatMap (entriesOf (bplus minDegree keyOf))
  | [], [], _ => rfl
  | separator :: separators, child :: children, aligned => by
      have rest := entriesOf_opened_bplus minDegree keyOf separators children (by simpa using aligned)
      rw [List.map_cons, opened_cons, List.cons_append, entriesOf_separator_cons, entriesOf_append,
        rest]
      rfl
  | [], _ :: _, aligned => by simp at aligned
  | _ :: _, [], aligned => by simp at aligned

/-- The contents of a B+-tree are the entries of its leaves. -/
theorem contents_bplus {L : Type} {minDegree : Nat} {keyOf : E → K} :
    ∀ {depth low : Nat} {tree : Tree L K E depth}, Shape (bplus minDegree keyOf) low tree →
      contents (bplus minDegree keyOf) tree = (leaves tree).flatMap Leaf.entries
  | 0, _, leaf, _ => by
      show entriesOf _ (leaf.entries.map Sum.inr) = [leaf].flatMap Leaf.entries
      rw [entriesOf_entries]
      simp
  | depth + 1, low, node, shape => by
      obtain ⟨_, arity, childShapes⟩ := shape
      have childContents : ∀ child ∈ node.children,
          entriesOf (bplus minDegree keyOf) (trace child) = (leaves child).flatMap Leaf.entries :=
        fun child member => contents_bplus (childShapes child member)
      obtain ⟨label, items, children⟩ := node
      cases children with
      | nil => simp at arity
      | cons first rest =>
          simp only [contents, trace, leaves, List.map_cons, interleave, entriesOf_append]
          rw [entriesOf_opened_bplus minDegree keyOf items (rest.map trace) (by simpa using arity),
            childContents first (by simp), List.flatMap_cons, List.flatMap_append, List.flatMap_map,
            List.flatMap_assoc]
          congr 1
          exact List.flatMap_congr fun child member => childContents child (by simp [member])

variable [LinearOrder K]

theorem btree_lawful {minDegree : Nat} (keyOf : E → K) (degree : 2 ≤ minDegree) :
    Lawful (btree minDegree keyOf) where
  degree := degree
  cuts := by
    intro entries full
    obtain ⟨middle, high, dropped, whole, highLength⟩ := exists_middle degree full
    have lowLength : (entries.take (minDegree - 1)).length = minDegree - 1 := by
      have total : entries.length = 2 * minDegree - 1 := full
      simp only [List.length_take]
      omega
    refine ⟨entries.take (minDegree - 1), middle, high, by simp [btree, dropped], lowLength,
      highLength.ge, (by rw [highLength]; exact Nat.sub_le _ _), whole.symm,
      ⟨middle, by rw [whole]; simp, rfl⟩, ?_⟩
    intro ordered
    rw [whole, List.map_append, List.map_cons] at ordered
    exact ordered.replace rfl
  carries := by
    intro item entry stored
    obtain rfl : item = entry := Option.some.inj stored
    exact ⟨rfl, rfl⟩

theorem bplus_lawful {minDegree : Nat} (keyOf : E → K) (degree : 2 ≤ minDegree) :
    Lawful (bplus minDegree keyOf) where
  degree := degree
  cuts := by
    intro entries full
    obtain ⟨first, rest, dropped, whole, restLength⟩ := exists_middle degree full
    have lowLength : (entries.take (minDegree - 1)).length = minDegree - 1 := by
      have total : entries.length = 2 * minDegree - 1 := full
      simp only [List.length_take]
      omega
    refine ⟨entries.take (minDegree - 1), keyOf first, first :: rest, by simp [bplus, dropped],
      lowLength, ?_, ?_, whole.symm, ⟨first, by rw [whole]; simp, rfl⟩, ?_⟩
    · show minDegree - 1 ≤ (first :: rest).length
      rw [List.length_cons, restLength]
      exact Nat.le_succ _
    · show (first :: rest).length ≤ minDegree
      rw [List.length_cons, restLength]
      omega
    intro ordered
    rw [whole, List.map_append, List.map_cons] at ordered
    obtain ⟨lowOrdered, highOrdered, across⟩ := ordered_append.mp ordered
    -- The copied key stands right before the entry it was copied from.
    have justBefore : position (bplus minDegree keyOf) (.inl (keyOf first)) <
        position (bplus minDegree keyOf) (.inr first) :=
      Prod.Lex.toLex_lt_toLex.mpr (Or.inr ⟨rfl, Bool.false_lt_true⟩)
    refine ordered_append.mpr ⟨lowOrdered, ordered_cons.mpr ⟨?_, highOrdered⟩, ?_⟩
    · intro mark member
      rcases List.mem_cons.mp member with rfl | later
      · exact justBefore
      · exact justBefore.trans ((ordered_cons.mp highOrdered).1 mark later)
    · intro low lowMember high highMember
      obtain ⟨entry, _, rfl⟩ := List.mem_map.mp lowMember
      have below := across _ lowMember (.inr first) (by simp)
      have beforeCopy : position (bplus minDegree keyOf) (.inr entry) <
          position (bplus minDegree keyOf) (.inl (keyOf first)) :=
        position_lt_of_markKey_lt (position_entry_lt_iff.mp below)
      rcases List.mem_cons.mp highMember with rfl | later
      · exact beforeCopy
      · exact across _ lowMember high later
  carries := by
    intro item entry stored
    cases stored

end StoredsBench.Lib.Multiway
