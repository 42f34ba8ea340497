/-
Module: StoredsBench.BTree.Correctness
Layer: Correctness
Purpose: `BTreeDram` is a finite map, and every state inserts can reach is a B-tree of minimum degree
  9 within its bounds.
Trusted boundary: none
Main exports: btreeDram_finite_map, btreeDram_invariant
-/
import StoredsBench.BTree.Refinement
import StoredsBench.Trees.Guarded

namespace StoredsBench.BTreeDram

open Lib Lib.Multiway Lib.SortedAssoc Trees

/-- On a tree with a root, `read` is a search from there. -/
theorem read_eq (key : Key) {store : BTreeDram} (rooted : store.root ≠ null) :
    read key store = search store.heap.size store.root key store := by
  have checked : check store = .ok ((), store) := by
    rw [check, bind_ok (Prog.getRoot_ok store), if_neg rooted]
    rfl
  rw [read, bind_ok checked, bind_ok (Prog.getRoot_ok store),
    bind_ok (Prog.heapSize_ok store)]

theorem serves : Serves splitNode search updateIfFound () backend where
  insert := fun _ _ _ => rfl
  read := fun key store rooted => by
    simp only [backend, read_eq key rooted]
    rfl

/-- Every sequence of inserts and reads that begins with an insert runs to its end, and each read
returns the value of the most recent insert for its key; an insert never changes what another key
reads. -/
theorem btreeDram_finite_map (key : Key) (value : Value) (calls : List Call) :
    ∃ store, backend.run (.insert key value :: calls) init =
        .ok (answers (.insert key value :: calls), store) ∧
      backend.MapAfter (.insert key value :: calls) store := by
  obtain ⟨next, first, shown⟩ :=
    implements.insert_first serves (show init.root = null from rfl) key value
  exact (implements.represents serves).run_from_first first shown calls

/-- A B-tree stores one entry per mark. -/
theorem length_contents {depth : Nat} (tree : PtrTree (Key × Value) depth) :
    (contents kind.scheme tree).length = (trace tree).length := by
  have all : ∀ marks : List ((Key × Value) ⊕ (Key × Value)),
      (entriesOf kind.scheme marks).length = marks.length := by
    intro marks
    induction marks with
    | nil => rfl
    | cons mark marks inductionHypothesis =>
        cases mark with
        | inl item =>
            rw [entriesOf_separator_cons, List.length_append, inductionHypothesis]
            exact Nat.add_comm _ _
        | inr entry => rw [entriesOf_entry_cons, List.length_cons, inductionHypothesis, List.length_cons]
  exact all (trace tree)

/-- In every state reached by a non-empty sequence of inserts the heap shows, at pairwise distinct
addresses, a tree all of whose leaves are `depth` edges below the root.  It is within its fill
bounds, with one written child pointer more than keys in every inner node, its keys ascend in
order, and it has as many entries as its height requires.  Inserts and reads run without a fault in
every such state, that is inside the arrays and on written slots only, and inserts do so with a
`split_node` that insists on a full child and a parent with room. -/
theorem btreeDram_invariant (first : Key × Value) (rest : List (Key × Value)) :
    (∃ next, Trees.insert (guarded splitNode) updateIfFound () first.1 first.2 init = .ok (1, next) ∧
      insert first.1 first.2 init = .ok (1, next)) ∧
    ∃ store, backend.insertAll (first :: rest) init = .ok store ∧
      (∃ (depth : Nat) (tree : PtrTree (Key × Value) depth),
        store.root = label tree ∧ Rep kind store.heap tree ∧ (labels tree).Nodup ∧
        Shape kind.scheme 1 tree ∧
        ((contents kind.scheme tree).Pairwise fun low high => low.1 < high.1) ∧
        contents kind.scheme tree = upsertAll (first :: rest) [] ∧
        2 * BTREE_MIN_DEGREE ^ depth - 1 ≤ (contents kind.scheme tree).length) ∧
      (∀ key value, ∃ next,
        Trees.insert (guarded splitNode) updateIfFound () key value store = .ok (1, next) ∧
        insert key value store = .ok (1, next)) ∧
      ∀ key, ∃ slot, read key store = .ok (slot, store) := by
  refine ⟨insert_empty_guarded implements rfl first.1 first.2, ?_⟩
  obtain ⟨next, firstRan, shown⟩ :=
    implements.insert_first serves (show init.root = null from rfl) first.1 first.2
  obtain ⟨store, ran, shows⟩ :=
    (implements.represents serves).insertAll_from_first firstRan shown rest
  refine ⟨store, ran, ?_, insert_guarded implements shows, ?_⟩
  · obtain ⟨depth, tree, stores, contentsEq⟩ := shows
    refine ⟨depth, tree, stores.root, stores.holds.rep, stores.holds.nodup, stores.valid.shape,
      stores.valid.contents_ascending kind.lawful, contentsEq, ?_⟩
    have size : (1 + 1) * BTREE_MIN_DEGREE ^ depth ≤ (trace tree).length + 1 :=
      length_trace_ge kind.lawful stores.valid.shape
    rw [length_contents]
    omega
  · obtain ⟨depth, tree, stores, _⟩ := shows
    intro key
    obtain ⟨slot, slotRan, _⟩ := search_lookup implements.searches stores key
    exact ⟨slot, (read_eq key stores.root_ne_null).trans slotRan⟩

end StoredsBench.BTreeDram
