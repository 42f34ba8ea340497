/-
Module: StoredsBench.Trees.Destroy
Layer: Refinement
Purpose: Inserts allocate nothing but the nodes of the tree they leave, so that freeing these nodes frees
  all of the heap.
Trusted boundary: none
Main exports: Whole, Whole.mem_of_bounds, Whole.mem_labels, Stores.contents_eq,
  StoresWhole, StoresWhole.first, StoresWhole.insert
-/
import StoredsBench.Trees.Map
import StoredsBench.Lib.Multiway.Release

namespace StoredsBench

open Lib Lib.Multiway Lib.SortedAssoc

namespace Trees

variable {t : Nat} {X I : Type} {kind : Kind t I} {chain : LeafChain X}

/-- Nothing was allocated but the nodes of the tree. -/
def Whole (store : Store (Node t X) Unit) {depth : Nat} (tree : PtrTree I depth) : Prop :=
  store.heap.size = (labels tree).length

/-- As many distinct addresses as were allocated are all of them. -/
theorem Whole.mem_of_bounds {store : Store (Node t X) Unit} {depth : Nat} {tree : PtrTree I depth}
    (whole : Whole store tree) (holds : Holds kind chain store [] [] tree) {address : Nat}
    (bounds : 0 < address ∧ address ≤ store.heap.size) : address ∈ labels tree := by
  have inRange : labels tree ⊆ List.range' 1 store.heap.size := by
    intro label member
    have limits := holds.rep.bounds label member
    rw [List.mem_range'_1]
    omega
  have all : (labels tree).Perm (List.range' 1 store.heap.size) := by
    apply (holds.nodup.subperm inRange).perm_of_length_le
    rw [List.length_range', whole]
  rw [all.mem_iff, List.mem_range'_1]
  omega

theorem Whole.mem_labels {store : Store (Node t X) Unit} {depth : Nat} {tree : PtrTree I depth}
    (whole : Whole store tree) (holds : Holds kind chain store [] [] tree) {address : Nat}
    (live : store.heap.Live address) : address ∈ labels tree := by
  obtain ⟨node, found⟩ := live
  exact whole.mem_of_bounds holds (Heap.bounds_of_get? found)

/-- A store holds one map. -/
theorem Stores.contents_eq {search : Nat → Ptr → Key → TreeProg t X (Option SlotRef)}
    (searches : SearchRefines kind search) {store : Store (Node t X) Unit} {depth height : Nat}
    {tree : PtrTree I depth} {other : PtrTree I height} (stores : Stores kind chain store tree)
    (storesOther : Stores kind chain store other) :
    contents kind.scheme tree = contents kind.scheme other := by
  have sorted : ∀ {depth : Nat} {tree : PtrTree I depth}, Stores kind chain store tree →
      Sorted (contents kind.scheme tree) := by
    intro depth tree stores
    have ascending := stores.valid.contents_ascending kind.lawful
    rwa [kind.entryKey_eq] at ascending
  apply sorted_ext (sorted stores) (sorted storesOther)
  intro key
  obtain ⟨slot, ran, read⟩ := search_lookup searches stores key
  obtain ⟨slotOther, ranOther, readOther⟩ := search_lookup searches storesOther key
  cases ran.symm.trans ranOther
  exact Except.ok.inj (read.symm.trans readOther)

/-- The store holds a tree, and nothing was allocated but its nodes. -/
def StoresWhole (kind : Kind t I) (chain : LeafChain X) (store : Store (Node t X) Unit) : Prop :=
  ∃ (depth : Nat) (tree : PtrTree I depth), Stores kind chain store tree ∧ Whole store tree

section Inserting

variable {splitNode : Nat → Ptr → Ptr → TreeProg t X Unit}
  {search : Nat → Ptr → Key → TreeProg t X (Option SlotRef)}
  {updateIfFound : Nat → Ptr → Key → Value → TreeProg t X Bool} {blank : X}
  {store : Store (Node t X) Unit}

/-- The first insert allocates the root. -/
theorem StoresWhole.first (implements : Implements kind chain splitNode search updateIfFound blank)
    (empty : store.root = null) (nothing : store.heap.size = 0) (key : Key) (value : Value) :
    ∃ next, insert splitNode updateIfFound blank key value store = .ok (1, next) ∧
      StoresWhole kind chain next := by
  obtain ⟨next, ran, stores, size⟩ := insert_empty implements empty key value
  refine ⟨next, ran, 0, _, stores, ?_⟩
  rw [Whole, size, nothing]
  rfl

/-- Every other insert allocates the nodes that the tree has more than before. -/
theorem StoresWhole.insert (start : StoresWhole kind chain store)
    (implements : Implements kind chain splitNode search updateIfFound blank) (key : Key) (value : Value) :
    ∃ next, insert splitNode updateIfFound blank key value store = .ok (1, next) ∧
      StoresWhole kind chain next := by
  obtain ⟨depth, tree, stores, whole⟩ := start
  obtain ⟨next, ran, height, grown, storesGrown, -, allocated⟩ := insert_becomes implements stores key value
  refine ⟨next, ran, height, grown, storesGrown, ?_⟩
  rw [Whole] at whole ⊢
  omega

end Inserting

end Trees

end StoredsBench
