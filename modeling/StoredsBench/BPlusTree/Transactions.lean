/-
Module: StoredsBench.BPlusTree.Transactions
Layer: Correctness
Purpose: What a crash within an insert or an update leaves of a `BPlusTreePmemTx`, its leaf
  chain included.
Trusted boundary: none
Main exports: bPlusTreePmemTx_insert_atomic, bPlusTreePmemTx_update_atomic_iff
-/
import StoredsBench.BPlusTree.PmemRefinement
import StoredsBench.Trees.Updates

namespace StoredsBench.BPlusTreePmemTx

open Lib Lib.SortedAssoc Trees BPlusTreePmem
open BPlusTreeDram (kind chain Links)

variable (garbage : Ptr → Node BPLUSTREE_MIN_DEGREE Links) (behindRoot : Place → Bool)

section Logging

variable {covered : Place → Bool}

theorem logs_linkHalves {child sibling : Ptr} (ownChild : Covered covered child)
    (ownSibling : Covered covered sibling) :
    Logs readTree covered (do
        storeNode child fun node => .ok { node with links := { node.links with next := sibling } }
        storeNode sibling fun node => .ok { node with links := { node.links with previous := child } } :
          BPlusTreePmem.M Unit)
      fun _ more => more = covered := by
  apply (logs_storeNode _ ownChild).bind
  rintro _ _ rfl
  exact logs_storeNode _ ownSibling

/-- The chain pointers of the two halves and of the right neighbour are covered. -/
theorem logs_linkSibling {child sibling : Ptr} (ownChild : Covered covered child)
    (ownSibling : Covered covered sibling) :
    Logs readTree covered (linkSibling (pool garbage behindRoot) child sibling)
      fun _ more => Extends covered more := by
  apply (EffectLogic.Holds.load child fun _ => rfl).bind
  rintro childContents covered rfl
  apply (logs_storeNode _ ownSibling).bind
  rintro _ covered rfl
  apply (EffectLogic.Holds.load sibling fun _ => rfl).bind
  rintro siblingContents covered rfl
  apply EffectLogic.Holds.branch
  · intro _
    apply (logs_range rfl _).bind
    rintro _ more ⟨grows, ownNext⟩
    apply (logs_storeNode _ ownNext).bind
    rintro _ more rfl
    apply (logs_persist rfl _).bind
    rintro _ more rfl
    apply (logs_linkHalves (ownChild.trans grows) (ownSibling.trans grows)).weaken
    rintro _ more rfl
    exact grows
  · intro _
    apply (logs_linkHalves ownChild ownSibling).weaken
    rintro _ more rfl
    exact Extends.refl more

theorem logs_splitLeafNode (index : Nat) {parent : Ptr} (child : Ptr) (covers : Covered covered parent) :
    Logs readTree covered (splitLeafNode (pool garbage behindRoot) index parent child)
      fun _ more => Extends covered more := by
  apply (EffectLogic.Holds.load child fun _ => rfl).bind
  rintro childContents _ rfl
  apply (logs_createNode _ _).bind
  intro sibling one ⟨first, ownSibling⟩
  apply (logs_range rfl _).bind
  intro _ two ⟨second, ownChild⟩
  apply (logs_range rfl _).bind
  intro _ three ⟨third, _⟩
  apply (logs_storeNode _ (ownSibling.trans (second.trans third))).bind
  rintro _ _ rfl
  apply (logs_storeNode _ (ownChild.trans third)).bind
  rintro _ _ rfl
  apply (EffectLogic.Holds.load sibling fun _ => rfl).bind
  rintro _ _ rfl
  have grows := first.trans (second.trans third)
  apply (logs_storeNode _ (covers.trans grows)).bind
  rintro _ _ rfl
  apply (logs_linkSibling garbage behindRoot (ownChild.trans third)
    (ownSibling.trans (second.trans third))).bind
  intro _ four fourth
  apply (logs_persist rfl _).bind
  rintro _ _ rfl
  apply (logs_persist rfl _).bind
  rintro _ _ rfl
  apply (logs_persist rfl _).weaken
  rintro _ _ rfl
  exact grows.trans fourth

theorem logs_splitNode : SplitLogs (splitNode (pool garbage behindRoot)) := by
  intro covered index parent child covers
  apply (EffectLogic.Holds.load child fun _ => rfl).bind
  rintro contents _ rfl
  apply EffectLogic.Holds.branch
  · intro _
    exact logs_splitLeafNode garbage behindRoot index child covers
  · intro _
    exact logs_splitMiddle rfl _ _ index child covers

end Logging

theorem splitLeafNode_begins {index : Nat} {parent child : Ptr} {store final : BPlusTreePmem}
    (ran : splitLeafNode (pool garbage behindRoot) index parent child store = .ok ((), final)) :
    BeginsGrafting (pool garbage behindRoot) index parent child store final := by
  obtain ⟨contents, loaded, loadRan, rest⟩ := bind_ok_inv ran
  obtain rfl := Reading.load _ loadRan
  refine ⟨contents.isLeaf, Links.null, fun node => do
      let entries ← CArray.copyFrom contents.entries (BPLUSTREE_MIN_DEGREE - 1)
        BPLUSTREE_MIN_DEGREE node.entries
      return { node with nk := BPLUSTREE_MIN_DEGREE, entries := entries },
    fun node => .ok { node with nk := BPLUSTREE_MIN_DEGREE - 1 }, fun sibling => sibling,
    fun contents entries => do
      let first ← contents.entries.get 0
      setKey entries index first.key,
    fun sibling => do
      linkSibling (pool garbage behindRoot) child sibling
      (pool garbage behindRoot).mode.persist (wholeNode sibling)
      (pool garbage behindRoot).mode.persist (wholeNode child)
      (pool garbage behindRoot).mode.persist (wholeNode parent), ?_, ?_⟩
  · rw [← rest, Pool.graftSibling]
    simp only [bind_assoc, pure_bind]
  · intro sibling
    apply (logs_linkSibling garbage behindRoot (fun _ _ => rfl) fun _ _ => rfl).bind
    intro _ more _
    apply (logs_persist rfl _).bind
    rintro _ _ rfl
    apply (logs_persist rfl _).bind
    rintro _ _ rfl
    exact (logs_persist rfl _).weaken fun _ _ _ => trivial

theorem splitNode_grafts : SplitGrafts (splitNode (pool garbage behindRoot)) := by
  apply SplitGrafts.of_graftSibling (show (pool garbage behindRoot).mode = .transactional from rfl)
  intro index parent child store final ran
  obtain ⟨contents, loaded, loadRan, splitRan⟩ := bind_ok_inv ran
  obtain rfl := Reading.load _ loadRan
  split at splitRan
  · exact splitLeafNode_begins garbage behindRoot splitRan
  · exact splitMiddle_begins rfl splitRan

/-- On durable memory `BPlusTreePmemTx::insert` of a new key is failure-atomic, with the chain through the
leaves, where the root is full or the child of the root on the way to the key has room.  Where it has to
change the root node it is not: the range it snapshots for the root is that of the pool's root object. -/
theorem bPlusTreePmemTx_insert_atomic (pairs : List (Key × Value)) (key : Key) (value : Value)
    (absent : key ∉ pairs.map Prod.fst) :
    ∃ started store final, init (pool garbage behindRoot) newPool = .ok ((), started) ∧
      (backend (pool garbage behindRoot)).insertAll pairs started = .ok store ∧
      (backend (pool garbage behindRoot)).insert key value store = .ok final ∧
      (sparesRoot (memory store) key = true → InsertAtomic kind chain store final (upsertAll pairs [])
        (upsert key value (upsertAll pairs []))) ∧
      (sparesRoot (memory store) key = false → (∀ field, behindRoot (.node store.root field) = false) →
        ¬ InsertAtomic kind chain store final (upsertAll pairs [])
          (upsert key value (upsertAll pairs []))) :=
  run_atomic BPlusTreeDram.implements solid (pmemImplements (pool garbage behindRoot))
    (pmemServes (pool garbage behindRoot)) rfl (logs_splitNode garbage behindRoot)
    (splitNode_grafts garbage behindRoot) pairs key value absent

/-- What a new node may hold. -/
def blank (_ : Ptr) : Node BPLUSTREE_MIN_DEGREE Links :=
  { isLeaf := true, nk := 0, entries := CArray.unwritten _ _, children := CArray.unwritten _ _, links := Links.null }

theorem bPlusTreePmemTx_insert_atomic_second :
    ∃ value : Value, ∃ started store final,
      init (pool blank fun _ => false) newPool = .ok ((), started) ∧
      (backend (pool blank fun _ => false)).insertAll [(2, value)] started = .ok store ∧
      (backend (pool blank fun _ => false)).insert 1 value store = .ok final ∧
      (sparesRoot (memory store) 1 = true →
        InsertAtomic kind chain store final [(2, value)] [(1, value), (2, value)]) ∧
      (sparesRoot (memory store) 1 = false → (∀ field, (fun _ => false) (Place.node store.root field) = false) →
        ¬ InsertAtomic kind chain store final [(2, value)] [(1, value), (2, value)]) :=
  ⟨⟨[97], by decide, by decide⟩, bPlusTreePmemTx_insert_atomic blank (fun _ => false)
    [(2, ⟨[97], by decide, by decide⟩)] 1 ⟨[97], by decide, by decide⟩ (by decide)⟩

theorem resets : kind.Resets := fun _ _ _ => rfl

/-- On durable memory `BPlusTreePmemTx::insert` of a stored key is failure-atomic exactly when the new value is
not longer than the stored one. -/
theorem bPlusTreePmemTx_update_atomic_iff (pairs : List (Key × Value)) (key : Key) (old value : Value)
    (stored : (upsertAll pairs []).lookup key = some old) :
    ∃ started store final, init (pool garbage behindRoot) newPool = .ok ((), started) ∧
      (backend (pool garbage behindRoot)).insertAll pairs started = .ok store ∧
      (backend (pool garbage behindRoot)).insert key value store = .ok final ∧
      (InsertAtomic kind chain store final (upsertAll pairs []) (upsert key value (upsertAll pairs [])) ↔
        value.chars.length ≤ old.chars.length) :=
  run_update_atomic_iff BPlusTreeDram.implements solid resets (pmemImplements (pool garbage behindRoot))
    (pmemServes (pool garbage behindRoot)) rfl pairs stored value

/-- A shorter value. -/
theorem bPlusTreePmemTx_update_atomic_shorter :
    ∃ old value : Value, ∃ started store final,
      init (pool blank fun _ => false) newPool = .ok ((), started) ∧
      (backend (pool blank fun _ => false)).insertAll [(1, old)] started = .ok store ∧
      (backend (pool blank fun _ => false)).insert 1 value store = .ok final ∧
      InsertAtomic kind chain store final [(1, old)] [(1, value)] := by
  obtain ⟨started, store, final, initRan, ran, insertRan, iff⟩ :=
    bPlusTreePmemTx_update_atomic_iff blank (fun _ => false) [(1, ⟨[97, 98], by decide, by decide⟩)] 1
      ⟨[97, 98], by decide, by decide⟩ ⟨[99], by decide, by decide⟩ rfl
  exact ⟨⟨[97, 98], by decide, by decide⟩, ⟨[99], by decide, by decide⟩, started, store, final, initRan, ran,
    insertRan, iff.mpr (by decide)⟩

end StoredsBench.BPlusTreePmemTx
