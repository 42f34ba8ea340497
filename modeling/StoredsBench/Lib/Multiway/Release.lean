/-
Module: StoredsBench.Lib.Multiway.Release
Layer: Lib
Purpose: The recursion that frees a tree of nodes: a leaf is freed in a way of its own, an inner node is
  read again before each of its children is freed, and freed itself after them.  Leaves that are linked
  to one another are freed from left to right, and an invariant says how the remaining ones are linked.
Trusted boundary: human-reviewed spec
Main exports: Branching, recursiveFree, Branches, Clears, FreesLeaves, FreesTree,
  recursiveFree_ok, LinkedLeaves
-/
import StoredsBench.Lib.Release
import StoredsBench.Lib.Multiway.Labels

namespace StoredsBench.Lib

/-- How nodes branch: whether one is a leaf, how many children it has, how many it has room for, and the
child at an index. -/
structure Branching (N : Type) where
  isLeaf : N → Bool
  count : N → Nat
  capacity : Nat
  child : N → Nat → Except Fault Ptr

namespace Branching

variable {N X : Type} (branching : Branching N)

/-- `for (; index < count; index += 1) free(children[index]);`, which reads the node in every round.  The
rounds beyond the array of children would read outside of it. -/
def freeChildren (freeChild : Ptr → Prog N X Unit) (node : Ptr) : (rounds index : Nat) → Prog N X Unit
  | 0, _ => Prog.fault .outOfBounds
  | rounds + 1, index => do
      let contents ← Prog.load node
      if index < branching.count contents then
        let child ← Prog.lift (branching.child contents index)
        freeChild child
        freeChildren freeChild node rounds (index + 1)
      else return ()

/-- The recursion over the nodes. -/
def recursiveFree (freeLeaf : Ptr → Prog N X Unit) : (fuel : Nat) → Ptr → Prog N X Unit
  | 0, _ => Prog.fault .diverged
  | fuel + 1, node => do
      let contents ← Prog.load node
      if branching.isLeaf contents then freeLeaf node
      else
        branching.freeChildren (recursiveFree freeLeaf fuel) node (branching.capacity + 1) 0
        Prog.free node

/-- Nodes that branch in the same way. -/
structure Alike (node other : N) : Prop where
  isLeaf : branching.isLeaf other = branching.isLeaf node
  count : branching.count other = branching.count node
  child : branching.child other = branching.child node

/-- The objects at these addresses are gone, and the others still branch as they did. -/
structure Clears (before after : Heap N) (gone : List Ptr) : Prop where
  freed : ∀ address ∈ gone, after.get? address = none
  kept : ∀ address, address ∉ gone → ∀ node, before.get? address = some node →
    ∃ other, after.get? address = some other ∧ branching.Alike node other
  dead : ∀ address, before.get? address = none → after.get? address = none

end Branching

open Multiway

namespace Branching

variable {N X I E : Type} {branching : Branching N}

theorem Alike.refl (node : N) : branching.Alike node node := ⟨rfl, rfl, rfl⟩

theorem Alike.trans {first second third : N} (earlier : branching.Alike first second)
    (later : branching.Alike second third) : branching.Alike first third :=
  ⟨later.isLeaf.trans earlier.isLeaf, later.count.trans earlier.count, later.child.trans earlier.child⟩

namespace Clears

variable {first second third : Heap N} {earlier later : List Ptr}

theorem nil (heap : Heap N) : branching.Clears heap heap [] where
  freed := by
    intro address member
    cases member
  kept := fun address _ node live => ⟨node, live, Alike.refl node⟩
  dead := fun _ dead => dead

theorem trans (firstClears : branching.Clears first second earlier)
    (thenClears : branching.Clears second third later) :
    branching.Clears first third (earlier ++ later) where
  freed := by
    intro address member
    rcases List.mem_append.mp member with inEarlier | inLater
    · exact thenClears.dead address (firstClears.freed address inEarlier)
    · exact thenClears.freed address inLater
  kept := by
    intro address outside node live
    rw [List.mem_append, not_or] at outside
    obtain ⟨middle, middleLive, alike⟩ := firstClears.kept address outside.1 node live
    obtain ⟨other, otherLive, stillAlike⟩ := thenClears.kept address outside.2 middle middleLive
    exact ⟨other, otherLive, alike.trans stillAlike⟩
  dead := fun address dead => thenClears.dead address (firstClears.dead address dead)

/-- The order of the addresses does not matter. -/
theorem perm (clears : branching.Clears first second earlier) (same : earlier.Perm later) :
    branching.Clears first second later where
  freed := fun address member => clears.freed address (same.mem_iff.mpr member)
  kept := fun address outside => clears.kept address fun member => outside (same.mem_iff.mp member)
  dead := clears.dead

/-- One object freed. -/
theorem erase {heap : Heap N} {address : Ptr} {node : N} (live : heap.get? address = some node) :
    branching.Clears heap (heap.erase address) [address] where
  freed := by
    intro other member
    obtain rfl := List.mem_singleton.mp member
    rw [Heap.get?_erase live, if_pos rfl]
  kept := by
    intro other outside object objectLive
    rw [List.mem_singleton] at outside
    refine ⟨object, ?_, Alike.refl object⟩
    rw [Heap.get?_erase live, if_neg outside, objectLive]
  dead := by
    intro other dead
    rw [Heap.get?_erase live, dead, ite_self]

/-- A node changed in what does not concern the branching. -/
theorem set {heap : Heap N} {address : Ptr} {node changed : N} (live : heap.get? address = some node)
    (alike : branching.Alike node changed) : branching.Clears heap (heap.set address changed) [] where
  freed := by
    intro other member
    cases member
  kept := by
    intro other _ object objectLive
    rw [Heap.get?_set live]
    by_cases same : other = address
    · subst same
      obtain rfl := Option.some.inj (live.symm.trans objectLive)
      exact ⟨changed, if_pos rfl, alike⟩
    · rw [if_neg same]
      exact ⟨object, objectLive, Alike.refl object⟩
  dead := by
    intro other dead
    have different : other ≠ address := by
      rintro rfl
      cases live.symm.trans dead
    rw [Heap.get?_set live, if_neg different, dead]

/-- Nothing is left of a heap whose objects are all gone. -/
theorem not_live (clears : branching.Clears first second earlier)
    (all : ∀ address, first.Live address → address ∈ earlier) (address : Ptr) :
    ¬ second.Live address := by
  rw [Heap.not_live_iff]
  by_cases live : first.Live address
  · exact clears.freed address (all address live)
  · exact clears.dead address (Heap.not_live_iff.mp live)

end Clears

variable (branching) in
/-- The heap branches at the labels of a tree as the tree does. -/
def Branches (heap : Heap N) : {depth : Nat} → Tree Nat I E depth → Prop
  | 0, leaf => ∃ node, heap.get? leaf.label = some node ∧ branching.isLeaf node = true
  | _ + 1, tree =>
      (∃ node, heap.get? tree.label = some node ∧ branching.isLeaf node = false ∧
        branching.count node = tree.children.length ∧ tree.children.length ≤ branching.capacity ∧
        ∀ index child, tree.children[index]? = some child →
          branching.child node index = .ok (label child)) ∧
      ∀ child ∈ tree.children, Branches heap child

/-- A tree none of whose nodes is gone. -/
theorem Branches.cleared {before after : Heap N} {gone : List Ptr}
    (clears : branching.Clears before after gone) :
    ∀ {depth : Nat} {tree : Tree Nat I E depth}, branching.Branches before tree →
      (∀ address ∈ labels tree, address ∉ gone) → branching.Branches after tree
  | 0, leaf, branches, apart => by
      obtain ⟨node, live, isLeaf⟩ := branches
      obtain ⟨other, otherLive, alike⟩ := clears.kept _ (apart _ (label_mem_labels leaf)) node live
      exact ⟨other, otherLive, alike.isLeaf.trans isLeaf⟩
  | depth + 1, tree, branches, apart => by
      obtain ⟨⟨node, live, inner, count, room, children⟩, below⟩ := branches
      obtain ⟨other, otherLive, alike⟩ := clears.kept _ (apart _ (label_mem_labels tree)) node live
      refine ⟨⟨other, otherLive, alike.isLeaf.trans inner, alike.count.trans count, room, ?_⟩, ?_⟩
      · intro index child found
        rw [alike.child]
        exact children index child found
      · intro child member
        apply (below child member).cleared clears
        intro address inChild
        exact apart address (List.mem_cons_of_mem _ (List.mem_flatMap.mpr ⟨child, member, inChild⟩))

theorem Branches.root {heap : Heap N} : ∀ {depth : Nat} {tree : Tree Nat I E depth},
    branching.Branches heap tree → ∃ node, heap.get? (label tree) = some node
  | 0, _, branches => by
      obtain ⟨node, live, _⟩ := branches
      exact ⟨node, live⟩
  | _ + 1, _, branches => by
      obtain ⟨⟨node, live, _⟩, _⟩ := branches
      exact ⟨node, live⟩

theorem Branches.leaf_of_mem {heap : Heap N} {address : Ptr} :
    ∀ {depth : Nat} {tree : Tree Nat I E depth}, branching.Branches heap tree →
      address ∈ leafLabels tree → ∃ node, heap.get? address = some node ∧ branching.isLeaf node = true
  | 0, leaf, branches, member => by
      obtain rfl : address = leaf.label := List.mem_singleton.mp member
      exact branches
  | depth + 1, tree, branches, member => by
      rw [leafLabels_node] at member
      obtain ⟨child, childMember, inChild⟩ := List.mem_flatMap.mp member
      exact (branches.2 child childMember).leaf_of_mem inChild

/-- Leaves are freed in order: `linked leaves` says how the remaining ones are linked, which freeing the
first of them keeps, and freeing an inner node as well. -/
structure FreesLeaves (branching : Branching N) (freeLeaf : Ptr → Prog N X Unit)
    (linked : List Ptr → Store N X → Prop) : Prop where
  leaf : ∀ {store : Store N X} {address : Ptr} {rest : List Ptr} {node : N},
    linked (address :: rest) store → store.heap.get? address = some node →
    branching.isLeaf node = true →
    ∃ after, freeLeaf address store = .ok ((), after) ∧ linked rest after ∧ after.root = store.root ∧
      branching.Clears store.heap after.heap [address]
  inner : ∀ {store : Store N X} {address : Ptr} {leaves : List Ptr} {node : N},
    linked leaves store → store.heap.get? address = some node → branching.isLeaf node = false →
    linked leaves { store with heap := store.heap.erase address }

/-- The program frees the nodes of a tree, its leaves before those that follow them. -/
def FreesTree (branching : Branching N) (freeTree : Ptr → Prog N X Unit)
    (linked : List Ptr → Store N X → Prop) {depth : Nat} (tree : Tree Nat I E depth) : Prop :=
  ∀ ⦃store : Store N X⦄ ⦃rest : List Ptr⦄, branching.Branches store.heap tree → (labels tree).Nodup →
    linked (leafLabels tree ++ rest) store →
    ∃ after, freeTree (label tree) store = .ok ((), after) ∧ linked rest after ∧
      after.root = store.root ∧ branching.Clears store.heap after.heap (labels tree)

section Freeing

variable {freeLeaf : Ptr → Prog N X Unit} {linked : List Ptr → Store N X → Prop}

/-- The loop over the children that are left, when each of them is freed. -/
theorem freeChildren_ok {depth : Nat} {freeChild : Ptr → Prog N X Unit} {parent : Ptr} {contents : N}
    {children : List (Tree Nat I E depth)} {rest : List Ptr}
    (frees : ∀ child ∈ children, branching.FreesTree freeChild linked child)
    {store : Store N X} {index rounds : Nat}
    (live : store.heap.get? parent = some contents)
    (outside : parent ∉ children.flatMap labels)
    (count : branching.count contents = index + children.length)
    (pointers : ∀ place child, children[place]? = some child →
      branching.child contents (index + place) = .ok (label child))
    (branches : ∀ child ∈ children, branching.Branches store.heap child)
    (distinct : (children.flatMap labels).Nodup)
    (holds : linked (children.flatMap leafLabels ++ rest) store) (enough : children.length < rounds) :
    ∃ after, branching.freeChildren freeChild parent rounds index store = .ok ((), after) ∧
      linked rest after ∧ after.root = store.root ∧
      branching.Clears store.heap after.heap (children.flatMap labels) := by
  induction children generalizing store contents index rounds with
  | nil =>
      obtain ⟨rounds, rfl⟩ := Nat.exists_eq_succ_of_ne_zero (Nat.ne_of_gt enough)
      refine ⟨store, ?_, holds, rfl, Clears.nil _⟩
      rw [freeChildren, bind_ok (Prog.load_ok live), if_neg (by rw [count]; exact Nat.lt_irrefl _)]
      rfl
  | cons child children inductionHypothesis =>
      obtain ⟨rounds, rfl⟩ := Nat.exists_eq_succ_of_ne_zero (Nat.ne_of_gt (Nat.zero_lt_of_lt enough))
      rw [List.flatMap_cons] at outside distinct
      rw [List.flatMap_cons, List.append_assoc] at holds
      rw [List.mem_append, not_or] at outside
      obtain ⟨childDistinct, restDistinct, apart⟩ := List.nodup_append.mp distinct
      have pointer : branching.child contents index = .ok (label child) := pointers 0 child rfl
      obtain ⟨freed, childRan, freedHolds, freedRoot, clears⟩ := frees child List.mem_cons_self
        (branches child List.mem_cons_self) childDistinct holds
      obtain ⟨other, otherLive, alike⟩ := clears.kept parent outside.1 contents live
      have restCount : branching.count other = index + 1 + children.length := by
        rw [alike.count, count, List.length_cons]
        omega
      have restPointers : ∀ place sibling, children[place]? = some sibling →
          branching.child other (index + 1 + place) = .ok (label sibling) := by
        intro place sibling found
        rw [alike.child, Nat.add_assoc, Nat.add_comm 1 place]
        exact pointers (place + 1) sibling found
      have restBranches : ∀ sibling ∈ children, branching.Branches freed.heap sibling := by
        intro sibling member
        apply (branches sibling (List.mem_cons_of_mem _ member)).cleared clears
        intro address inSibling inChild
        exact apart address inChild address (List.mem_flatMap.mpr ⟨sibling, member, inSibling⟩) rfl
      obtain ⟨after, ran, afterHolds, afterRoot, restClears⟩ := inductionHypothesis
        (fun sibling member => frees sibling (List.mem_cons_of_mem _ member)) otherLive outside.2
        restCount restPointers restBranches restDistinct freedHolds (Nat.lt_of_succ_lt_succ enough)
      have more : index < branching.count contents := by
        rw [count, List.length_cons]
        omega
      refine ⟨after, ?_, afterHolds, afterRoot.trans freedRoot, clears.trans restClears⟩
      rw [freeChildren, bind_ok (Prog.load_ok live), if_pos more, bind_ok (Prog.lift_ok pointer store),
        bind_ok childRan, ran]

/-- The recursion frees a tree that is not deeper than its bound. -/
theorem recursiveFree_ok (frees : FreesLeaves branching freeLeaf linked) :
    ∀ {depth fuel : Nat} {tree : Tree Nat I E depth}, depth < fuel →
      branching.FreesTree (branching.recursiveFree freeLeaf fuel) linked tree
  | 0, fuel + 1, leaf, _, store, rest, branches, _, holds => by
      obtain ⟨node, live, isLeaf⟩ := branches
      obtain ⟨after, ran, afterHolds, root, clears⟩ := frees.leaf holds live isLeaf
      have nodeLive : store.heap.get? (label leaf) = some node := live
      refine ⟨after, ?_, afterHolds, root, clears⟩
      rw [recursiveFree, bind_ok (Prog.load_ok nodeLive), if_pos isLeaf]
      exact ran
  | depth + 1, fuel + 1, tree, enough, store, rest, branches, distinct, holds => by
      obtain ⟨⟨node, live, inner, count, room, children⟩, below⟩ := branches
      obtain ⟨outside, restDistinct⟩ := List.nodup_cons.mp distinct
      rw [leafLabels_node] at holds
      have freesChild : ∀ child ∈ tree.children,
          branching.FreesTree (branching.recursiveFree freeLeaf fuel) linked child :=
        fun child _ => recursiveFree_ok frees (Nat.lt_of_succ_lt_succ enough)
      have pointers : ∀ place child, tree.children[place]? = some child →
          branching.child node (0 + place) = .ok (label child) := by
        intro place child found
        rw [Nat.zero_add]
        exact children place child found
      obtain ⟨freed, ran, freedHolds, freedRoot, clears⟩ := freeChildren_ok freesChild live outside
        (by rw [count, Nat.zero_add]) pointers below restDistinct holds (Nat.lt_succ_of_le room)
      obtain ⟨other, otherLive, alike⟩ := clears.kept tree.label outside node live
      have stillInner : branching.isLeaf other = false := alike.isLeaf.trans inner
      have nodeLive : store.heap.get? (label tree) = some node := live
      refine ⟨{ freed with heap := freed.heap.erase tree.label }, ?_,
        frees.inner freedHolds otherLive stillInner, freedRoot, ?_⟩
      · rw [recursiveFree, bind_ok (Prog.load_ok nodeLive), inner, if_neg Bool.false_ne_true]
        exact (bind_ok ran).trans (Prog.free_ok otherLive)
      · apply (clears.trans (Clears.erase otherLive)).perm
        exact List.perm_append_comm

end Freeing

/-! ### Linked leaves -/

/-- The listed objects are linked, and they are leaves. -/
structure LinkedLeaves (branching : Branching N) (linking : Linking N) (heap : Heap N)
    (leaves : List Ptr) : Prop where
  listed : linking.Listed heap leaves
  areLeaves : ∀ address ∈ leaves, ∃ node, heap.get? address = some node ∧ branching.isLeaf node = true

namespace LinkedLeaves

variable {linking : Linking N}

/-- An object that is not listed is freed. -/
theorem erase {heap : Heap N} {leaves : List Ptr} {address : Ptr} {node : N}
    (holds : LinkedLeaves branching linking heap leaves) (live : heap.get? address = some node)
    (unlisted : address ∉ leaves) : LinkedLeaves branching linking (heap.erase address) leaves := by
  have apart : ∀ leaf ∈ leaves, (heap.erase address).get? leaf = heap.get? leaf := by
    intro leaf member
    rw [Heap.get?_erase live, if_neg (fun same : leaf = address => unlisted (same ▸ member))]
  constructor
  · exact holds.listed.congr apart
  · intro leaf member
    rw [apart leaf member]
    exact holds.areLeaves leaf member

/-- Freeing an inner node touches no leaf. -/
theorem inner {heap : Heap N} {leaves : List Ptr} {address : Ptr} {node : N}
    (holds : LinkedLeaves branching linking heap leaves) (live : heap.get? address = some node)
    (isInner : branching.isLeaf node = false) :
    LinkedLeaves branching linking (heap.erase address) leaves := by
  apply holds.erase live
  intro member
  obtain ⟨other, otherLive, isLeaf⟩ := holds.areLeaves address member
  obtain rfl := Option.some.inj (live.symm.trans otherLive)
  rw [isLeaf] at isInner
  cases isInner

/-- The first leaf is unlinked, and the nodes branch as before. -/
theorem unlink_ok {store : Store N X} {first : Ptr} {rest : List Ptr}
    (holds : LinkedLeaves branching linking store.heap (first :: rest))
    (alike : ∀ address node, branching.Alike node (linking.setPrevious address node)) :
    ∃ heap, linking.unlink first store = .ok ((), { store with heap := heap }) ∧
      LinkedLeaves branching linking heap rest ∧ heap.get? first = store.heap.get? first ∧
      branching.Clears store.heap heap [] ∧
      ∀ address node, store.heap.get? address = some node →
        heap.get? address = some node ∨ heap.get? address = some (linking.setPrevious null node) := by
  obtain ⟨heap, ran, listed, same, changed⟩ := Linking.unlink_ok holds.listed
  have clears : branching.Clears store.heap heap [] := by
    rcases changed with rfl | ⟨second, object, _, live, rfl⟩
    · exact Clears.nil _
    · exact Clears.set live (alike null object)
  refine ⟨heap, ran, ⟨listed, ?_⟩, same, clears, ?_⟩
  · intro address member
    obtain ⟨node, live, isLeaf⟩ := holds.areLeaves address (List.mem_cons_of_mem _ member)
    obtain ⟨other, otherLive, otherAlike⟩ := clears.kept address List.not_mem_nil node live
    exact ⟨other, otherLive, otherAlike.isLeaf.trans isLeaf⟩
  · intro address node live
    rcases changed with rfl | ⟨second, object, _, secondLive, rfl⟩
    · exact Or.inl live
    · rw [Heap.get?_set secondLive]
      by_cases isSecond : address = second
      · subst isSecond
        obtain rfl := Option.some.inj (live.symm.trans secondLive)
        exact Or.inr (if_pos rfl)
      · exact Or.inl ((if_neg isSecond).trans live)

end LinkedLeaves

end Branching

end StoredsBench.Lib
