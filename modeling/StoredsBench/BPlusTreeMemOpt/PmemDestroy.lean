/-
Module: StoredsBench.BPlusTreeMemOpt.PmemDestroy
Layer: Correctness
Purpose: `destroy` of `bp_pmem.cc`.  The base case of the recursion frees the next leaf instead of taking
  the leaf out of the chain only, and the recursion reads that leaf afterwards.  A tree is torn down where
  its root is a leaf, and no other tree is.
Trusted boundary: human-reviewed spec for the definitions
Main exports: BPPmem.destroy, BPPmem.TornDown, BPPmem.bpPmem_torn_down_iff, BPPmem.bpPmem_not_torn_down
-/
import StoredsBench.BPlusTreeMemOpt.Destroy
import StoredsBench.BPlusTreeMemOpt.Pmem

namespace StoredsBench.BPPmem

open Lib Lib.Multiway Lib.SortedAssoc MemOpt BP
open BPDram (recordsAt holding_of_stands)

/-- What the base case of `recursive_free` does to the next leaf. -/
def freeNext (leaf : Ptr) : Frees Unit := do
  let contents ← Prog.load leaf
  if contents.next = null then return ()
  else
    Prog.modify contents.next fun node => .ok { node with previous := contents.previous }
    Prog.free contents.next
    Prog.modify leaf fun node => .ok { node with next := null }

/-- What it does to the previous leaf. -/
def freePrevious (leaf : Ptr) : Frees Unit := do
  let contents ← Prog.load leaf
  if contents.previous = null then return ()
  else
    Prog.modify contents.previous fun node => .ok { node with next := contents.next }
    Prog.free contents.previous
    Prog.modify leaf fun node => .ok { node with previous := null }

/-- The base case of `recursive_free`. -/
def freeLeaf (leaf : Ptr) : Frees Unit := do
  freeNext leaf
  freePrevious leaf
  freeRecords leaf (BP_MAX_CHILDREN + 1) 0
  Prog.free leaf

/-- `recursive_free`. -/
def recursiveFree : (fuel : Nat) → Ptr → Frees Unit
  | 0, _ => Prog.fault .diverged
  | fuel + 1, node => do
      let contents ← Prog.load node
      if contents.isLeaf then freeLeaf node
      else
        branching.freeChildren
          (fun child => if child = null then return () else recursiveFree fuel child) node
          (BP_MAX_CHILDREN + 1) 0
        Prog.free node

/-- `destroy`.  The root object is not one of the nodes, and `check` finds it behind `init`. -/
def destroy : Frees Unit := do
  let root ← Prog.getRoot
  let depthBound ← Prog.heapSize
  recursiveFree depthBound root
  Prog.setRoot null

/-- `destroy` runs without touching a freed object, and leaves no node and no record. -/
def TornDown (memory : Store Node (Heap Record)) : Prop :=
  ∃ ended, destroy memory = .ok ((), ended) ∧ (∀ address, ¬ ended.heap.Live address) ∧
    ∀ record, ¬ ended.aux.Live record

section Freeing

variable {owned : Ptr → List Ptr} {memory : Store Node (Heap Record)}

/-! ### A single leaf -/

/-- A leaf without neighbours is freed with its records. -/
theorem freeLeaf_alone {leaf : Ptr} (holding : Holding owned [leaf] memory) :
    ∃ after, freeLeaf leaf memory = .ok ((), after) ∧ Holding owned [] after ∧
      branching.Clears memory.heap after.heap [leaf] := by
  obtain ⟨_, backward, forward, _⟩ := holding.linked.listed
  obtain ⟨node, live, isFirst⟩ := Option.map_eq_some_iff.mp backward
  have isLast : node.next = null := by
    obtain ⟨same, sameLive, found⟩ := Option.map_eq_some_iff.mp forward
    obtain rfl := Option.some.inj (live.symm.trans sameLive)
    exact found
  have noNext : freeNext leaf memory = .ok ((), memory) := by
    rw [freeNext, bind_ok (Prog.load_ok live), if_pos isLast]
    rfl
  have noPrevious : freePrevious leaf memory = .ok ((), memory) := by
    rw [freePrevious, bind_ok (Prog.load_ok live), if_pos (show node.previous = null from isFirst)]
    rfl
  have linked : branching.LinkedLeaves linking memory.heap [] :=
    ⟨⟨List.nodup_nil, trivial⟩, fun address member => absurd member List.not_mem_nil⟩
  obtain ⟨after, ran, left, _, clears⟩ := holding.freeRecords linked holding.owns
  refine ⟨after, ?_, left, clears⟩
  rw [freeLeaf, bind_ok noNext, bind_ok noPrevious]
  exact ran

theorem destroy_alone {node : Node} (holding : Holding owned [memory.root] memory)
    (live : memory.heap.get? memory.root = some node) (isLeaf : node.isLeaf = true)
    (all : ∀ address, memory.heap.Live address → address = memory.root) : TornDown memory := by
  obtain ⟨after, ran, nothing, clears⟩ := freeLeaf_alone holding
  have some : memory.heap.size = memory.heap.size - 1 + 1 := by
    have bounds := Heap.bounds_of_get? live
    omega
  refine ⟨{ after with root := null }, ?_, ?_, ?_⟩
  · rw [destroy, bind_ok (Prog.getRoot_ok _), bind_ok (Prog.heapSize_ok _), some, recursiveFree,
      bind_ok ((bind_ok (Prog.load_ok live)).trans (by rw [if_pos isLeaf, ran]))]
    rfl
  · apply clears.not_live
    intro address addressLive
    exact List.mem_singleton.mpr (all address addressLive)
  · intro record recordLive
    cases (nothing.live record).mp recordLive

/-! ### Two leaves -/

/-- The first of several leaves takes the second one with it. -/
theorem freeLeaf_first {first second : Ptr} {rest : List Ptr}
    (holding : Holding owned (first :: second :: rest) memory) :
    ∃ after, freeLeaf first memory = .ok ((), after) ∧ after.heap.get? second = none ∧
      ∀ address, address ≠ first → address ≠ second → after.heap.get? address = memory.heap.get? address := by
  obtain ⟨distinct, backward, forward, secondBackward, _⟩ := holding.linked.listed
  have different : first ≠ second := fun same =>
    (List.nodup_cons.mp distinct).1 (same ▸ List.mem_cons_self)
  obtain ⟨node, live, isFirst⟩ := Option.map_eq_some_iff.mp backward
  obtain ⟨secondNode, secondLive, _⟩ := Option.map_eq_some_iff.mp secondBackward
  have isSecond : node.next = second := by
    obtain ⟨same, sameLive, found⟩ := Option.map_eq_some_iff.mp forward
    obtain rfl := Option.some.inj (live.symm.trans sameLive)
    exact found
  have noPrevious : node.previous = null := isFirst
  -- What the base case leaves before it comes to the records.
  let relinked := memory.heap.set second { secondNode with previous := null }
  let alone : Node := { node with next := null }
  have relinkedLive : relinked.get? second = some { secondNode with previous := null } := by
    rw [Heap.get?_set secondLive, if_pos rfl]
  have firstLive : (relinked.erase second).get? first = some node := by
    rw [Heap.get?_erase relinkedLive, if_neg different, Heap.get?_set secondLive, if_neg different, live]
  let between : Store Node (Heap Record) :=
    { memory with heap := (relinked.erase second).set first alone }
  have aloneLive : between.heap.get? first = some alone := by
    rw [Heap.get?_set firstLive, if_pos rfl]
  have others : ∀ address, address ≠ first → between.heap.get? address =
      if address = second then none else memory.heap.get? address := by
    intro address notFirst
    rw [Heap.get?_set firstLive, if_neg notFirst, Heap.get?_erase relinkedLive,
      Heap.get?_set secondLive]
    by_cases same : address = second
    · rw [if_pos same, if_pos same]
    · rw [if_neg same, if_neg same, if_neg same]
  have nextFreed : freeNext first memory = .ok ((), between) := by
    rw [freeNext, bind_ok (Prog.load_ok live), isSecond, if_neg (Heap.ne_null_of_get? secondLive),
      noPrevious, bind_ok (Prog.modify_pure_ok _ secondLive), bind_ok (Prog.free_ok relinkedLive)]
    exact Prog.modify_pure_ok _ firstLive
  have previousLeft : freePrevious first between = .ok ((), between) := by
    rw [freePrevious, bind_ok (Prog.load_ok aloneLive), if_pos (show alone.previous = null from noPrevious)]
    rfl
  have owns : Owns between.heap first (owned first) := by
    obtain ⟨leaf, leafLive, count, pointers⟩ := holding.owns first List.mem_cons_self
    obtain rfl := Option.some.inj (live.symm.trans leafLive)
    exact ⟨alone, aloneLive, count, pointers⟩
  have ownDistinct : (owned first).Nodup := (List.nodup_append.mp holding.distinct).1
  have ownLive : ∀ record ∈ owned first, between.aux.Live record := fun record member =>
    (holding.live record).mpr (List.mem_append_left _ member)
  obtain ⟨dropped, recordsRan, drops⟩ := owns.freeRecords ownDistinct ownLive
  obtain ⟨left, leftLive⟩ := drops.still
  have kept : ∀ address, address ≠ first → (dropped.heap.erase first).get? address =
      if address = second then none else memory.heap.get? address := by
    intro address notFirst
    rw [Heap.get?_erase leftLive, if_neg notFirst, drops.others address notFirst, others address notFirst]
  refine ⟨{ dropped with heap := dropped.heap.erase first }, ?_, ?_, ?_⟩
  · rw [freeLeaf, bind_ok nextFreed, bind_ok previousLeft, bind_ok recordsRan, Prog.free_ok leftLive]
  · rw [kept second different.symm, if_pos rfl]
  · intro address notFirst notSecond
    rw [kept address notFirst, if_neg notSecond]

/-! ### Inner roots -/

/-- The leftmost leaf takes its neighbour with it, which is the next child of their parent. -/
theorem recursiveFree_fails : ∀ {depth low fuel : Nat} {tree : Trees.PtrTree Key (depth + 1)}
    {rest : List Ptr}, depth + 1 < fuel → 0 < low → Shape BPlusTreeDram.kind.scheme low tree →
      branching.Branches memory.heap tree → (labels tree).Nodup →
      Holding owned (leafLabels tree ++ rest) memory →
      recursiveFree fuel (label tree) memory = .error .invalidPointer
  | depth, low, fuel + 2, tree, rest, deep, positive, shape, branches, distinct, holding => by
      obtain ⟨⟨contents, live, inner, count, _, children⟩, below⟩ := branches
      obtain ⟨⟨some, _⟩, more, shapes⟩ := shape
      obtain ⟨first, second, others, childrenEq⟩ : ∃ first second others,
          tree.children = first :: second :: others := by
        obtain ⟨first, later, childrenEq⟩ := List.exists_of_length_succ tree.children more
        rw [childrenEq, List.length_cons] at more
        obtain ⟨second, others, rfl⟩ := List.exists_cons_of_length_pos
          (show 0 < later.length by omega)
        exact ⟨first, second, others, childrenEq⟩
      have firstMember : first ∈ tree.children := childrenEq ▸ List.mem_cons_self
      have firstChild : branching.child contents 0 = .ok (label first) :=
        children 0 first (by rw [childrenEq]; rfl)
      have secondChild : branching.child contents 1 = .ok (label second) :=
        children 1 second (by rw [childrenEq]; rfl)
      have secondMember : second ∈ tree.children :=
        childrenEq ▸ List.mem_cons_of_mem _ List.mem_cons_self
      have notNull : ∀ child ∈ tree.children, label child ≠ null := by
        intro child member
        obtain ⟨node, childLive⟩ := (below child member).root
        exact Heap.ne_null_of_get? childLive
      obtain ⟨outside, belowDistinct⟩ := List.nodup_cons.mp distinct
      have apart : ∀ child ∈ tree.children, label tree ≠ label child := by
        intro child member same
        have inChild : label tree ∈ labels child := by
          rw [same]
          exact label_mem_labels child
        exact outside (List.mem_flatMap.mpr ⟨child, member, inChild⟩)
      have firstDistinct : (labels first).Nodup := by
        rw [childrenEq, List.flatMap_cons] at belowDistinct
        exact (List.nodup_append.mp belowDistinct).1
      have started : 0 < branching.count contents := Nat.succ_pos _
      have live : memory.heap.get? (label tree) = Option.some contents := live
      have inner : contents.isLeaf = false := inner
      rw [recursiveFree, bind_ok (Prog.load_ok live), inner, if_neg Bool.false_ne_true]
      apply bind_error
      rw [Branching.freeChildren, bind_ok (Prog.load_ok live), if_pos started,
        bind_ok (Prog.lift_ok firstChild memory), if_neg (notNull first firstMember)]
      have linked : Holding owned (leafLabels first ++ (leafLabels second ++
          (others.flatMap leafLabels ++ rest))) memory := by
        rw [leafLabels_node, childrenEq, List.flatMap_cons, List.flatMap_cons, List.append_assoc,
          List.append_assoc] at holding
        exact holding
      cases depth with
      | succ depth =>
          apply bind_error
          exact recursiveFree_fails (by omega) (show 0 < BPlusTreeDram.kind.scheme.minDegree - 1 by decide)
            (shapes first firstMember) (below first firstMember) firstDistinct linked
      | zero =>
          obtain ⟨after, ran, dead, kept⟩ := freeLeaf_first linked
          obtain ⟨leaf, leafLive, isLeaf⟩ := below first firstMember
          have firstLive : memory.heap.get? (label first) = Option.some leaf := leafLive
          have isLeaf : leaf.isLeaf = true := isLeaf
          have firstFreed : recursiveFree (fuel + 1) (label first) memory = .ok ((), after) := by
            rw [recursiveFree, bind_ok (Prog.load_ok firstLive), isLeaf, if_pos rfl]
            exact ran
          have secondGone : recursiveFree (fuel + 1) (label second) after = .error .invalidPointer := by
            rw [recursiveFree]
            exact bind_error (load_dangling dead)
          have stillLive : after.heap.get? (label tree) = Option.some contents :=
            (kept _ (apart first firstMember) (apart second secondMember)).trans live
          have continues : 1 < branching.count contents := by
            rw [count, childrenEq]
            exact Nat.succ_lt_succ (Nat.succ_pos _)
          rw [bind_ok firstFreed, show BP_MAX_CHILDREN = 17 + 1 from rfl, Branching.freeChildren,
            bind_ok (Prog.load_ok stillLive), if_pos continues,
            bind_ok (Prog.lift_ok secondChild after), if_neg (notNull second secondMember)]
          exact bind_error secondGone

end Freeing

/-! ### Reachable trees -/

variable {past : List RangeCall} {state : State}

/-- The root of a reachable tree, and whether the tree is torn down. -/
theorem torn_down_iff_of_reached (reached : Reached past state) :
    ∃ root, (memory state).heap.get? (memory state).root = some root ∧
      (TornDown (memory state) ↔ root.isLeaf = true) := by
  rcases reached with ⟨blank, _⟩ | ⟨entries, store, companions, depth, tree, stores, whole⟩
  · obtain ⟨rootEq, size, node, live, isLeaf, nk, next, previous⟩ := blank.root
    rw [← rootEq] at live
    refine ⟨node, live, iff_of_true ?_ isLeaf⟩
    have nothing : ∀ record, ¬ (memory state).aux.Live record := by
      rintro record ⟨object, recordLive⟩
      have bounds := Heap.bounds_of_get? recordLive
      rw [blank.ledger.level] at bounds
      exact absurd (bounds.1.trans_le bounds.2) (Nat.lt_irrefl 0)
    have holding : Holding (fun _ => []) [(memory state).root] (memory state) := by
      refine ⟨⟨⟨List.pairwise_singleton _ _, ?_, ?_, trivial⟩, ?_⟩, ?_, List.nodup_nil, ?_⟩
      · rw [Linking.previousIn, live]
        exact congrArg some previous
      · rw [Linking.nextIn, live]
        exact congrArg some next
      · intro address member
        rw [List.mem_singleton.mp member]
        exact ⟨node, live, isLeaf⟩
      · intro address member
        rw [List.mem_singleton.mp member]
        exact ⟨node, live, nk, fun index record found => by cases found⟩
      · intro record
        exact iff_of_false (nothing record) List.not_mem_nil
    apply destroy_alone holding live isLeaf
    rintro address ⟨other, addressLive⟩
    have bounds := Heap.bounds_of_get? addressLive
    rw [size] at bounds
    rw [rootEq]
    exact Nat.le_antisymm bounds.2 bounds.1
  · obtain ⟨shows, stands, ledger⟩ := companions
    obtain ⟨height, other, storesOther, contentsEq⟩ := shows
    have sameContents := stores.contents_eq BPlusTreeDram.implements.searches storesOther
    obtain ⟨holding, branches⟩ := holding_of_stands stands ledger stores (sameContents.trans contentsEq)
    have rootEq : (memory state).root = label tree := stands.root.trans stores.root
    cases depth with
    | zero =>
        obtain ⟨root, live, isLeaf⟩ := branches
        have live : (memory state).heap.get? (label tree) = some root := live
        rw [rootEq]
        refine ⟨root, live, iff_of_true ?_ isLeaf⟩
        rw [← rootEq] at live
        have alone : Holding (recordsAt (memory state).heap) [(memory state).root] (memory state) := by
          rw [rootEq]
          exact holding
        apply destroy_alone alone live isLeaf
        rintro address ⟨node, addressLive⟩
        have bounds := Heap.bounds_of_get? addressLive
        rw [stands.heap.size] at bounds
        rw [rootEq]
        exact List.mem_singleton.mp (whole.mem_of_bounds stores.holds bounds)
    | succ depth =>
        obtain ⟨⟨root, live, inner, _⟩, _⟩ := id branches
        have live : (memory state).heap.get? (label tree) = some root := live
        rw [rootEq]
        refine ⟨root, live, iff_of_false ?_ (by rw [show root.isLeaf = false from inner]; exact Bool.false_ne_true)⟩
        rintro ⟨ended, ran, _⟩
        have deep : depth + 1 < (memory state).heap.size := by
          rw [stands.heap.size]
          exact stores.depth_lt_size
        rw [← List.append_nil (leafLabels tree)] at holding
        have failed := recursiveFree_fails deep Nat.zero_lt_one stores.valid.shape branches
          stores.holds.nodup holding
        rw [destroy, bind_ok (Prog.getRoot_ok _), bind_ok (Prog.heapSize_ok _), rootEq,
          bind_error failed] at ran
        cases ran

/-- `destroy` tears a tree down where its root is a leaf, and only there. -/
theorem bpPmem_torn_down_iff (garbage : Ptr → Node) (garbageRecord : Ptr → Record)
    (behindRoot : Place → Bool) (calls : List RangeCall) :
    ∃ opened answers state root,
      init (BPPmem.pool garbage garbageRecord behindRoot) newState = .ok ((), opened) ∧
      serve (rangeBackend (BPPmem.pool garbage garbageRecord behindRoot)).step calls opened =
        .ok (answers, state) ∧
      (memory state).heap.get? (memory state).root = some root ∧
      (TornDown (memory state) ↔ root.isLeaf = true) := by
  obtain ⟨opened, answers, state, ran, served, reached⟩ :=
    serve_reached (BPPmem.pool garbage garbageRecord behindRoot) calls
  obtain ⟨root, live, iff⟩ := torn_down_iff_of_reached reached
  exact ⟨opened, answers, state, root, ran, served, live, iff⟩

/-- A single leaf has room for the keys inserted so far. -/
theorem order_le_of_isLeaf (reached : Reached past state) {root : Node}
    (live : (memory state).heap.get? (memory state).root = some root) (isLeaf : root.isLeaf = true) :
    (insertionOrder RangeCall.inserted? past).length ≤ BP_MAX_KEYS := by
  rcases reached with ⟨_, nothing⟩ | ⟨entries, store, ⟨shows, stands, ledger⟩, _⟩
  · rw [nothing]
    exact Nat.zero_le _
  · obtain ⟨depth, tree, stores, contentsEq⟩ := shows
    have rootEq : (memory state).root = label tree := stands.root.trans stores.root
    have shown := (holding_of_stands stands ledger stores contentsEq).2
    cases depth with
    | succ depth =>
        obtain ⟨⟨node, nodeLive, inner, _⟩, _⟩ := shown
        rw [rootEq] at live
        obtain rfl := Option.some.inj (live.symm.trans nodeLive)
        exact absurd (isLeaf.symm.trans inner) (Bool.noConfusion)
    | zero =>
        have few : entries.length ≤ BP_MAX_KEYS := by
          have leafEq : contents BPlusTreeDram.kind.scheme tree = tree.entries := by
            rw [show contents BPlusTreeDram.kind.scheme tree = _ from contents_bplus stores.valid.shape]
            exact List.append_nil _
          rw [← contentsEq, leafEq]
          exact stores.valid.shape.2
        have stored : insertionOrder RangeCall.inserted? past ⊆ entries.map Prod.fst := by
          intro key member
          obtain ⟨record, owned⟩ := exists_ownedBy member
          obtain ⟨_, value, _, _, found⟩ := ledger.values owned
          exact List.mem_map.mpr ⟨(key, value), mem_of_lookup_eq_some found, rfl⟩
        have counted := (ledger.distinct.subperm stored).length_le
        rw [List.length_map] at counted
        exact counted.trans few

/-- After the inserts of eighteen keys the root is an inner node, and `destroy` reads a leaf that it has
freed. -/
theorem bpPmem_not_torn_down :
    ∃ garbage garbageRecord behindRoot opened answers state,
      init (BPPmem.pool garbage garbageRecord behindRoot) newState = .ok ((), opened) ∧
      serve (rangeBackend (BPPmem.pool garbage garbageRecord behindRoot)).step
        ((List.range 18).map fun key => .insert (UInt64.ofNat key) ⟨[97], by decide, by decide⟩) opened =
          .ok (answers, state) ∧
      ¬ TornDown (memory state) := by
  let blank : Node :=
    { isLeaf := false, nk := 0, keys := CArray.unwritten _ _, pointers := CArray.unwritten _ _, next := null,
      previous := null }
  obtain ⟨opened, answers, state, ran, served, reached⟩ := serve_reached
    (BPPmem.pool (fun _ => blank) (fun _ => CharArray.unwritten _) fun _ => false)
    ((List.range 18).map fun key => .insert (UInt64.ofNat key) ⟨[97], by decide, by decide⟩)
  refine ⟨_, _, _, opened, answers, state, ran, served, ?_⟩
  intro tornDown
  obtain ⟨root, live, iff⟩ := torn_down_iff_of_reached reached
  have few := order_le_of_isLeaf reached live (iff.mp tornDown)
  exact absurd few (by decide)

end StoredsBench.BPPmem
