/-
Module: StoredsBench.Rbtree.Snapshots
Layer: Correctness
Purpose: Which stores of `RbtreePmemTx` a snapshot of the same transaction covers.  The rotations read
  the addresses they store to between their stores; on a tree these addresses are known beforehand.
  Every store is covered but the one to the root pointer, of which a rotation at the root takes no
  snapshot.
Trusted boundary: none
Main exports: RbPool.rotateAt, rotate_eq, turn_logged, rotatesRoot, WritesLogged
-/
import StoredsBench.Rbtree.Effects
import StoredsBench.Rbtree.PoolRefinement

namespace StoredsBench.Rbtree

open Lib Lib.RedBlack Lib.RedBlack.Tree Lib.SortedAssoc

/-! ### Rotations whose addresses are known -/

/-- A rotation, when the nodes around it are known. -/
def RbPool.rotateAt (pool : RbPool) (side : Side) (ptr promoted inner parent : Ptr) : RbPmemProg Unit := do
  pool.mode.addRange (nodeBytes ptr)
  pool.mode.addRange (nodeBytes promoted)
  storeChild side.other inner ptr
  pool.reparent inner ptr
  storeParent parent promoted
  pool.replaceChild parent ptr promoted
  storeChild side ptr promoted
  storeParent promoted ptr

theorem heap_of_memory {store other : RbPmem} (same : memory store = memory other) :
    store.heap = other.heap := by
  have heaps := congrArg Store.heap same
  exact heaps

section Known

variable {pool : RbPool} {store : RbPmem} {above : List PtrFrame} {side : Side} {color otherColor : Color}
  {ptr promoted : Nat} {entry otherEntry : Key × Value} {outer inner far : PtrTree}

theorem rotate_eq
    (around : Around store above side color otherColor ptr promoted entry otherEntry outer inner far) :
    pool.rotate side ptr store =
      pool.rotateAt side ptr promoted (rootLabel inner) (parentLabel above) store := by
  have order := around.nodup
  simp only [List.nodup_cons, List.mem_cons, List.mem_append, not_or, List.nodup_append] at order
  obtain ⟨⟨_, _, ptrInner, _⟩, _, _, ⟨innerNodup, _⟩, _⟩ := order
  -- The first snapshot and the first node.
  obtain ⟨one, oneRan, oneEq⟩ := pool.mode.runsTo_addRange (nodeBytes ptr) (memory store) store rfl
  have oneHeap : one.heap = store.heap := heap_of_memory oneEq
  obtain ⟨ptrNode, ptrLoaded, ptrViews⟩ :=
    load_shown (show viewAt one.heap ptr = _ from oneHeap ▸ around.ptrShows)
  have promotedEq : ptrNode.child side.other = promoted := by rw [ptrViews.child, Shown.build_far]
  -- The second ones.
  obtain ⟨two, twoRan, twoEq⟩ := pool.mode.runsTo_addRange (nodeBytes promoted) (memory store) one oneEq
  have twoHeap : two.heap = store.heap := heap_of_memory twoEq
  obtain ⟨promotedNode, promotedLoaded, promotedViews⟩ :=
    load_shown (show viewAt two.heap promoted = _ from twoHeap ▸ around.promotedShows)
  have innerEq : promotedNode.child side = rootLabel inner := by
    rw [promotedViews.child, Shown.build_near]
  -- The inner subtree changes its parent, the parent of `ptr` stays.
  obtain ⟨three, threeRan, _, _, threeViews⟩ :=
    setChild_ok (show viewAt (memory store).heap ptr = _ from around.ptrShows) side.other (rootLabel inner)
  rw [Shown.build_withFar] at threeViews
  have innerRep : Rep (viewAt three.heap) promoted inner := by
    rw [threeViews]
    exact around.innerRep.write ptrInner _
  obtain ⟨four, fourRan, _, _, _, fourFrame⟩ := reparent_ok innerRep innerNodup ptr
  obtain ⟨third, thirdRan, thirdEq⟩ := Performs.perform
    (fun _ => Effect.store (fieldBytes ptr (childField side.other))) _ threeRan two twoEq
  obtain ⟨fourth, fourthRan, fourthEq⟩ := pool.reparent_performs _ _ fourRan third thirdEq
  have fourthPtr : viewAt fourth.heap ptr =
      some (Shown.build side entry color (rootLabel outer) (rootLabel inner) (parentLabel above)) := by
    have heapEq : fourth.heap = four.heap := congrArg Store.heap fourthEq
    rw [heapEq, fourFrame ptr ptrInner, threeViews, Function.update_self]
  obtain ⟨node, loaded, nodeViews⟩ := load_shown fourthPtr
  have parentEq : node.parent = parentLabel above := by rw [nodeViews.parent, Shown.build_parent]
  have stored : storeChild side.other (rootLabel inner) ptr two = .ok ((), third) := thirdRan
  rw [RbPool.rotate, RbPool.rotateAt, bind_ok oneRan, bind_ok oneRan, bind_ok ptrLoaded, promotedEq,
    bind_ok twoRan, bind_ok twoRan, bind_ok promotedLoaded, innerEq, bind_ok stored, bind_ok stored,
    bind_ok fourthRan, bind_ok fourthRan, bind_ok loaded, parentEq]

end Known

/-- Programs that do the same at a store may be exchanged before the rest. -/
theorem bind_congr_at {α β : Type} {code other : RbPmemProg α} {store : RbPmem}
    (same : code store = other store) (rest : α → RbPmemProg β) :
    (code >>= rest) store = (other >>= rest) store := by
  simp only [bind, StateT.bind, same]

section Turning

variable (pool : RbPool) {store : RbPmem} {above : List PtrFrame} {tree : PtrTree}
  {parent grandparent : PtrFrame}

/-- The outer rotation. -/
theorem lift_eq (holds : Holds store above (grandparent.around (parent.around tree)))
    (outer : parent.side = grandparent.side) :
    pool.rotate grandparent.side.other grandparent.label store =
      pool.rotateAt grandparent.side.other grandparent.label parent.label (rootLabel parent.sibling)
        (parentLabel above) store := by
  have view : grandparent.around (parent.around tree) =
      build grandparent.side.other grandparent.color grandparent.label grandparent.entry
        grandparent.sibling
        (build grandparent.side.other parent.color parent.label parent.entry parent.sibling tree) := by
    rw [build_other, build_other, ← outer]
    simp only [Frame.around, outer]
  rw [view] at holds
  exact rotate_eq holds.pair

/-- An outer place stays as it is. -/
theorem straighten_outer (holds : Holds store (parent :: above) tree) (red : tree.rootColor = .red) :
    pool.straighten parent.side (rootLabel tree) parent.label store = .ok (parent.label, store) := by
  obtain ⟨node, loaded, _, _, children⟩ := holds.loadParent
  have siblingEq : node.child parent.side.other = rootLabel parent.sibling := by
    rw [children, Shown.build_far]
  have different : rootLabel tree ≠ node.child parent.side.other := by
    rw [siblingEq]
    exact rootLabel_ne_sibling holds (nonempty_of_red red)
  rw [RbPool.straighten, bind_ok loaded, if_neg different]
  rfl

/-- The inner rotation, in which the addresses are known, too. -/
theorem straighten_inner {side : Side} {color otherColor : Color} {current ptr : Nat}
    {entry otherEntry : Key × Value} {sibling inner far : PtrTree}
    (holds : Holds store above (build side otherColor ptr otherEntry sibling
      (build side color current entry inner far))) :
    ∃ next, pool.straighten side current ptr store = .ok (current, next) ∧
      pool.rotateAt side ptr current (rootLabel inner) (parentLabel above) store = .ok ((), next) ∧
      Holds next above (build side color current entry
        (build side otherColor ptr otherEntry sibling inner) far) := by
  have around := holds.pair
  obtain ⟨ptrNode, ptrLoaded, ptrViews⟩ := load_shown around.ptrShows
  have currentEq : current = ptrNode.child side.other := by rw [ptrViews.child, Shown.build_far]
  obtain ⟨after, memoryRan, _, afterHolds⟩ := rotate_ok (RbPool.holds_memory.mpr holds)
  obtain ⟨next, ran, nextEq⟩ := pool.rotate_performs _ _ memoryRan store rfl
  rw [← nextEq] at afterHolds
  have nextHolds := RbPool.holds_memory.mp afterHolds
  obtain ⟨_, lowerRep, _⟩ := (rep_build _ _ _ _).mp nextHolds.rep
  obtain ⟨lowerShows, _, _⟩ := (rep_build _ _ _ _).mp lowerRep
  obtain ⟨node, loaded, nodeViews⟩ := load_shown lowerShows
  have parentEq : node.parent = current := by rw [nodeViews.parent, Shown.build_parent]
  refine ⟨next, ?_, ?_, nextHolds⟩
  · rw [RbPool.straighten, bind_ok ptrLoaded, if_pos currentEq, bind_ok ran, bind_ok loaded, parentEq]
    rfl
  · rw [← rotate_eq around, ran]

/-- The inner place of a frame. -/
theorem straighten_inner_place (holds : Holds store above (parent.around tree))
    (red : tree.rootColor = .red) :
    ∃ next inner, pool.straighten parent.side.other (rootLabel tree) parent.label store =
        .ok (rootLabel tree, next) ∧
      pool.rotateAt parent.side.other parent.label (rootLabel tree) inner (parentLabel above) store =
        .ok ((), next) ∧
      Holds next above ((turned parent tree).2.around (turned parent tree).1) ∧
      (turned parent tree).2.label = rootLabel tree := by
  obtain ⟨side, color, label, entry, sibling⟩ := parent
  cases tree with
  | leaf => cases red
  | node treeColor treeLabel treeEntry left right =>
      cases side with
      | left =>
          have seen : Holds store above (build .right color label entry sibling
            (build .right treeColor treeLabel treeEntry right left)) := holds
          obtain ⟨next, ran, atRan, nextHolds⟩ := straighten_inner pool seen
          exact ⟨next, _, ran, atRan, nextHolds, rfl⟩
      | right =>
          have seen : Holds store above (build .left color label entry sibling
            (build .left treeColor treeLabel treeEntry left right)) := holds
          obtain ⟨next, ran, atRan, nextHolds⟩ := straighten_inner pool seen
          exact ⟨next, _, ran, atRan, nextHolds, rfl⟩

end Turning

/-! ### Stores behind snapshots -/

section Logged

variable {garbage : Ptr → RbNode} {behind : RbPlace → RbPlace → Bool} {covered : RbPlace → Bool}
  {store : RbPmem} {above : List PtrFrame} {tree : PtrTree} {parent grandparent : PtrFrame}

theorem logs_reparent (child parent : Ptr) :
    Logs readPool covered ((RbtreePmemTx.pool garbage behind).reparent child parent)
      fun _ more => Extends covered more := by
  apply EffectLogic.Holds.branch
  · intro _
    apply (logs_addRange _).bind
    rintro _ more ⟨grows, own⟩
    apply (logs_storeField (touches_parent parent) own.covers_node).bind
    rintro _ _ rfl
    exact EffectLogic.Holds.pure grows
  · intro _
    exact EffectLogic.Holds.pure fun place inside => inside

theorem logs_replaceChild {parent : Ptr} (inside : parent ≠ null) (old new : Ptr) :
    Logs readPool covered ((RbtreePmemTx.pool garbage behind).replaceChild parent old new)
      fun _ more => Extends covered more := by
  rw [RbPool.replaceChild, if_neg inside]
  apply (logs_addRange _).bind
  rintro _ more ⟨grows, own⟩
  apply (EffectLogic.Holds.load parent fun _ => rfl).bind
  rintro contents _ rfl
  apply EffectLogic.Holds.branch
  · intro _
    apply (logs_storeField (touches_child .left new) own.covers_node).bind
    rintro _ _ rfl
    exact EffectLogic.Holds.pure grows
  · intro _
    apply (logs_storeField (touches_child .right new) own.covers_node).bind
    rintro _ _ rfl
    exact EffectLogic.Holds.pure grows

/-- A rotation below another node. -/
theorem logs_rotateAt (side : Side) (ptr promoted inner : Ptr) {parent : Ptr} (inside : parent ≠ null) :
    Logs readPool covered
      ((RbtreePmemTx.pool garbage behind).rotateAt side ptr promoted inner parent)
      fun _ more => Extends covered more ∧ Covers more promoted := by
  apply (logs_addRange _).bind
  rintro _ one ⟨first, ownPtr⟩
  apply (logs_addRange _).bind
  rintro _ two ⟨second, ownPromoted⟩
  have coversPtr := second.covers ownPtr.covers_node
  apply (logs_storeField (touches_child _ _) coversPtr).bind
  rintro _ _ rfl
  apply (logs_reparent inner ptr).bind
  intro _ three third
  have coversPromoted := third.covers ownPromoted.covers_node
  apply (logs_storeField (touches_parent _) coversPromoted).bind
  rintro _ _ rfl
  apply (logs_replaceChild inside ptr promoted).bind
  intro _ four fourth
  apply (logs_storeField (touches_child _ _) (fourth.covers coversPromoted)).bind
  rintro _ _ rfl
  apply (logs_storeField (touches_parent _) (fourth.covers (third.covers coversPtr))).weaken
  rintro _ _ rfl
  refine ⟨?_, fourth.covers coversPromoted⟩
  exact ((first.trans second).trans third).trans fourth

theorem logs_swapColors {promoted grandparent : Ptr} (coversPromoted : Covers covered promoted)
    (coversGrandparent : Covers covered grandparent) :
    Logs readPool covered (RbPool.swapColors promoted grandparent) fun _ _ => True := by
  apply (EffectLogic.Holds.load promoted fun _ => rfl).bind
  rintro promotedContents _ rfl
  apply (EffectLogic.Holds.load grandparent fun _ => rfl).bind
  rintro grandparentContents _ rfl
  apply (logs_storeField (touches_color _) coversPromoted).bind
  rintro _ _ rfl
  exact (logs_storeField (touches_color _) coversGrandparent).weaken fun _ _ _ => trivial

theorem logs_recolor {grandparent parent : Ptr} (uncle : Ptr) (coversGrandparent : Covers covered grandparent)
    (coversParent : Covers covered parent) :
    Logs readPool covered ((RbtreePmemTx.pool garbage behind).recolor grandparent parent uncle)
      fun _ _ => True := by
  apply (logs_addRange _).bind
  rintro _ more ⟨grows, own⟩
  apply (logs_storeField (touches_color _) (grows.covers coversGrandparent)).bind
  rintro _ _ rfl
  apply (logs_storeField (touches_color _) (grows.covers coversParent)).bind
  rintro _ _ rfl
  apply (logs_storeField (touches_color _) own.covers_node).bind
  rintro _ _ rfl
  exact EffectLogic.Holds.pure trivial

/-- The rotations of a step below the root do what logged code does. -/
theorem turn_logged (garbage : Ptr → RbNode) (behind : RbPlace → RbPlace → Bool)
    (holds : Holds store (parent :: grandparent :: above) tree) (red : tree.rootColor = .red)
    (below : above ≠ []) :
    ∃ code, (RbtreePmemTx.pool garbage behind).turn grandparent.side (rootLabel tree) parent.label
        grandparent.label store = code store ∧
      ∀ covered, Covers covered parent.label → Covers covered grandparent.label →
        Logs readPool covered code fun _ _ => True := by
  have atParent : Holds store (grandparent :: above) (parent.around tree) := holds_cons.mp holds
  have grandparentNotNull : grandparent.label ≠ null := ne_null_of_view atParent.repAbove.1
  have topNotNull : parentLabel above ≠ null := by
    cases above with
    | nil => exact absurd rfl below
    | cons top above => exact ne_null_of_view atParent.repAbove.2.2.1
  by_cases outer : parent.side = grandparent.side
  · have stays := straighten_outer (RbtreePmemTx.pool garbage behind) holds red
    rw [outer] at stays
    refine ⟨do
      (RbtreePmemTx.pool garbage behind).rotateAt grandparent.side.other grandparent.label parent.label
        (rootLabel parent.sibling) (parentLabel above)
      RbPool.swapColors parent.label grandparent.label, ?_, ?_⟩
    · rw [RbPool.turn, bind_ok stays]
      exact bind_congr_at (lift_eq (RbtreePmemTx.pool garbage behind) (holds_cons.mp atParent) outer) _
    · intro covered coversParent coversGrandparent
      apply (logs_rotateAt _ _ _ _ topNotNull).bind
      rintro _ more ⟨grows, _⟩
      exact logs_swapColors (grows.covers coversParent) (grows.covers coversGrandparent)
  · have side : parent.side.other = grandparent.side := by
      rw [Side.eq_other_of_ne outer, Side.other_other]
    obtain ⟨next, inner, straightened, rotated, nextHolds, labelEq⟩ :=
      straighten_inner_place (RbtreePmemTx.pool garbage behind) atParent red
    rw [side] at straightened rotated
    have nowOuter : (turned parent tree).2.side = grandparent.side := by
      rw [turned_side red, side]
    have lifted := lift_eq (RbtreePmemTx.pool garbage behind) (holds_cons.mp nextHolds) nowOuter
    rw [labelEq] at lifted
    refine ⟨do
      (RbtreePmemTx.pool garbage behind).rotateAt grandparent.side parent.label (rootLabel tree) inner
        (parentLabel (grandparent :: above))
      (RbtreePmemTx.pool garbage behind).rotateAt grandparent.side.other grandparent.label
        (rootLabel tree) (rootLabel (turned parent tree).2.sibling) (parentLabel above)
      RbPool.swapColors (rootLabel tree) grandparent.label, ?_, ?_⟩
    · rw [RbPool.turn, bind_ok straightened, bind_ok rotated]
      exact bind_congr_at lifted _
    · intro covered coversParent coversGrandparent
      apply (logs_rotateAt _ _ _ _ grandparentNotNull).bind
      rintro _ one ⟨first, coversTree⟩
      apply (logs_rotateAt _ _ _ _ topNotNull).bind
      rintro _ two ⟨second, _⟩
      exact logs_swapColors (second.covers coversTree)
        (second.covers (first.covers coversGrandparent))

/-- A step of the fix-up that does not rotate at the root does what logged code does. -/
theorem rebalancing_logged (garbage : Ptr → RbNode) (behind : RbPlace → RbPlace → Bool)
    (holds : Holds store (parent :: grandparent :: above) tree) (red : tree.rootColor = .red)
    (calm : grandparent.sibling.rootColor = .red ∨ above ≠ []) :
    ∃ code, (RbtreePmemTx.pool garbage behind).rebalancing grandparent.side (rootLabel tree) parent.label
        grandparent.label store = code store ∧
      Logs readPool (fun _ => false) code fun _ _ => True := by
  -- Both nodes are in snapshots.
  have snapshots : ∀ rest : RbPmemProg Ptr,
      (∀ covered, Covers covered parent.label → Covers covered grandparent.label →
        Logs readPool covered rest fun _ _ => True) →
      Logs readPool (fun _ => false) (do
        (RbtreePmemTx.pool garbage behind).mode.addRange (nodeBytes parent.label)
        (RbtreePmemTx.pool garbage behind).mode.addRange (nodeBytes grandparent.label)
        rest) fun _ _ => True := by
    intro rest logs
    apply (logs_addRange _).bind
    rintro _ one ⟨_, ownParent⟩
    apply (logs_addRange _).bind
    rintro _ two ⟨grows, ownGrandparent⟩
    exact logs two (grows.covers ownParent.covers_node) ownGrandparent.covers_node
  obtain ⟨one, oneRan, oneEq⟩ :=
    (RbtreePmemTx.pool garbage behind).mode.runsTo_addRange (nodeBytes parent.label) (memory store) store rfl
  obtain ⟨two, twoRan, twoEq⟩ :=
    (RbtreePmemTx.pool garbage behind).mode.runsTo_addRange (nodeBytes grandparent.label) _ one oneEq
  have twoHolds : Holds two (parent :: grandparent :: above) tree := by
    rw [← RbPool.holds_memory, twoEq]
    exact RbPool.holds_memory.mpr holds
  obtain ⟨node, loaded, uncleEq, colorRead⟩ := uncle_ok twoHolds
  by_cases redUncle : grandparent.sibling.rootColor = .red
  · refine ⟨do
      (RbtreePmemTx.pool garbage behind).mode.addRange (nodeBytes parent.label)
      (RbtreePmemTx.pool garbage behind).mode.addRange (nodeBytes grandparent.label)
      (RbtreePmemTx.pool garbage behind).recolor grandparent.label parent.label
        (rootLabel grandparent.sibling)
      return grandparent.label, ?_, ?_⟩
    · rw [RbPool.rebalancing, bind_ok oneRan, bind_ok oneRan, bind_ok twoRan, bind_ok twoRan, bind_ok loaded,
        uncleEq, bind_ok colorRead, redUncle]
      rfl
    · apply snapshots
      intro covered coversParent coversGrandparent
      apply (logs_recolor _ coversGrandparent coversParent).bind
      intro _ _ _
      exact EffectLogic.Holds.pure trivial
  · have below : above ≠ [] := calm.resolve_left redUncle
    obtain ⟨code, same, logs⟩ := turn_logged garbage behind twoHolds red below
    refine ⟨do
      (RbtreePmemTx.pool garbage behind).mode.addRange (nodeBytes parent.label)
      (RbtreePmemTx.pool garbage behind).mode.addRange (nodeBytes grandparent.label)
      code
      return parent.label, ?_, ?_⟩
    · rw [RbPool.rebalancing, bind_ok oneRan, bind_ok oneRan, bind_ok twoRan, bind_ok twoRan, bind_ok loaded,
        uncleEq, bind_ok colorRead, decide_eq_false redUncle]
      exact bind_congr_at same _
    · apply snapshots
      intro covered coversParent coversGrandparent
      apply (logs covered coversParent coversGrandparent).bind
      intro _ _ _
      exact EffectLogic.Holds.pure trivial

end Logged

/-! ### The rotation at the root -/

/-- The fix-up above a red node ends with a rotation at the root of the tree. -/
def rotatesRoot : List PtrFrame → Bool
  | parent :: grandparent :: above =>
      if parent.color = .red then
        if grandparent.sibling.rootColor = .red then rotatesRoot above else above.isEmpty
      else false
  | _ => false

/-- Inserting a key rotates at the root of the tree. -/
def insertRotatesRoot (key : Key) (tree : PtrTree) : Bool :=
  match locate key tree [] with
  | (.leaf, above) => rotatesRoot above
  | (.node _ _ _ _ _, _) => false

/-- A search tree with these entries, whatever its colours. -/
def IsSearchTree (entries : List (Key × Value)) (contents : Store RbNode Ptr) : Prop :=
  ∃ tree, Holds contents [] tree ∧ tree.entries = entries

section Calls

variable {garbage : Ptr → RbNode} {behind : RbPlace → RbPlace → Bool} {store middle final : RbPmem}
  {above : List PtrFrame} {tree : PtrTree} {parent grandparent : PtrFrame} {key : Key} {value : Value}
  {entries : List (Key × Value)}

/-- A step of the fix-up that does not rotate at the root. -/
theorem rebalance_logged (idle : store.aux.running = false)
    (holds : Holds store (parent :: grandparent :: above) tree) (red : tree.rootColor = .red)
    (calm : grandparent.sibling.rootColor = .red ∨ above ≠ []) {cursor : Ptr}
    (ran : (RbtreePmemTx.pool garbage behind).rebalance grandparent.side (rootLabel tree) parent.label
      grandparent.label store = .ok (cursor, middle))
    (kept : IsSearchTree entries (memory middle)) :
    LoggedIf readPool (IsSearchTree entries) True store middle := by
  have begun : Holds (setRunning true (logged .begin store)) (parent :: grandparent :: above) tree :=
    ⟨holds.root, holds.rep, holds.repAbove, holds.nodup, holds.size⟩
  obtain ⟨code, same, logs⟩ := rebalancing_logged garbage behind begun red calm
  exact LoggedIf.transaction logs idle same ran kept

/-- Effects inside a transaction that do not cover the root pointer. -/
abbrev Uncovering (effect : Effect RbPlace) (_ : Store RbNode Ptr) : Prop :=
  effect.Inside ∧ effect.covers (.root ()) = false

theorem allows_uncovering (garbage : Ptr → RbNode) (behind : RbPlace → RbPlace → Bool) :
    Allows (RbtreePmemTx.pool garbage behind) Uncovering := by
  constructor
  · constructor
    · exact fun _ _ => ⟨trivial, rfl⟩
    · exact fun _ _ _ => ⟨trivial, rfl⟩
    · intro persistent
      cases persistent
  · exact fun _ _ _ => ⟨trivial, rfl⟩
  · intro persistent
    cases persistent
  · intro persistent
    cases persistent

/-- A rotation at the root stores to the pointer to it, of which there is no snapshot. -/
theorem rebalance_root (idle : store.aux.running = false)
    (holds : Holds store [parent, grandparent] tree) (red : tree.rootColor = .red)
    (redParent : parent.color = .red) {cursor : Ptr}
    (ran : (RbtreePmemTx.pool garbage behind).rebalance grandparent.side (rootLabel tree) parent.label
      grandparent.label store = .ok (cursor, middle))
    (rotates : Holds middle [] (rotated tree parent grandparent))
    (kept : IsSearchTree entries (memory middle)) :
    LoggedIf readPool (IsSearchTree entries) False store middle := by
  have emits : Emits readPool true Uncovering ((RbtreePmemTx.pool garbage behind).rebalancing
      grandparent.side (rootLabel tree) parent.label grandparent.label) := by
    apply emits_rebalancing (allows_uncovering garbage behind)
    intro persistent
    cases persistent
  apply LoggedIf.never emits idle ran _ kept
  -- The grandparent was the root, and is below it now.
  intro same
  obtain ⟨frame, place, placeHolds, labelEq, placeRed⟩ := rotated_place rotates red redParent
  have notRoot := placeHolds.ne_root (nonempty_of_red placeRed) (List.cons_ne_nil _ _)
  have wasRoot : store.root = grandparent.label := by
    rw [holds.root, plug, plug, plug, Frame.around, rootLabel_build]
  have sameRoot : middle.root = store.root := by
    have pointers : Content.pointer (some middle.root) = .pointer (some store.root) := Option.some.inj same
    exact Option.some.inj (Content.pointer.inj pointers)
  rw [labelEq] at notRoot
  exact notRoot (sameRoot.trans wasRoot).symm

/-- The loop of `fix_violation` at a red node. -/
theorem fixLoop_logged {color : Color} {n fuel : Nat} (idle : store.aux.running = false)
    (holds : Holds store above tree) (red : tree.rootColor = .red) (balanced : Balanced tree color n)
    (fits : Fits above .black n) (bound : above.length < fuel) (sameEntries : (plug above tree).entries = entries)
    (ran : fixLoop (RbtreePmemTx.pool garbage behind).rebalance fuel (rootLabel tree) store =
      .ok ((), final)) :
    LoggedIf readPool (IsSearchTree entries) (rotatesRoot above = false) store final := by
  have nonempty := nonempty_of_red red
  obtain ⟨fuel, rfl⟩ : ∃ less, fuel = less + 1 := ⟨fuel - 1, by omega⟩
  fun_induction rotatesRoot above generalizing store tree color n fuel with
  | case1 parent grandparent above redParent redUncle inductionHypothesis =>
      obtain rfl : color = .red := balanced.rootColor_eq.symm.trans red
      obtain ⟨_, siblingBalanced, uncle, uncleBalanced, aboveFits⟩ := fits.conflict redParent
      obtain rfl : uncle = .red := uncleBalanced.rootColor_eq.symm.trans redUncle
      rw [fixLoop_step holds red redParent] at ran
      obtain ⟨cursor, middle, bodyRan, loopRan⟩ := bind_ok_inv ran
      obtain ⟨next, memoryRan, _, nextHolds⟩ :=
        RbtreePmem.rebalances.recolors (RbPool.holds_memory.mpr holds) red redUncle
      obtain ⟨cursorEq, middleEq⟩ :=
        ((RbtreePmemTx.pool garbage behind).rebalance_performs _ _ _ _ memoryRan).of_ok bodyRan
      rw [← middleEq] at nextHolds
      have recoloredBalanced := balanced.recolored siblingBalanced uncleBalanced
      have recoloredRed := recoloredBalanced.rootColor_eq
      have recoloredEntries : (plug above (recolored tree parent grandparent)).entries = entries := by
        rw [← sameEntries, plug, plug, Tree.entries, Tree.entries, inorder_plug, inorder_plug,
          inorder_recolored]
      have kept : IsSearchTree entries (memory middle) :=
        ⟨_, holds_plug.mp nextHolds, recoloredEntries⟩
      have stepLogged := rebalance_logged idle holds red (Or.inl redUncle) bodyRan kept
      have cursorIs : rootLabel (recolored tree parent grandparent) = grandparent.label :=
        rootLabel_build _ _ _ _
      simp only [List.length_cons] at bound
      obtain ⟨less, rfl⟩ : ∃ less, fuel = less + 1 := ⟨fuel - 1, by omega⟩
      rw [cursorEq, ← cursorIs] at loopRan
      have loopLogged := inductionHypothesis stepLogged.stopped (RbPool.holds_memory.mp nextHolds)
        recoloredRed recoloredBalanced aboveFits recoloredEntries (nonempty_of_red recoloredRed)
        less (by omega) loopRan
      exact (stepLogged.trans loopLogged).congr (by rw [true_and])
  | case2 parent grandparent above redParent redUncle =>
      have blackUncle := eq_black_of_not_red redUncle
      obtain ⟨black, _⟩ := fits.conflict redParent
      rw [fixLoop_step holds red redParent] at ran
      obtain ⟨result, middle, bodyRan, loopRan⟩ := bind_ok_inv ran
      obtain ⟨cursor, next, memoryRan, _, nextHolds, settled⟩ :=
        RbtreePmem.rebalances.rotates (RbPool.holds_memory.mpr holds) red black blackUncle
      obtain ⟨resultEq, middleEq⟩ :=
        ((RbtreePmemTx.pool garbage behind).rebalance_performs _ _ _ _ memoryRan).of_ok bodyRan
      rw [← middleEq] at nextHolds
      have middleHolds := RbPool.holds_memory.mp nextHolds
      have kept : IsSearchTree entries (memory middle) := by
        refine ⟨_, holds_plug.mp nextHolds, ?_⟩
        rw [← sameEntries, plug, plug, Tree.entries, Tree.entries, inorder_plug, inorder_plug,
          inorder_rotated red]
      simp only [List.length_cons] at bound
      obtain ⟨less, rfl⟩ : ∃ less, fuel = less + 1 := ⟨fuel - 1, by omega⟩
      rw [resultEq, fixLoop_settled middleHolds settled] at loopRan
      cases loopRan
      cases above with
      | nil =>
          apply (rebalance_root idle holds red redParent bodyRan middleHolds kept).congr
          simp
      | cons top above =>
          have below : top :: above ≠ [] := List.cons_ne_nil top above
          apply (rebalance_logged idle holds red (Or.inr below) bodyRan kept).congr
          simp
  | case3 parent grandparent above black =>
      rw [fixLoop_stops holds nonempty] at ran
      · cases ran
        exact (LoggedIf.refl idle).congr (by simp)
      · apply Or.inr
        intro frame isFirst
        obtain rfl : parent = frame := Option.some.inj isFirst
        exact eq_black_of_not_red black
  | case4 above short =>
      rw [fixLoop_stops holds nonempty] at ran
      · cases ran
        exact (LoggedIf.refl idle).congr (by simp)
      · apply Or.inr
        intro frame isFirst
        cases above with
        | nil => cases isFirst
        | cons parent above =>
            obtain rfl : parent = frame := Option.some.inj isFirst
            cases above with
            | nil => exact fits.single
            | cons grandparent above => exact absurd rfl (short parent grandparent above)

/-- `fix_violation` at a red node. -/
theorem fixViolation_logged {color : Color} {n : Nat} (idle : store.aux.running = false)
    (holds : Holds store above tree) (red : tree.rootColor = .red) (balanced : Balanced tree color n)
    (fits : Fits above .black n) (sameEntries : (plug above tree).entries = entries)
    (kept : IsSearchTree entries (memory final))
    (ran : (RbtreePmemTx.pool garbage behind).fixViolation (rootLabel tree) store = .ok ((), final)) :
    LoggedIf readPool (IsSearchTree entries) (rotatesRoot above = false) store final := by
  have bound : above.length < store.heap.size + 1 := by
    have few := length_le_labelsAbove above
    rw [holds.size, List.length_append]
    omega
  rw [RbPool.fixViolation, bind_ok (Prog.heapSize_ok store)] at ran
  obtain ⟨_, middle, loopRan, blackened⟩ := bind_ok_inv ran
  have loopLogged := fixLoop_logged idle holds red balanced fits bound sameEntries loopRan
  have blackenLogged : LoggedIf readPool (IsSearchTree entries) True middle final :=
    LoggedIf.transaction logs_blackenRoot loopLogged.stopped rfl blackened kept
  exact (loopLogged.trans blackenLogged).congr (by rw [and_true])

theorem entries_attached (sorted : Sorted tree.entries) (located : locate key tree [] = (.leaf, above))
    (fresh : Nat) (value : Value) :
    (plug above (.node .red fresh (key, value) .leaf .leaf)).entries =
      SortedAssoc.upsert key value tree.entries := by
  rw [← entries_upsert sorted fresh key value, RedBlack.upsert, located, Tree.entries, Tree.entries,
    inorder_blacken, inorder_fixUp]

/-- One insert. -/
theorem insert_logged (idle : store.aux.running = false) (valid : store.aux.side ≠ null)
    (stores : Stores (memory store) tree)
    (ran : (RbtreePmemTx.pool garbage behind).insert key value store = .ok (1, final))
    (grown : Stores (memory final) (grow tree (key, value))) :
    LoggedIf readPool (IsSearchTree (SortedAssoc.upsert key value tree.entries))
      (insertRotatesRoot key tree = false) store final := by
  have kept : IsSearchTree (SortedAssoc.upsert key value tree.entries) (memory final) :=
    ⟨_, grown.holds, entries_grow stores.sorted _⟩
  by_cases empty : tree = .leaf
  · subst empty
    rw [RbPool.insert_empty _ valid stores.holds.root] at ran
    obtain ⟨root, middle, created, ran⟩ := bind_ok_inv ran
    obtain ⟨_, last, fixed, done⟩ := bind_ok_inv ran
    cases done
    obtain ⟨rootEq, holds⟩ := RbPool.createRoot_holds stores created
    have createLogged : LoggedIf readPool (IsSearchTree (SortedAssoc.upsert key value [])) True store middle :=
      LoggedIf.transaction (logs_createRoot key value) idle rfl created ⟨_, holds, rfl⟩
    rw [rootEq] at fixed
    have fixLogged := fixViolation_logged createLogged.stopped (RbPool.holds_memory.mp holds) rfl
      (.red .leaf .leaf) .root rfl kept fixed
    exact (createLogged.trans fixLogged).congr (Iff.of_eq (true_and _))
  · obtain ⟨address, middle, upsertRan, upserted⟩ :=
      (RbtreePmemTx.pool garbage behind).bstUpsert_stores stores empty key value
    rw [RbPool.insert_rooted _ valid (RbPool.root_ne_null stores empty) key value upsertRan] at ran
    obtain ⟨n, balanced⟩ := stores.balanced
    obtain ⟨color, m, fits, placeBalanced⟩ := Fits.locate key .root balanced
    rcases upsert_cases (store.heap.size + 1) key value tree with
      ⟨above, located, _⟩ | ⟨above, other, label, old, left, right, located, _⟩
    · rw [located] at upserted fits placeBalanced
      obtain ⟨rfl, holds⟩ := upserted
      have sameEntries := entries_attached stores.sorted located (store.heap.size + 1) value
      have notNull : store.heap.size + 1 ≠ null := Nat.succ_ne_zero _
      rw [if_neg notNull] at ran
      obtain ⟨_, last, fixed, done⟩ := bind_ok_inv ran
      cases done
      have attached : IsSearchTree (SortedAssoc.upsert key value tree.entries) (memory middle) :=
        ⟨_, holds_plug.mp holds, sameEntries⟩
      have attachLogged : LoggedIf readPool (IsSearchTree (SortedAssoc.upsert key value tree.entries))
          True store middle := by
        rcases RbPool.bstUpsert_inv upsertRan with ⟨isNull, _⟩ | ⟨side, node, ranAttach⟩
        · exact absurd isNull notNull
        · exact LoggedIf.transaction (logs_attach side node key value) idle rfl ranAttach attached
      have fixLogged : LoggedIf readPool (IsSearchTree (SortedAssoc.upsert key value tree.entries))
          (rotatesRoot above = false) middle final := by
        cases placeBalanced with
        | leaf =>
            exact fixViolation_logged attachLogged.stopped (RbPool.holds_memory.mp holds) rfl
              (.red .leaf .leaf) fits sameEntries kept fixed
      apply (attachLogged.trans fixLogged).congr
      rw [true_and, insertRotatesRoot, located]
    · rw [located] at upserted
      obtain ⟨rfl, _⟩ := upserted
      rw [if_pos rfl] at ran
      cases ran
      have overwriteLogged : LoggedIf readPool (IsSearchTree (SortedAssoc.upsert key value tree.entries))
          True store final := by
        rcases RbPool.bstUpsert_inv upsertRan with ⟨_, node, ranOverwrite⟩ | ⟨side, node, ranAttach⟩
        · exact LoggedIf.transaction (logs_overwrite node value) idle rfl ranOverwrite kept
        · exact LoggedIf.transaction (logs_attach side node key value) idle rfl ranAttach kept
      apply overwriteLogged.congr
      rw [insertRotatesRoot, located]
      simp

/-- Some insert of a sequence rotates at the root of its tree. -/
def runRotatesRoot : PtrTree → List (Key × Value) → Bool
  | _, [] => false
  | tree, pair :: rest => insertRotatesRoot pair.1 tree || runRotatesRoot (grow tree pair) rest

theorem insertEach_logged (garbage : Ptr → RbNode) (behind : RbPlace → RbPlace → Bool)
    (idle : store.aux.running = false) (valid : store.aux.side ≠ null)
    (stores : Stores (memory store) tree) (pairs : List (Key × Value)) :
    ∃ final, insertEach (RbtreePmemTx.pool garbage behind).insert pairs store = .ok ((), final) ∧
      final.aux.side = store.aux.side ∧ Stores (memory final) (pairs.foldl grow tree) ∧
      LoggedIf readPool (fun _ => True) (runRotatesRoot tree pairs = false) store final := by
  induction pairs generalizing store tree with
  | nil =>
      exact ⟨store, rfl, rfl, stores, (LoggedIf.refl idle).congr (by simp [runRotatesRoot])⟩
  | cons pair rest inductionHypothesis =>
      obtain ⟨next, ran, side, nextStores⟩ :=
        RbPool.insert_stores (RbtreePmemTx.pool garbage behind) valid stores pair.1 pair.2
      have stepLogged := insert_logged idle valid stores ran nextStores
      obtain ⟨final, restRan, finalSide, finalStores, restLogged⟩ :=
        inductionHypothesis stepLogged.stopped (by rwa [side]) nextStores
      refine ⟨final, ?_, finalSide.trans side, finalStores, ?_⟩
      · rw [insertEach, bind_ok ran]
        exact restRan
      · apply ((stepLogged.mono (fun _ _ => trivial) Iff.rfl).trans restLogged).mono (fun _ _ => trivial)
        rw [runRotatesRoot, Bool.or_eq_false_iff]

end Calls

end StoredsBench.Rbtree
