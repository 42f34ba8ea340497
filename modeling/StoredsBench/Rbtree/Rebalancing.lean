/-
Module: StoredsBench.Rbtree.Rebalancing
Layer: Refinement
Purpose: `fix_violation` does on the heap what `fixUp` does to the tree, for both classes.  They differ
  in the node they continue with after a rotation; either is `Settled`, so that the loop ends there.
Trusted boundary: none
Main exports: Rebalances, fixLoop_ok, fixViolation_ok, RbtreeDram.rebalances, RbtreePmem.rebalances
-/
import StoredsBench.Rbtree.Rotation
import StoredsBench.Rbtree.Dram
import StoredsBench.Rbtree.Pmem

namespace StoredsBench

open Lib Lib.RedBlack Lib.RedBlack.Tree

namespace Rbtree

variable {X : Type} {store : Store RbNode X} {above : List PtrFrame} {tree : PtrTree}
  {parent grandparent : PtrFrame}

/-! ### Reading around a place -/

theorem plug_append (front above : List PtrFrame) (tree : PtrTree) :
    plug (front ++ above) tree = plug above (plug front tree) := by
  induction front generalizing tree with
  | nil => rfl
  | cons frame front inductionHypothesis => exact inductionHypothesis (frame.around tree)

theorem holds_append {front : List PtrFrame} :
    Holds store (front ++ above) tree ↔ Holds store above (plug front tree) := by
  rw [holds_plug, plug_append, ← holds_plug]

theorem isRed_ok {origin : Nat} (rep : Rep (viewAt store.heap) origin tree) :
    isRed (rootLabel tree) store = .ok (decide (tree.rootColor = .red), store) := by
  cases tree with
  | leaf => rfl
  | node color label entry left right =>
      obtain ⟨node, loaded, views⟩ := load_shown rep.1
      have colorEq : node.color = color := views.color
      rw [isRed, rootLabel, if_neg (ne_null_of_view rep.1), bind_ok loaded, colorEq]
      rfl

/-- Above a place there is the root. -/
theorem rootLabel_plug_mem (nonempty : above ≠ []) (tree : PtrTree) :
    rootLabel (plug above tree) ∈ labelsAbove above := by
  induction above generalizing tree with
  | nil => exact absurd rfl nonempty
  | cons frame above inductionHypothesis =>
      rw [plug]
      by_cases last : above = []
      · rw [last, plug, Frame.around, rootLabel_build]
        exact List.mem_cons_self
      · exact List.mem_cons_of_mem _
          (List.mem_append_right _ (inductionHypothesis last (frame.around tree)))

theorem rootLabel_mem (nonempty : tree ≠ .leaf) : rootLabel tree ∈ tree.labels := by
  cases tree with
  | leaf => exact absurd rfl nonempty
  | node => simp [rootLabel, labels, inorder]

/-- A place below the root is not the root. -/
theorem Holds.ne_root (holds : Holds store above tree) (nonempty : tree ≠ .leaf)
    (below : above ≠ []) : rootLabel tree ≠ store.root := by
  intro same
  have inAbove := rootLabel_plug_mem below tree
  rw [← holds.root, ← same] at inAbove
  exact (List.nodup_append.mp holds.nodup).2.2 _ (rootLabel_mem nonempty) _ inAbove rfl

/-- The root node of a place, as it is loaded. -/
theorem Holds.load (holds : Holds store above tree) (nonempty : tree ≠ .leaf) :
    ∃ node, Prog.load (rootLabel tree) store = .ok (node, store) ∧ node.color = tree.rootColor ∧
      node.parent = parentLabel above := by
  cases tree with
  | leaf => exact absurd rfl nonempty
  | node color label entry left right =>
      obtain ⟨node, loaded, views⟩ := load_shown holds.rep.1
      exact ⟨node, loaded, views.color, views.parent⟩

/-- The frame above a place, as it is loaded. -/
theorem Holds.loadParent (holds : Holds store (parent :: above) tree) :
    ∃ node, Prog.load parent.label store = .ok (node, store) ∧ node.color = parent.color ∧
      node.parent = parentLabel above ∧
      ∀ side, node.child side = (Shown.build parent.side parent.entry parent.color (rootLabel tree)
        (rootLabel parent.sibling) (parentLabel above)).child side := by
  obtain ⟨node, loaded, views⟩ := load_shown holds.repAbove.1
  refine ⟨node, loaded, ?_, ?_, views.child⟩
  · rw [views.color, Shown.build_color]
  · rw [views.parent, Shown.build_parent]

/-! ### The loop -/

/-- The loop ends at the root, at a black node, and below a black node. -/
theorem fixLoop_stops {rebalance : Side → Ptr → Ptr → Ptr → RbProg X Ptr} {fuel : Nat}
    (holds : Holds store above tree) (nonempty : tree ≠ .leaf)
    (calm : tree.rootColor = .black ∨ ∀ frame ∈ above.head?, frame.color = .black) :
    fixLoop rebalance (fuel + 1) (rootLabel tree) store = .ok ((), store) := by
  rw [fixLoop, bind_ok (Prog.getRoot_ok store)]
  cases above with
  | nil =>
      have root : rootLabel tree = store.root := holds.root.symm
      rw [if_pos root]
      rfl
  | cons frame above =>
      obtain ⟨node, loaded, color, parentEq⟩ := holds.load nonempty
      rw [if_neg (holds.ne_root nonempty (List.cons_ne_nil frame above)), bind_ok loaded]
      by_cases black : node.color = .black
      · rw [if_pos black]
        rfl
      · obtain ⟨parentNode, parentLoaded, parentColor, _⟩ := holds.loadParent
        have blackParent : frame.color = .black := by
          rcases calm with blackRoot | blackFrame
          · exact absurd (color.trans blackRoot) black
          · exact blackFrame frame rfl
        rw [if_neg black, parentEq, parentLabel, bind_ok parentLoaded, parentColor, blackParent,
          if_neg (by decide)]
        rfl

/-- With a red node below a red parent the body runs, on the side the parent is on. -/
theorem fixLoop_step {rebalance : Side → Ptr → Ptr → Ptr → RbProg X Ptr} {fuel : Nat}
    (holds : Holds store (parent :: grandparent :: above) tree) (red : tree.rootColor = .red)
    (redParent : parent.color = .red) :
    fixLoop rebalance (fuel + 1) (rootLabel tree) store =
      (rebalance grandparent.side (rootLabel tree) parent.label grandparent.label >>=
        fixLoop rebalance fuel) store := by
  have nonempty := nonempty_of_red red
  obtain ⟨node, loaded, color, parentEq⟩ := holds.load nonempty
  obtain ⟨parentNode, parentLoaded, parentColor, grandparentEq, _⟩ := holds.loadParent
  have atParent : Holds store (grandparent :: above) (parent.around tree) := holds_cons.mp holds
  obtain ⟨grandparentNode, grandparentLoaded, _, _, children⟩ := atParent.loadParent
  have parentLabelEq : rootLabel (parent.around tree) = parent.label := rootLabel_build _ _ _ _
  -- The comparison with the left child tells the side.
  have side : (if parent.label = grandparentNode.left then Side.left else Side.right) =
      grandparent.side := by
    have leftChild : grandparentNode.left = _ := children .left
    have apart := rootLabel_ne_sibling atParent (by
      rw [Frame.around]
      cases parent.side <;> simp [build])
    rw [parentLabelEq] at leftChild apart
    rw [leftChild]
    cases grandparent.side with
    | left => exact if_pos rfl
    | right => exact if_neg apart
  rw [fixLoop, bind_ok (Prog.getRoot_ok store),
    if_neg (holds.ne_root nonempty (List.cons_ne_nil _ _)), bind_ok loaded, color, red,
    if_neg (by decide), parentEq, parentLabel, bind_ok parentLoaded, parentColor, redParent,
    if_pos rfl, grandparentEq, parentLabel, bind_ok grandparentLoaded, side]

/-- The loop ends at this node of the rotated subtree. -/
def Settled (cursor : Nat) (result : PtrTree) : Prop :=
  ∃ front place, place ≠ .leaf ∧ cursor = rootLabel place ∧ plug front place = result ∧
    (place.rootColor = .black ∨ ∃ frame rest, front = frame :: rest ∧ frame.color = .black)

theorem fixLoop_settled {rebalance : Side → Ptr → Ptr → Ptr → RbProg X Ptr} {fuel cursor : Nat}
    (holds : Holds store above tree) (settled : Settled cursor tree) :
    fixLoop rebalance (fuel + 1) cursor store = .ok ((), store) := by
  obtain ⟨front, place, nonempty, rfl, rfl, calm⟩ := settled
  apply fixLoop_stops (holds_append.mpr holds) nonempty
  rcases calm with black | ⟨frame, rest, rfl, black⟩
  · exact Or.inl black
  · exact Or.inr fun first isFirst => by
      obtain rfl : frame = first := Option.some.inj isFirst
      exact black

/-- What the body of the loop must do to a red node below a red parent. -/
structure Rebalances (rebalance : Side → Ptr → Ptr → Ptr → RbProg X Ptr) : Prop where
  recolors : ∀ {store : Store RbNode X} {above : List PtrFrame} {tree : PtrTree}
    {parent grandparent : PtrFrame}, Holds store (parent :: grandparent :: above) tree →
    tree.rootColor = .red → grandparent.sibling.rootColor = .red →
    ∃ next, rebalance grandparent.side (rootLabel tree) parent.label grandparent.label store =
        .ok (grandparent.label, next) ∧ Kept store next ∧
      Holds next above (recolored tree parent grandparent)
  rotates : ∀ {store : Store RbNode X} {above : List PtrFrame} {tree : PtrTree}
    {parent grandparent : PtrFrame}, Holds store (parent :: grandparent :: above) tree →
    tree.rootColor = .red → grandparent.color = .black → grandparent.sibling.rootColor = .black →
    ∃ cursor next, rebalance grandparent.side (rootLabel tree) parent.label grandparent.label store =
        .ok (cursor, next) ∧ Kept store next ∧
      Holds next above (rotated tree parent grandparent) ∧
      Settled cursor (rotated tree parent grandparent)

section Loop

variable {rebalance : Side → Ptr → Ptr → Ptr → RbProg X Ptr}

theorem rotated_black (tree : PtrTree) (parent : PtrFrame) (black : grandparent.color = .black) :
    (rotated tree parent grandparent).rootColor = .black := by
  have raisedBlack : ∀ (tree : PtrTree) (parent : PtrFrame),
      (raised tree parent grandparent).rootColor = .black := by
    intro tree parent
    rw [raised]
    cases grandparent.side <;> exact black
  rw [rotated]
  split <;> apply raisedBlack

/-- The loop of `fix_violation` is `fixUp`; every iteration uses up two frames. -/
theorem fixLoop_ok (rebalances : Rebalances rebalance) {color : Color} {n fuel : Nat}
    (holds : Holds store above tree) (nonempty : tree ≠ .leaf) (balanced : Balanced tree color n)
    (fits : Fits above .black n) (bound : above.length < fuel) :
    ∃ next, fixLoop rebalance fuel (rootLabel tree) store = .ok ((), next) ∧ Kept store next ∧
      Holds next [] (fixUp tree above) := by
  obtain ⟨fuel, rfl⟩ : ∃ less, fuel = less + 1 := ⟨fuel - 1, by omega⟩
  fun_induction fixUp tree above generalizing store color n fuel with
  | case1 tree parent grandparent above conflict redUncle inductionHypothesis =>
      obtain rfl : color = .red := balanced.rootColor_eq.symm.trans conflict.1
      obtain ⟨_, siblingBalanced, uncle, uncleBalanced, aboveFits⟩ := fits.conflict conflict.2
      obtain rfl : uncle = .red := uncleBalanced.rootColor_eq.symm.trans redUncle
      obtain ⟨middle, ran, kept, middleHolds⟩ := rebalances.recolors holds conflict.1 redUncle
      have recoloredBalanced := balanced.recolored siblingBalanced uncleBalanced
      have cursor : rootLabel (recolored tree parent grandparent) = grandparent.label :=
        rootLabel_build _ _ _ _
      simp only [List.length_cons] at bound
      obtain ⟨less, rfl⟩ : ∃ less, fuel = less + 1 := ⟨fuel - 1, by omega⟩
      obtain ⟨next, loopRan, loopKept, nextHolds⟩ :=
        inductionHypothesis middleHolds (nonempty_of_red recoloredBalanced.rootColor_eq)
          recoloredBalanced aboveFits less (by omega)
      refine ⟨next, ?_, kept.trans loopKept, nextHolds⟩
      rw [fixLoop_step holds conflict.1 conflict.2, bind_ok ran, ← cursor, loopRan]
  | case2 tree parent grandparent above conflict blackUncle inductionHypothesis =>
      obtain ⟨black, _⟩ := fits.conflict conflict.2
      obtain ⟨cursor, next, ran, kept, nextHolds, settled⟩ :=
        rebalances.rotates holds conflict.1 black (eq_black_of_not_red blackUncle)
      simp only [List.length_cons] at bound
      obtain ⟨less, rfl⟩ : ∃ less, fuel = less + 1 := ⟨fuel - 1, by omega⟩
      refine ⟨next, ?_, kept, ?_⟩
      · rw [fixLoop_step holds conflict.1 conflict.2, bind_ok ran,
          fixLoop_settled nextHolds settled]
      · rw [fixUp_of_black (rotated_black _ _ black)]
        exact holds_plug.mp nextHolds
  | case3 tree parent grandparent above calm =>
      refine ⟨store, fixLoop_stops holds nonempty ?_, Kept.refl store, holds_plug.mp holds⟩
      by_cases red : tree.rootColor = .red
      · refine Or.inr fun frame isFirst => ?_
        obtain rfl : parent = frame := Option.some.inj isFirst
        exact eq_black_of_not_red fun redParent => calm ⟨red, redParent⟩
      · exact Or.inl (eq_black_of_not_red red)
  | case4 tree above short =>
      refine ⟨store, fixLoop_stops holds nonempty (Or.inr fun frame isFirst => ?_), Kept.refl store,
        holds_plug.mp holds⟩
      cases above with
      | nil => cases isFirst
      | cons parent above =>
          obtain rfl : parent = frame := Option.some.inj isFirst
          cases above with
          | nil => exact fits.single
          | cons grandparent above => exact absurd rfl (short parent grandparent above)

theorem length_le_labelsAbove (above : List PtrFrame) :
    above.length ≤ (labelsAbove above).length := by
  induction above with
  | nil => exact Nat.le_refl 0
  | cons frame above inductionHypothesis =>
      simp only [labelsAbove, List.length_cons, List.length_append]
      omega

theorem length_le_height_plug (above : List PtrFrame) (tree : PtrTree) :
    above.length + tree.height ≤ (plug above tree).height := by
  induction above generalizing tree with
  | nil => exact (Nat.zero_add _).le
  | cons frame above inductionHypothesis =>
      have deeper : tree.height + 1 ≤ (frame.around tree).height := by
        rw [Frame.around]
        cases frame.side <;> simp only [build, height] <;> omega
      calc (frame :: above).length + tree.height
          = above.length + (tree.height + 1) := by rw [List.length_cons]; omega
        _ ≤ above.length + (frame.around tree).height := by omega
        _ ≤ (plug (frame :: above) tree).height := inductionHypothesis (frame.around tree)

/-- `fix_violation`: the loop, and a black root. -/
theorem fixViolation_ok (rebalances : Rebalances rebalance) {color : Color} {n : Nat}
    (holds : Holds store above tree) (nonempty : tree ≠ .leaf) (balanced : Balanced tree color n)
    (fits : Fits above .black n) :
    ∃ next, fixViolation rebalance (rootLabel tree) store = .ok ((), next) ∧ Kept store next ∧
      Holds next [] (blacken (fixUp tree above)) := by
  have bound : above.length < store.heap.size + 1 := by
    have few := length_le_labelsAbove above
    rw [holds.size, List.length_append]
    omega
  obtain ⟨middle, ran, kept, middleHolds⟩ :=
    fixLoop_ok rebalances holds nonempty balanced fits bound
  cases fixed : fixUp tree above with
  | leaf =>
      have sameOrder := inorder_fixUp tree above
      rw [fixed, inorder_plug] at sameOrder
      cases tree with
      | leaf => exact absurd rfl nonempty
      | node => simp [inorder] at sameOrder
  | node color label entry left right =>
      rw [fixed] at middleHolds
      obtain ⟨next, colored, coloredKept, nextHolds⟩ := setColor_ok middleHolds .black
      have root : middle.root = label := middleHolds.root
      refine ⟨next, ?_, kept.trans coloredKept, nextHolds⟩
      rw [fixViolation, bind_ok (Prog.heapSize_ok store),
        bind_ok ran, bind_ok (Prog.getRoot_ok middle), root,
        colored]

end Loop

/-! ### The bodies -/

/-- What both bodies read first: the uncle and its colour. -/
theorem uncle_ok (holds : Holds store (parent :: grandparent :: above) tree) :
    ∃ node, Prog.load grandparent.label store = .ok (node, store) ∧
      node.child grandparent.side.other = rootLabel grandparent.sibling ∧
      isRed (rootLabel grandparent.sibling) store =
        .ok (decide (grandparent.sibling.rootColor = .red), store) := by
  have atParent : Holds store (grandparent :: above) (parent.around tree) := holds_cons.mp holds
  obtain ⟨node, loaded, _, _, children⟩ := atParent.loadParent
  refine ⟨node, loaded, ?_, isRed_ok atParent.repAbove.2.1⟩
  rw [children, Shown.build_far]

/-- The rotations of a body.  The promoted node is the root of the rotated subtree; the old parent is
that root or a child of it. -/
theorem turn_ok (holds : Holds store (parent :: grandparent :: above) tree)
    (red : tree.rootColor = .red) (black : grandparent.color = .black) :
    ∃ promoted middle next,
      straighten grandparent.side (rootLabel tree) parent.label store = .ok (promoted, middle) ∧
      (do
        rotate grandparent.side.other grandparent.label
        swapColors promoted grandparent.label : RbProg X Unit) middle = .ok ((), next) ∧
      Kept store next ∧ Holds next above (rotated tree parent grandparent) ∧
      Settled promoted (rotated tree parent grandparent) ∧
      Settled parent.label (rotated tree parent grandparent) := by
  have atParent : Holds store (grandparent :: above) (parent.around tree) := holds_cons.mp holds
  have settledRoot : ∀ {result : PtrTree} {cursor : Nat}, result ≠ .leaf →
      result.rootColor = .black → cursor = rootLabel result → Settled cursor result :=
    fun nonempty black same => ⟨[], _, nonempty, same, rfl, Or.inl black⟩
  have blackRoot := rotated_black tree parent black
  by_cases outer : parent.side = grandparent.side
  · have stays := straighten_outer_ok atParent red
    obtain ⟨next, ran, kept, nextHolds⟩ := raise_ok (holds_cons.mp atParent) outer
    rw [rotated, if_pos outer] at blackRoot ⊢
    rw [outer] at stays
    have settled : Settled parent.label (raised tree parent grandparent) := by
      apply settledRoot _ blackRoot (rootLabel_build _ _ _ _).symm
      rw [raised]
      cases grandparent.side <;> simp [build]
    exact ⟨parent.label, store, next, stays, ran, kept, nextHolds, settled, settled⟩
  · have side : parent.side.other = grandparent.side := by
      rw [Side.eq_other_of_ne outer, Side.other_other]
    obtain ⟨middle, straightened, middleKept, middleHolds, demoted⟩ :=
      straighten_inner_ok atParent red
    rw [side] at straightened
    have nowOuter : (turned parent tree).2.side = grandparent.side := by
      rw [turned_side red, side]
    obtain ⟨next, ran, kept, nextHolds⟩ := raise_ok (holds_cons.mp middleHolds) nowOuter
    rw [rotated, if_neg outer] at blackRoot ⊢
    refine ⟨(turned parent tree).2.label, middle, next, straightened, ran, middleKept.trans kept,
      nextHolds, ?_, ?_⟩
    · apply settledRoot _ blackRoot (rootLabel_build _ _ _ _).symm
      rw [raised]
      cases grandparent.side <;> simp [build]
    · -- The demoted node hangs below the promoted one, which is black.
      refine ⟨[⟨grandparent.side, grandparent.color, (turned parent tree).2.label,
        (turned parent tree).2.entry, build grandparent.side (turned parent tree).2.color
          grandparent.label grandparent.entry (turned parent tree).2.sibling
          grandparent.sibling⟩], (turned parent tree).1, ?_,
        demoted.symm, rfl, Or.inr ⟨_, [], rfl, black⟩⟩
      cases tree with
      | leaf => cases red
      | node => cases side : parent.side <;> simp [turned, side]

/-- Before the colours are exchanged the grandparent is still black. -/
theorem turn_rotates (holds : Holds store (parent :: grandparent :: above) tree)
    (red : tree.rootColor = .red) (black : grandparent.color = .black) :
    ∃ promoted middle next frame place,
      straighten grandparent.side (rootLabel tree) parent.label store = .ok (promoted, middle) ∧
      rotate grandparent.side.other grandparent.label middle = .ok ((), next) ∧
      Holds next (frame :: above) place ∧ rootLabel place = grandparent.label ∧
      place.rootColor = .black := by
  have atParent : Holds store (grandparent :: above) (parent.around tree) := holds_cons.mp holds
  by_cases outer : parent.side = grandparent.side
  · have stays := straighten_outer_ok atParent red
    obtain ⟨next, ran, _, nextHolds⟩ := lift_ok (holds_cons.mp atParent) outer
    rw [outer] at stays
    exact ⟨parent.label, store, next, _, _, stays, ran, nextHolds, rootLabel_build _ _ _ _,
      (rootColor_build _ _ _ _ _ _).trans black⟩
  · have side : parent.side.other = grandparent.side := by
      rw [Side.eq_other_of_ne outer, Side.other_other]
    obtain ⟨middle, straightened, _, middleHolds, _⟩ := straighten_inner_ok atParent red
    rw [side] at straightened
    have nowOuter : (turned parent tree).2.side = grandparent.side := by
      rw [turned_side red, side]
    obtain ⟨next, ran, _, nextHolds⟩ := lift_ok (holds_cons.mp middleHolds) nowOuter
    exact ⟨_, middle, next, _, _, straightened, ran, nextHolds, rootLabel_build _ _ _ _,
      (rootColor_build _ _ _ _ _ _).trans black⟩

/-- The demoted grandparent is red. -/
theorem rotated_place (holds : Holds store above (rotated tree parent grandparent))
    (red : tree.rootColor = .red) (redParent : parent.color = .red) :
    ∃ frame place, Holds store (frame :: above) place ∧ rootLabel place = grandparent.label ∧
      place.rootColor = .red := by
  rw [rotated] at holds
  split at holds
  · exact ⟨_, _, raised_place holds, rootLabel_build _ _ _ _, (rootColor_build _ _ _ _ _ _).trans redParent⟩
  · exact ⟨_, _, raised_place holds, rootLabel_build _ _ _ _,
      (rootColor_build _ _ _ _ _ _).trans (turned_color red)⟩

end Rbtree

open Rbtree

/-- The promoted node is where `RbtreeDram` goes on. -/
theorem RbtreeDram.rebalances : Rebalances RbtreeDram.rebalance where
  recolors := by
    intro store above tree parent grandparent holds red redUncle
    obtain ⟨node, loaded, uncleEq, colorRead⟩ := uncle_ok holds
    obtain ⟨next, ran, kept, nextHolds⟩ := recolor_ok (holds_cons.mp (holds_cons.mp holds)) redUncle
    refine ⟨next, ?_, kept, nextHolds⟩
    rw [RbtreeDram.rebalance, bind_ok loaded, uncleEq, bind_ok colorRead, redUncle]
    simp only [decide_true, if_true]
    rw [bind_ok ran]
    rfl
  rotates := by
    intro store above tree parent grandparent holds red black blackUncle
    obtain ⟨node, loaded, uncleEq, colorRead⟩ := uncle_ok holds
    obtain ⟨promoted, middle, next, straightened, ran, kept, nextHolds, settled, _⟩ :=
      turn_ok holds red black
    refine ⟨promoted, next, ?_, kept, nextHolds, settled⟩
    rw [RbtreeDram.rebalance, bind_ok loaded, uncleEq, bind_ok colorRead, blackUncle]
    simp only [reduceCtorEq, decide_false, Bool.false_eq_true, if_false]
    rw [bind_ok straightened, ← bind_assoc, bind_ok ran]
    rfl

/-- The old parent is where `RbtreePmem` goes on. -/
theorem RbtreePmem.rebalances : Rebalances RbtreePmem.rebalance where
  recolors := by
    intro store above tree parent grandparent holds red redUncle
    obtain ⟨node, loaded, uncleEq, colorRead⟩ := uncle_ok holds
    obtain ⟨next, ran, kept, nextHolds⟩ := recolor_ok (holds_cons.mp (holds_cons.mp holds)) redUncle
    refine ⟨next, ?_, kept, nextHolds⟩
    rw [RbtreePmem.rebalance, bind_ok loaded, uncleEq, bind_ok colorRead, redUncle]
    simp only [decide_true, if_true]
    rw [bind_ok ran]
    rfl
  rotates := by
    intro store above tree parent grandparent holds red black blackUncle
    obtain ⟨node, loaded, uncleEq, colorRead⟩ := uncle_ok holds
    obtain ⟨promoted, middle, next, straightened, ran, kept, nextHolds, _, settled⟩ :=
      turn_ok holds red black
    refine ⟨parent.label, next, ?_, kept, nextHolds, settled⟩
    rw [RbtreePmem.rebalance, bind_ok loaded, uncleEq, bind_ok colorRead, blackUncle]
    simp only [reduceCtorEq, decide_false, Bool.false_eq_true, if_false]
    rw [bind_ok straightened, ← bind_assoc, bind_ok ran]
    rfl

end StoredsBench
