/-
Module: StoredsBench.Rbtree.Rotation
Layer: Refinement
Purpose: The writes of a rotation, of a recolouring and of an overwritten value, as steps between the
  trees a heap holds at a place.
Trusted boundary: none
Main exports: rotate_ok, setColor_ok, overwrite_ok, recolor_ok, straighten_ok, raise_ok
-/
import StoredsBench.Rbtree.Refinement

namespace StoredsBench.Rbtree

open Lib Lib.RedBlack Lib.RedBlack.Tree

variable {X : Type} {store : Store RbNode X} {above : List PtrFrame}

/-! ### The parts of a rotation -/

/-- A tree moves below another parent. -/
theorem reparent_ok {tree : PtrTree} {parent : Nat} (rep : Rep (viewAt store.heap) parent tree)
    (nodup : tree.labels.Nodup) (other : Nat) :
    ∃ next, reparent (rootLabel tree) other store = .ok ((), next) ∧ Kept store next ∧
      next.root = store.root ∧ Rep (viewAt next.heap) other tree ∧
      ∀ address ∉ tree.labels, viewAt next.heap address = viewAt store.heap address := by
  cases tree with
  | leaf =>
      refine ⟨store, ?_, Kept.refl store, rfl, trivial, fun _ _ => rfl⟩
      rw [reparent, rootLabel, if_neg (not_not.mpr rfl)]
      rfl
  | node color label entry left right =>
      obtain ⟨here, leftRep, rightRep⟩ := rep
      obtain ⟨next, ran, kept, root, views⟩ := setParent_ok here other
      have order := (labels_build .left color label entry).nodup_iff.mp nodup
      obtain ⟨labelFresh, _⟩ := List.nodup_cons.mp order
      rw [List.mem_append, not_or] at labelFresh
      refine ⟨next, ?_, kept, root, ⟨?_, ?_, ?_⟩, ?_⟩
      · rw [reparent, rootLabel, if_pos (ne_null_of_view here), ran]
      · rw [views, Function.update_self]
      · rw [views]
        exact leftRep.write labelFresh.1 _
      · rw [views]
        exact rightRep.write labelFresh.2 _
      · intro address outside
        rw [views]
        apply Function.update_of_ne
        rintro rfl
        exact outside (by simp [labels, inorder])

/-- A pointer to a tree is null or the label of one of its nodes. -/
theorem rootLabel_cases (tree : PtrTree) : rootLabel tree = null ∨ rootLabel tree ∈ tree.labels := by
  cases tree with
  | leaf => exact Or.inl rfl
  | node => exact Or.inr (by simp [rootLabel, labels, inorder])

/-- Another node takes a place. -/
theorem replaceChild_ok {old : Nat} (rep : RepAbove (viewAt store.heap) old above)
    (nodup : (old :: labelsAbove above).Nodup) (notNull : old ≠ null) (new : Nat) :
    ∃ next, replaceChild (parentLabel above) old new store = .ok ((), next) ∧ Kept store next ∧
      next.root = (if above = [] then new else store.root) ∧
      RepAbove (viewAt next.heap) new above ∧
      ∀ address ∉ labelsAbove above, viewAt next.heap address = viewAt store.heap address := by
  cases above with
  | nil =>
      refine ⟨{ store with root := new }, ?_, ⟨rfl, rfl⟩, rfl, trivial, fun _ _ => rfl⟩
      rw [replaceChild, parentLabel, if_pos rfl]
      rfl
  | cons frame above =>
      obtain ⟨here, siblingRep, aboveRep⟩ := rep
      obtain ⟨next, ran, kept, root, views⟩ := setChild_ok here frame.side new
      obtain ⟨node, loaded, shows⟩ := load_shown here
      simp only [labelsAbove, List.nodup_cons, List.mem_cons, List.mem_append, not_or] at nodup
      obtain ⟨⟨_, notInSibling, _⟩, ⟨notSibling, notAbove⟩, _⟩ := nodup
      have chosen : replaceChild frame.label old new store = .ok ((), next) := by
        rw [replaceChild, if_neg (ne_null_of_view here), bind_ok loaded]
        have left : node.left = _ := shows.child .left
        cases side : frame.side with
        | left =>
            have found : old = node.left := by rw [left, side]; rfl
            rw [side] at ran
            rw [if_pos found]
            exact ran
        | right =>
            have sibling : node.left = rootLabel frame.sibling := by rw [left, side]; rfl
            have different : old ≠ node.left := by
              rw [sibling]
              rcases rootLabel_cases frame.sibling with empty | member
              · rw [empty]
                exact notNull
              · exact fun same => notInSibling (same ▸ member)
            rw [side] at ran
            rw [if_neg different]
            exact ran
      refine ⟨next, chosen, kept, ?_, ⟨?_, ?_, ?_⟩, ?_⟩
      · rw [root, if_neg (List.cons_ne_nil frame above)]
      · rw [views, Function.update_self, Shown.build_withNear]
      · rw [views]
        exact siblingRep.write notSibling _
      · rw [views]
        exact aboveRep.write notAbove _
      · intro address outside
        rw [views]
        apply Function.update_of_ne
        rintro rfl
        exact outside (by simp [labelsAbove])

section Rotation

variable {side : Side} {color otherColor : Color} {ptr promoted : Nat}
  {entry otherEntry : Key × Value} {outer inner far : PtrTree}

/-- The labels around a rotation. -/
theorem labels_pair (above : List PtrFrame) :
    ((build side color ptr entry outer
        (build side otherColor promoted otherEntry inner far)).labels ++ labelsAbove above).Perm
      (ptr :: promoted :: (outer.labels ++ (inner.labels ++ (far.labels ++ labelsAbove above)))) := by
  have child : (build side otherColor promoted otherEntry inner far).labels.Perm
      (promoted :: (inner.labels ++ far.labels)) := labels_build ..
  have whole : (build side color ptr entry outer
      (build side otherColor promoted otherEntry inner far)).labels.Perm
      (ptr :: (outer.labels ++ (promoted :: (inner.labels ++ far.labels)))) :=
    (labels_build ..).trans ((child.append_left outer.labels).cons ptr)
  refine (whole.append_right _).trans ?_
  rw [List.cons_append, List.append_assoc, List.cons_append, List.append_assoc inner.labels]
  exact List.perm_middle.cons ptr

/-- The two nodes of a rotation and what hangs around them. -/
structure Around (store : Store RbNode X) (above : List PtrFrame) (side : Side)
    (color otherColor : Color) (ptr promoted : Nat) (entry otherEntry : Key × Value)
    (outer inner far : PtrTree) : Prop where
  ptrShows : viewAt store.heap ptr =
    some (Shown.build side entry color (rootLabel outer) promoted (parentLabel above))
  promotedShows : viewAt store.heap promoted =
    some (Shown.build side otherEntry otherColor (rootLabel inner) (rootLabel far) ptr)
  outerRep : Rep (viewAt store.heap) ptr outer
  innerRep : Rep (viewAt store.heap) promoted inner
  farRep : Rep (viewAt store.heap) promoted far
  aboveRep : RepAbove (viewAt store.heap) ptr above
  nodup : (ptr :: promoted ::
    (outer.labels ++ (inner.labels ++ (far.labels ++ labelsAbove above)))).Nodup

theorem Holds.pair
    (holds : Holds store above (build side color ptr entry outer
      (build side otherColor promoted otherEntry inner far))) :
    Around store above side color otherColor ptr promoted entry otherEntry outer inner far := by
  obtain ⟨ptrShows, outerRep, promotedRep⟩ := (rep_build _ _ _ _).mp holds.rep
  obtain ⟨promotedShows, innerRep, farRep⟩ := (rep_build _ _ _ _).mp promotedRep
  have aboveRep := holds.repAbove
  rw [rootLabel_build] at ptrShows aboveRep
  exact ⟨ptrShows, promotedShows, outerRep, innerRep, farRep, aboveRep,
    (labels_pair above).nodup_iff.mp holds.nodup⟩

/-- The writes of a rotation: `ptr` and `promoted` change places, the inner subtree changes its
parent, and the frame above gets another child. -/
theorem rotate_run
    (around : Around store above side color otherColor ptr promoted entry otherEntry outer inner far) :
    ∃ next, rotate side ptr store = .ok ((), next) ∧ Kept store next ∧
      next.root = (if above = [] then promoted else store.root) ∧
      viewAt next.heap ptr =
        some (Shown.build side entry color (rootLabel outer) (rootLabel inner) promoted) ∧
      viewAt next.heap promoted =
        some (Shown.build side otherEntry otherColor ptr (rootLabel far) (parentLabel above)) ∧
      Rep (viewAt next.heap) ptr inner ∧ RepAbove (viewAt next.heap) promoted above ∧
      ∀ address, address ≠ ptr → address ≠ promoted → address ∉ inner.labels →
        address ∉ labelsAbove above → viewAt next.heap address = viewAt store.heap address := by
  have order := around.nodup
  simp only [List.nodup_cons, List.mem_cons, List.mem_append, not_or, List.nodup_append] at order
  obtain ⟨⟨different, _, ptrInner, _, ptrAbove⟩, ⟨_, promotedInner, _, promotedAbove⟩, _,
    ⟨innerNodup, ⟨_, aboveNodup, _⟩, innerApart⟩, _⟩ := order
  have innerNotAbove : ∀ address ∈ inner.labels, address ∉ labelsAbove above :=
    fun address inside isAbove => innerApart address inside address (Or.inr isAbove) rfl
  -- Read the two nodes.
  obtain ⟨ptrNode, ptrLoaded, ptrViews⟩ := load_shown around.ptrShows
  have promotedEq : ptrNode.child side.other = promoted := by rw [ptrViews.child, Shown.build_far]
  obtain ⟨promotedNode, promotedLoaded, promotedViews⟩ := load_shown around.promotedShows
  have innerEq : promotedNode.child side = rootLabel inner := by
    rw [promotedViews.child, Shown.build_near]
  -- Hang the inner subtree below `ptr`.
  obtain ⟨one, oneRan, oneKept, oneRoot, oneViews⟩ :=
    setChild_ok around.ptrShows side.other (rootLabel inner)
  rw [Shown.build_withFar] at oneViews
  have innerRep : Rep (viewAt one.heap) promoted inner := by
    rw [oneViews]
    exact around.innerRep.write ptrInner _
  obtain ⟨two, twoRan, twoKept, twoRoot, twoInner, twoFrame⟩ := reparent_ok innerRep innerNodup ptr
  have twoPtr : viewAt two.heap ptr =
      some (Shown.build side entry color (rootLabel outer) (rootLabel inner) (parentLabel above)) := by
    rw [twoFrame ptr ptrInner, oneViews, Function.update_self]
  have twoPromoted : viewAt two.heap promoted =
      some (Shown.build side otherEntry otherColor (rootLabel inner) (rootLabel far) ptr) := by
    rw [twoFrame promoted promotedInner, oneViews, Function.update_of_ne (Ne.symm different)]
    exact around.promotedShows
  obtain ⟨node, loaded, nodeViews⟩ := load_shown twoPtr
  have parentEq : node.parent = parentLabel above := by rw [nodeViews.parent, Shown.build_parent]
  -- Put `promoted` where `ptr` was.
  obtain ⟨three, threeRan, threeKept, threeRoot, threeViews⟩ :=
    setParent_ok twoPromoted (parentLabel above)
  rw [Shown.build_withParent] at threeViews
  have threeAbove : RepAbove (viewAt three.heap) ptr above := by
    rw [threeViews]
    refine RepAbove.write ?_ promotedAbove _
    apply around.aboveRep.congr
    intro address member
    rw [twoFrame address fun inside => innerNotAbove address inside member, oneViews,
      Function.update_of_ne]
    rintro rfl
    exact ptrAbove member
  obtain ⟨four, fourRan, fourKept, fourRoot, fourAbove, fourFrame⟩ :=
    replaceChild_ok threeAbove (List.nodup_cons.mpr ⟨ptrAbove, aboveNodup⟩)
      (ne_null_of_view around.ptrShows) promoted
  have fourPromoted : viewAt four.heap promoted =
      some (Shown.build side otherEntry otherColor (rootLabel inner) (rootLabel far)
        (parentLabel above)) := by
    rw [fourFrame promoted promotedAbove, threeViews, Function.update_self]
  have fourPtr : viewAt four.heap ptr =
      some (Shown.build side entry color (rootLabel outer) (rootLabel inner) (parentLabel above)) := by
    rw [fourFrame ptr ptrAbove, threeViews, Function.update_of_ne different, twoPtr]
  -- Hang `ptr` below `promoted`.
  obtain ⟨five, fiveRan, fiveKept, fiveRoot, fiveViews⟩ := setChild_ok fourPromoted side ptr
  rw [Shown.build_withNear] at fiveViews
  have fivePtr : viewAt five.heap ptr =
      some (Shown.build side entry color (rootLabel outer) (rootLabel inner) (parentLabel above)) := by
    rw [fiveViews, Function.update_of_ne different, fourPtr]
  obtain ⟨six, sixRan, sixKept, sixRoot, sixViews⟩ := setParent_ok fivePtr promoted
  rw [Shown.build_withParent] at sixViews
  have late : ∀ address, address ≠ ptr → address ≠ promoted → address ∉ labelsAbove above →
      viewAt six.heap address = viewAt two.heap address := by
    intro address notPtr notPromoted notAbove
    rw [sixViews, Function.update_of_ne notPtr, fiveViews, Function.update_of_ne notPromoted,
      fourFrame address notAbove, threeViews, Function.update_of_ne notPromoted]
  refine ⟨six, ?_, ?_, ?_, ?_, ?_, ?_, ?_, ?_⟩
  · rw [rotate, bind_ok ptrLoaded, promotedEq, bind_ok promotedLoaded, innerEq, bind_ok oneRan,
      bind_ok twoRan, bind_ok loaded, parentEq, bind_ok threeRan, bind_ok fourRan, bind_ok fiveRan,
      sixRan]
  · exact oneKept.trans (twoKept.trans (threeKept.trans (fourKept.trans (fiveKept.trans sixKept))))
  · rw [sixRoot, fiveRoot, fourRoot, threeRoot, twoRoot, oneRoot]
  · rw [sixViews, Function.update_self]
  · rw [sixViews, Function.update_of_ne (Ne.symm different), fiveViews, Function.update_self]
  · apply twoInner.congr
    intro address inside
    apply late address
    · rintro rfl
      exact ptrInner inside
    · rintro rfl
      exact promotedInner inside
    · exact innerNotAbove address inside
  · rw [sixViews, fiveViews]
    exact (fourAbove.write promotedAbove _).write ptrAbove _
  · intro address notPtr notPromoted notInner notAbove
    rw [late address notPtr notPromoted notAbove, twoFrame address notInner, oneViews,
      Function.update_of_ne notPtr]

/-- A rotation on the heap is a rotation of the tree, wherever it happens. -/
theorem rotate_ok
    (holds : Holds store above (build side color ptr entry outer
      (build side otherColor promoted otherEntry inner far))) :
    ∃ next, rotate side ptr store = .ok ((), next) ∧ Kept store next ∧
      Holds next above (build side otherColor promoted otherEntry
        (build side color ptr entry outer inner) far) := by
  have around := holds.pair
  obtain ⟨next, ran, kept, root, ptrShows, promotedShows, innerRep, aboveRep, frame⟩ :=
    rotate_run around
  have order := around.nodup
  simp only [List.nodup_cons, List.mem_cons, List.mem_append, not_or, List.nodup_append] at order
  obtain ⟨⟨_, ptrOuter, _, ptrFar, _⟩, ⟨promotedOuter, _, promotedFar, _⟩, _,
    ⟨_, ⟨_, _, farAbove⟩, innerApart⟩, outerApart⟩ := order
  -- The two outer subtrees are not touched.
  have outerRep : Rep (viewAt next.heap) ptr outer := by
    apply around.outerRep.congr
    intro address inside
    apply frame address
    · rintro rfl
      exact ptrOuter inside
    · rintro rfl
      exact promotedOuter inside
    · exact fun inInner => outerApart address inside address (Or.inl inInner) rfl
    · exact fun inAbove => outerApart address inside address (Or.inr (Or.inr inAbove)) rfl
  have farRep : Rep (viewAt next.heap) promoted far := by
    apply around.farRep.congr
    intro address inside
    apply frame address
    · rintro rfl
      exact ptrFar inside
    · rintro rfl
      exact promotedFar inside
    · exact fun inInner => innerApart address inInner address (Or.inl inside) rfl
    · exact fun inAbove => farAbove address inside address inAbove rfl
  have sameOrder : ((build side otherColor promoted otherEntry
      (build side color ptr entry outer inner) far).labels ++ labelsAbove above).Perm
        ((build side color ptr entry outer
          (build side otherColor promoted otherEntry inner far)).labels ++ labelsAbove above) := by
    have sameInorder : (build side otherColor promoted otherEntry
        (build side color ptr entry outer inner) far).inorder =
          (build side color ptr entry outer
            (build side otherColor promoted otherEntry inner far)).inorder := by
      cases side <;> simp [build, inorder]
    rw [labels, labels, sameInorder]
  refine ⟨next, ran, kept, ?_, ?_, ?_, ?_, ?_⟩
  · rw [root]
    split
    · rename_i empty
      rw [empty, plug, rootLabel_build]
    · rename_i nonempty
      rw [holds.root]
      exact rootLabel_plug fun empty => absurd empty nonempty
  · refine (rep_build _ _ _ _).mpr ⟨?_, (rep_build _ _ _ _).mpr ⟨ptrShows, outerRep, innerRep⟩, farRep⟩
    rw [rootLabel_build]
    exact promotedShows
  · rw [rootLabel_build]
    exact aboveRep
  · exact sameOrder.nodup_iff.mpr holds.nodup
  · rw [kept.size, holds.size, sameOrder.length_eq]

end Rotation

/-! ### Colours and values -/

section Writes

variable {color : Color} {label : Nat} {entry : Key × Value} {left right : PtrTree}

/-- Another entry or another colour in the node at a place. -/
theorem Holds.write {next : Store RbNode X} {newColor : Color} {newEntry : Key × Value}
    (holds : Holds store above (.node color label entry left right)) (kept : Kept store next)
    (root : next.root = store.root)
    (views : viewAt next.heap = Function.update (viewAt store.heap) label
      (some ⟨newEntry, newColor, rootLabel left, rootLabel right, parentLabel above⟩)) :
    Holds next above (.node newColor label newEntry left right) := by
  obtain ⟨here, leftRep, rightRep⟩ := holds.rep
  have sameLabels : labels (.node newColor label newEntry left right) =
      labels (.node color label entry left right) := by
    simp [labels, inorder]
  have order := (((labels_build .left color label entry).append_right (labelsAbove above)).nodup_iff).mp
    holds.nodup
  simp only [List.cons_append, List.nodup_cons, List.mem_append, not_or] at order
  obtain ⟨⟨⟨notLeft, notRight⟩, notAbove⟩, _⟩ := order
  constructor
  · rw [root, holds.root]
    exact rootLabel_plug fun _ => rfl
  · rw [views]
    exact ⟨Function.update_self _ _ _, leftRep.write notLeft _, rightRep.write notRight _⟩
  · rw [views]
    exact holds.repAbove.write notAbove _
  · rw [sameLabels]
    exact holds.nodup
  · rw [kept.size, holds.size, sameLabels]

theorem setColor_ok (holds : Holds store above (.node color label entry left right))
    (newColor : Color) :
    ∃ next, setColor newColor label store = .ok ((), next) ∧ Kept store next ∧
      Holds next above (.node newColor label entry left right) := by
  obtain ⟨next, ran, kept, root, views⟩ :=
    write_ok holds.rep.1 (fun node => { node with color := newColor }) (fun node viewed => by
      rw [view_withColor, viewed, Option.map_some])
  exact ⟨next, ran, kept, holds.write kept root views⟩

theorem setColor_build_ok {side : Side}
    (holds : Holds store above (build side color label entry left right)) (newColor : Color) :
    ∃ next, setColor newColor label store = .ok ((), next) ∧ Kept store next ∧
      Holds next above (build side newColor label entry left right) := by
  cases side with
  | left => exact setColor_ok holds newColor
  | right => exact setColor_ok holds newColor

/-- `memcpy` into the value of the node at a place. -/
theorem overwrite_ok (holds : Holds store above (.node color label entry left right))
    (value : Value) :
    ∃ next, Prog.modify label
        (fun node : RbNode => .ok { node with value := node.value.copyString value }) store =
        .ok ((), next) ∧ Kept store next ∧
      Holds next above (.node color label (entry.1, value) left right) := by
  obtain ⟨next, ran, kept, root, views⟩ :=
    write_ok holds.rep.1 (fun node : RbNode => { node with value := node.value.copyString value })
      (fun node viewed => by
        have shows := views_of_view viewed
        have key : node.key = entry.1 := shows.key
        have color : node.color = color := shows.color
        have leftChild : node.left = rootLabel left := shows.child .left
        have rightChild : node.right = rootLabel right := shows.child .right
        have parent : node.parent = parentLabel above := shows.parent
        rw [RbNode.view, CharArray.string?_copyString, Option.map_some, key, color, leftChild,
          rightChild, parent])
  exact ⟨next, ran, kept, holds.write kept root views⟩

end Writes

/-! ### One step of rebalancing -/

section Rebalancing

variable {tree : PtrTree} {parent grandparent : PtrFrame}

/-- Seen from the other child of the grandparent. -/
theorem around_sibling (color : Color) (tree : PtrTree) (frame : PtrFrame) :
    build frame.side color frame.label frame.entry tree frame.sibling =
      Frame.around ⟨frame.side.other, color, frame.label, frame.entry, tree⟩ frame.sibling :=
  (build_other _ _ _ _).symm

/-- A red uncle: three colours change. -/
theorem recolor_ok (holds : Holds store above (grandparent.around (parent.around tree)))
    (redUncle : grandparent.sibling.rootColor = .red) :
    ∃ next, recolor grandparent.label parent.label (rootLabel grandparent.sibling) store =
        .ok ((), next) ∧ Kept store next ∧ Holds next above (recolored tree parent grandparent) := by
  obtain ⟨one, oneRan, oneKept, oneHolds⟩ := setColor_build_ok holds .red
  have atParent : Holds one ({ grandparent with color := .red } :: above) (parent.around tree) :=
    holds_cons.mpr oneHolds
  obtain ⟨two, twoRan, twoKept, twoHolds⟩ := setColor_build_ok atParent .black
  have atUncle := holds_cons.mp twoHolds
  rw [Frame.around, around_sibling, ← holds_cons] at atUncle
  cases uncle : grandparent.sibling with
  | leaf =>
      rw [uncle] at redUncle
      cases redUncle
  | node color label entry left right =>
      simp only [uncle] at atUncle
      obtain ⟨three, threeRan, threeKept, threeHolds⟩ := setColor_ok atUncle .black
      refine ⟨three, ?_, oneKept.trans (twoKept.trans threeKept), ?_⟩
      · rw [recolor, bind_ok oneRan, bind_ok twoRan]
        exact threeRan
      · rw [holds_cons, Frame.around, build_other] at threeHolds
        rw [recolored, uncle]
        exact threeHolds

/-- The outer rotation, seen from the grandparent, which hangs below the parent then. -/
theorem lift_ok (holds : Holds store above (grandparent.around (parent.around tree)))
    (outer : parent.side = grandparent.side) :
    ∃ next, rotate grandparent.side.other grandparent.label store = .ok ((), next) ∧ Kept store next ∧
      Holds next
        (⟨grandparent.side.other, parent.color, parent.label, parent.entry, tree⟩ :: above)
        (build grandparent.side.other grandparent.color grandparent.label grandparent.entry
          grandparent.sibling parent.sibling) := by
  have view : grandparent.around (parent.around tree) =
      build grandparent.side.other grandparent.color grandparent.label grandparent.entry
        grandparent.sibling
        (build grandparent.side.other parent.color parent.label parent.entry parent.sibling tree) := by
    rw [build_other, build_other, ← outer]
    simp only [Frame.around, outer]
  rw [view] at holds
  obtain ⟨next, ran, kept, nextHolds⟩ := rotate_ok holds
  exact ⟨next, ran, kept, holds_cons.mpr nextHolds⟩

/-- The place of the demoted grandparent. -/
theorem raised_place (holds : Holds store above (raised tree parent grandparent)) :
    Holds store
      (⟨grandparent.side.other, grandparent.color, parent.label, parent.entry, tree⟩ :: above)
      (build grandparent.side.other parent.color grandparent.label grandparent.entry
        grandparent.sibling parent.sibling) := by
  rw [holds_cons, Frame.around, build_other, build_other]
  exact holds

/-- The outer rotation and the exchange of colours. -/
theorem raise_ok (holds : Holds store above (grandparent.around (parent.around tree)))
    (outer : parent.side = grandparent.side) :
    ∃ next, (do
        rotate grandparent.side.other grandparent.label
        swapColors parent.label grandparent.label : RbProg X Unit) store = .ok ((), next) ∧
      Kept store next ∧ Holds next above (raised tree parent grandparent) := by
  obtain ⟨one, oneRan, oneKept, oneHolds⟩ := lift_ok holds outer
  -- The parent is on top now, with the grandparent on the other side.
  have top := holds_cons.mp oneHolds
  obtain ⟨parentShows, lowerRep, _⟩ := (rep_build _ _ _ _).mp top.rep
  obtain ⟨grandparentShows, _, _⟩ := (rep_build _ _ _ _).mp lowerRep
  obtain ⟨parentNode, parentLoaded, parentViews⟩ := load_shown parentShows
  obtain ⟨grandparentNode, grandparentLoaded, grandparentViews⟩ := load_shown grandparentShows
  have parentColor : parentNode.color = parent.color := by
    rw [parentViews.color, Shown.build_color]
  have grandparentColor : grandparentNode.color = grandparent.color := by
    rw [grandparentViews.color, Shown.build_color]
  obtain ⟨two, twoRan, twoKept, twoHolds⟩ := setColor_build_ok top grandparent.color
  have below : Holds two (⟨grandparent.side.other, grandparent.color, parent.label, parent.entry, tree⟩
      :: above) (build grandparent.side.other grandparent.color grandparent.label grandparent.entry
        grandparent.sibling parent.sibling) := holds_cons.mpr twoHolds
  obtain ⟨three, threeRan, threeKept, threeHolds⟩ := setColor_build_ok below parent.color
  refine ⟨three, ?_, oneKept.trans (twoKept.trans threeKept), ?_⟩
  · rw [bind_ok oneRan, swapColors, bind_ok parentLoaded, bind_ok grandparentLoaded, parentColor,
      grandparentColor, bind_ok twoRan, threeRan]
  · rw [holds_cons, Frame.around, build_other, build_other] at threeHolds
    exact threeHolds

/-- A current node on the inner side is rotated above its parent. -/
theorem straighten_rotates {side : Side} {color otherColor : Color} {current ptr : Nat}
    {entry otherEntry : Key × Value} {sibling inner far : PtrTree}
    (holds : Holds store above (build side otherColor ptr otherEntry sibling
      (build side color current entry inner far))) :
    ∃ next, straighten side current ptr store = .ok (current, next) ∧ Kept store next ∧
      Holds next above (build side color current entry
        (build side otherColor ptr otherEntry sibling inner) far) := by
  obtain ⟨ptrShows, _, _⟩ := (rep_build _ _ _ _).mp holds.rep
  obtain ⟨ptrNode, ptrLoaded, ptrViews⟩ := load_shown ptrShows
  have currentEq : current = ptrNode.child side.other := by
    rw [ptrViews.child, Shown.build_far, rootLabel_build]
  obtain ⟨next, ran, kept, nextHolds⟩ := rotate_ok holds
  obtain ⟨_, lowerRep, _⟩ := (rep_build _ _ _ _).mp nextHolds.rep
  obtain ⟨lowerShows, _, _⟩ := (rep_build _ _ _ _).mp lowerRep
  obtain ⟨node, loaded, nodeViews⟩ := load_shown lowerShows
  have parentEq : node.parent = current := by rw [nodeViews.parent, Shown.build_parent]
  refine ⟨next, ?_, kept, nextHolds⟩
  rw [straighten, bind_ok ptrLoaded, if_pos currentEq, bind_ok ran, bind_ok loaded, parentEq]
  rfl

/-- An inner place is turned outwards. -/
theorem straighten_inner_ok (holds : Holds store above (parent.around tree))
    (red : tree.rootColor = .red) :
    ∃ next, straighten parent.side.other (rootLabel tree) parent.label store =
        .ok ((turned parent tree).2.label, next) ∧ Kept store next ∧
      Holds next above ((turned parent tree).2.around (turned parent tree).1) ∧
      rootLabel (turned parent tree).1 = parent.label := by
  obtain ⟨side, color, label, entry, sibling⟩ := parent
  cases tree with
  | leaf => cases red
  | node treeColor treeLabel treeEntry left right =>
      cases side with
      | left =>
          have seen : Holds store above (build .right color label entry sibling
            (build .right treeColor treeLabel treeEntry right left)) := holds
          obtain ⟨next, ran, kept, nextHolds⟩ := straighten_rotates seen
          exact ⟨next, ran, kept, nextHolds, rfl⟩
      | right =>
          have seen : Holds store above (build .left color label entry sibling
            (build .left treeColor treeLabel treeEntry left right)) := holds
          obtain ⟨next, ran, kept, nextHolds⟩ := straighten_rotates seen
          exact ⟨next, ran, kept, nextHolds, rfl⟩

theorem nonempty_of_red {tree : PtrTree} (red : tree.rootColor = .red) : tree ≠ .leaf := by
  rintro rfl
  cases red

/-- The two children of a node are different. -/
theorem rootLabel_ne_sibling {frame : PtrFrame} (holds : Holds store (frame :: above) tree)
    (nonempty : tree ≠ .leaf) : rootLabel tree ≠ rootLabel frame.sibling := by
  cases tree with
  | leaf => exact absurd rfl nonempty
  | node color label entry left right =>
      have inTree : label ∈ labels (.node color label entry left right) := by simp [labels, inorder]
      rcases rootLabel_cases frame.sibling with empty | inSibling
      · rw [empty]
        exact ne_null_of_view holds.rep.1
      · intro same
        have inAbove : label ∈ labelsAbove (frame :: above) := by
          rw [← same] at inSibling
          exact List.mem_cons_of_mem _ (List.mem_append_left _ inSibling)
        exact (List.nodup_append.mp holds.nodup).2.2 label inTree label inAbove rfl

/-- An outer place stays as it is. -/
theorem straighten_outer_ok (holds : Holds store above (parent.around tree))
    (red : tree.rootColor = .red) :
    straighten parent.side (rootLabel tree) parent.label store = .ok (parent.label, store) := by
  obtain ⟨parentShows, _, _⟩ := (rep_build _ _ _ _).mp holds.rep
  obtain ⟨node, loaded, views⟩ := load_shown parentShows
  have siblingEq : node.child parent.side.other = rootLabel parent.sibling := by
    rw [views.child, Shown.build_far]
  have different : rootLabel tree ≠ node.child parent.side.other := by
    rw [siblingEq]
    exact rootLabel_ne_sibling (holds_cons.mpr holds) (nonempty_of_red red)
  rw [straighten, bind_ok loaded, if_neg different]
  rfl

end Rebalancing

end StoredsBench.Rbtree
