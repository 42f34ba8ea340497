/-
Module: StoredsBench.Rbtree.Durability
Layer: Correctness
Purpose: What `RbtreePmem` has made durable when an insert returns.  The pointer to the first node is
  not persisted, a new node only when it is recoloured, and the colours a rotation exchanges are not
  persisted either: behind every insert there is something a crash may lose.
Trusted boundary: none
Main exports: SameTree, InsertsDurable, Lost, rbtreePmem_inserts_durable_iff
-/
import StoredsBench.Rbtree.Effects
import StoredsBench.Rbtree.PoolRefinement

namespace StoredsBench.Rbtree

open Lib Lib.RedBlack Lib.RedBlack.Tree Lib.SortedAssoc

/-- The nodes at and below the root are those of this tree. -/
structure TreeAt (contents : Store RbNode Ptr) (tree : PtrTree) : Prop where
  root : contents.root = rootLabel tree
  rep : Rep (viewAt contents.heap) null tree

/-- The same root, nodes, links, colours, keys and values. -/
def SameTree (recovered contents : Store RbNode Ptr) : Prop :=
  ∃ tree, TreeAt recovered tree ∧ TreeAt contents tree

/-- After these inserts every crash leaves the tree that is in memory, wherever objects lie and whatever
the allocator leaves in them. -/
def InsertsDurable (pairs : List (Key × Value)) : Prop :=
  ∀ garbage behind rootOid store recovered, rootOid ≠ null →
    insertEach (RbtreePmem.pool garbage behind).insert pairs (newPool rootOid) = .ok ((), store) →
    Recovers readPool (memory (newPool rootOid)) store.aux.trail recovered →
    SameTree recovered (memory store)

/-! ### Two memories with one tree -/

section Trees

variable {X : Type} {tree : PtrTree}

/-- What a tree determines of the nodes. -/
theorem Rep.same_views {views otherViews : Nat → Option Shown} {parent : Nat}
    (rep : Rep views parent tree) (otherRep : Rep otherViews parent tree) :
    ∀ address ∈ tree.labels, views address = otherViews address := by
  induction tree generalizing parent with
  | leaf =>
      intro address member
      cases member
  | node color label entry left right leftSame rightSame =>
      obtain ⟨here, leftRep, rightRep⟩ := rep
      obtain ⟨there, otherLeftRep, otherRightRep⟩ := otherRep
      intro address member
      simp only [labels, inorder, List.map_append, List.map_cons, List.mem_append,
        List.mem_cons] at member
      rcases member with inLeft | rfl | inRight
      · exact leftSame leftRep otherLeftRep address inLeft
      · exact here.trans there.symm
      · exact rightSame rightRep otherRightRep address inRight

/-- Every node shows its entry. -/
theorem Rep.shows_entry {views : Nat → Option Shown} {parent : Nat} (rep : Rep views parent tree) :
    ∀ pair ∈ tree.inorder, ∃ shown, views pair.1 = some shown ∧ shown.entry = pair.2 := by
  induction tree generalizing parent with
  | leaf =>
      intro pair member
      cases member
  | node color label entry left right leftShows rightShows =>
      obtain ⟨here, leftRep, rightRep⟩ := rep
      intro pair member
      simp only [inorder, List.mem_append, List.mem_cons] at member
      rcases member with inLeft | rfl | inRight
      · exact leftShows leftRep pair inLeft
      · exact ⟨_, here, rfl⟩
      · exact rightShows rightRep pair inRight

/-- All objects of the heap are nodes of the tree. -/
theorem Stores.mem_labels {store : Store RbNode X} (stores : Stores store tree) {address : Ptr}
    {node : RbNode} (live : store.heap.get? address = some node) : address ∈ tree.labels := by
  by_contra outside
  have nodup : (address :: tree.labels).Nodup :=
    List.nodup_cons.mpr ⟨outside, (List.nodup_append.mp stores.holds.nodup).1⟩
  have used : ∀ label ∈ address :: tree.labels, 0 < label ∧ label ≤ store.heap.size := by
    intro label member
    rcases List.mem_cons.mp member with rfl | inside
    · exact Heap.bounds_of_get? live
    · obtain ⟨shown, found⟩ := stores.holds.rep.shows label inside
      obtain ⟨other, otherLive, _⟩ := exists_live found
      exact Heap.bounds_of_get? otherLive
  have few := Heap.length_le_size nodup used
  rw [List.length_cons, ← stores.size] at few
  exact absurd few (Nat.not_succ_le_self _)

end Trees

/-! ### What a crash may lose -/

section Losses

variable {initial : Store RbNode Ptr} {store start final : RbPmem} {tree : PtrTree}

/-- A crash may leave this content at a place. -/
abbrev MayHold (initial : Store RbNode Ptr) (store : RbPmem) (place : RbPlace) (content : Content) : Prop :=
  (shelfAt readPool initial store.aux.trail place).May (some content)

/-- The root pointer, a key or a colour is not durable. -/
inductive Lost (initial : Store RbNode Ptr) (store : RbPmem) : Prop where
  | root (rooted : store.root ≠ null) (may : MayHold initial store (.root ()) (.pointer (some null)))
  | key {address : Ptr} {node : RbNode} {other : Key} (live : store.heap.get? address = some node)
      (different : other ≠ node.key)
      (may : MayHold initial store (.node address .key) (.word (some other)))
  | color {address : Ptr} {node : RbNode} (live : store.heap.get? address = some node)
      (red : node.color = .red)
      (may : MayHold initial store (.node address .color) (.byte (some (colorByte .black))))

/-- A crash may change one member of a node. -/
theorem recovers_changed (accounted : Accounted readPool initial store) {address : Ptr} {node : RbNode}
    {field : RbField} {change : RbNode → RbNode} (live : store.heap.get? address = some node)
    (touches : Touches field change)
    (may : MayHold initial store (.node address field) ((change node).content field)) :
    Recovers readPool initial store.aux.trail
      { memory store with heap := (memory store).heap.set address (change node) } := by
  apply accounted.recovers
  intro place
  cases place with
  | root member => exact Or.inl rfl
  | node other otherField =>
      have memoryLive : (memory store).heap.get? address = some node := live
      have changed := Heap.get?_set memoryLive (change node) other
      by_cases isHere : other = address
      · subst isHere
        rw [if_pos rfl] at changed
        by_cases isField : otherField = field
        · subst isField
          apply Or.inr
          simp only [readPool, readObjects, changed, Option.map_some]
          exact may
        · apply Or.inl
          simp only [readPool, readObjects, changed, memoryLive, Option.map_some,
            touches node otherField isField]
      · rw [if_neg isHere] at changed
        exact Or.inl (congrArg (Option.map _) changed)

/-- A node of the tree that shows something else. -/
theorem not_sameTree {recovered contents : Store RbNode Ptr} {address : Ptr}
    (stores : Stores contents tree) (member : address ∈ tree.labels)
    (different : viewAt recovered.heap address ≠ viewAt contents.heap address) :
    ¬ SameTree recovered contents := by
  rintro ⟨other, there, here⟩
  obtain rfl : other = tree := here.rep.unique stores.holds.rep (here.root.symm.trans stores.holds.root)
  exact different (there.rep.same_views here.rep address member)

theorem not_sameTree_changed (stores : Stores (memory store) tree) {address : Ptr} {node : RbNode}
    {change : RbNode → RbNode} (live : store.heap.get? address = some node)
    (different : ∀ shown, Views node shown → ¬ Views (change node) shown) :
    ¬ SameTree { memory store with heap := (memory store).heap.set address (change node) }
      (memory store) := by
  have member := stores.mem_labels (show (memory store).heap.get? address = some node from live)
  apply not_sameTree stores member
  intro same
  obtain ⟨shown, found⟩ := stores.holds.rep.shows address member
  obtain ⟨held, heldLive, viewed⟩ := exists_live found
  obtain rfl : node = held := Option.some.inj (live.symm.trans heldLive)
  have changed := Heap.get?_set live (change node) address
  rw [if_pos rfl] at changed
  obtain ⟨other, otherLive, otherViewed⟩ := exists_live (same.trans found)
  obtain rfl : change node = other := Option.some.inj (changed.symm.trans otherLive)
  exact different shown (views_of_view viewed) (views_of_view otherViewed)

/-- What is lost shows after a crash. -/
theorem Lost.crash (lost : Lost initial store) (accounted : Accounted readPool initial store)
    (stores : Stores (memory store) tree) :
    ∃ recovered, Recovers readPool initial store.aux.trail recovered ∧
      ¬ SameTree recovered (memory store) := by
  cases lost with
  | root rooted may =>
      refine ⟨{ memory store with root := null }, ?_, ?_⟩
      · apply accounted.recovers
        intro place
        cases place with
        | root member => exact Or.inr may
        | node address field => exact Or.inl rfl
      · rintro ⟨other, there, here⟩
        have empty : other = .leaf := (rootLabel_eq_null here.rep).mp there.root.symm
        subst empty
        exact rooted here.root
  | key live different may =>
      refine ⟨_, recovers_changed accounted live (touches_key _) may, ?_⟩
      apply not_sameTree_changed stores live
      intro shown views changedViews
      exact different (changedViews.key.trans views.key.symm)
  | color live red may =>
      refine ⟨_, recovers_changed accounted live (touches_color .black) may, ?_⟩
      apply not_sameTree_changed stores live
      intro shown views changedViews
      have black : Color.black = shown.color := changedViews.color
      rw [← views.color, red] at black
      cases black

end Losses


/-! ### The effects of an insert -/

section Inserting

variable {garbage : Ptr → RbNode} {initial : Store RbNode Ptr} {store start middle final : RbPmem}
  {tree : PtrTree} {above : List PtrFrame} {parent grandparent : PtrFrame}

/-- The class, when nothing lies behind an object. -/
abbrev spread (garbage : Ptr → RbNode) : RbPool := RbtreePmem.pool garbage fun _ _ => false

/-- Effects that leave it open that a place holds this content. -/
abbrev Leaving (place : RbPlace) (content : Content) (effect : Effect RbPlace)
    (memory : Store RbNode Ptr) : Prop :=
  effect.Leaves place (some content) (readPool memory place)

theorem writes_leaving {place : RbPlace} {content : Content}
    (plain : ∀ address count, stringBytes address count place = false) :
    Writes (spread garbage) (Leaving place content) := by
  constructor
  · exact fun _ _ => trivial
  · intro transactional
    cases transactional
  · exact fun _ address count _ => plain address count

theorem transacts_leaving (place : RbPlace) (content : Content) : Transacts (Leaving place content) :=
  ⟨fun _ => trivial, fun _ => trivial⟩

/-- The key of a new node is persisted with the whole node only. -/
theorem allows_leaving_key {other : Key} (same : ∀ address, (garbage address).key = other) (fresh : Ptr) :
    Allows (spread garbage) (Leaving (.node fresh .key) (.word (some other))) := by
  constructor
  · exact writes_leaving fun _ _ => rfl
  · intro address memory live inside
    obtain rfl : fresh = address := by simpa [nodeBytes] using inside
    have found : memory.heap.get? fresh = some (garbage fresh) := live
    simp only [readPool, readObjects, found, Option.map_some, RbNode.content, same]
  · intro _ address field memory behindKey
    have ahead : ¬ field.rank ≤ RbField.key.rank :=
      fun reaches => absurd (behindKey.trans reaches) (by decide)
    simp [Effect.Leaves, RbPool.rangeFrom, tailBytes, ahead, RbtreePmem.pool]
  · exact fun _ _ => rfl

theorem blackenRoot_traced {allowed : Effect RbPlace → Store RbNode Ptr → Prop}
    (traced : Traced readPool allowed start store) (writes : Writes (spread garbage) allowed)
    (whole : ∀ memory, allowed (.persist (nodeBytes store.root)) memory)
    (ran : (spread garbage).blackenRoot store = .ok ((), final)) :
    Traced readPool allowed start final := by
  have emits : Emits readPool false allowed (do
      (spread garbage).mode.addRange (nodeBytes store.root)
      storeColor .black store.root
      (spread garbage).mode.persist (nodeBytes store.root)) := by
    apply (emits_addRange writes _).bind
    intro _
    apply (emits_storeField writes (touches_color .black)).bind
    intro _
    exact Mode.emits_persist fun _ => whole
  exact traced.step emits ran

/-- What a rotation leaves: the demoted node is red, and a crash may bring back that it was black. -/
def Demoted (initial : Store RbNode Ptr) (store : RbPmem) : Prop :=
  ∃ address node, store.heap.get? address = some node ∧ node.color = .red ∧ address ≠ store.root ∧
    MayHold initial store (.node address .color) (.byte (some (colorByte .black)))

/-- The body of the loop. -/
theorem rebalance_eq (holds : Holds store (parent :: grandparent :: above) tree) (current : Ptr) :
    (spread garbage).rebalance grandparent.side current parent.label grandparent.label store =
      (if grandparent.sibling.rootColor = .red then do
        (spread garbage).recolor grandparent.label parent.label (rootLabel grandparent.sibling)
        return grandparent.label
      else do
        (spread garbage).turn grandparent.side current parent.label grandparent.label
        return parent.label : RbPmemProg Ptr) store := by
  obtain ⟨node, loaded, uncleEq, colorRead⟩ := uncle_ok holds
  have body : (spread garbage).rebalance grandparent.side current parent.label grandparent.label = (do
      let contents ← Prog.load grandparent.label
      let redUncle ← isRed (contents.child grandparent.side.other)
      if redUncle then
        (spread garbage).recolor grandparent.label parent.label (contents.child grandparent.side.other)
        return grandparent.label
      else
        (spread garbage).turn grandparent.side current parent.label grandparent.label
        return parent.label) := rfl
  rw [body, bind_ok loaded, uncleEq, bind_ok colorRead]
  simp only [decide_eq_true_eq]

/-- The trail of a recolouring; only nodes above the place are persisted. -/
theorem recolor_traced {fresh : Ptr} {other : Key} {result : Ptr}
    (same : ∀ address, (garbage address).key = other)
    (holds : Holds store (parent :: grandparent :: above) tree)
    (redUncle : grandparent.sibling.rootColor = .red) (member : fresh ∈ tree.labels)
    (traced : Traced readPool (Leaving (.node fresh .key) (.word (some other))) start store)
    (ran : (spread garbage).rebalance grandparent.side (rootLabel tree) parent.label grandparent.label
      store = .ok (result, middle)) :
    Traced readPool (Leaving (.node fresh .key) (.word (some other))) start middle := by
  rw [rebalance_eq holds, if_pos redUncle] at ran
  have notAbove : ∀ address ∈ labelsAbove (parent :: grandparent :: above), fresh ≠ address :=
    fun address isAbove => (List.nodup_append.mp holds.nodup).2.2 fresh member address isAbove
  have uncleMember : rootLabel grandparent.sibling ∈ grandparent.sibling.labels :=
    rootLabel_mem (nonempty_of_red redUncle)
  have spared : ∀ address ∈ [grandparent.label, parent.label, rootLabel grandparent.sibling],
      ∀ memory, Leaving (.node fresh .key) (.word (some other)) (.persist (nodeBytes address)) memory := by
    intro address isOne memory
    have isAbove : address ∈ labelsAbove (parent :: grandparent :: above) := by
      simp only [List.mem_cons, List.not_mem_nil, or_false] at isOne
      rcases isOne with rfl | rfl | rfl
      · simp [labelsAbove]
      · simp [labelsAbove]
      · simp [labelsAbove, uncleMember]
    have different : (fresh == address) = false := beq_false_of_ne (notAbove address isAbove)
    exact different
  have emits : Emits readPool false (Leaving (.node fresh .key) (.word (some other))) (do
      (spread garbage).recolor grandparent.label parent.label (rootLabel grandparent.sibling)
      return grandparent.label : RbPmemProg Ptr) :=
    (emits_recolor (allows_leaving_key same fresh).toWrites fun _ => spared).bind fun _ => Emits.pure _
  exact traced.step emits ran

/-- The trail of the rotations: the exchange of the colours is the last thing that happens. -/
theorem turn_demotes {result : Ptr} (accounted : Accounted readPool initial store)
    (holds : Holds store (parent :: grandparent :: above) tree) (red : tree.rootColor = .red)
    (redParent : parent.color = .red) (black : grandparent.color = .black)
    (blackUncle : grandparent.sibling.rootColor = .black)
    (ran : (spread garbage).rebalance grandparent.side (rootLabel tree) parent.label grandparent.label
      store = .ok (result, final)) :
    Accounted readPool initial final ∧ Demoted initial final := by
  have inMemory := RbPool.holds_memory.mpr holds
  obtain ⟨cursor, next, memoryRan, _, nextHolds, _⟩ :=
    RbtreePmem.rebalances.rotates inMemory red black blackUncle
  obtain ⟨_, finalEq⟩ := ((spread garbage).rebalance_performs _ _ _ _ memoryRan).of_ok ran
  rw [rebalance_eq holds, if_neg (by rw [blackUncle]; decide)] at ran
  obtain ⟨_, last, turnRan, done⟩ := bind_ok_inv ran
  cases done
  obtain ⟨promoted, one, straightened, turnRan⟩ := bind_ok_inv turnRan
  obtain ⟨_, two, rotated, swapped⟩ := bind_ok_inv turnRan
  -- The colour of the grandparent before the exchange.
  obtain ⟨same, first, second, frame, place, memoryStraightened, memoryRotated, placeHolds, labelEq,
    placeBlack⟩ := turn_rotates inMemory red black
  obtain ⟨rfl, oneEq⟩ :=
    ((spread garbage).straighten_performs _ _ _ memoryStraightened).of_ok straightened
  rw [← oneEq] at memoryRotated
  obtain ⟨_, twoEq⟩ := ((spread garbage).rotate_performs _ _ memoryRotated).of_ok rotated
  have placeNonempty : place ≠ .leaf := by
    rintro rfl
    exact ne_null_of_view inMemory.repAbove.2.2.1 labelEq.symm
  obtain ⟨node, loaded, nodeColor, _⟩ := placeHolds.load placeNonempty
  rw [labelEq, ← twoEq] at loaded
  have accountedTwo : Accounted readPool initial two := by
    obtain ⟨_, _, accountedOne, _⟩ :=
      accounted.step (emits_straighten (allows_anything (spread garbage)) _ _ _) straightened
    obtain ⟨_, _, accountedTwo, _⟩ :=
      accountedOne.step (emits_rotate (allows_anything (spread garbage)) _ _) rotated
    exact accountedTwo
  have live := Prog.load_inv loaded
  have content : readPool (memory two) (.node grandparent.label .color) =
      some (.byte (some (colorByte .black))) := by
    simp only [readPool, readObjects, live, Option.map_some, RbNode.content, nodeColor, placeBlack]
  have may : MayHold initial two (.node grandparent.label .color) (.byte (some (colorByte .black))) := by
    have present := accountedTwo.framed.may (accountedTwo.idle (.node grandparent.label .color))
    rw [content] at present
    exact present
  -- The exchange.
  have writes : Writes (spread garbage)
      (Leaving (.node grandparent.label .color) (.byte (some (colorByte .black)))) :=
    writes_leaving fun _ _ => rfl
  have traced : Traced readPool
      (Leaving (.node grandparent.label .color) (.byte (some (colorByte .black)))) two final :=
    (Traced.refl accountedTwo.stopped).step (emits_swapColors writes _ _) swapped
  obtain ⟨lastFrame, lastPlace, lastHolds, lastLabel, lastRed⟩ :=
    rotated_place nextHolds red redParent
  obtain ⟨lastNode, lastLoaded, lastColor, _⟩ := lastHolds.load (nonempty_of_red lastRed)
  have notRoot := lastHolds.ne_root (nonempty_of_red lastRed) (List.cons_ne_nil _ _)
  rw [lastLabel, ← finalEq] at lastLoaded notRoot
  have lastLive := Prog.load_inv lastLoaded
  refine ⟨traced.accounted accountedTwo, grandparent.label, lastNode, lastLive, lastColor.trans lastRed,
    notRoot, ?_⟩
  apply traced.leaves accountedTwo (fun _ _ leaves => leaves) (fun _ => may)
  simp [readPool, readObjects, lastLive]

/-- The loop of `fix_violation` at a new node: as long as colours change it leaves open what the key of
the new node is, and a rotation leaves another colour open. -/
theorem fixLoop_loses {fresh : Ptr} {other : Key} {color : Color} {n fuel : Nat}
    (same : ∀ address, (garbage address).key = other) (accounted : Accounted readPool initial start)
    (holds : Holds store above tree) (nonempty : tree ≠ .leaf) (balanced : Balanced tree color n)
    (fits : Fits above .black n) (bound : above.length < fuel) (member : fresh ∈ tree.labels)
    (below : fresh ≠ store.root)
    (traced : Traced readPool (Leaving (.node fresh .key) (.word (some other))) start store)
    (ran : fixLoop (spread garbage).rebalance fuel (rootLabel tree) store = .ok ((), final)) :
    (fresh ≠ final.root ∧
      Traced readPool (Leaving (.node fresh .key) (.word (some other))) start final) ∨
    (Accounted readPool initial final ∧ Demoted initial final) := by
  obtain ⟨fuel, rfl⟩ : ∃ less, fuel = less + 1 := ⟨fuel - 1, by omega⟩
  fun_induction fixUp tree above generalizing store color n fuel with
  | case1 tree parent grandparent above conflict redUncle inductionHypothesis =>
      obtain rfl : color = .red := balanced.rootColor_eq.symm.trans conflict.1
      obtain ⟨_, siblingBalanced, uncle, uncleBalanced, aboveFits⟩ := fits.conflict conflict.2
      obtain rfl : uncle = .red := uncleBalanced.rootColor_eq.symm.trans redUncle
      rw [fixLoop_step holds conflict.1 conflict.2] at ran
      obtain ⟨result, middle, bodyRan, loopRan⟩ := bind_ok_inv ran
      have inMemory := RbPool.holds_memory.mpr holds
      obtain ⟨next, memoryRan, _, nextHolds⟩ :=
        RbtreePmem.rebalances.recolors inMemory conflict.1 redUncle
      obtain ⟨resultEq, middleEq⟩ := ((spread garbage).rebalance_performs _ _ _ _ memoryRan).of_ok bodyRan
      rw [← middleEq] at nextHolds
      have middleHolds := RbPool.holds_memory.mp nextHolds
      have recoloredBalanced := balanced.recolored siblingBalanced uncleBalanced
      have cursor : rootLabel (recolored tree parent grandparent) = grandparent.label :=
        rootLabel_build _ _ _ _
      have sameRoot : middle.root = store.root := by
        rw [middleHolds.root, holds.root, plug, plug]
        apply rootLabel_plug
        intro _
        rw [cursor, Frame.around, rootLabel_build]
      have stillMember : fresh ∈ (recolored tree parent grandparent).labels := by
        rw [recolored, (labels_build _ _ _ _).mem_iff, List.mem_cons, List.mem_append,
          (labels_build _ _ _ _).mem_iff, List.mem_cons, List.mem_append]
        exact Or.inr (Or.inl (Or.inr (Or.inl member)))
      simp only [List.length_cons] at bound
      obtain ⟨less, rfl⟩ : ∃ less, fuel = less + 1 := ⟨fuel - 1, by omega⟩
      rw [resultEq, ← cursor] at loopRan
      apply inductionHypothesis middleHolds (nonempty_of_red recoloredBalanced.rootColor_eq)
        recoloredBalanced aboveFits stillMember
      · rw [sameRoot]
        exact below
      · exact recolor_traced same holds redUncle member traced bodyRan
      · exact (by omega : above.length < less + 1)
      · exact loopRan
  | case2 tree parent grandparent above conflict blackUncle inductionHypothesis =>
      obtain ⟨black, _⟩ := fits.conflict conflict.2
      rw [fixLoop_step holds conflict.1 conflict.2] at ran
      obtain ⟨result, middle, bodyRan, loopRan⟩ := bind_ok_inv ran
      have inMemory := RbPool.holds_memory.mpr holds
      obtain ⟨cursor, next, memoryRan, _, nextHolds, settled⟩ :=
        RbtreePmem.rebalances.rotates inMemory conflict.1 black (eq_black_of_not_red blackUncle)
      obtain ⟨resultEq, middleEq⟩ := ((spread garbage).rebalance_performs _ _ _ _ memoryRan).of_ok bodyRan
      rw [← middleEq] at nextHolds
      have middleHolds := RbPool.holds_memory.mp nextHolds
      simp only [List.length_cons] at bound
      obtain ⟨less, rfl⟩ : ∃ less, fuel = less + 1 := ⟨fuel - 1, by omega⟩
      rw [resultEq, fixLoop_settled middleHolds settled] at loopRan
      cases loopRan
      apply Or.inr
      exact turn_demotes (traced.accounted accounted) holds conflict.1 conflict.2 black
        (eq_black_of_not_red blackUncle) bodyRan
  | case3 tree parent grandparent above calm =>
      rw [fixLoop_stops holds nonempty] at ran
      · cases ran
        exact Or.inl ⟨below, traced⟩
      · by_cases red : tree.rootColor = .red
        · refine Or.inr fun frame isFirst => ?_
          obtain rfl : parent = frame := Option.some.inj isFirst
          exact eq_black_of_not_red fun redParent => calm ⟨red, redParent⟩
        · exact Or.inl (eq_black_of_not_red red)
  | case4 tree above short =>
      rw [fixLoop_stops holds nonempty] at ran
      · cases ran
        exact Or.inl ⟨below, traced⟩
      · refine Or.inr fun frame isFirst => ?_
        cases above with
        | nil => cases isFirst
        | cons parent above =>
            obtain rfl : parent = frame := Option.some.inj isFirst
            cases above with
            | nil => exact fits.single
            | cons grandparent above => exact absurd rfl (short parent grandparent above)

/-! ### Whole inserts -/

theorem overwrite_inv {address : Ptr} {value : Value}
    (ran : (spread garbage).overwrite address value store = .ok ((), final)) :
    ∃ node, store.heap.get? address = some node ∧ final.root = store.root ∧
      final.heap = store.heap.set address { node with value := node.value.copyString value } := by
  obtain ⟨_, one, ranged, ran⟩ := bind_ok_inv (show (do
    (spread garbage).mode.addRange (nodeBytes address)
    storeValue value address
    (spread garbage).mode.persist (stringBytes address (value.chars.length + 1)) : RbPmemProg Unit)
      store = _ from ran)
  cases ranged
  obtain ⟨_, two, stored, persisted⟩ := bind_ok_inv ran
  cases persisted
  obtain ⟨changed, modified, rfl⟩ := perform_inv stored
  obtain ⟨node, _, live, changedEq, rfl⟩ := Prog.modify_inv modified
  cases changedEq
  exact ⟨node, live, rfl, rfl⟩

/-- A new node is the next one in the order of allocation. -/
theorem attach_address {side : Side} {current address : Ptr} {key : Key} {value : Value}
    (ran : (spread garbage).attach side current key value store = .ok (address, final)) :
    address = store.heap.size + 1 := by
  obtain ⟨_, one, ranged, ran⟩ := bind_ok_inv (show (do
    (spread garbage).mode.addRange (nodeBytes current)
    let newNode ← (spread garbage).createNewNode key value
    storeChild side newNode current
    storeParent current newNode
    (spread garbage).mode.persist ((spread garbage).rangeFrom current (childField side))
    return newNode : RbPmemProg Ptr) store = _ from ran)
  cases ranged
  obtain ⟨newNode, two, created, ran⟩ := bind_ok_inv ran
  obtain ⟨_, three, _, ran⟩ := bind_ok_inv ran
  obtain ⟨_, four, _, ran⟩ := bind_ok_inv ran
  obtain ⟨_, five, _, returned⟩ := bind_ok_inv ran
  cases returned
  obtain ⟨fresh, six, allocated, ran⟩ := bind_ok_inv created
  obtain ⟨_, seven, _, ran⟩ := bind_ok_inv ran
  obtain ⟨_, eight, _, returned⟩ := bind_ok_inv ran
  cases returned
  obtain ⟨changed, pushed, _⟩ := perform_inv allocated
  cases pushed
  rfl

section Calls

variable {key : Key} {value : Value}

/-- The pointer to the first node. -/
theorem lost_first (accounted : Accounted readPool initial store) (valid : store.aux.side ≠ null)
    (stores : Stores (memory store) .leaf)
    (ran : (spread garbage).insert key value store = .ok (1, final))
    (grown : Stores (memory final) (grow .leaf (key, value))) : Lost initial final := by
  rw [RbPool.insert_empty _ valid stores.holds.root] at ran
  obtain ⟨root, middle, created, ran⟩ := bind_ok_inv ran
  obtain ⟨_, last, fixed, done⟩ := bind_ok_inv ran
  cases done
  obtain ⟨rfl, middleHolds⟩ := RbPool.createRoot_holds stores created
  rw [RbPool.fixViolation, bind_ok (Prog.heapSize_ok middle)] at fixed
  have stops : fixLoop (spread garbage).rebalance (middle.heap.size + 1) (store.heap.size + 1) middle =
      .ok ((), middle) := by
    apply fixLoop_stops (RbPool.holds_memory.mp middleHolds) (by simp)
    exact Or.inr fun frame isFirst => by cases isFirst
  obtain ⟨_, ended, loopRan, blackened⟩ := bind_ok_inv fixed
  obtain rfl : middle = ended := (Prod.mk.inj (Except.ok.inj (stops.symm.trans loopRan))).2
  have writes : Writes (spread garbage) (Leaving (.root ()) (.pointer (some null))) :=
    writes_leaving fun _ _ => rfl
  have traced : Traced readPool (Leaving (.root ()) (.pointer (some null))) store final := by
    apply blackenRoot_traced _ writes (fun _ => rfl) blackened
    apply (Traced.refl accounted.stopped).step _ created
    exact emits_createRoot writes (transacts_leaving _ _) (fun _ _ _ inside => by cases inside) (fun mode => by cases mode) key value
  have before : MayHold initial store (.root ()) (.pointer (some null)) := by
    have present := accounted.framed.may (accounted.idle (.root ()))
    have content : readPool (memory store) (.root ()) = some (.pointer (some null)) :=
      congrArg (fun root => some (Content.pointer (some root))) stores.holds.root
    rw [content] at present
    exact present
  apply Lost.root
  · apply RbPool.root_ne_null grown
    intro empty
    cases empty
  · apply traced.leaves accounted (fun _ _ leaves => leaves) (fun _ => before)
    simp [readPool, readObjects, readRoot]

/-- The last step of `fix_violation` touches the root node only. -/
theorem blackenRoot_inv (ran : (spread garbage).blackenRoot store = .ok ((), final)) :
    ∃ node, store.heap.get? store.root = some node ∧ final.root = store.root ∧
      final.heap = store.heap.set store.root { node with color := .black } := by
  obtain ⟨_, one, ranged, ran⟩ := bind_ok_inv (show (do
    (spread garbage).mode.addRange (nodeBytes store.root)
    storeColor .black store.root
    (spread garbage).mode.persist (nodeBytes store.root) : RbPmemProg Unit) store = _ from ran)
  cases ranged
  obtain ⟨_, two, stored, persisted⟩ := bind_ok_inv ran
  cases persisted
  obtain ⟨changed, modified, rfl⟩ := perform_inv stored
  obtain ⟨node, _, live, changedEq, rfl⟩ := Prog.modify_inv modified
  cases changedEq
  exact ⟨node, live, rfl, rfl⟩

/-- What is lost by a rotation is still lost when the root has become black. -/
theorem Demoted.lost (demoted : Demoted initial store) (accounted : Accounted readPool initial store)
    (ran : (spread garbage).blackenRoot store = .ok ((), final)) : Lost initial final := by
  obtain ⟨address, node, live, red, notRoot, may⟩ := demoted
  have writes : Writes (spread garbage)
      (Leaving (.node address .color) (.byte (some (colorByte .black)))) :=
    writes_leaving fun _ _ => rfl
  have traced : Traced readPool (Leaving (.node address .color) (.byte (some (colorByte .black))))
      store final := by
    apply blackenRoot_traced (Traced.refl accounted.stopped) writes _ ran
    intro memory
    have different : (address == store.root) = false := beq_false_of_ne notRoot
    exact different
  obtain ⟨rootNode, rootLive, _, heapEq⟩ := blackenRoot_inv ran
  have finalLive : final.heap.get? address = some node := by
    rw [heapEq, Heap.get?_set rootLive, if_neg notRoot, live]
  apply Lost.color finalLive red
  apply traced.leaves accounted (fun _ _ leaves => leaves) (fun _ => may)
  have memoryLive : (memory final).heap.get? address = some node := finalLive
  simp [readPool, readObjects, memoryLive]

/-- What `fix_violation` loses behind a new node. -/
theorem lost_attach {other : Key} (same : ∀ address, (garbage address).key = other)
    (different : other ≠ key) (accounted : Accounted readPool initial store)
    (valid : store.aux.side ≠ null) (stores : Stores (memory store) tree) (nonempty : tree ≠ .leaf)
    (located : locate key tree [] = (.leaf, above))
    (ran : (spread garbage).insert key value store = .ok (1, final))
    (grown : Stores (memory final) (grow tree (key, value))) : Lost initial final := by
  obtain ⟨address, middle, upsertRan, upserted⟩ :=
    (spread garbage).bstUpsert_stores stores nonempty key value
  rw [located] at upserted
  obtain ⟨rfl, holds⟩ := upserted
  have notNull : store.heap.size + 1 ≠ null := Nat.succ_ne_zero _
  rw [RbPool.insert_rooted _ valid (RbPool.root_ne_null stores nonempty) key value upsertRan,
    if_neg notNull] at ran
  obtain ⟨_, last, fixed, done⟩ := bind_ok_inv ran
  cases done
  rw [RbPool.fixViolation, bind_ok (Prog.heapSize_ok middle)] at fixed
  obtain ⟨_, ended, loopRan, blackened⟩ := bind_ok_inv fixed
  have allows := allows_leaving_key same (store.heap.size + 1)
  have traced : Traced readPool
      (Leaving (.node (store.heap.size + 1) .key) (.word (some other))) store middle :=
    (Traced.refl accounted.stopped).step (emits_bstUpsert allows (transacts_leaving _ _) _ _ _ _) upsertRan
  have middleHolds := RbPool.holds_memory.mp holds
  have notEmpty : above ≠ [] := by
    rintro rfl
    have whole := plug_locate key tree []
    rw [located] at whole
    exact nonempty whole.symm
  have below := middleHolds.ne_root (by simp) notEmpty
  have bound : above.length < middle.heap.size + 1 := by
    have few := length_le_labelsAbove above
    rw [middleHolds.size, List.length_append]
    omega
  obtain ⟨n, balanced⟩ := stores.balanced
  obtain ⟨color, m, fits, placeBalanced⟩ := Fits.locate key .root balanced
  rw [located] at fits placeBalanced
  cases placeBalanced with
  | leaf =>
      have member : store.heap.size + 1 ∈
          labels (.node .red (store.heap.size + 1) (key, value) .leaf .leaf) := by
        simp [labels, inorder]
      rcases fixLoop_loses same accounted middleHolds (by simp) (.red .leaf .leaf) fits bound member
        below traced loopRan with ⟨notRoot, loopTraced⟩ | ⟨accountedLoop, demoted⟩
      · have finalTraced := by
          apply blackenRoot_traced loopTraced allows.toWrites _ blackened
          intro memory
          have different : (store.heap.size + 1 == ended.root) = false := beq_false_of_ne notRoot
          exact different
        have inTree : (store.heap.size + 1, (key, value)) ∈ (grow tree (key, value)).inorder := by
          have sizeEq : store.heap.size = tree.labels.length := stores.size
          rw [grow, RedBlack.upsert, ← sizeEq, located, inorder_blacken, inorder_fixUp, inorder_plug]
          simp [inorder]
        obtain ⟨shown, found, entryEq⟩ := grown.holds.rep.shows_entry _ inTree
        obtain ⟨node, live, viewed⟩ := exists_live found
        have keyEq : node.key = key := by
          rw [(views_of_view viewed).key, entryEq]
        apply Lost.key live
        · rw [keyEq]
          exact different
        · apply finalTraced.may accounted (fun _ _ leaves => leaves)
          · cases old : (memory store).heap.get? (store.heap.size + 1) with
            | none => simp [readPool, readObjects, old]
            | some node => exact absurd rfl (Heap.ne_fresh_of_get? old)
          · simp [readPool, readObjects, live]
      · exact demoted.lost accountedLoop blackened

/-- An update changes nothing but a value. -/
theorem Lost.updated {address : Ptr} (lost : Lost initial store) (accounted : Accounted readPool initial store)
    (ran : (spread garbage).overwrite address value store = .ok ((), final)) : Lost initial final := by
  obtain ⟨old, oldLive, rootEq, heapEq⟩ := overwrite_inv ran
  have kept : ∀ (place : RbPlace) (content : Content),
      (∀ address count, stringBytes address count place = false) → readPool (memory final) place ≠ none →
      MayHold initial store place content → MayHold initial final place content := by
    intro place content plain present may
    have writes : Writes (spread garbage) (Leaving place content) := writes_leaving plain
    have traced : Traced readPool (Leaving place content) store final :=
      (Traced.refl accounted.stopped).step (emits_overwrite writes (transacts_leaving _ _) address value) ran
    exact traced.leaves accounted (fun _ _ leaves => leaves) (fun _ => may) present
  have live : ∀ (other : Ptr) (node : RbNode), store.heap.get? other = some node →
      ∃ now, (memory final).heap.get? other = some now ∧ now.key = node.key ∧ now.color = node.color := by
    intro other node found
    have changed := Heap.get?_set oldLive { old with value := old.value.copyString value } other
    rw [← heapEq] at changed
    by_cases isHere : other = address
    · subst isHere
      obtain rfl : old = node := Option.some.inj (oldLive.symm.trans found)
      rw [if_pos rfl] at changed
      exact ⟨_, changed, rfl, rfl⟩
    · rw [if_neg isHere] at changed
      exact ⟨node, changed.trans found, rfl, rfl⟩
  cases lost with
  | root rooted may =>
      apply Lost.root
      · rw [rootEq]
        exact rooted
      · apply kept _ _ (fun _ _ => rfl) _ may
        simp [readPool, readObjects, readRoot]
  | key found different may =>
      obtain ⟨now, nowLive, keyEq, _⟩ := live _ _ found
      apply Lost.key nowLive
      · rw [keyEq]
        exact different
      · apply kept _ _ (fun _ _ => rfl) _ may
        simp [readPool, readObjects, nowLive]
  | color found red may =>
      obtain ⟨now, nowLive, _, colorEq⟩ := live _ _ found
      apply Lost.color nowLive (colorEq.trans red)
      apply kept _ _ (fun _ _ => rfl) _ may
      simp [readPool, readObjects, nowLive]

theorem lost_update (lost : Lost initial store) (accounted : Accounted readPool initial store)
    (valid : store.aux.side ≠ null) (stores : Stores (memory store) tree) {color : Color} {label : Nat}
    {entry : Key × Value} {left right : PtrTree}
    (located : locate key tree [] = (.node color label entry left right, above))
    (ran : (spread garbage).insert key value store = .ok (1, final)) : Lost initial final := by
  have nonempty : tree ≠ .leaf := by
    rintro rfl
    cases located
  obtain ⟨address, middle, upsertRan, upserted⟩ :=
    (spread garbage).bstUpsert_stores stores nonempty key value
  rw [located] at upserted
  rw [RbPool.insert_rooted _ valid (RbPool.root_ne_null stores nonempty) key value upsertRan,
    if_pos upserted.1] at ran
  cases ran
  rcases RbPool.bstUpsert_inv upsertRan with ⟨_, node, overwritten⟩ | ⟨side, node, attached⟩
  · exact lost.updated accounted overwritten
  · exact absurd ((attach_address attached).symm.trans upserted.1) (Nat.succ_ne_zero _)

end Calls

/-! ### Runs -/

/-- Inserts into a new pool. -/
theorem insertEach_accounted (garbage : Ptr → RbNode) {rootOid : Ptr} (valid : rootOid ≠ null)
    (pairs : List (Key × Value)) (ran : insertEach (spread garbage).insert pairs (newPool rootOid) =
      .ok ((), store)) :
    store.aux.side ≠ null ∧ Accounted readPool (memory (newPool rootOid)) store ∧
      Stores (memory store) (treeOf pairs) := by
  obtain ⟨final, finalRan, side, stores⟩ := RbPool.insertEach_stores (spread garbage)
    (show (newPool rootOid).aux.side ≠ null from valid) (RbPool.newPool_stores rootOid) pairs
  obtain rfl : final = store := (Prod.mk.inj (Except.ok.inj (finalRan.symm.trans ran))).2
  have fresh : Accounted readPool (memory (newPool rootOid)) (newPool rootOid) := Accounted.fresh rfl rfl
  obtain ⟨_, _, accounted, _⟩ := fresh.step (emits_insertEach pairs) ran
  refine ⟨?_, accounted, stores⟩
  rw [side]
  exact valid

/-- After every run something is lost that the last new key brought. -/
theorem exists_lost {rootOid : Ptr} (valid : rootOid ≠ null) (pairs : List (Key × Value))
    (nonempty : pairs ≠ []) :
    ∃ garbage, ∀ store, insertEach (spread garbage).insert pairs (newPool rootOid) = .ok ((), store) →
      Lost (memory (newPool rootOid)) store := by
  induction pairs using List.reverseRecOn with
  | nil => exact absurd rfl nonempty
  | append_singleton pairs pair inductionHypothesis =>
      obtain ⟨key, value⟩ := pair
      -- The run is the earlier inserts and one more.
      have split : ∀ garbage store,
          insertEach (spread garbage).insert (pairs ++ [(key, value)]) (newPool rootOid) =
            .ok ((), store) →
          ∃ middle, insertEach (spread garbage).insert pairs (newPool rootOid) = .ok ((), middle) ∧
            (spread garbage).insert key value middle = .ok (1, store) ∧
            Stores (memory store) (grow (treeOf pairs) (key, value)) := by
        intro garbage store ran
        rw [insertEach_append] at ran
        obtain ⟨_, middle, earlier, last⟩ := bind_ok_inv ran
        obtain ⟨accepted, _, stores⟩ := insertEach_accounted garbage valid pairs earlier
        obtain ⟨final, insertRan, _, grown⟩ :=
          RbPool.insert_stores (spread garbage) accepted stores key value
        rw [insertEach, bind_ok insertRan] at last
        cases last
        exact ⟨middle, earlier, insertRan, grown⟩
      rcases upsert_cases ((treeOf pairs).labels.length + 1) key value (treeOf pairs) with
        ⟨above, located, _⟩ | ⟨above, color, label, old, left, right, located, _⟩
      · have different : key + 1 ≠ key := by simp
        refine ⟨fun _ => ⟨key + 1, CharArray.unwritten _, null, null, null, .red⟩, fun store ran => ?_⟩
        obtain ⟨middle, earlier, insertRan, grown⟩ := split _ store ran
        obtain ⟨accepted, accounted, stores⟩ := insertEach_accounted _ valid pairs earlier
        by_cases empty : treeOf pairs = .leaf
        · rw [empty] at stores grown
          exact lost_first accounted accepted stores insertRan grown
        · exact lost_attach (fun _ => rfl) different accounted accepted stores empty located insertRan grown
      · have notEmpty : pairs ≠ [] := by
          rintro rfl
          cases located
        obtain ⟨garbage, loses⟩ := inductionHypothesis notEmpty
        refine ⟨garbage, fun store ran => ?_⟩
        obtain ⟨middle, earlier, insertRan, _⟩ := split garbage store ran
        obtain ⟨accepted, accounted, stores⟩ := insertEach_accounted garbage valid pairs earlier
        exact lost_update (loses middle earlier) accounted accepted stores located insertRan

end Inserting

theorem not_insertsDurable {pairs : List (Key × Value)} (nonempty : pairs ≠ []) :
    ¬ InsertsDurable pairs := by
  intro durable
  have valid : (1 : Ptr) ≠ null := by decide
  obtain ⟨garbage, loses⟩ := exists_lost valid pairs nonempty
  obtain ⟨store, ran, _, _⟩ := RbPool.insertEach_stores (spread garbage)
    (show (newPool 1).aux.side ≠ null from valid) (RbPool.newPool_stores 1) pairs
  obtain ⟨_, accounted, stores⟩ := insertEach_accounted garbage valid pairs ran
  obtain ⟨recovered, crash, differs⟩ := (loses store ran).crash accounted stores
  exact differs (durable garbage _ 1 store recovered valid ran crash)

/-- Behind no insert does every crash leave the tree that is in memory: a run is durable only when it has
no insert at all. -/
theorem rbtreePmem_inserts_durable_iff (pairs : List (Key × Value)) :
    InsertsDurable pairs ↔ pairs = [] := by
  constructor
  · intro durable
    by_contra nonempty
    exact not_insertsDurable nonempty durable
  · rintro rfl garbage behind rootOid store recovered _ ran crash
    cases ran
    have content := crash (.root ())
    have pointer : Content.pointer (some recovered.root) = Content.pointer (some null) :=
      Option.some.inj content
    have same : recovered.root = null := Option.some.inj (Content.pointer.inj pointer)
    exact ⟨.leaf, ⟨same, trivial⟩, ⟨rfl, trivial⟩⟩

/-- A crash behind the first insert may leave an empty tree. -/
theorem rbtreePmem_first_insert_lost : ∃ value : Value, ¬ InsertsDurable [(5, value)] :=
  ⟨⟨[97], by decide, by decide⟩, not_insertsDurable (List.cons_ne_nil _ _)⟩

end StoredsBench.Rbtree
