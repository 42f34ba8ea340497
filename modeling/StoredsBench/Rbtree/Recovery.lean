/-
Module: StoredsBench.Rbtree.Recovery
Layer: Correctness
Purpose: What a crash leaves of the pool of `RbtreePmemTx`.  As long as no insert rotates at the root
  all stores are logged, and a crash leaves the nodes of the old map or of the new one; a rotation at
  the root leaves a pointer that a crash may take back from then on.
Trusted boundary: none
Main exports: HoldsEntries, rbtreePmemTx_insert_failureAtomic, rbtreePmemTx_inserts_durable_iff
-/
import StoredsBench.Rbtree.Durability
import StoredsBench.Rbtree.Snapshots

namespace StoredsBench.Rbtree

open Lib Lib.RedBlack Lib.RedBlack.Tree Lib.SortedAssoc

/-- The nodes at and below the root are a search tree with these entries, at distinct addresses. -/
def HoldsEntries (entries : List (Key × Value)) (contents : Store RbNode Ptr) : Prop :=
  ∃ tree, TreeAt contents tree ∧ tree.labels.Nodup ∧ tree.entries = entries

/-! ### Memories that read alike -/

section Alike

variable {recovered contents : Store RbNode Ptr} {tree : PtrTree} {entries : List (Key × Value)}

theorem root_of_readPool (same : readPool recovered = readPool contents) :
    recovered.root = contents.root := by
  have pointers : Content.pointer (some recovered.root) = .pointer (some contents.root) :=
    Option.some.inj (congrFun same (.root ()))
  exact Option.some.inj (Content.pointer.inj pointers)

theorem TreeAt.of_readPool (here : TreeAt contents tree) (same : readPool recovered = readPool contents) :
    TreeAt recovered tree where
  root := (root_of_readPool same).trans here.root
  rep := by
    have inhabited : Nonempty RbField := ⟨.key⟩
    have views : viewAt recovered.heap = viewAt contents.heap := by
      funext address
      rw [viewAt, viewAt, get?_eq_of_read RbNode.ext_content same]
    rw [views]
    exact here.rep

theorem IsSearchTree.holdsEntries (holds : IsSearchTree entries contents)
    (same : readPool recovered = readPool contents) : HoldsEntries entries recovered := by
  obtain ⟨tree, holds, sameEntries⟩ := holds
  have here : TreeAt contents tree := ⟨holds.root, holds.rep⟩
  exact ⟨tree, here.of_readPool same, (List.nodup_append.mp holds.nodup).1, sameEntries⟩

end Alike

/-! ### Without a rotation at the root -/

section Calm

variable {store final : RbPmem} {tree : PtrTree} {key : Key} {value : Value}

theorem runRotatesRoot_append (tree : PtrTree) (front back : List (Key × Value)) :
    runRotatesRoot tree (front ++ back) =
      (runRotatesRoot tree front || runRotatesRoot (front.foldl grow tree) back) := by
  induction front generalizing tree with
  | nil => exact (Bool.false_or _).symm
  | cons pair front inductionHypothesis =>
      simp only [List.cons_append, runRotatesRoot, inductionHypothesis, List.foldl_cons, Bool.or_assoc]

end Calm

/-- As long as no insert rotates at the root, an insert is failure-atomic: a crash at any time within it
leaves the nodes of a search tree with the old map or with the new one, and a crash behind it one with
the new map. -/
theorem rbtreePmemTx_insert_failureAtomic (garbage : Ptr → RbNode) (behind : RbPlace → RbPlace → Bool)
    (rootOid : Ptr) (valid : rootOid ≠ null) (pairs : List (Key × Value)) (key : Key) (value : Value)
    (calm : runRotatesRoot .leaf (pairs ++ [(key, value)]) = false) :
    ∃ store final call,
      insertEach (RbtreePmemTx.pool garbage behind).insert pairs (newPool rootOid) = .ok ((), store) ∧
      (RbtreePmemTx.pool garbage behind).insert key value store = .ok (1, final) ∧
      final.aux.trail = store.aux.trail ++ call ∧
      FailureAtomic readPool (memory (newPool rootOid)) store.aux.trail call
        (HoldsEntries (upsertAll pairs []))
        (HoldsEntries (SortedAssoc.upsert key value (upsertAll pairs []))) := by
  rw [runRotatesRoot_append, Bool.or_eq_false_iff, runRotatesRoot, runRotatesRoot, Bool.or_false] at calm
  obtain ⟨store, ran, side, stores, runLogged⟩ := insertEach_logged garbage behind
    (show (newPool rootOid).aux.running = false from rfl) valid (RbPool.newPool_stores rootOid) pairs
  have accepted : store.aux.side ≠ null := by rwa [side]
  obtain ⟨final, insertRan, _, grown⟩ :=
    RbPool.insert_stores (RbtreePmemTx.pool garbage behind) accepted stores key value
  have insertLogged := insert_logged runLogged.stopped accepted stores insertRan grown
  have entriesEq : (pairs.foldl grow .leaf).entries = upsertAll pairs [] :=
    entries_foldl_grow pairs sorted_nil
  have grownEntries := entries_grow stores.sorted (key, value)
  rw [entriesEq] at insertLogged grownEntries
  obtain ⟨steps, trail, run⟩ := runLogged.effects
  obtain ⟨call, callTrail, next⟩ := insertLogged.effects
  obtain rfl : store.aux.trail = steps := trail
  have whole := run.failureAtomic next calm ⟨_, grown.holds, grownEntries⟩
  have before : IsSearchTree (upsertAll pairs []) (memory store) := ⟨_, stores.holds, entriesEq⟩
  refine ⟨store, final, call, ran, insertRan, callTrail, ?_⟩
  apply whole.mono
  · intro recovered same
    exact before.holdsEntries same
  · rintro recovered ⟨contents, holds, same⟩
    exact holds.holdsEntries same

theorem rbtreePmemTx_insert_failureAtomic_calm :
    ∃ value : Value, ∃ store final call,
      insertEach (RbtreePmemTx.pool (fun _ => ⟨0, CharArray.unwritten _, null, null, null, .red⟩)
          fun _ _ => false).insert [(2, value), (1, value)] (newPool 1) = .ok ((), store) ∧
        (RbtreePmemTx.pool (fun _ => ⟨0, CharArray.unwritten _, null, null, null, .red⟩)
          fun _ _ => false).insert 3 value store = .ok (1, final) ∧
        final.aux.trail = store.aux.trail ++ call ∧
        FailureAtomic readPool (memory (newPool 1)) store.aux.trail call
          (HoldsEntries [(1, value), (2, value)]) (HoldsEntries [(1, value), (2, value), (3, value)]) :=
  ⟨⟨[97], by decide, by decide⟩,
    rbtreePmemTx_insert_failureAtomic _ _ 1 (by decide)
      [(2, ⟨[97], by decide, by decide⟩), (1, ⟨[97], by decide, by decide⟩)] 3 _ rfl⟩

/-! ### A rotation at the root -/

section Rotated

variable {above : List PtrFrame} {tree : PtrTree} {parent grandparent : PtrFrame} {key : Key}

theorem labels_plug {other : PtrTree} (same : other.inorder = tree.inorder) :
    (plug above other).labels = (plug above tree).labels := by
  rw [labels, labels, inorder_plug, inorder_plug, same]

/-- The grandparent goes down. -/
theorem rootLabel_rotated (nodup : (rotated tree parent grandparent).labels.Nodup) :
    rootLabel (rotated tree parent grandparent) ≠ grandparent.label := by
  have raisedApart : ∀ (tree : PtrTree) (parent : PtrFrame),
      (raised tree parent grandparent).labels.Nodup →
        rootLabel (raised tree parent grandparent) ≠ grandparent.label := by
    intro tree parent nodup same
    rw [raised, rootLabel_build] at same
    rw [raised, (labels_build _ _ _ _).nodup_iff, List.nodup_cons] at nodup
    apply nodup.1
    rw [same, List.mem_append, (labels_build _ _ _ _).mem_iff]
    exact Or.inr List.mem_cons_self
  by_cases outer : parent.side = grandparent.side
  · rw [rotated, if_pos outer] at nodup ⊢
    exact raisedApart _ _ nodup
  · rw [rotated, if_neg outer] at nodup ⊢
    exact raisedApart _ _ nodup

/-- The fix-up changes the root exactly when it rotates there. -/
theorem rootLabel_fixUp {color : Color} {n : Nat} (red : tree.rootColor = .red)
    (balanced : Balanced tree color n) (fits : Fits above .black n)
    (nodup : (plug above tree).labels.Nodup) :
    rootLabel (fixUp tree above) = rootLabel (plug above tree) ↔ rotatesRoot above = false := by
  fun_induction rotatesRoot above generalizing tree color n with
  | case1 parent grandparent above redParent redUncle inductionHypothesis =>
      obtain rfl : color = .red := balanced.rootColor_eq.symm.trans red
      obtain ⟨_, siblingBalanced, uncle, uncleBalanced, aboveFits⟩ := fits.conflict redParent
      obtain rfl : uncle = .red := uncleBalanced.rootColor_eq.symm.trans redUncle
      have recoloredBalanced := balanced.recolored siblingBalanced uncleBalanced
      have label : rootLabel (recolored tree parent grandparent) =
          rootLabel (grandparent.around (parent.around tree)) := by
        rw [recolored, Frame.around, rootLabel_build, rootLabel_build]
      have sameLabels : (plug above (recolored tree parent grandparent)).labels =
          (plug (parent :: grandparent :: above) tree).labels :=
        labels_plug (inorder_recolored tree parent grandparent)
      rw [fixUp, if_pos ⟨red, redParent⟩, if_pos redUncle,
        ← inductionHypothesis recoloredBalanced.rootColor_eq recoloredBalanced aboveFits (by rwa [sameLabels]),
        plug, plug, rootLabel_plug fun _ => label]
  | case2 parent grandparent above redParent blackUncle =>
      obtain ⟨black, _⟩ := fits.conflict redParent
      have sameLabels : (plug above (rotated tree parent grandparent)).labels =
          (plug (parent :: grandparent :: above) tree).labels :=
        labels_plug (inorder_rotated red parent grandparent)
      rw [fixUp, if_pos ⟨red, redParent⟩, if_neg blackUncle, fixUp_of_black (rotated_black _ _ black)]
      rw [← sameLabels] at nodup
      cases above with
      | nil =>
          have apart := rootLabel_rotated nodup
          have label : rootLabel (plug [parent, grandparent] tree) = grandparent.label := by
            rw [plug, plug, plug, Frame.around, rootLabel_build]
          rw [label]
          exact iff_of_false apart (by decide)
      | cons top above =>
          apply iff_of_true
          · exact rootLabel_plug fun empty => absurd empty (List.cons_ne_nil top above)
          · rfl
  | case3 parent grandparent above black =>
      rw [fixUp, if_neg fun conflict => black conflict.2]
      simp
  | case4 above short =>
      rw [fixUp]
      · simp
      · exact short

/-- An insert changes the root of a tree exactly when it rotates there. -/
theorem rootLabel_grow {value : Value} (balanced : ∃ n, Balanced tree .black n)
    (nodup : (grow tree (key, value)).labels.Nodup) (nonempty : tree ≠ .leaf) :
    rootLabel (grow tree (key, value)) = rootLabel tree ↔ insertRotatesRoot key tree = false := by
  obtain ⟨n, balanced⟩ := balanced
  obtain ⟨color, m, fits, placeBalanced⟩ := Fits.locate key .root balanced
  rcases upsert_cases (tree.labels.length + 1) key value tree with
    ⟨above, located, whole, result⟩ | ⟨above, other, label, old, left, right, located, whole, result⟩
  · rw [grow, result] at nodup ⊢
    rw [located] at fits placeBalanced
    have blackened : ∀ tree : PtrTree, rootLabel tree.blacken = rootLabel tree := by
      intro tree
      cases tree <;> rfl
    have sameRoot : rootLabel (plug above (.node .red (tree.labels.length + 1) (key, value) .leaf .leaf)) =
        rootLabel tree := by
      rw [← whole]
      apply rootLabel_plug
      rintro rfl
      exact absurd whole.symm nonempty
    rw [insertRotatesRoot, located, blackened, ← sameRoot]
    rw [labels, inorder_blacken, inorder_fixUp] at nodup
    cases placeBalanced with
    | leaf => exact rootLabel_fixUp rfl (.red .leaf .leaf) fits nodup
  · rw [grow, result, insertRotatesRoot, located]
    apply iff_of_true
    · rw [← whole]
      exact rootLabel_plug fun _ => rfl
    · rfl

end Rotated

section Stale

variable {garbage : Ptr → RbNode} {behind : RbPlace → RbPlace → Bool} {initial : Store RbNode Ptr}
  {store final : RbPmem} {tree : PtrTree} {key : Key} {value : Value}

/-- A crash may leave another root pointer. -/
def Stale (initial : Store RbNode Ptr) (store : RbPmem) : Prop :=
  ∃ other, other ≠ store.root ∧ MayHold initial store (.root ()) (.pointer (some other))

theorem allows_leaving_root (garbage : Ptr → RbNode) (behind : RbPlace → RbPlace → Bool)
    (content : Content) : Allows (RbtreePmemTx.pool garbage behind) (Leaving (.root ()) content) := by
  constructor
  · constructor
    · exact fun _ _ => trivial
    · exact fun _ _ _ => rfl
    · intro persistent
      cases persistent
  · exact fun _ _ _ => rfl
  · intro persistent
    cases persistent
  · intro persistent
    cases persistent

/-- An insert into a tree leaves it open what a crash makes of the root pointer. -/
theorem insert_traced (idle : store.aux.running = false) (valid : store.aux.side ≠ null)
    (stores : Stores (memory store) tree) (nonempty : tree ≠ .leaf) (content : Content)
    (ran : (RbtreePmemTx.pool garbage behind).insert key value store = .ok (1, final)) :
    Traced readPool (Leaving (.root ()) content) store final := by
  have allows := allows_leaving_root garbage behind content
  have transacts := transacts_leaving (.root ()) content
  obtain ⟨address, middle, upsertRan, _⟩ :=
    (RbtreePmemTx.pool garbage behind).bstUpsert_stores stores nonempty key value
  rw [RbPool.insert_rooted _ valid (RbPool.root_ne_null stores nonempty) key value upsertRan] at ran
  have traced : Traced readPool (Leaving (.root ()) content) store middle :=
    (Traced.refl idle).step (emits_bstUpsert allows transacts _ _ key value) upsertRan
  split at ran
  · cases ran
    exact traced
  · obtain ⟨_, last, fixed, done⟩ := bind_ok_inv ran
    cases done
    apply traced.step (emits_fixes allows transacts _ address) fixed
    intro persistent
    cases persistent

/-- Another root is left behind by an insert that changes the root, and by one that finds it. -/
theorem insert_stale (accounted : Accounted readPool initial store) (valid : store.aux.side ≠ null)
    (stores : Stores (memory store) tree) (nonempty : tree ≠ .leaf)
    (ran : (RbtreePmemTx.pool garbage behind).insert key value store = .ok (1, final))
    (grown : Stores (memory final) (grow tree (key, value)))
    (stale : Stale initial store ∨ insertRotatesRoot key tree = true) : Stale initial final := by
  have stays : ∀ content, MayHold initial store (.root ()) content →
      MayHold initial final (.root ()) content := by
    intro content may
    have traced := insert_traced accounted.stopped valid stores nonempty content ran
    apply traced.leaves accounted (fun _ _ leaves => leaves) (fun _ => may)
    simp [readPool, readObjects, readRoot]
  by_cases same : final.root = store.root
  · have notRotated : insertRotatesRoot key tree = false := by
      rw [← rootLabel_grow stores.balanced (List.nodup_append.mp grown.holds.nodup).1 nonempty]
      exact (grown.holds.root.symm.trans same).trans stores.holds.root
    rcases stale with ⟨other, different, may⟩ | rotated
    · exact ⟨other, by rwa [same], stays _ may⟩
    · rw [notRotated] at rotated
      cases rotated
  · have present : MayHold initial store (.root ()) (.pointer (some store.root)) :=
      accounted.framed.may (accounted.idle (.root ()))
    exact ⟨store.root, fun was => same was.symm, stays _ present⟩

theorem insertEach_stale (accounted : Accounted readPool initial store) (valid : store.aux.side ≠ null)
    (stores : Stores (memory store) tree) (pairs : List (Key × Value))
    (ran : insertEach (RbtreePmemTx.pool garbage behind).insert pairs store = .ok ((), final))
    (stale : (Stale initial store ∧ tree ≠ .leaf) ∨ runRotatesRoot tree pairs = true) :
    Accounted readPool initial final ∧ Stale initial final := by
  induction pairs generalizing store tree with
  | nil =>
      cases ran
      rcases stale with ⟨stale, _⟩ | rotated
      · exact ⟨accounted, stale⟩
      · cases rotated
  | cons pair rest inductionHypothesis =>
      obtain ⟨next, insertRan, side, grown⟩ :=
        RbPool.insert_stores (RbtreePmemTx.pool garbage behind) valid stores pair.1 pair.2
      rw [insertEach, bind_ok insertRan] at ran
      obtain ⟨_, _, nextAccounted, _⟩ := accounted.step (emits_insert pair.1 pair.2) insertRan
      have grownNonempty := RbPool.grow_ne_leaf stores pair
      apply inductionHypothesis nextAccounted (by rwa [side]) grown ran
      by_cases empty : tree = .leaf
      · subst empty
        rcases stale with ⟨_, nonempty⟩ | rotated
        · exact absurd rfl nonempty
        · exact Or.inr rotated
      · rcases stale with ⟨stale, _⟩ | rotated
        · exact Or.inl ⟨insert_stale accounted valid stores empty insertRan grown (Or.inl stale),
            grownNonempty⟩
        · rw [runRotatesRoot, Bool.or_eq_true] at rotated
          rcases rotated with here | later
          · exact Or.inl ⟨insert_stale accounted valid stores empty insertRan grown (Or.inr here),
              grownNonempty⟩
          · exact Or.inr later

/-- A crash that leaves another root shows. -/
theorem Stale.crash (stale : Stale initial store) (accounted : Accounted readPool initial store) :
    ∃ recovered, Recovers readPool initial store.aux.trail recovered ∧
      ¬ SameTree recovered (memory store) := by
  obtain ⟨other, different, may⟩ := stale
  refine ⟨{ memory store with root := other }, ?_, ?_⟩
  · apply accounted.recovers
    intro place
    cases place with
    | root member => exact Or.inr may
    | node address field => exact Or.inl rfl
  · rintro ⟨tree, there, here⟩
    exact different (there.root.trans here.root.symm)

end Stale

/-- Behind a sequence of inserts every crash leaves the tree that is in memory if and only if none of the
inserts rotates at the root. -/
theorem rbtreePmemTx_inserts_durable_iff (garbage : Ptr → RbNode) (behind : RbPlace → RbPlace → Bool)
    (rootOid : Ptr) (valid : rootOid ≠ null) (pairs : List (Key × Value)) :
    ∃ store, insertEach (RbtreePmemTx.pool garbage behind).insert pairs (newPool rootOid) =
        .ok ((), store) ∧
      ((∀ recovered, Recovers readPool (memory (newPool rootOid)) store.aux.trail recovered →
          SameTree recovered (memory store)) ↔ runRotatesRoot .leaf pairs = false) := by
  obtain ⟨store, ran, _, stores, logged⟩ := insertEach_logged garbage behind
    (show (newPool rootOid).aux.running = false from rfl) valid (RbPool.newPool_stores rootOid) pairs
  refine ⟨store, ran, ?_, ?_⟩
  · intro durable
    by_contra rotated
    have fresh : Accounted readPool (memory (newPool rootOid)) (newPool rootOid) :=
      Accounted.fresh rfl rfl
    obtain ⟨accounted, stale⟩ := insertEach_stale fresh valid (RbPool.newPool_stores rootOid) pairs ran
      (Or.inr (Bool.not_eq_false _ ▸ rotated))
    obtain ⟨recovered, crash, differs⟩ := stale.crash accounted
    exact differs (durable recovered crash)
  · intro calm recovered crash
    obtain ⟨steps, trail, run⟩ := logged.effects
    obtain rfl : store.aux.trail = steps := trail
    rw [run.recovers calm List.take_length, run.returned _ rfl] at crash
    have here : TreeAt (memory store) _ := ⟨stores.holds.root, stores.holds.rep⟩
    exact ⟨_, here.of_readPool crash, here⟩

theorem rbtreePmemTx_inserts_durable_ascending :
    ∃ value : Value, ∃ store, insertEach
        (RbtreePmemTx.pool (fun _ => ⟨0, CharArray.unwritten _, null, null, null, .red⟩)
          fun _ _ => false).insert [(1, value), (2, value), (3, value)] (newPool 1) = .ok ((), store) ∧
      ((∀ recovered, Recovers readPool (memory (newPool 1)) store.aux.trail recovered →
          SameTree recovered (memory store)) ↔
        runRotatesRoot .leaf [(1, value), (2, value), (3, value)] = false) :=
  ⟨⟨[97], by decide, by decide⟩, rbtreePmemTx_inserts_durable_iff _ _ 1 (by decide) _⟩

end StoredsBench.Rbtree
