/-
Module: StoredsBench.Skiplist.Update
Layer: Refinement
Purpose: `insert` and `remove_free` on stores that hold towers.  Both change the lists level by level
  around one node, so that in between the node hangs in some levels and not in others: `Around`
  says which.
Trusted boundary: none
Main exports: Around, insertNode_ok, insert_ok, removeFree_ok
-/
import StoredsBench.Lib.Release
import StoredsBench.Skiplist.Refinement

namespace StoredsBench.Skiplist

open Lib Lib.SortedAssoc

variable {exact : Prop} {store after : SkiplistDram} {key : Key} {low rest : List Tower} {path : Path}
  {label : Nat} {hangs : Nat → Bool}

/-! ### Single writes -/

/-- A write to one pointer. -/
structure Relinked (before after : SkiplistDram) (address index next : Nat) : Prop where
  root : after.root = before.root
  aux : after.aux = before.aux
  links : ∀ level other, linkAt after.heap level other =
    if level = index ∧ other = address then some next else linkAt before.heap level other
  entries : ∀ other, entryAt after.heap other = entryAt before.heap other

theorem setNext_ok {address index : Nat} {node : SkNode}
    (live : store.heap.get? address = some node) (inside : index < SKIPLIST_LEVELS_NUM)
    (next : Nat) :
    ∃ after, Prog.modify address (SkNode.setNext index next) store = .ok ((), after) ∧
      Relinked store after address index next := by
  have changed : SkNode.setNext index next node = .ok { node with next := node.next.put index next } := by
    rw [SkNode.setNext, CArray.set_ok inside]
    rfl
  refine ⟨_, Prog.modify_ok live changed, ?_⟩
  constructor
  · rfl
  · rfl
  · intro level other
    rw [linkAt, Heap.get?_set live]
    by_cases here : other = address
    · subst here
      rw [if_pos rfl, Option.bind_some, CArray.at?_put _ inside, linkAt, live, Option.bind_some]
      simp only [and_true]
    · rw [if_neg here, if_neg fun both => here both.2]
      rfl
  · intro other
    rw [entryAt, Heap.get?_set live]
    by_cases here : other = address
    · subst here
      rw [if_pos rfl, entryAt, live]
      rfl
    · rw [if_neg here]
      rfl

/-! ### A node in some of the levels -/

/-- The node at `label` hangs between `low` and `rest` in the levels `hangs` says. -/
structure Around (exact : Prop) (store : SkiplistDram) (low rest : List Tower) (label : Nat)
    (hangs : Nat → Bool) : Prop where
  linked : ∀ index < SKIPLIST_LEVELS_NUM,
    LinkedAfter (linkAt store.heap index) store.root (labels (level index low) ++
      ((if hangs index then [label] else []) ++ labels (level index rest)))
  shown : ∀ tower ∈ low ++ rest, entryAt store.heap tower.label = some tower.entry
  written : exact → ∀ tower ∈ low ++ rest, ∀ index,
    (linkAt store.heap index tower.label).isSome ↔ index < tower.height
  distinct : (store.root :: (labels low ++ label :: labels rest)).Nodup

theorem labels_middle (low rest : List Tower) (tower : Tower) (index : Nat) :
    labels (level index (low ++ tower :: rest)) = labels (level index low) ++
      ((if decide (index < tower.height) then [tower.label] else []) ++
        labels (level index rest)) := by
  rw [level_append, labels_append]
  congr 1
  by_cases reaches : index < tower.height
  · rw [level, List.filter_cons_of_pos (by simpa using reaches), if_pos (by simpa using reaches)]
    rfl
  · rw [level, List.filter_cons_of_neg (by simpa using reaches), if_neg (by simpa using reaches)]
    rfl

/-- Towers around one that hangs in all its levels. -/
theorem Levels.around {tower : Tower} (holds : Levels exact store (low ++ tower :: rest)) :
    Around exact store low rest tower.label fun index => index < tower.height where
  linked := fun index inside => by
    rw [← labels_middle]
    exact holds.linked index inside
  shown := fun other member => holds.shown other (by
    rcases List.mem_append.mp member with inLow | inRest
    · exact List.mem_append_left _ inLow
    · exact List.mem_append_right _ (List.mem_cons_of_mem _ inRest))
  written := fun isExact other member => holds.written isExact other (by
    rcases List.mem_append.mp member with inLow | inRest
    · exact List.mem_append_left _ inLow
    · exact List.mem_append_right _ (List.mem_cons_of_mem _ inRest))
  distinct := by
    have distinct := holds.distinct
    rwa [labels_append] at distinct

/-- The tower in the middle hangs in the levels below its height, and only there it has pointers. -/
structure Grown (exact : Prop) (store : SkiplistDram) (low rest : List Tower) (tower : Tower) : Prop where
  around : Around exact store low rest tower.label fun index => index < tower.height
  shown : entryAt store.heap tower.label = some tower.entry
  written : exact → ∀ index, (linkAt store.heap index tower.label).isSome ↔ index < tower.height

/-- With a grown tower in the middle they are the towers of a store again. -/
theorem Grown.holds {tower : Tower} (grown : Grown exact store low rest tower)
    (tall : ∀ other ∈ low ++ tower :: rest,
      0 < other.height ∧ other.height ≤ SKIPLIST_LEVELS_NUM)
    (sorted : Sorted (entries (low ++ tower :: rest))) : Levels exact store (low ++ tower :: rest) where
  linked := fun index inside => by
    rw [labels_middle]
    exact grown.around.linked index inside
  shown := fun other member => by
    rcases List.mem_append.mp member with inLow | later
    · exact grown.around.shown other (List.mem_append_left rest inLow)
    · rcases List.mem_cons.mp later with rfl | inRest
      · exact grown.shown
      · exact grown.around.shown other (List.mem_append_right low inRest)
  written := fun isExact other member => by
    rcases List.mem_append.mp member with inLow | later
    · exact grown.around.written isExact other (List.mem_append_left rest inLow)
    · rcases List.mem_cons.mp later with rfl | inRest
      · exact grown.written isExact
      · exact grown.around.written isExact other (List.mem_append_right low inRest)
  tall := tall
  distinct := by
    rw [labels_append]
    exact grown.around.distinct
  sorted := sorted

namespace Around

/-- The node in the middle is none of the others. -/
theorem fresh (around : Around exact store low rest label hangs) :
    label ∉ store.root :: (labels low ++ labels rest) := by
  have middle : (store.root :: (labels low ++ label :: labels rest)).Perm
      (label :: (store.root :: (labels low ++ labels rest))) :=
    (List.perm_middle.cons store.root).trans (List.Perm.swap _ _ _)
  exact (List.nodup_cons.mp (middle.nodup_iff.mp around.distinct)).1

theorem ne_label (around : Around exact store low rest label hangs) {tower : Tower}
    (member : tower ∈ low ++ rest) : tower.label ≠ label := by
  rintro rfl
  apply around.fresh
  rw [← labels_append]
  exact List.mem_cons_of_mem _ (List.mem_map_of_mem member)

/-- On every level it is none of the nodes around the place, ... -/
theorem fresh_at (around : Around exact store low rest label hangs) (index : Nat) :
    label ∉ store.root :: (labels (level index low) ++ labels (level index rest)) := by
  intro member
  apply around.fresh
  exact (((labels_level_sublist index low).append (labels_level_sublist index rest)).cons_cons
    store.root).subset member

/-- ... in particular not the one `find` stopped at. -/
theorem stopAt_ne (around : Around exact store low rest label hangs) (index : Nat) :
    stopAt store.root index low ≠ label := by
  intro isLabel
  apply around.fresh_at index
  rw [← isLabel, ← List.cons_append]
  exact List.mem_append_left _ (LinkedAfter.getLastD_mem _ _)

theorem distinct_at (around : Around exact store low rest label hangs) (index : Nat) :
    (store.root :: (labels (level index low) ++ labels (level index rest))).Nodup := by
  apply List.Nodup.sublist _ around.distinct
  apply List.Sublist.cons_cons
  exact (labels_level_sublist index low).append
    (((labels_level_sublist index rest)).cons label)

theorem loose_linked (around : Around exact store low rest label hangs) {index : Nat}
    (inside : index < SKIPLIST_LEVELS_NUM) (loose : hangs index = false) :
    LinkedAfter (linkAt store.heap index) store.root
      (labels (level index low) ++ labels (level index rest)) := by
  have linked := around.linked index inside
  rwa [loose] at linked

theorem hung_linked (around : Around exact store low rest label hangs) {index : Nat}
    (inside : index < SKIPLIST_LEVELS_NUM) (hung : hangs index = true) :
    LinkedAfter (linkAt store.heap index) store.root
      (labels (level index low) ++ label :: labels (level index rest)) := by
  have linked := around.linked index inside
  rwa [hung] at linked

/-- A pointer written in a level of the node in the middle where it does not hang. -/
theorem prepare {index next : Nat} (around : Around exact store low rest label hangs)
    (relinked : Relinked store after label index next) (loose : hangs index = false) :
    Around exact after low rest label hangs where
  linked := fun other inside => by
    rw [relinked.root]
    apply (around.linked other inside).congr
    intro address member
    rw [relinked.links, if_neg]
    rintro ⟨rfl, rfl⟩
    rw [loose] at member
    exact around.fresh_at other member
  shown := fun tower member => by rw [relinked.entries, around.shown tower member]
  written := fun isExact tower member other => by
    rw [relinked.links, if_neg fun both => around.ne_label member both.2]
    exact around.written isExact tower member other
  distinct := by
    rw [relinked.root]
    exact around.distinct

/-- A pointer written in a level of the node before the place: every other level stays as it is,
and so does what is written. -/
theorem relink {index next : Nat} {hangs' : Nat → Bool}
    (around : Around exact store low rest label hangs)
    (relinked : Relinked store after (stopAt store.root index low) index next)
    (inside : index < SKIPLIST_LEVELS_NUM)
    (same : ∀ other, other ≠ index → hangs' other = hangs other)
    (here : LinkedAfter (linkAt after.heap index) store.root (labels (level index low) ++
      ((if hangs' index then [label] else []) ++ labels (level index rest)))) :
    Around exact after low rest label hangs' where
  linked := fun other otherInside => by
    rw [relinked.root]
    by_cases isIndex : other = index
    · subst isIndex
      exact here
    · rw [same other isIndex]
      apply (around.linked other otherInside).congr
      intro address _
      rw [relinked.links, if_neg fun both => isIndex both.1]
  shown := fun tower member => by rw [relinked.entries, around.shown tower member]
  written := fun isExact tower member other => by
    rw [relinked.links]
    split
    · rename_i isStop
      obtain ⟨rfl, labelEq⟩ := isStop
      obtain ⟨first, found, _⟩ := (around.linked other inside).behind
      rw [show (labels (level other low)).getLastD store.root = tower.label from labelEq.symm]
        at found
      have reaches := (around.written isExact tower member other).mp (by rw [found]; rfl)
      simpa using reaches
    · exact around.written isExact tower member other
  distinct := by
    rw [relinked.root]
    exact around.distinct

/-- Changes away from the links and from the other towers. -/
theorem keep (around : Around exact store low rest label hangs) (root : after.root = store.root)
    (links : ∀ index other, hangs index = true ∨ other ≠ label →
      linkAt after.heap index other = linkAt store.heap index other)
    (shown : ∀ tower ∈ low ++ rest, entryAt after.heap tower.label = some tower.entry) :
    Around exact after low rest label hangs where
  linked := fun index inside => by
    rw [root]
    apply (around.linked index inside).congr
    intro address member
    apply links
    by_cases hung : hangs index = true
    · exact Or.inl hung
    · refine Or.inr ?_
      rintro rfl
      rw [if_neg hung] at member
      exact around.fresh_at index member
  shown := shown
  written := fun isExact tower member index => by
    rw [links index tower.label (Or.inr (around.ne_label member))]
    exact around.written isExact tower member index
  distinct := by
    rw [root]
    exact around.distinct

end Around

/-! ### Linking a new node in -/

/-- One round of the loop of `insert_node`: the node takes the next level. -/
theorem linkIn_ok {tower : Tower} (grown : Grown exact store low rest tower)
    (finds : Finds store.root low path) (inside : tower.height < SKIPLIST_LEVELS_NUM) :
    ∃ after, SkiplistDram.linkIn tower.label path tower.height store = .ok ((), after) ∧
      after.root = store.root ∧ after.aux = store.aux ∧
      Grown exact after low rest { tower with height := tower.height + 1 } := by
  obtain ⟨around, shown, written⟩ := grown
  obtain ⟨node, live, _⟩ := exists_entry shown
  have loose : decide (tower.height < tower.height) = false := by simp
  have next := nextOnPath_ok (around.loose_linked inside loose) finds inside
  obtain ⟨middle, middleRan, middleRelinked⟩ :=
    setNext_ok live inside ((labels (level tower.height rest)).headD null)
  have middleAround := around.prepare middleRelinked loose
  have middleLinked := middleAround.loose_linked inside loose
  obtain ⟨stopNode, stopLive, _⟩ := exists_link middleLinked.behind.next_origin
  obtain ⟨after, afterRan, afterRelinked⟩ := setNext_ok stopLive inside tower.label
  have stopNe := middleAround.stopAt_ne tower.height
  have own : ∀ other, linkAt after.heap other tower.label =
      if other = tower.height then some ((labels (level tower.height rest)).headD null)
      else linkAt store.heap other tower.label := by
    intro other
    rw [afterRelinked.links, if_neg fun both => stopNe both.2.symm, middleRelinked.links]
    simp only [and_true]
  refine ⟨after, ?_, ?_, ?_, ?_⟩
  · rw [middleRelinked.root] at afterRan
    rw [SkiplistDram.linkIn, bind_ok next, bind_ok middleRan,
      bind_ok (Prog.lift_ok (CArray.get_ok (finds tower.height inside)) middle)]
    exact afterRan
  · rw [afterRelinked.root, middleRelinked.root]
  · rw [afterRelinked.aux, middleRelinked.aux]
  · constructor
    · apply middleAround.relink afterRelinked inside
      · intro other different
        rw [decide_eq_decide, Nat.lt_succ_iff, Nat.le_iff_lt_or_eq, or_iff_left different]
      · rw [if_pos (decide_eq_true (Nat.lt_succ_self tower.height))]
        apply middleLinked.splice
        · rw [afterRelinked.links, if_pos ⟨rfl, rfl⟩]
        · rw [own, if_pos rfl]
          exact middleLinked.behind.next_origin.symm
        · exact Heap.ne_null_of_get? live
        · intro address _ different
          rw [afterRelinked.links, if_neg fun both => different both.2]
        · exact middleAround.distinct_at tower.height
    · rw [afterRelinked.entries, middleRelinked.entries, shown]
    · intro isExact other
      rw [own]
      split
      · rename_i isIndex
        simp [isIndex]
      · rename_i different
        rw [written isExact other]
        show other < tower.height ↔ other < tower.height + 1
        omega

/-- The number of levels `rand()` links a node into, of those that `remain` above the first one. -/
def coins : (remaining : Nat) → Outcomes → Nat
  | 0, _ => 0
  | remaining + 1, outcomes =>
      if outcomes.head % 2 = 0 then coins remaining outcomes.tail + 1 else 0

/-- The height a tower has when the loop of `insert_node` goes on from `height`. -/
def drawnHeight (height : Nat) (outcomes : Outcomes) : Nat :=
  height + 1 + coins (SKIPLIST_LEVELS_NUM - (height + 1)) outcomes

theorem coins_le (remaining : Nat) (outcomes : Outcomes) : coins remaining outcomes ≤ remaining := by
  induction remaining generalizing outcomes with
  | zero => exact Nat.le_refl 0
  | succ remaining inductionHypothesis =>
      rw [coins]
      split
      · exact Nat.succ_le_succ (inductionHypothesis outcomes.tail)
      · exact Nat.zero_le _

theorem drawnHeight_le {height : Nat} (inside : height < SKIPLIST_LEVELS_NUM) (outcomes : Outcomes) :
    drawnHeight height outcomes ≤ SKIPLIST_LEVELS_NUM := by
  have few := coins_le (SKIPLIST_LEVELS_NUM - (height + 1)) outcomes
  unfold drawnHeight
  omega

theorem drawnHeight_step {height : Nat} (last : height + 1 < SKIPLIST_LEVELS_NUM)
    (outcomes : Outcomes) : drawnHeight height outcomes =
      if outcomes.head % 2 = 0 then drawnHeight (height + 1) outcomes.tail else height + 1 := by
  have more : SKIPLIST_LEVELS_NUM - (height + 1) = SKIPLIST_LEVELS_NUM - (height + 1 + 1) + 1 := by
    omega
  rw [drawnHeight, more, coins]
  split
  · rw [drawnHeight]
    omega
  · rfl

/-- The loop of `insert_node`, whatever `rand()` returns. -/
theorem insertNodeFrom_ok {tower : Tower} {fuel : Nat} (grown : Grown exact store low rest tower)
    (finds : Finds store.root low path) (inside : tower.height < SKIPLIST_LEVELS_NUM)
    (bound : SKIPLIST_LEVELS_NUM ≤ tower.height + fuel) :
    ∃ after, SkiplistDram.insertNodeFrom tower.label path fuel tower.height store = .ok ((), after) ∧
      after.root = store.root ∧
      Grown exact after low rest { tower with height := drawnHeight tower.height store.aux } := by
  induction fuel generalizing store tower with
  | zero => omega
  | succ fuel inductionHypothesis =>
      obtain ⟨next, ran, root, aux, nextGrown⟩ := linkIn_ok grown finds inside
      rw [SkiplistDram.insertNodeFrom, bind_ok ran]
      by_cases last : tower.height + 1 < SKIPLIST_LEVELS_NUM
      · obtain ⟨drawn, drawnEq⟩ : ∃ drawn : SkiplistDram,
            drawn = { next with aux := next.aux.tail } := ⟨_, rfl⟩
        have drew : SkiplistDram.rand next = .ok (next.aux.head, drawn) := by
          rw [drawnEq]
          rfl
        have drawnGrown : Grown exact drawn low rest { tower with height := tower.height + 1 } := by
          rw [drawnEq]
          exact ⟨⟨nextGrown.around.linked, nextGrown.around.shown, nextGrown.around.written,
            nextGrown.around.distinct⟩, nextGrown.shown, nextGrown.written⟩
        have drawnRoot : drawn.root = store.root := by rw [drawnEq, root]
        have drawnAux : drawn.aux = store.aux.tail := by rw [drawnEq, aux]
        rw [if_pos last, bind_ok drew, aux, drawnHeight_step last]
        by_cases even : store.aux.head % 2 = 0
        · rw [if_pos even, if_pos even]
          obtain ⟨after, restRan, restRoot, restGrown⟩ :=
            inductionHypothesis drawnGrown (by rw [drawnRoot]; exact finds) last (by
              show SKIPLIST_LEVELS_NUM ≤ tower.height + 1 + fuel
              omega)
          rw [drawnAux] at restGrown
          exact ⟨after, restRan, restRoot.trans drawnRoot, restGrown⟩
        · rw [if_neg even, if_neg even]
          exact ⟨drawn, rfl, drawnRoot, drawnGrown⟩
      · have top : drawnHeight tower.height store.aux = tower.height + 1 := by
          rw [drawnHeight, show SKIPLIST_LEVELS_NUM - (tower.height + 1) = 0 by omega]
          rfl
        rw [if_neg last, top]
        exact ⟨next, rfl, root, nextGrown⟩

/-- A node that was just allocated hangs nowhere yet. -/
theorem push_grown (holds : Levels exact store (low ++ rest)) {node : SkNode} {entry : Key × Value}
    (viewed : node.view = some entry)
    (blank : exact → ∀ index, node.next.at? index = none) :
    Grown exact { store with heap := store.heap.push node } low rest ⟨store.heap.size + 1, entry, 0⟩ := by
  have old : ∀ tower ∈ low ++ rest, tower.label ≠ store.heap.size + 1 := by
    intro tower member
    obtain ⟨node, live, _⟩ := exists_entry (holds.shown tower member)
    exact Heap.ne_fresh_of_get? live
  obtain ⟨first, rootLink, _⟩ := holds.linked SKIPLIST_BASE_LEVEL (by decide)
  obtain ⟨rootNode, rootLive, _⟩ := exists_link rootLink
  have rootOld := Heap.ne_fresh_of_get? rootLive
  constructor
  · constructor
    · intro index inside
      have linked := holds.linked index inside
      rw [level_append, labels_append] at linked
      apply linked.congr
      intro address member
      rw [linkAt, Heap.get?_push, if_neg]
      · rfl
      · rcases List.mem_cons.mp member with rfl | inLevel
        · exact rootOld
        · rw [← labels_append, ← level_append] at inLevel
          obtain ⟨tower, towerMember, rfl⟩ := List.mem_map.mp inLevel
          exact old tower (mem_of_mem_level towerMember)
    · intro tower member
      rw [entryAt, Heap.get?_push, if_neg (old tower member)]
      exact holds.shown tower member
    · intro isExact tower member index
      rw [linkAt, Heap.get?_push, if_neg (old tower member)]
      exact holds.written isExact tower member index
    · have distinct := holds.distinct
      rw [labels_append] at distinct
      rw [← List.cons_append] at distinct ⊢
      apply List.perm_middle.nodup_iff.mpr
      refine List.nodup_cons.mpr ⟨?_, distinct⟩
      rw [List.cons_append, ← labels_append]
      intro member
      rcases List.mem_cons.mp member with isRoot | inTowers
      · exact rootOld isRoot.symm
      · obtain ⟨tower, towerMember, labelEq⟩ := List.mem_map.mp inTowers
        exact old tower towerMember labelEq
  · rw [entryAt, Heap.get?_push, if_pos rfl, Option.bind_some]
    exact viewed
  · intro isExact index
    rw [linkAt, Heap.get?_push, if_pos rfl, Option.bind_some, blank isExact]
    simp

/-! ### Inserting -/

theorem sorted_middle {tower : Tower} (sorted : Sorted (entries (low ++ rest)))
    (below : ∀ other ∈ low, other.entry.1 < tower.entry.1)
    (above : ∀ other ∈ rest, tower.entry.1 < other.entry.1) :
    Sorted (entries (low ++ tower :: rest)) := by
  rw [entries_append] at sorted ⊢
  obtain ⟨lowSorted, restSorted, across⟩ := sorted_append.mp sorted
  refine sorted_append.mpr ⟨lowSorted, sorted_cons.mpr ⟨?_, restSorted⟩, ?_⟩
  · intro entry member
    obtain ⟨other, otherMember, rfl⟩ := List.mem_map.mp member
    exact above other otherMember
  · intro entry member other otherMember
    obtain ⟨tower', towerMember, rfl⟩ := List.mem_map.mp member
    rcases List.mem_cons.mp otherMember with rfl | inRest
    · exact below tower' towerMember
    · exact across _ (List.mem_map_of_mem towerMember) other inRest

/-- The value of a stored key is overwritten. -/
theorem overwrite_ok {tower : Tower} (holds : Levels exact store (low ++ tower :: rest)) (value : Value) :
    ∃ after, SkiplistDram.overwrite tower.label value store = .ok ((), after) ∧
      Levels exact after (low ++ { tower with entry := (tower.entry.1, value) } :: rest) := by
  have around := holds.around
  have member : tower ∈ low ++ tower :: rest := List.mem_append_right _ List.mem_cons_self
  obtain ⟨node, live, viewed⟩ := Option.bind_eq_some_iff.mp (holds.shown tower member)
  obtain ⟨key, keyWritten, valueRead⟩ := Option.bind_eq_some_iff.mp viewed
  obtain ⟨old, _, entryEq⟩ := Option.map_eq_some_iff.mp valueRead
  obtain ⟨after, ran, afterEq⟩ : ∃ after : SkiplistDram,
      SkiplistDram.overwrite tower.label value store = .ok ((), after) ∧
      after = { store with heap := store.heap.set tower.label { node with
        entry := { node.entry with value := node.entry.value.copyString value } } } :=
    ⟨_, Prog.modify_pure_ok _ live, rfl⟩
  have links : ∀ index other, linkAt after.heap index other = linkAt store.heap index other := by
    intro index other
    rw [afterEq, linkAt, Heap.get?_set live]
    by_cases here : other = tower.label
    · subst here
      rw [if_pos rfl, linkAt, live]
      rfl
    · rw [if_neg here]
      rfl
  have shown : entryAt after.heap tower.label = some (tower.entry.1, value) := by
    rw [afterEq, entryAt, Heap.get?_set live, if_pos rfl, Option.bind_some, SkNode.view, keyWritten,
      Option.bind_some, CharArray.string?_copyString, ← entryEq]
    rfl
  have grown : Grown exact after low rest { tower with entry := (tower.entry.1, value) } := by
    constructor
    · apply around.keep
      · rw [afterEq]
      · exact fun index other _ => links index other
      · intro other otherMember
        rw [afterEq, entryAt, Heap.get?_set live, if_neg (around.ne_label otherMember)]
        exact around.shown other otherMember
    · exact shown
    · intro isExact index
      rw [links]
      exact holds.written isExact tower member index
  refine ⟨after, ran, grown.holds ?_ ?_⟩
  · intro other otherMember
    rcases List.mem_append.mp otherMember with inLow | later
    · exact holds.tall other (List.mem_append_left _ inLow)
    · rcases List.mem_cons.mp later with rfl | inRest
      · exact holds.tall tower member
      · exact holds.tall other (List.mem_append_right _ (List.mem_cons_of_mem _ inRest))
  · have sorted := holds.sorted
    rw [entries_append] at sorted ⊢
    exact sorted_replace value sorted

theorem newNodeContents_view (key : Key) (value : Value) :
    (SkiplistDram.newNodeContents key value).view = some (key, value) := by
  simp [SkNode.view, SkiplistDram.newNodeContents]

theorem newNodeContents_next (key : Key) (value : Value) (index : Nat) :
    (SkiplistDram.newNodeContents key value).next.at? index = none := by
  simp [SkiplistDram.newNodeContents, SkNode.unwritten]

/-- A grown tower joins the towers around it. -/
theorem Grown.joins {tower : Tower} (grown : Grown exact after low rest tower)
    (holds : Levels exact store (low ++ rest))
    (reaches : 0 < tower.height ∧ tower.height ≤ SKIPLIST_LEVELS_NUM)
    (below : ∀ other ∈ low, other.entry.1 < tower.entry.1)
    (above : ∀ other ∈ rest, tower.entry.1 < other.entry.1) :
    Levels exact after (low ++ tower :: rest) := by
  apply grown.holds
  · intro other member
    rcases List.mem_append.mp member with inLow | later
    · exact holds.tall other (List.mem_append_left _ inLow)
    · rcases List.mem_cons.mp later with rfl | inRest
      · exact reaches
      · exact holds.tall other (List.mem_append_right _ inRest)
  · exact sorted_middle holds.sorted below above

theorem drawnHeight_reaches (outcomes : Outcomes) :
    0 < drawnHeight 0 outcomes ∧ drawnHeight 0 outcomes ≤ SKIPLIST_LEVELS_NUM := by
  constructor
  · unfold drawnHeight
    omega
  · exact drawnHeight_le (by decide) outcomes

/-- A key that is not stored gets a tower as high as the coins say. -/
theorem insertNode_ok (holds : Holds store (low ++ rest)) (finds : Finds store.root low path)
    (below : ∀ tower ∈ low, tower.entry.1 < key) (above : ∀ tower ∈ rest, key < tower.entry.1)
    (value : Value) :
    ∃ middle after,
      Prog.malloc (SkiplistDram.newNodeContents key value) store =
        .ok (store.heap.size + 1, middle) ∧
      SkiplistDram.insertNode (store.heap.size + 1) path middle = .ok ((), after) ∧
      Holds after (low ++ ⟨store.heap.size + 1, (key, value), drawnHeight 0 store.aux⟩ :: rest) := by
  have grown := push_grown holds (newNodeContents_view key value)
    fun _ => newNodeContents_next key value
  have short : (0 : Nat) < SKIPLIST_LEVELS_NUM := by decide
  obtain ⟨after, ran, _, afterGrown⟩ :=
    insertNodeFrom_ok grown finds short (Nat.le_add_left SKIPLIST_LEVELS_NUM 0)
  refine ⟨_, after, Prog.malloc_ok _ _, ran, ?_⟩
  exact afterGrown.joins holds (drawnHeight_reaches store.aux) below above

theorem forall_entries (P : Key → Prop) {towers : List Tower}
    (all : ∀ tower ∈ towers, P tower.entry.1) : ∀ entry ∈ entries towers, P entry.1 := by
  intro entry member
  obtain ⟨tower, towerMember, rfl⟩ := List.mem_map.mp member
  exact all tower towerMember

theorem nextOnPath_releasing (path : Path) (index : Nat) :
    Releasing (SkiplistDram.nextOnPath path index) := by
  apply (Releasing.lift _).bind
  intro node
  apply (Releasing.load node).bind
  exact fun contents => Releasing.lift _

/-- `insert_node` allocates nothing. -/
theorem insertNodeFrom_releasing (newNode : Ptr) (path : Path) :
    ∀ fuel index, Releasing (SkiplistDram.insertNodeFrom newNode path fuel index)
  | 0, _ => Releasing.fault _
  | fuel + 1, index => by
      have linkIn : Releasing (SkiplistDram.linkIn newNode path index) := by
        apply (nextOnPath_releasing path index).bind
        intro next
        apply (Releasing.modify newNode _).bind
        intro _
        apply (Releasing.lift _).bind
        exact fun previous => Releasing.modify previous _
      have rand : Releasing SkiplistDram.rand := by
        apply Releasing.getAux.bind
        intro outcomes
        apply (Releasing.setAux _).bind
        exact fun _ => Releasing.pure _
      apply linkIn.bind
      intro _
      apply Releasing.branch
      · apply rand.bind
        intro outcome
        apply Releasing.branch
        · exact insertNodeFrom_releasing newNode path fuel (index + 1)
        · exact Releasing.pure ()
      · exact Releasing.pure ()

/-- Every object but the head is the node of a tower. -/
def Accounted (store : SkiplistDram) (towers : List Tower) : Prop :=
  ∀ address, store.heap.Live address → address = store.root ∨ address ∈ labels towers

/-- `insert` upserts, whatever `rand()` returns, moves no entry, and allocates at most the node of a new
tower. -/
theorem insert_ok {towers : List Tower} (holds : Holds store towers) (key : Key) (value : Value) :
    ∃ after towers', SkiplistDram.insert key value store = .ok (1, after) ∧ Holds after towers' ∧
      entries towers' = upsert key value (entries towers) ∧ places towers ⊆ places towers' ∧
      (Accounted store towers → Accounted after towers') := by
  obtain ⟨low, rest, path, rfl, below, found, finds, next, place⟩ := locate_ok holds key
  rw [SkiplistDram.insert, bind_ok holds.check_ok, bind_ok found, bind_ok next, entries_append]
  have belowEntries := forall_entries (· < key) below
  rcases place with ⟨tower, higher, rfl, rfl, above, stored⟩ | ⟨above, missing⟩
  · obtain ⟨after, ran, afterHolds⟩ := overwrite_ok holds value
    refine ⟨after, _, ?_, afterHolds, ?_, ?_, ?_⟩
    · rw [labels, List.map_cons, List.headD_cons, bind_ok stored, if_pos rfl, bind_ok ran]
      rfl
    · rw [entries_append]
      exact (upsert_update tower.entry.2 value belowEntries).symm
    · rw [places_append, places_append]
      exact List.Subset.refl _
    · intro accounted address live
      have shrinks := Releasing.modify _ _ ran
      rcases accounted address (shrinks.live address live) with isRoot | isTower
      · exact Or.inl (isRoot.trans shrinks.root.symm)
      · apply Or.inr
        rw [labels_append] at isTower ⊢
        exact isTower
  · obtain ⟨middle, after, allocated, ran, afterHolds⟩ :=
      insertNode_ok holds finds below above value
    refine ⟨after, _, ?_, afterHolds, ?_, ?_, ?_⟩
    · rw [bind_ok missing, if_neg Bool.false_ne_true, bind_ok allocated, bind_ok ran]
      rfl
    · rw [entries_append, upsert_insert value belowEntries (forall_entries (key < ·) above)]
      rfl
    · rw [places_append, places_append]
      exact ((List.sublist_cons_self _ _).append_left (places low)).subset
    · intro accounted address live
      have shrinks := insertNodeFrom_releasing _ path _ _ ran
      cases allocated
      have joined : ∀ tower : Tower, labels (tower :: rest) = tower.label :: labels rest := fun _ => rfl
      rw [labels_append, joined, List.mem_append, List.mem_cons]
      rcases (Heap.live_push _ _ _).mp (shrinks.live address live) with wasLive | isNew
      · rcases accounted address wasLive with isRoot | isTower
        · exact Or.inl (isRoot.trans shrinks.root.symm)
        · rw [labels_append, List.mem_append] at isTower
          exact Or.inr (isTower.imp_right Or.inr)
      · exact Or.inr (Or.inr (Or.inl isNew))

/-! ### Removing -/

theorem sameKey_ok {address other : Nat} {entry otherEntry : Key × Value}
    (found : entryAt store.heap address = some entry)
    (otherFound : entryAt store.heap other = some otherEntry) :
    SkiplistDram.sameKey address other store =
      .ok (decide (entry.1 = otherEntry.1), store) := by
  obtain ⟨node, live, keyRead, _⟩ := exists_entry found
  obtain ⟨otherNode, otherLive, otherKeyRead, _⟩ := exists_entry otherFound
  rw [SkiplistDram.sameKey, if_neg (ne_null_of_entry found), bind_ok (Prog.load_ok live),
    bind_ok (Prog.lift_ok keyRead store), bind_ok (Prog.load_ok otherLive),
    bind_ok (Prog.lift_ok otherKeyRead store)]
  rfl

/-- The tower in the middle still hangs in the levels from `from` on. -/
structure Shrunk (store : SkiplistDram) (low rest : List Tower) (tower : Tower) (first : Nat) :
    Prop where
  around : Around True store low rest tower.label fun index => first ≤ index ∧ index < tower.height
  shown : entryAt store.heap tower.label = some tower.entry
  written : ∀ index, (linkAt store.heap index tower.label).isSome ↔ index < tower.height

/-- One round of the loop of `remove_node`. -/
theorem unlinkAt_ok {tower : Tower} {index : Nat} (shrunk : Shrunk store low rest tower index)
    (finds : Finds store.root low path) (above : ∀ other ∈ rest, tower.entry.1 < other.entry.1)
    (inside : index < SKIPLIST_LEVELS_NUM) :
    ∃ after, SkiplistDram.unlinkAt path tower.label index store = .ok ((), after) ∧
      after.root = store.root ∧ after.aux = store.aux ∧
      Shrunk after low rest tower (index + 1) := by
  obtain ⟨around, shown, written⟩ := shrunk
  by_cases reaches : index < tower.height
  · have hung : decide (index ≤ index ∧ index < tower.height) = true :=
      decide_eq_true ⟨Nat.le_refl index, reaches⟩
    have linked := around.hung_linked inside hung
    have next : SkiplistDram.nextOnPath path index store = .ok (tower.label, store) :=
      nextOnPath_ok linked finds inside
    have same := sameKey_ok shown shown
    rw [decide_eq_true rfl] at same
    obtain ⟨node, live, _⟩ := exists_entry shown
    obtain ⟨following, followed⟩ := Option.isSome_iff_exists.mp ((written index).mpr reaches)
    obtain ⟨linkNode, linkLive, slot⟩ := exists_link followed
    obtain ⟨stopNode, stopLive, _⟩ := exists_link linked.behind.next_origin
    obtain ⟨after, afterRan, relinked⟩ := setNext_ok stopLive inside following
    have stopNe := around.stopAt_ne index
    have own : ∀ other, linkAt after.heap other tower.label = linkAt store.heap other tower.label := by
      intro other
      rw [relinked.links, if_neg fun both => stopNe both.2.symm]
    refine ⟨after, ?_, relinked.root, relinked.aux, ?_, ?_, ?_⟩
    · have bypassed : SkiplistDram.bypass path index tower.label store = .ok ((), after) := by
        rw [SkiplistDram.bypass, bind_ok (Prog.load_ok linkLive),
          bind_ok (Prog.lift_ok (CArray.get_ok slot) store),
          bind_ok (Prog.lift_ok (CArray.get_ok (finds index inside)) store)]
        exact afterRan
      rw [SkiplistDram.unlinkAt, bind_ok next, bind_ok same, if_pos rfl, bypassed]
    · apply around.relink relinked inside
      · intro other different
        rw [decide_eq_decide]
        omega
      · have loose : decide (index + 1 ≤ index ∧ index < tower.height) = false := by simp
        rw [loose]
        apply linked.unsplice
        · rw [relinked.links, if_pos ⟨rfl, rfl⟩, followed]
        · intro other _ different
          rw [relinked.links, if_neg fun both => different both.2]
        · exact around.distinct_at index
    · rw [relinked.entries, shown]
    · intro other
      rw [own]
      exact written other
  · have loose : decide (index ≤ index ∧ index < tower.height) = false :=
      decide_eq_false fun both => reaches both.2
    have next := nextOnPath_ok (around.loose_linked inside loose) finds inside
    have different : SkiplistDram.sameKey ((labels (level index rest)).headD null) tower.label store =
        .ok (false, store) := by
      cases higher : level index rest with
      | nil => rfl
      | cons other others =>
          have member : other ∈ rest := mem_of_mem_level (higher ▸ List.mem_cons_self)
          have ran := sameKey_ok (around.shown other (List.mem_append_right low member)) shown
          rwa [decide_eq_false (above other member).ne'] at ran
    refine ⟨store, ?_, rfl, rfl, ?_, shown, written⟩
    · rw [SkiplistDram.unlinkAt, bind_ok next, bind_ok different]
      rfl
    · have same : (fun other => decide (index ≤ other ∧ other < tower.height)) =
          fun other => decide (index + 1 ≤ other ∧ other < tower.height) := by
        funext other
        rw [decide_eq_decide]
        omega
      rwa [← same]

/-- The loop of `remove_node` takes the node out of every level it was linked into. -/
theorem unlinkFrom_ok {tower : Tower} {remaining index : Nat}
    (shrunk : Shrunk store low rest tower index) (finds : Finds store.root low path)
    (above : ∀ other ∈ rest, tower.entry.1 < other.entry.1)
    (levels : index + remaining = SKIPLIST_LEVELS_NUM) :
    ∃ after, SkiplistDram.unlinkFrom path tower.label remaining index store = .ok ((), after) ∧
      after.root = store.root ∧ Shrunk after low rest tower SKIPLIST_LEVELS_NUM := by
  induction remaining generalizing store index with
  | zero =>
      obtain rfl : index = SKIPLIST_LEVELS_NUM := levels
      exact ⟨store, rfl, rfl, shrunk⟩
  | succ remaining inductionHypothesis =>
      obtain ⟨next, ran, root, _, nextShrunk⟩ := unlinkAt_ok shrunk finds above (by omega)
      rw [← root] at finds
      obtain ⟨after, restRan, restRoot, afterShrunk⟩ :=
        inductionHypothesis nextShrunk finds (by omega)
      refine ⟨after, ?_, restRoot.trans root, afterShrunk⟩
      rw [SkiplistDram.unlinkFrom, bind_ok ran, restRan]

/-- `remove_node` unlinks a tower everywhere and frees its node. -/
theorem removeNode_ok {tower : Tower} (holds : Holds store (low ++ tower :: rest))
    (finds : Finds store.root low path) (above : ∀ other ∈ rest, tower.entry.1 < other.entry.1) :
    ∃ after, SkiplistDram.removeNode path store = .ok ((), after) ∧
      Holds after (low ++ rest) ∧ after.heap.get? tower.label = none := by
  have member : tower ∈ low ++ tower :: rest := List.mem_append_right _ List.mem_cons_self
  have start : Shrunk store low rest tower SKIPLIST_BASE_LEVEL := by
    refine ⟨?_, holds.shown tower member, holds.written trivial tower member⟩
    have same : (fun other => decide (SKIPLIST_BASE_LEVEL ≤ other ∧ other < tower.height)) =
        fun other => decide (other < tower.height) := by
      funext other
      rw [decide_eq_decide]
      exact and_iff_right (Nat.zero_le other)
    rw [same]
    exact holds.around
  have next : SkiplistDram.nextOnPath path SKIPLIST_BASE_LEVEL store = .ok (tower.label, store) :=
    nextOnPath_base holds finds
  obtain ⟨middle, ran, root, ⟨around, shown, written⟩⟩ :=
    unlinkFrom_ok start finds above (Nat.zero_add SKIPLIST_LEVELS_NUM)
  obtain ⟨node, live, _⟩ := exists_entry shown
  obtain ⟨after, freed, afterEq⟩ : ∃ after, Prog.free tower.label middle = .ok ((), after) ∧
      after = { middle with heap := middle.heap.erase tower.label } :=
    ⟨_, Prog.free_ok live, rfl⟩
  have erased : ∀ other, other ≠ tower.label →
      after.heap.get? other = middle.heap.get? other := by
    intro other different
    rw [afterEq, Heap.get?_erase live, if_neg different]
  have loose : ∀ index < SKIPLIST_LEVELS_NUM,
      decide (SKIPLIST_LEVELS_NUM ≤ index ∧ index < tower.height) = false := by
    intro index inside
    exact decide_eq_false fun both => Nat.not_le.mpr inside both.1
  refine ⟨after, ?_, ?_, ?_⟩
  · rw [SkiplistDram.removeNode, bind_ok next, bind_ok ran, freed]
  · have sorted := holds.sorted
    rw [entries_append] at sorted
    constructor
    · intro index inside
      have linked := around.loose_linked inside (loose index inside)
      rw [level_append, labels_append, afterEq]
      apply linked.congr
      intro address inLevel
      rw [← afterEq, linkAt, erased address, linkAt]
      rintro rfl
      exact around.fresh_at index inLevel
    · intro other otherMember
      rw [entryAt, erased other.label (around.ne_label otherMember)]
      exact around.shown other otherMember
    · intro _ other otherMember index
      rw [linkAt, erased other.label (around.ne_label otherMember)]
      exact around.written trivial other otherMember index
    · intro other otherMember
      rcases List.mem_append.mp otherMember with inLow | inRest
      · exact holds.tall other (List.mem_append_left _ inLow)
      · exact holds.tall other (List.mem_append_right _ (List.mem_cons_of_mem _ inRest))
    · rw [labels_append, afterEq]
      apply List.Nodup.sublist _ around.distinct
      apply List.Sublist.cons_cons
      exact (List.Sublist.refl _).append (List.sublist_cons_self _ _)
    · rw [entries_append]
      apply List.Pairwise.sublist _ sorted
      exact (List.Sublist.refl _).append (List.sublist_cons_self _ _)
  · rw [afterEq, Heap.get?_erase live, if_pos rfl]

/-- `remove_node` allocates nothing. -/
theorem removeNode_releasing (path : Path) : Releasing (SkiplistDram.removeNode path) := by
  have sameKey : ∀ next possibleRemove, Releasing (SkiplistDram.sameKey next possibleRemove) := by
    intro next possibleRemove
    apply Releasing.branch
    · exact Releasing.pure false
    · apply (Releasing.load next).bind
      intro nextContents
      apply (Releasing.lift _).bind
      intro nextKey
      apply (Releasing.load possibleRemove).bind
      intro contents
      apply (Releasing.lift _).bind
      exact fun key => Releasing.pure _
  have unlinkFrom : ∀ possibleRemove remaining index,
      Releasing (SkiplistDram.unlinkFrom path possibleRemove remaining index) := by
    intro possibleRemove remaining
    induction remaining with
    | zero => exact fun index => Releasing.pure ()
    | succ remaining inductionHypothesis =>
        intro index
        apply Releasing.bind
        · apply (nextOnPath_releasing path index).bind
          intro next
          apply (sameKey next possibleRemove).bind
          intro same
          apply Releasing.branch
          · apply (Releasing.load possibleRemove).bind
            intro contents
            apply (Releasing.lift _).bind
            intro following
            apply (Releasing.lift _).bind
            exact fun previous => Releasing.modify previous _
          · exact Releasing.pure ()
        · exact fun _ => inductionHypothesis (index + 1)
  apply (nextOnPath_releasing path _).bind
  intro possibleRemove
  apply (unlinkFrom possibleRemove _ _).bind
  exact fun _ => Releasing.free possibleRemove

theorem filter_ne_key {towers : List Tower} (different : ∀ tower ∈ towers, tower.entry.1 ≠ key) :
    towers.filter (fun tower => tower.entry.1 ≠ key) = towers :=
  List.filter_eq_self.mpr fun tower member => decide_eq_true (different tower member)

/-- `remove_free` takes out the tower that has the key, if there is one, and frees its node. -/
theorem removeFree_ok {towers : List Tower} (holds : Holds store towers) (key : Key) :
    ∃ after, SkiplistDram.removeFree key store = .ok ((), after) ∧
      Holds after (towers.filter fun tower => tower.entry.1 ≠ key) ∧
      (∀ tower ∈ towers, tower.entry.1 = key → after.heap.get? tower.label = none) ∧
      Shrinks store after ∧
      (Accounted store towers → Accounted after (towers.filter fun tower => tower.entry.1 ≠ key)) := by
  obtain ⟨low, rest, path, rfl, below, found, finds, next, place⟩ := locate_ok holds key
  have lowKept := filter_ne_key fun tower member => (below tower member).ne
  rcases place with ⟨tower, higher, rfl, rfl, above, stored⟩ | ⟨above, missing⟩
  · obtain ⟨after, ran, afterHolds, freed⟩ := removeNode_ok holds finds above
    have higherKept := filter_ne_key fun other member => (above other member).ne'
    have shrinks := removeNode_releasing path ran
    refine ⟨after, ?_, ?_, ?_, shrinks, ?_⟩
    · rw [SkiplistDram.removeFree, bind_ok found, bind_ok next, labels, List.map_cons,
        List.headD_cons, bind_ok stored, if_pos rfl, ran]
    · rw [List.filter_append, lowKept, List.filter_cons_of_neg (by simp), higherKept]
      exact afterHolds
    · intro other member same
      rcases List.mem_append.mp member with inLow | later
      · exact absurd same (below other inLow).ne
      · rcases List.mem_cons.mp later with rfl | inHigher
        · exact freed
        · exact absurd same (above other inHigher).ne'
    · intro accounted address live
      rcases accounted address (shrinks.live address live) with isRoot | isTower
      · exact Or.inl (isRoot.trans shrinks.root.symm)
      · obtain ⟨other, member, rfl⟩ := List.mem_map.mp isTower
        have kept : other.entry.1 ≠ tower.entry.1 := by
          intro same
          obtain rfl := holds.eq_of_key member (List.mem_append_right _ List.mem_cons_self) same
          exact Heap.not_live_iff.mpr freed live
        exact Or.inr (List.mem_map_of_mem (List.mem_filter.mpr ⟨member, decide_eq_true kept⟩))
  · have restKept := filter_ne_key fun other member => (above other member).ne'
    refine ⟨store, ?_, ?_, ?_, Shrinks.refl store, ?_⟩
    · rw [SkiplistDram.removeFree, bind_ok found, bind_ok next, bind_ok missing]
      rfl
    · rw [List.filter_append, lowKept, restKept]
      exact holds
    · intro other member same
      rcases List.mem_append.mp member with inLow | inRest
      · exact absurd same (below other inLow).ne
      · exact absurd same (above other inRest).ne'
    · rw [List.filter_append, lowKept, restKept]
      exact id

end StoredsBench.Skiplist
