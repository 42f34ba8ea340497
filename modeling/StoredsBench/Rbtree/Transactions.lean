/-
Module: StoredsBench.Rbtree.Transactions
Layer: Correctness
Purpose: Crashes between the transactions of `RbtreePmemTx::insert`, each of which is taken to be atomic.
  The new node gets its place in one transaction, every step of the fix-up and the colour of the root
  are others: a crash behind the first leaves a red-black tree only when there is nothing to fix.
Trusted boundary: none
Main exports: endOfDescent, IsTree, AllOrNothing, rbtreePmemTx_insert_allOrNothing_iff
-/
import StoredsBench.Rbtree.Effects
import StoredsBench.Rbtree.PoolRefinement

namespace StoredsBench.Rbtree

open Lib Lib.RedBlack Lib.RedBlack.Tree Lib.SortedAssoc

/-- The node at which the descent of `bst_upsert` ends: the one with the key, or the one that gets a
new child. -/
def endOfDescent (heap : Heap RbNode) (key : Key) : (fuel : Nat) → Ptr → Option RbNode
  | 0, _ => none
  | fuel + 1, current =>
      match heap.get? current with
      | none => none
      | some contents =>
          if key = contents.key then some contents
          else
            let child := contents.child (if key < contents.key then .left else .right)
            if child = null then some contents else endOfDescent heap key fuel child

/-- The descent ends at the key, or at a black node. -/
def EndsCalmly (contents : Store RbNode Ptr) (key : Key) : Prop :=
  ∃ node, endOfDescent contents.heap key contents.heap.size contents.root = some node ∧
    (node.key = key ∨ node.color = .black)

/-- A red-black tree with these entries. -/
def IsTree (entries : List (Key × Value)) (contents : Store RbNode Ptr) : Prop :=
  ∃ tree, Stores contents tree ∧ tree.entries = entries

/-- Whenever a crash happens, it leaves a red-black tree that holds the old map or the new one. -/
def AllOrNothing (key : Key) (value : Value) (old : List (Key × Value)) (store final : RbPmem) : Prop :=
  ∃ call, final.aux.trail = store.aux.trail ++ call ∧ ∀ count,
    IsTree old (lastCommitted (memory store) (call.take count)) ∨
      IsTree (SortedAssoc.upsert key value old) (lastCommitted (memory store) (call.take count))

variable {X : Type}

/-! ### Where the descent ends -/

/-- The node agrees with the place `locate` finds. -/
def EndsAt (key : Key) (node : RbNode) : PtrTree × List PtrFrame → Prop
  | (.node _ _ _ _ _, _) => node.key = key
  | (.leaf, frame :: _) => node.key ≠ key ∧ node.color = frame.color
  | (.leaf, []) => False

theorem endOfDescent_child {store : Store RbNode X} {key : Key} {frame : PtrFrame}
    {above : List PtrFrame} {tree : PtrTree} {fuel : Nat} (holds : Holds store (frame :: above) tree)
    (different : key ≠ frame.entry.1)
    (chosen : (if key < frame.entry.1 then Side.left else Side.right) = frame.side)
    (below : tree ≠ .leaf → ∃ node, endOfDescent store.heap key fuel (rootLabel tree) = some node ∧
      EndsAt key node (locate key tree (frame :: above))) :
    ∃ node, endOfDescent store.heap key (fuel + 1) frame.label = some node ∧
      EndsAt key node (locate key tree (frame :: above)) := by
  obtain ⟨node, live, viewed⟩ := exists_live holds.repAbove.1
  have views := views_of_view viewed
  have keyEq : node.key = frame.entry.1 := by rw [views.key, Shown.build_entry]
  have childEq : node.child frame.side = rootLabel tree := by rw [views.child, Shown.build_near]
  have step : endOfDescent store.heap key (fuel + 1) frame.label =
      if rootLabel tree = null then some node
      else endOfDescent store.heap key fuel (rootLabel tree) := by
    rw [endOfDescent, live]
    simp only [keyEq, chosen, childEq, if_neg different]
  rw [step]
  by_cases empty : tree = .leaf
  · subst empty
    have colorEq : node.color = frame.color := by rw [views.color, Shown.build_color]
    exact ⟨node, if_pos rfl, fun same => different (same.symm.trans keyEq), colorEq⟩
  · rw [if_neg fun isNull => empty ((rootLabel_eq_null holds.rep).mp isNull)]
    exact below empty

theorem endOfDescent_ok {store : Store RbNode X} {above : List PtrFrame} {tree : PtrTree} (key : Key)
    {fuel : Nat} (holds : Holds store above tree) (nonempty : tree ≠ .leaf) (bound : tree.height ≤ fuel) :
    ∃ node, endOfDescent store.heap key fuel (rootLabel tree) = some node ∧
      EndsAt key node (locate key tree above) := by
  fun_induction locate key tree above generalizing fuel with
  | case1 => exact absurd rfl nonempty
  | case2 color label entry left right above same =>
      simp only [height] at bound
      obtain ⟨less, rfl⟩ : ∃ less, fuel = less + 1 := ⟨fuel - 1, by omega⟩
      obtain ⟨node, live, viewed⟩ := exists_live holds.rep.1
      have keyEq : node.key = entry.1 := (views_of_view viewed).key
      refine ⟨node, ?_, keyEq.trans same.symm⟩
      rw [rootLabel, endOfDescent, live]
      exact if_pos (same.trans keyEq.symm)
  | case3 color label entry left right above different less inductionHypothesis =>
      simp only [height] at bound
      obtain ⟨rest, rfl⟩ : ∃ rest, fuel = rest + 1 := ⟨fuel - 1, by omega⟩
      have atChild : Holds store (⟨.left, color, label, entry, right⟩ :: above) left :=
        holds_cons.mpr holds
      apply endOfDescent_child atChild different (if_pos less)
      intro nonempty
      exact inductionHypothesis atChild nonempty (by omega)
  | case4 color label entry left right above different notLess inductionHypothesis =>
      simp only [height] at bound
      obtain ⟨rest, rfl⟩ : ∃ rest, fuel = rest + 1 := ⟨fuel - 1, by omega⟩
      have atChild : Holds store (⟨.right, color, label, entry, left⟩ :: above) right :=
        holds_cons.mpr holds
      apply endOfDescent_child atChild different (if_neg notLess)
      intro nonempty
      exact inductionHypothesis atChild nonempty (by omega)

/-! ### One tree in memory -/

/-- A red node at the top or below a red node. -/
theorem not_isTree {contents : Store RbNode Ptr} {above : List PtrFrame} {tree : PtrTree}
    (holds : Holds contents above tree) (red : tree.rootColor = .red)
    (conflict : ∀ frame ∈ above.head?, frame.color = .red) (entries : List (Key × Value)) :
    ¬ IsTree entries contents := by
  rintro ⟨other, stores, _⟩
  have whole := holds_plug.mp holds
  have same : other = plug above tree :=
    stores.holds.rep.unique whole.rep (stores.holds.root.symm.trans whole.root)
  obtain ⟨n, balanced⟩ := stores.balanced
  rw [same] at balanced
  cases above with
  | nil =>
      have black : tree.rootColor = .black := balanced.rootColor_eq
      rw [red] at black
      cases black
  | cons frame above =>
      have calm : NoRedRed (frame.around tree) := NoRedRed.of_plug balanced.noRedRed
      have black := calm.of_around.2 (conflict frame rfl)
      rw [red] at black
      cases black

/-! ### Calls -/

section Calls

variable {garbage : Ptr → RbNode} {behind : RbPlace → RbPlace → Bool} {store middle final : RbPmem}
  {tree : PtrTree} {above : List PtrFrame} {key : Key} {value : Value}

/-- `bst_upsert` is one transaction. -/
theorem bstUpsert_atOnce {fuel : Nat} {current address : Ptr} (idle : store.aux.running = false)
    (ran : (RbtreePmemTx.pool garbage behind).bstUpsert fuel current key value store =
      .ok (address, middle)) :
    ∃ call, middle.aux.running = false ∧ middle.aux.trail = store.aux.trail ++ call ∧
      AtOnce call (memory middle) := by
  rcases RbPool.bstUpsert_inv ran with ⟨_, node, overwritten⟩ | ⟨side, node, attached⟩
  · exact transaction_atOnce (logs_overwrite node value) idle overwritten
  · exact transaction_atOnce (logs_attach side node key value) idle attached

/-- What `bst_upsert` leaves when it is called on a tree, and its effects. -/
theorem bstUpsert_transacts (garbage : Ptr → RbNode) (behind : RbPlace → RbPlace → Bool)
    (idle : store.aux.running = false) (stores : Stores (memory store) tree) (nonempty : tree ≠ .leaf)
    (key : Key) (value : Value) :
    ∃ address middle call, (RbtreePmemTx.pool garbage behind).bstUpsert store.heap.size store.root key
        value store = .ok (address, middle) ∧
      middle.aux.running = false ∧ middle.aux.trail = store.aux.trail ++ call ∧
      AtOnce call (memory middle) ∧
      Upserted (memory middle) (store.heap.size + 1) key value address (locate key tree []) := by
  obtain ⟨address, middle, ran, upserted⟩ :=
    (RbtreePmemTx.pool garbage behind).bstUpsert_stores stores nonempty key value
  obtain ⟨call, stopped, trail, atOnce⟩ := bstUpsert_atOnce idle ran
  exact ⟨address, middle, call, ran, stopped, trail, atOnce, upserted⟩

/-- A crash behind the first transaction of a call. -/
theorem not_allOrNothing {call more : List (Effect RbPlace × Store RbNode Ptr)}
    {old : List (Key × Value)} (trail : final.aux.trail = store.aux.trail ++ (call ++ more))
    (atOnce : AtOnce call (memory middle)) (broken : ∀ entries, ¬ IsTree entries (memory middle)) :
    ¬ AllOrNothing key value old store final := by
  rintro ⟨whole, wholeTrail, crashes⟩
  obtain rfl : whole = call ++ more := List.append_cancel_left (wholeTrail.symm.trans trail)
  have crash := crashes call.length
  rw [List.take_left' rfl, atOnce.behind] at crash
  rcases crash with old | new
  · exact broken _ old
  · exact broken _ new

/-- The first node of a tree is red until the second transaction. -/
theorem not_allOrNothing_first (idle : store.aux.running = false) (valid : store.aux.side ≠ null)
    (stores : Stores (memory store) .leaf)
    (ran : (RbtreePmemTx.pool garbage behind).insert key value store = .ok (1, final))
    (old : List (Key × Value)) : ¬ AllOrNothing key value old store final := by
  rw [RbPool.insert_empty _ valid stores.holds.root] at ran
  obtain ⟨root, middle, created, ran⟩ := bind_ok_inv ran
  obtain ⟨_, last, fixed, done⟩ := bind_ok_inv ran
  cases done
  obtain ⟨call, stopped, trail, atOnce⟩ :=
    transaction_atOnce (logs_createRoot key value) idle created
  obtain ⟨more, _, _, moreTrail, _⟩ := emits_fixViolation root stopped fixed
  apply not_allOrNothing (moreTrail.trans (by rw [trail, List.append_assoc])) atOnce
  intro entries
  obtain ⟨_, holds⟩ := RbPool.createRoot_holds stores created
  exact not_isTree holds rfl (fun frame isFirst => by cases isFirst) entries

/-- An update is one transaction. -/
theorem allOrNothing_update (idle : store.aux.running = false) (valid : store.aux.side ≠ null)
    (stores : Stores (memory store) tree) {color : Color} {label : Nat} {entry : Key × Value}
    {left right : PtrTree} (located : locate key tree [] = (.node color label entry left right, above))
    (ran : (RbtreePmemTx.pool garbage behind).insert key value store = .ok (1, final))
    (grown : Stores (memory final) (grow tree (key, value))) :
    AllOrNothing key value tree.entries store final := by
  have nonempty : tree ≠ .leaf := by
    rintro rfl
    cases located
  obtain ⟨address, middle, call, upsertRan, _, trail, atOnce, upserted⟩ :=
    bstUpsert_transacts garbage behind idle stores nonempty key value
  rw [located] at upserted
  rw [RbPool.insert_rooted _ valid (RbPool.root_ne_null stores nonempty) key value upsertRan,
    if_pos upserted.1] at ran
  cases ran
  refine ⟨call, trail, fun count => ?_⟩
  rcases atOnce.take (memory store) count with before | after
  · rw [before]
    exact Or.inl ⟨tree, stores, rfl⟩
  · rw [after]
    exact Or.inr ⟨_, grown, entries_grow stores.sorted _⟩

/-- The new node hangs below a red node until the next transaction. -/
theorem not_allOrNothing_attach (idle : store.aux.running = false) (valid : store.aux.side ≠ null)
    (stores : Stores (memory store) tree) (nonempty : tree ≠ .leaf)
    (located : locate key tree [] = (.leaf, above))
    (conflict : ∀ frame ∈ above.head?, frame.color = .red)
    (ran : (RbtreePmemTx.pool garbage behind).insert key value store = .ok (1, final))
    (old : List (Key × Value)) : ¬ AllOrNothing key value old store final := by
  obtain ⟨address, middle, call, upsertRan, stopped, trail, atOnce, upserted⟩ :=
    bstUpsert_transacts garbage behind idle stores nonempty key value
  rw [located] at upserted
  obtain ⟨rfl, holds⟩ := upserted
  have notNull : store.heap.size + 1 ≠ null := Nat.succ_ne_zero _
  rw [RbPool.insert_rooted _ valid (RbPool.root_ne_null stores nonempty) key value upsertRan,
    if_neg notNull] at ran
  obtain ⟨_, last, fixed, done⟩ := bind_ok_inv ran
  cases done
  obtain ⟨more, _, _, moreTrail, _⟩ := emits_fixViolation _ stopped fixed
  apply not_allOrNothing (moreTrail.trans (by rw [trail, List.append_assoc])) atOnce
  exact not_isTree holds rfl conflict

/-- A new node below a black one makes a red-black tree. -/
theorem isTree_attached {contents : Store RbNode Ptr} {frame : PtrFrame} (fresh : Nat)
    (stores : Stores contents tree) (located : locate key tree [] = (.leaf, frame :: above))
    (black : frame.color = .black) {attached : Store RbNode Ptr}
    (holds : Holds attached (frame :: above) (.node .red fresh (key, value) .leaf .leaf)) :
    IsTree (SortedAssoc.upsert key value tree.entries) attached := by
  obtain ⟨n, balanced⟩ := stores.balanced
  obtain ⟨color, m, fits, placeBalanced⟩ := Fits.locate key .root balanced
  rw [located] at fits placeBalanced
  have sameEntries : (plug (frame :: above) (.node .red fresh (key, value) .leaf .leaf)).entries =
      SortedAssoc.upsert key value tree.entries := by
    rw [← entries_upsert stores.sorted fresh key value, RedBlack.upsert, located, entries, entries,
      inorder_blacken, inorder_fixUp]
  refine ⟨_, ⟨holds_plug.mp holds, ?_, ?_⟩, sameEntries⟩
  · cases placeBalanced with
    | leaf => exact (Balanced.red .leaf .leaf).plug (fits.any black .red)
  · rw [sameEntries]
    exact sorted_upsert stores.sorted

/-- Below a black node there is nothing to fix, and the root stays black. -/
theorem allOrNothing_attach (idle : store.aux.running = false) (valid : store.aux.side ≠ null)
    (stores : Stores (memory store) tree) (nonempty : tree ≠ .leaf) {frame : PtrFrame}
    (located : locate key tree [] = (.leaf, frame :: above)) (black : frame.color = .black)
    (ran : (RbtreePmemTx.pool garbage behind).insert key value store = .ok (1, final))
    (grown : Stores (memory final) (grow tree (key, value))) :
    AllOrNothing key value tree.entries store final := by
  obtain ⟨address, middle, call, upsertRan, stopped, trail, atOnce, upserted⟩ :=
    bstUpsert_transacts garbage behind idle stores nonempty key value
  rw [located] at upserted
  obtain ⟨rfl, holds⟩ := upserted
  have inJournal : Holds middle (frame :: above)
      (.node .red (store.heap.size + 1) (key, value) .leaf .leaf) := RbPool.holds_memory.mp holds
  have stops : fixLoop (RbtreePmemTx.pool garbage behind).rebalance (middle.heap.size + 1)
      (store.heap.size + 1) middle = .ok ((), middle) := by
    apply fixLoop_stops inJournal (by simp)
    apply Or.inr
    intro first isFirst
    obtain rfl : frame = first := Option.some.inj isFirst
    exact black
  have notNull : store.heap.size + 1 ≠ null := Nat.succ_ne_zero _
  rw [RbPool.insert_rooted _ valid (RbPool.root_ne_null stores nonempty) key value upsertRan,
    if_neg notNull] at ran
  obtain ⟨_, last, fixed, done⟩ := bind_ok_inv ran
  cases done
  rw [RbPool.fixViolation, bind_ok (Prog.heapSize_ok middle), bind_ok stops] at fixed
  obtain ⟨more, _, moreTrail, moreAtOnce⟩ := transaction_atOnce logs_blackenRoot stopped fixed
  have attached := isTree_attached _ stores located black holds
  refine ⟨call ++ more, by rw [moreTrail, trail, List.append_assoc], fun count => ?_⟩
  rcases atOnce.take_append (memory store) count with before | ⟨less, after⟩
  · rw [before]
    exact Or.inl ⟨tree, stores, rfl⟩
  · rw [after]
    apply Or.inr
    rcases moreAtOnce.take (memory middle) less with between | behind
    · rw [between]
      exact attached
    · rw [behind]
      exact ⟨_, grown, entries_grow stores.sorted _⟩

/-- One insert into a tree. -/
theorem allOrNothing_iff (idle : store.aux.running = false) (valid : store.aux.side ≠ null)
    (stores : Stores (memory store) tree)
    (ran : (RbtreePmemTx.pool garbage behind).insert key value store = .ok (1, final))
    (grown : Stores (memory final) (grow tree (key, value))) :
    AllOrNothing key value tree.entries store final ↔ EndsCalmly (memory store) key := by
  by_cases empty : tree = .leaf
  · subst empty
    constructor
    · intro atomic
      exact absurd atomic (not_allOrNothing_first idle valid stores ran _)
    · rintro ⟨last, ends, _⟩
      rw [stores.size] at ends
      cases ends
  · have bound : tree.height ≤ (memory store).heap.size := by
      rw [stores.size]
      exact height_le_length tree
    obtain ⟨last, ends, endsAt⟩ := endOfDescent_ok key stores.holds empty bound
    have rootEq : rootLabel tree = (memory store).root := stores.holds.root.symm
    rw [rootEq] at ends
    have calm : EndsCalmly (memory store) key ↔ last.key = key ∨ last.color = .black := by
      constructor
      · rintro ⟨other, otherEnds, calm⟩
        rw [ends] at otherEnds
        cases otherEnds
        exact calm
      · intro calm
        exact ⟨last, ends, calm⟩
    rw [calm]
    rcases upsert_cases (store.heap.size + 1) key value tree with
      ⟨above, located, _⟩ | ⟨above, color, label, old, left, right, located, _⟩
    · rw [located] at endsAt
      cases above with
      | nil => cases endsAt
      | cons frame above =>
          obtain ⟨different, colorEq⟩ := endsAt
          constructor
          · intro atomic
            apply Or.inr
            rw [colorEq]
            by_contra red
            apply not_allOrNothing_attach idle valid stores empty located _ ran _ atomic
            intro first isFirst
            obtain rfl : frame = first := Option.some.inj isFirst
            cases colorOf : frame.color with
            | red => rfl
            | black => exact absurd colorOf red
          · rintro (same | black)
            · exact absurd same different
            · exact allOrNothing_attach idle valid stores empty located (colorEq.symm.trans black) ran
                grown
    · rw [located] at endsAt
      constructor
      · intro _
        exact Or.inl endsAt
      · intro _
        exact allOrNothing_update idle valid stores located ran grown

/-- Outside of its calls the class runs no transaction. -/
theorem insertEach_idle (garbage : Ptr → RbNode) (behind : RbPlace → RbPlace → Bool) {rootOid : Ptr}
    (valid : rootOid ≠ null) (pairs : List (Key × Value)) :
    ∃ store, insertEach (RbtreePmemTx.pool garbage behind).insert pairs (newPool rootOid) =
        .ok ((), store) ∧ store.aux.side = rootOid ∧ store.aux.running = false ∧
      Stores (memory store) (treeOf pairs) := by
  obtain ⟨store, ran, side, stores⟩ := RbPool.insertEach_stores (RbtreePmemTx.pool garbage behind)
    (show (newPool rootOid).aux.side ≠ null from valid) (RbPool.newPool_stores rootOid) pairs
  obtain ⟨_, _, stopped, _⟩ := emits_insertEach pairs (show (newPool rootOid).aux.running = false from rfl) ran
  exact ⟨store, ran, side, stopped, stores⟩

end Calls

/-- After every sequence of inserts into a new pool a crash in the next insert leaves a red-black tree
with the old map or the new one, if and only if the descent to the key ends at the key itself or at a
black node. -/
theorem rbtreePmemTx_insert_allOrNothing_iff (garbage : Ptr → RbNode)
    (behind : RbPlace → RbPlace → Bool) (rootOid : Ptr) (valid : rootOid ≠ null)
    (pairs : List (Key × Value)) (key : Key) (value : Value) :
    ∃ store final,
      insertEach (RbtreePmemTx.pool garbage behind).insert pairs (newPool rootOid) = .ok ((), store) ∧
      (RbtreePmemTx.pool garbage behind).insert key value store = .ok (1, final) ∧
      IsTree (upsertAll pairs []) (memory store) ∧
      (AllOrNothing key value (upsertAll pairs []) store final ↔ EndsCalmly (memory store) key) := by
  obtain ⟨store, ran, side, stopped, stores⟩ := insertEach_idle garbage behind valid pairs
  have accepted : store.aux.side ≠ null := by rwa [side]
  obtain ⟨final, insertRan, _, grown⟩ :=
    RbPool.insert_stores (RbtreePmemTx.pool garbage behind) accepted stores key value
  have entriesEq : (treeOf pairs).entries = upsertAll pairs [] := entries_foldl_grow pairs sorted_nil
  refine ⟨store, final, ran, insertRan, ⟨_, stores, entriesEq⟩, ?_⟩
  rw [← entriesEq]
  exact allOrNothing_iff stopped accepted stores insertRan grown

theorem rbtreePmemTx_insert_allOrNothing_iff_again :
    ∃ first second : Value, ∃ store final,
      insertEach (RbtreePmemTx.pool (fun _ => ⟨0, CharArray.unwritten _, null, null, null, .red⟩)
          fun _ _ => false).insert [(5, first)] (newPool 1) = .ok ((), store) ∧
        (RbtreePmemTx.pool (fun _ => ⟨0, CharArray.unwritten _, null, null, null, .red⟩)
          fun _ _ => false).insert 5 second store = .ok (1, final) ∧
        IsTree [(5, first)] (memory store) ∧
        (AllOrNothing 5 second [(5, first)] store final ↔ EndsCalmly (memory store) 5) :=
  ⟨⟨[97], by decide, by decide⟩, ⟨[98], by decide, by decide⟩,
    rbtreePmemTx_insert_allOrNothing_iff _ _ 1 (by decide) [(5, ⟨[97], by decide, by decide⟩)] 5 _⟩

/-- The third of three ascending keys hangs below a red node when the first transaction commits. -/
theorem rbtreePmemTx_insert_torn :
    ∃ value : Value, ∃ store final,
      insertEach (RbtreePmemTx.pool (fun _ => ⟨0, CharArray.unwritten _, null, null, null, .red⟩)
          fun _ _ => false).insert [(1, value), (2, value)] (newPool 1) = .ok ((), store) ∧
        (RbtreePmemTx.pool (fun _ => ⟨0, CharArray.unwritten _, null, null, null, .red⟩)
          fun _ _ => false).insert 3 value store = .ok (1, final) ∧
        ¬ AllOrNothing 3 value [(1, value), (2, value)] store final := by
  let value : Value := ⟨[97], by decide, by decide⟩
  let garbage : Ptr → RbNode := fun _ => ⟨0, CharArray.unwritten _, null, null, null, .red⟩
  let behind : RbPlace → RbPlace → Bool := fun _ _ => false
  obtain ⟨store, ran, side, stopped, stores⟩ :=
    insertEach_idle garbage behind (by decide : (1 : Ptr) ≠ null) [(1, value), (2, value)]
  have accepted : store.aux.side ≠ null := by
    rw [side]
    decide
  obtain ⟨final, insertRan, _, _⟩ :=
    RbPool.insert_stores (RbtreePmemTx.pool garbage behind) accepted stores 3 value
  refine ⟨value, store, final, ran, insertRan, ?_⟩
  apply not_allOrNothing_attach stopped accepted stores _ _ _ insertRan
  · exact [⟨.right, .red, 2, (2, value), .leaf⟩, ⟨.right, .black, 1, (1, value), .leaf⟩]
  · intro empty
    cases empty
  · rfl
  · intro frame isFirst
    cases isFirst
    rfl

end StoredsBench.Rbtree
