/-
Module: StoredsBench.Trees.Insertion
Layer: Refinement
Purpose: The functions both tree classes share do to the heap what their counterparts do to the
  tree.  Each function on one node has a lemma that gives what the changed node shows;
  `insertNotFull_refines` follows the recursion from the root of the descent to the leaf.
Trusted boundary: none
Main exports: insertIntoLeaf_ok, graft_ok, SplitRefines, insertNotFull_refines
-/
import StoredsBench.Trees.Refinement

namespace StoredsBench.Trees

open Lib Lib.Multiway

variable {t : Nat} {X I : Type} {kind : Kind t I}

theorem Kind.degree (kind : Kind t I) : 2 ≤ t := by
  have := kind.lawful.degree
  rwa [kind.minDegree_eq] at this

theorem Kind.maxKeys_eq (kind : Kind t I) : kind.scheme.maxKeys = 2 * t - 1 := by
  rw [Scheme.maxKeys, kind.minDegree_eq]

/-! ### Single nodes -/

theorem isNodeFull_eq (kind : Kind t I) {node : Node t Unit} {depth : Nat} {tree : PtrTree I depth}
    (shows : Shows kind node tree) :
    isNodeFull t node.nk = decide (width tree = kind.scheme.maxKeys) := by
  rw [isNodeFull, shows.nk, kind.maxKeys_eq]
  exact Bool.beq_eq_decide_eq _ _

/-- Storing the key and copying the value into one slot. -/
theorem place_ok {capacity : Nat} (entries : CArray Entry capacity) {index : Nat}
    (inside : index < capacity) (key : Key) (value : Value) :
    ∃ keyed placed entry, setKey entries index key = .ok keyed ∧
      copyValue keyed index value = .ok placed ∧ viewEntry entry = some (key, value) ∧
      ∀ other, placed.at? other = (entries.put index entry).at? other := by
  obtain ⟨slot, keySet⟩ : ∃ slot, setKey entries index key =
      .ok (entries.put index { key := key, value := slot }) := by
    unfold setKey
    cases entries.at? index with
    | none => exact ⟨_, CArray.set_ok inside _ _⟩
    | some entry => exact ⟨_, CArray.set_ok inside _ _⟩
  have read : (entries.put index { key := key, value := slot }).get index =
      .ok { key := key, value := slot } :=
    CArray.get_ok (by rw [CArray.at?_put _ inside, if_pos rfl])
  refine ⟨_, (entries.put index { key := key, value := slot }).put index
    { key := key, value := slot.copyString value }, { key := key, value := slot.copyString value },
    keySet, ?_, by simp [viewEntry], ?_⟩
  · simp only [copyValue, read, bind, Except.bind]
    exact CArray.set_ok inside _ _
  · intro other
    simp only [CArray.at?_put _ inside]
    split <;> rfl

/-- The leaf case of `insert_not_full` inserts the entry at its ordered position. -/
theorem insertIntoLeaf_ok (kind : Kind t I) {node : Node t X} {leaf : PtrTree I 0}
    (shows : Shows kind node.body leaf) (room : width leaf < kind.scheme.maxKeys)
    (fresh : Nat → Nat) (key : Key) (value : Value) :
    ∃ grown, insertIntoLeaf key value node = .ok grown ∧ grown.links = node.links ∧
      Shows kind grown.body (Multiway.insertNotFull kind.scheme fresh (key, value) leaf) := by
  obtain ⟨isLeaf, nk, shown⟩ := shows
  have isLeaf : node.isLeaf = true := isLeaf
  have nk : node.nk = leaf.entries.length := nk
  have shown : CArray.Prefix viewEntry node.entries leaf.entries := shown
  have room : leaf.entries.length < 2 * t - 1 := by rw [← kind.maxKeys_eq]; exact room
  have keyOf : kind.scheme.entryKey = Prod.fst := kind.entryKey_eq
  have within := upperIndex_le kind.scheme.entryKey key leaf.entries
  have scanned : node.entries.scanDown (fun entry => decide (key < entry.key)) node.nk =
      .ok (upperIndex kind.scheme.entryKey key leaf.entries) := by
    rw [nk, upperIndex]
    refine CArray.scanDown_ok shown fun entry pair viewed => ?_
    rw [viewEntry_key viewed, keyOf]
  obtain ⟨shifted, shiftRan, inserted⟩ := CArray.shiftUp_put_prefix shown within room
  have shiftedWhile : CArray.shiftUpWhile (fun entry => decide (key < entry.key)) node.nk
      node.entries = .ok (upperIndex kind.scheme.entryKey key leaf.entries, shifted) := by
    rw [CArray.shiftUpWhile_eq scanned (by rw [nk]; exact room), nk, shiftRan]
    rfl
  obtain ⟨keyed, placed, entry, keySet, copied, viewed, placedAt⟩ :=
    place_ok shifted (show upperIndex kind.scheme.entryKey key leaf.entries < 2 * t - 1 by omega)
      key value
  refine ⟨{ node with entries := placed, nk := node.nk + 1 }, ?_, rfl, isLeaf, ?_, ?_⟩
  · simp only [insertIntoLeaf, shiftedWhile, keySet, copied, bind, Except.bind]
    rfl
  · show node.nk + 1 = _
    rw [nk]
    simp only [Multiway.insertNotFull, List.length_append, List.length_take, List.length_cons,
      List.length_drop, keyOf] at within ⊢
    omega
  · have listEq : leaf.entries.insertIdx (upperIndex kind.scheme.entryKey key leaf.entries)
        (key, value) = (Multiway.insertNotFull kind.scheme fresh (key, value) leaf).entries := by
      have split := CArray.insertIdx_at_length
        (leaf.entries.take (upperIndex kind.scheme.entryKey key leaf.entries))
        (leaf.entries.drop (upperIndex kind.scheme.entryKey key leaf.entries)) (key, value)
      rw [List.take_append_drop, List.length_take, Nat.min_eq_left within] at split
      simpa only [Multiway.insertNotFull, keyOf] using split
    rw [← listEq]
    exact (inserted entry (key, value) viewed).congr fun index _ => placedAt index

/-- Grafting a sibling puts it behind child `before.length`, with the separator in front of it. -/
theorem graft_ok (kind : Kind t I) {parent : Node t X} {depth name : Nat} {before after : List I}
    {left right : List (PtrTree I depth)} {child lower upper : PtrTree I depth} {separator : I}
    (place : CArray Entry (2 * t - 1) → Except Fault (CArray Entry (2 * t - 1)))
    (shows : Shows kind parent.body (mkNode name (before ++ after) (left ++ child :: right)))
    (leftAligned : left.length = before.length) (rightAligned : right.length = after.length)
    (room : (before ++ after).length < kind.scheme.maxKeys) (sameLabel : label lower = label child)
    (places : ∀ entries, ∃ entry, place entries = .ok (entries.put before.length entry) ∧
      kind.viewItem entry = some separator) :
    ∃ grown, graft before.length (label upper) place parent = .ok grown ∧
      grown.links = parent.links ∧
      Shows kind grown.body (mkNode name (before ++ separator :: after)
        (left ++ lower :: upper :: right)) := by
  obtain ⟨isLeaf, nk, items, children⟩ := shows
  have nk : parent.nk = (before ++ after).length := nk
  have items : CArray.Prefix kind.viewItem parent.entries (before ++ after) := items
  have children : CArray.Prefix some parent.children
      ((left.map label ++ [label child]) ++ right.map label) := by simpa using children
  have room : (before ++ after).length < 2 * t - 1 := by rw [← kind.maxKeys_eq]; exact room
  have afterCount : (before ++ after).length - before.length = after.length := by simp
  have rightCount : (left.map label ++ [label child] ++ right.map label).length -
      (left.map label ++ [label child]).length = after.length := by simp [rightAligned]; omega
  have leftCount : (left.map label ++ [label child]).length = before.length + 1 := by
    simp [leftAligned]
  have lengths : (left.map label ++ [label child] ++ right.map label).length =
      (before ++ after).length + 1 := by
    simp only [List.length_append, List.length_map, List.length_singleton]
    omega
  obtain ⟨shiftedChildren, childrenRan, childrenInserted⟩ :=
    CArray.shiftUp_put_prefix children
      (show (left.map label ++ [label child]).length ≤ _ by simp) (by omega)
  obtain ⟨shiftedEntries, entriesRan, entriesInserted⟩ :=
    CArray.shiftUp_put_prefix items (show before.length ≤ _ by simp) room
  rw [rightCount, leftCount] at childrenRan
  rw [afterCount] at entriesRan
  obtain ⟨entry, placeRan, viewed⟩ := places shiftedEntries
  have childInside : before.length + 1 < 2 * t := by
    simp only [List.length_append] at room
    omega
  refine ⟨{ parent with
    children := shiftedChildren.put (before.length + 1) (label upper)
    entries := shiftedEntries.put before.length entry
    nk := parent.nk + 1 }, ?_, rfl, isLeaf, ?_, ?_, ?_⟩
  · simp only [graft, nk, afterCount, childrenRan, entriesRan, placeRan, bind, Except.bind,
      CArray.set_ok childInside]
    rfl
  · show parent.nk + 1 = (before ++ separator :: after).length
    rw [nk]
    simp only [List.length_append, List.length_cons]
    omega
  · have inserted := entriesInserted entry separator viewed
    rwa [CArray.insertIdx_at_length] at inserted
  · have inserted := childrenInserted (label upper) (label upper) rfl
    rw [CArray.insertIdx_at_length, leftCount] at inserted
    simpa [sameLabel] using inserted

/-! ### The descent -/

/-- `splitNode` does to a full child of a node with room what `split` does to the tree. -/
def SplitRefines (kind : Kind t I) (chain : LeafChain X)
    (splitNode : Nat → Ptr → Ptr → TreeProg t X Unit) : Prop :=
  ∀ {depth low name : Nat} {store : Store (Node t X) Unit} {front back : List Nat}
    {before after : List I} {left right : List (PtrTree I depth)}
    {child lower upper : PtrTree I depth} {separator : I},
    Holds kind chain store front back (mkNode name (before ++ after) (left ++ child :: right)) →
    left.length = before.length → right.length = after.length →
    (before ++ after).length < kind.scheme.maxKeys → Shape kind.scheme low child →
    width child = kind.scheme.maxKeys →
    split kind.scheme (store.heap.size + 1) child = some (lower, separator, upper) →
    ∃ next, splitNode before.length name (label child) store = .ok ((), next) ∧
      Holds kind chain next front back
        (mkNode name (before ++ separator :: after) (left ++ lower :: upper :: right)) ∧
      Step store next (mkNode name (before ++ after) (left ++ child :: right))
        (mkNode name (before ++ separator :: after) (left ++ lower :: upper :: right))

variable {chain : LeafChain X} {store : Store (Node t X) Unit} {front back : List Nat}

/-- Rewriting a leaf in place. -/
theorem Holds.rewriteLeaf {leaf grown : PtrTree I 0} {node changed : Node t X}
    (holds : Holds kind chain store front back leaf)
    (live : store.heap.get? (label leaf) = some node) (kept : changed.links = node.links)
    (shows : Shows kind changed.body grown) (sameLabel : label grown = label leaf) :
    Holds kind chain { store with heap := store.heap.set (label leaf) changed } front back grown ∧
      Step store { store with heap := store.heap.set (label leaf) changed } leaf grown := by
  have sameLabels : labels grown = labels leaf := by
    show [label grown] = [label leaf]
    rw [sameLabel]
  have sameLeaves : leafLabels grown = leafLabels leaf := sameLabels
  refine ⟨⟨?_, by rw [sameLabels]; exact holds.nodup, ?_⟩, rfl, by simp, by simp [sameLabels], ?_, ?_⟩
  · refine ⟨changed.body, ?_, shows⟩
    rw [bodyAt_set live, sameLabel, if_pos rfl]
  · simp only [linksAt_set live kept, sameLeaves]
    exact holds.chained
  · intro address member
    exact Or.inl (sameLabels ▸ member)
  · intro address _ outside
    simp only [bodyAt_set live]
    rw [if_neg fun same : address = label leaf => outside (same ▸ label_mem_labels leaf)]

/-- Reading child `before.length` of a node. -/
theorem child_pointer {contents : Node t X} {depth name : Nat} {items : List I}
    {left right : List (PtrTree I depth)} {child : PtrTree I depth} {index : Nat}
    (shows : Shows kind contents.body (mkNode name items (left ++ child :: right)))
    (aligned : left.length = index) : contents.children.get index = .ok (label child) := by
  obtain ⟨value, written, viewed⟩ := shows.2.2.2 index (label child) (by simp [← aligned])
  rw [Option.some.inj viewed] at written
  exact CArray.get_ok written

/-- Reading separator `before.length` of a node. -/
theorem separator_key {contents : Node t X} {depth name : Nat} {before after : List I}
    {separator : I} {children : List (PtrTree I depth)}
    (shows : Shows kind contents.body (mkNode name (before ++ separator :: after) children)) :
    ∃ entry, contents.entries.get before.length = .ok entry ∧
      entry.key = kind.scheme.itemKey separator := by
  obtain ⟨entry, written, viewed⟩ := shows.2.2.1 before.length separator (by simp)
  exact ⟨entry, CArray.get_ok written, kind.viewItem_key entry separator viewed⟩

/-- The search of `insert_not_full` finds the child the insertion descends into. -/
theorem descent_index {contents : Node t X} {depth : Nat} {tree : PtrTree I (depth + 1)}
    (shows : Shows kind contents.body tree) (key : Key) :
    contents.entries.scanDown (fun entry => decide (key < entry.key)) contents.nk =
      .ok (upperIndex kind.scheme.itemKey key tree.items) := by
  have nk : contents.nk = tree.items.length := shows.2.1
  rw [nk, upperIndex]
  refine CArray.scanDown_ok shows.2.2.1 fun entry item viewed => ?_
  rw [kind.viewItem_key entry item viewed]

section Step

variable {depth name : Nat} {before after : List I} {left right : List (PtrTree I depth)}
  {child : PtrTree I depth} {splitNode : Nat → Ptr → Ptr → TreeProg t X Unit}

/-- One step of `insert_not_full`, up to the test whether the child it chooses is full. -/
theorem insertNotFull_step (splitNode : Nat → Ptr → Ptr → TreeProg t X Unit) (fuel : Nat) (key : Key) (value : Value)
    (rep : Rep kind store.heap (mkNode name (before ++ after) (left ++ child :: right)))
    (aligned : left.length = before.length)
    (chosen : before.length = upperIndex kind.scheme.itemKey key (before ++ after)) :
    insertNotFull splitNode (fuel + 1) name key value store =
      (if width child = kind.scheme.maxKeys then do
        splitNode before.length name (label child)
        let contents ← Prog.load name
        let separator ← Prog.lift (contents.entries.get before.length)
        let child ← Prog.lift (contents.children.get
          (if separator.key < key then before.length + 1 else before.length))
        insertNotFull splitNode fuel child key value
      else insertNotFull splitNode fuel (label child) key value) store := by
  obtain ⟨contents, live, shows⟩ := rep.root
  have live : store.heap.get? name = some contents := live
  have isLeaf : contents.isLeaf = false := shows.1
  have index := descent_index shows key
  rw [← chosen] at index
  have pointer := child_pointer shows aligned
  obtain ⟨childContents, childLive, childShows⟩ := (rep.2 child (by simp)).root
  have childFull := isNodeFull_eq kind childShows
  rw [insertNotFull, bind_ok (Prog.load_ok live)]
  simp only [isLeaf, Bool.false_eq_true, if_false]
  rw [bind_ok (Prog.lift_ok index store), bind_ok (Prog.lift_ok pointer store),
    bind_ok (Prog.load_ok childLive), ← Node.body_nk childContents, childFull]
  simp only [decide_eq_true_eq]

/-- The step into a child that was full: `split_node` makes room, and the separator it moved up
decides between the halves. -/
theorem insertNotFull_split (splits : SplitRefines kind chain splitNode) (fuel : Nat) (key : Key)
    (value : Value) {low : Nat} {lower upper : PtrTree I depth} {separator : I}
    (holds : Holds kind chain store front back
      (mkNode name (before ++ after) (left ++ child :: right)))
    (leftAligned : left.length = before.length) (rightAligned : right.length = after.length)
    (chosen : before.length = upperIndex kind.scheme.itemKey key (before ++ after))
    (room : (before ++ after).length < kind.scheme.maxKeys) (shape : Shape kind.scheme low child)
    (full : width child = kind.scheme.maxKeys)
    (splitEq : split kind.scheme (store.heap.size + 1) child = some (lower, separator, upper)) :
    ∃ middle,
      insertNotFull splitNode (fuel + 1) name key value store =
        insertNotFull splitNode fuel
          (if kind.scheme.itemKey separator < key then label upper else label lower) key value
          middle ∧
      Holds kind chain middle front back
        (mkNode name (before ++ separator :: after) (left ++ lower :: upper :: right)) ∧
      Step store middle (mkNode name (before ++ after) (left ++ child :: right))
        (mkNode name (before ++ separator :: after) (left ++ lower :: upper :: right)) := by
  obtain ⟨middle, splitRan, splitHolds, splitStep⟩ :=
    splits holds leftAligned rightAligned room shape full splitEq
  refine ⟨middle, ?_, splitHolds, splitStep⟩
  obtain ⟨contents, live, shows⟩ := splitHolds.rep.root
  have live : middle.heap.get? name = some contents := live
  obtain ⟨entry, entryRead, entryKey⟩ := separator_key shows
  rw [insertNotFull_step splitNode fuel key value holds.rep leftAligned chosen, if_pos full, bind_ok splitRan,
    bind_ok (Prog.load_ok live), bind_ok (Prog.lift_ok entryRead middle), entryKey]
  by_cases goesRight : kind.scheme.itemKey separator < key
  · have shows : Shows kind contents.body
        (mkNode name (before ++ separator :: after) ((left ++ [lower]) ++ upper :: right)) := by
      simpa using shows
    have pointer := child_pointer shows (show _ = before.length + 1 by simp [leftAligned])
    rw [if_pos goesRight, if_pos goesRight, bind_ok (Prog.lift_ok pointer middle)]
  · have pointer := child_pointer shows leftAligned
    rw [if_neg goesRight, if_neg goesRight, bind_ok (Prog.lift_ok pointer middle)]

end Step

/-- `insert_not_full` does to the heap what `Multiway.insertNotFull` does to the tree: it returns,
stays inside the arrays, and changes nothing outside the tree it descends. -/
theorem insertNotFull_refines {splitNode : Nat → Ptr → Ptr → TreeProg t X Unit}
    (splits : SplitRefines kind chain splitNode) (key : Key) (value : Value) :
    ∀ {depth fuel low : Nat} {tree : PtrTree I depth} {store : Store (Node t X) Unit}
      {front back : List Nat}, depth < fuel → Holds kind chain store front back tree →
      Shape kind.scheme low tree → width tree < kind.scheme.maxKeys →
      ∃ fresh next, insertNotFull splitNode fuel (label tree) key value store = .ok ((), next) ∧
        Holds kind chain next front back
          (Multiway.insertNotFull kind.scheme fresh (key, value) tree) ∧
        Step store next tree (Multiway.insertNotFull kind.scheme fresh (key, value) tree)
  | 0, fuel + 1, low, leaf, store, front, back, _, holds, shape, room => by
      obtain ⟨node, live, shows⟩ := holds.rep.root
      have isLeaf : node.isLeaf = true := shows.1
      obtain ⟨grown, ran, kept, grownShows⟩ :=
        insertIntoLeaf_ok kind shows room (fun _ => 0) key value
      refine ⟨fun _ => 0, { store with heap := store.heap.set (label leaf) grown }, ?_,
        holds.rewriteLeaf live kept grownShows rfl⟩
      rw [insertNotFull, bind_ok (Prog.load_ok live)]
      simp only [isLeaf, if_true]
      exact Prog.modify_ok live ran
  | depth + 1, fuel + 1, low, tree, store, front, back, bound, holds, shape, room => by
      obtain ⟨before, after, left, child, right, itemsEq, childrenEq, leftAligned, rightAligned,
        chosen⟩ := exists_child key shape
      obtain ⟨name, items, children⟩ := tree
      simp only at itemsEq childrenEq chosen
      subst itemsEq childrenEq
      have holds : Holds kind chain store front back
        (mkNode name (before ++ after) (left ++ child :: right)) := holds
      have chosenEntry : before.length = upperIndex kind.scheme.itemKey
          (kind.scheme.entryKey (key, value)) (before ++ after) := by
        rw [kind.entryKey_eq]
        exact chosen
      have childShape := shape.2.2 child (by simp)
      by_cases full : width child = kind.scheme.maxKeys
      · obtain ⟨lower, separator, upper, splitEq, lowerShape, upperShape, lowerRoom, upperRoom⟩ :=
          split_full kind.lawful (store.heap.size + 1) childShape full
        obtain ⟨middle, started, splitHolds, splitStep⟩ :=
          insertNotFull_split splits fuel key value holds leftAligned rightAligned chosen room
            childShape full splitEq
        -- The split takes the first new address; the rest of the descent has its own supply.
        have resultEq : ∀ fresh : Nat → Nat,
            Multiway.insertNotFull kind.scheme (supply depth (store.heap.size + 1) fresh) (key, value)
                (mkNode name (before ++ after) (left ++ child :: right)) =
              if kind.scheme.itemKey separator < key then
                mkNode name (before ++ separator :: after)
                  (left ++ lower :: Multiway.insertNotFull kind.scheme fresh (key, value) upper ::
                    right)
              else
                mkNode name (before ++ separator :: after)
                  (left ++ Multiway.insertNotFull kind.scheme fresh (key, value) lower :: upper ::
                    right) := by
          intro fresh
          rw [insertNotFull_full _ leftAligned chosenEntry full (by rwa [supply_self]),
            insertNotFull_supply, insertNotFull_supply, kind.entryKey_eq]
        by_cases goesRight : kind.scheme.itemKey separator < key
        · have upperHolds : Holds kind chain middle front back
              (mkNode name (before ++ separator :: after) ((left ++ [lower]) ++ upper :: right)) := by
            simpa using splitHolds
          obtain ⟨fresh, next, ran, grownHolds, step⟩ :=
            insertNotFull_refines splits key value (by omega : depth < fuel) upperHolds.child
              upperShape upperRoom
          obtain ⟨nodeHolds, nodeStep⟩ :=
            upperHolds.replace step (label_insertNotFull fresh (key, value) upper) grownHolds
          refine ⟨supply depth (store.heap.size + 1) fresh, next, ?_, ?_⟩
          · show insertNotFull splitNode (fuel + 1) name key value store = _
            rw [started, if_pos goesRight, ran]
          · rw [resultEq fresh, if_pos goesRight]
            simp only [List.append_assoc, List.singleton_append] at nodeHolds nodeStep
            exact ⟨nodeHolds, splitStep.trans nodeStep⟩
        · obtain ⟨fresh, next, ran, grownHolds, step⟩ :=
            insertNotFull_refines splits key value (by omega : depth < fuel) splitHolds.child
              lowerShape lowerRoom
          obtain ⟨nodeHolds, nodeStep⟩ :=
            splitHolds.replace step (label_insertNotFull fresh (key, value) lower) grownHolds
          refine ⟨supply depth (store.heap.size + 1) fresh, next, ?_, ?_⟩
          · show insertNotFull splitNode (fuel + 1) name key value store = _
            rw [started, if_neg goesRight, ran]
          · rw [resultEq fresh, if_neg goesRight]
            exact ⟨nodeHolds, splitStep.trans nodeStep⟩
      · have childRoom := lt_of_le_of_ne childShape.width_le full
        obtain ⟨fresh, next, ran, grownHolds, step⟩ :=
          insertNotFull_refines splits key value (by omega : depth < fuel) holds.child childShape
            childRoom
        refine ⟨fresh, next, ?_, ?_⟩
        · show insertNotFull splitNode (fuel + 1) name key value store = _
          rw [insertNotFull_step splitNode fuel key value holds.rep leftAligned chosen, if_neg full, ran]
        · rw [insertNotFull_room fresh leftAligned chosenEntry full]
          exact holds.replace step (label_insertNotFull fresh (key, value) child) grownHolds

end StoredsBench.Trees
