/-
Module: StoredsBench.Trees.Lookup
Layer: Refinement
Purpose: Finding a key in a tree on the heap and overwriting its value.  `Answers` is what a search
  must return; it lifts from a child to its parent when the separators around the child enclose
  the key.  An update is a search followed by an overwrite, which replaces one entry of the
  contents and nothing else.
Trusted boundary: none
Main exports: writeAt, Located, Answers, Answers.lift, probe_ok, SearchRefines, overwrite_refines
-/
import StoredsBench.Trees.Refinement
import StoredsBench.Lib.Multiway.Rewrite

namespace StoredsBench.Trees

open Lib Lib.Multiway Lib.SortedAssoc

variable {t : Nat} {X I : Type} {kind : Kind t I}

/-! ### The linear search in one node -/

/-- The search stops at the first key that is not below `key`, and the test behind it finds out
whether this is the key. -/
theorem probe_ok {α : Type} {view : Entry → Option α} {keyOf : α → Key} {node : Node t X}
    {items : List α} (key : Key) (shown : CArray.Prefix view node.entries items)
    (nk : node.nk = items.length)
    (agree : ∀ entry item, view entry = some item → entry.key = keyOf item)
    (ascending : items.Pairwise fun a b => keyOf a < keyOf b) :
    ∃ before after found, items = before ++ after ∧ lowerIndexOf node key = .ok before.length ∧
      keyMatches node before.length key = .ok found ∧ (∀ item ∈ before, keyOf item < key) ∧
      ((found = true ∧ ∃ hit rest, after = hit :: rest ∧ keyOf hit = key ∧
          ∀ item ∈ rest, key < keyOf item) ∨
        (found = false ∧ ∀ item ∈ after, key < keyOf item)) := by
  obtain ⟨before, after, itemsEq, lengthEq, below, above⟩ := lowerIndex_cases keyOf key items ascending
  have scanned : lowerIndexOf node key = .ok before.length := by
    rw [lowerIndexOf, nk, lengthEq, lowerIndex]
    exact CArray.scanUp_ok shown fun entry item viewed => by rw [agree entry item viewed]
  have tested : ∀ item rest, after = item :: rest →
      keyMatches node before.length key = .ok (key == keyOf item) := by
    intro item rest afterEq
    obtain ⟨entry, written, viewed⟩ := shown before.length item (by simp [itemsEq, afterEq])
    have inside : before.length < node.nk := by simp [nk, itemsEq, afterEq]
    rw [keyMatches, if_pos inside, CArray.get_ok written, ← agree entry item viewed]
    rfl
  rcases above with ⟨hit, rest, afterEq, hitKey, restAbove⟩ | above
  · refine ⟨before, after, true, itemsEq, scanned, ?_, below,
      Or.inl ⟨rfl, hit, rest, afterEq, hitKey, restAbove⟩⟩
    rw [tested hit rest afterEq, hitKey, beq_self_eq_true]
  · refine ⟨before, after, false, itemsEq, scanned, ?_, below, Or.inr ⟨rfl, above⟩⟩
    cases afterEq : after with
    | nil =>
        have outside : ¬ before.length < node.nk := by simp [nk, itemsEq, afterEq]
        rw [keyMatches, if_neg outside]
        rfl
    | cons item rest =>
        have different : (key == keyOf item) = false :=
          beq_false_of_ne (above item (by simp [afterEq])).ne
        rw [tested item rest afterEq, different]

/-- The search among the separators of an inner node. -/
theorem Shows.probe {node : Node t X} {depth low : Nat} {tree : PtrTree I (depth + 1)}
    (shows : Shows kind node.body tree) (shape : Shape kind.scheme low tree)
    (ordered : Ordered kind.scheme (trace tree)) (key : Key) :
    ∃ before after found, tree.items = before ++ after ∧ lowerIndexOf node key = .ok before.length ∧
      keyMatches node before.length key = .ok found ∧
      (∀ item ∈ before, kind.scheme.itemKey item < key) ∧
      ((found = true ∧ ∃ hit rest, after = hit :: rest ∧ kind.scheme.itemKey hit = key ∧
          ∀ item ∈ rest, key < kind.scheme.itemKey item) ∨
        (found = false ∧ ∀ item ∈ after, key < kind.scheme.itemKey item)) :=
  probe_ok key shows.2.2.1 shows.2.1 kind.viewItem_key (shape.items_ascending ordered)

/-! ### Where a key is stored -/

/-- Overwrite the value in one slot of the tree. -/
def writeAt (kind : Kind t I) (slot : SlotRef) (value : Value) {depth : Nat}
    (tree : PtrTree I depth) : PtrTree I depth :=
  rewriteAt slot.node (fun items => items.modify slot.index (kind.setItem value))
    (fun entries => entries.modify slot.index fun pair => (pair.1, value)) tree

/-- What overwriting the value does to the mark it belongs to. -/
def setMark (kind : Kind t I) (value : Value) : I ⊕ (Key × Value) → I ⊕ (Key × Value) :=
  Sum.map (kind.setItem value) fun pair => (pair.1, value)

/-- The slot holds the entry of `key` among the entries of the tree, and its value is `old`. -/
structure Located (kind : Kind t I) (heap : Heap (Node t X)) {depth : Nat} (tree : PtrTree I depth)
    (key : Key) (slot : SlotRef) (old : Value) : Prop where
  stored : ∃ node entry, heap.get? slot.node = some node ∧
    node.entries.at? slot.index = some entry ∧ entry.value.string? = some old
  member : slot.node ∈ labels tree
  focus : ∃ front mark back, trace tree = front ++ mark :: back ∧
    carried kind.scheme mark = some (key, old) ∧
    ∀ value, trace (writeAt kind slot value tree) = front ++ setMark kind value mark :: back

/-- What a search for `key` must return. -/
def Answers (kind : Kind t I) (heap : Heap (Node t X)) {depth : Nat} (tree : PtrTree I depth)
    (key : Key) : Option SlotRef → Prop
  | none => ∀ entry ∈ contents kind.scheme tree, entry.1 ≠ key
  | some slot => ∃ old, Located kind heap tree key slot old

theorem position_entry_lt (kind : Kind t I) {entry : Key × Value} {key : Key} :
    position kind.scheme (.inr entry) < toLex (key, true) ↔ entry.1 < key := by
  rw [position, Prod.Lex.toLex_lt_toLex, kind.entryKey_eq]
  simp

theorem position_item_lt {kind : Kind t I} {item : I} {key : Key}
    (below : kind.scheme.itemKey item < key) :
    position kind.scheme (.inl item) < toLex (key, true) :=
  Prod.Lex.toLex_lt_toLex.mpr (Or.inl below)

theorem lt_position_item {kind : Kind t I} {item : I} {key : Key}
    (above : key < kind.scheme.itemKey item) :
    toLex (key, true) < position kind.scheme (.inl item) :=
  Prod.Lex.toLex_lt_toLex.mpr (Or.inl above)

theorem lt_position_entry (kind : Kind t I) {entry : Key × Value} {key : Key} :
    toLex (key, true) < position kind.scheme (.inr entry) ↔ key < entry.1 := by
  rw [position, Prod.Lex.toLex_lt_toLex, kind.entryKey_eq]
  simp

section Lifting

variable {heap : Heap (Node t X)} {depth name : Nat} {before after : List I}
  {left right : List (PtrTree I depth)} {child : PtrTree I depth} {key : Key}

/-- A search may be continued in the child whose neighbouring separators enclose the key. -/
theorem Answers.lift {result : Option SlotRef} (answers : Answers kind heap child key result)
    (nodup : (labels (mkNode name (before ++ after) (left ++ child :: right))).Nodup)
    (ordered : Ordered kind.scheme
      (trace (mkNode name (before ++ after) (left ++ child :: right))))
    (leftAligned : left.length = before.length) (rightAligned : right.length = after.length)
    (beforeBelow : ∀ item ∈ before, position kind.scheme (.inl item) < toLex (key, true))
    (afterAbove : ∀ item ∈ after, toLex (key, true) < position kind.scheme (.inl item)) :
    Answers kind heap (mkNode name (before ++ after) (left ++ child :: right)) key result := by
  have view := fun changed : PtrTree I depth => trace_mkNode name after changed right leftAligned
  rw [view] at ordered
  obtain ⟨frontOrdered, restOrdered, _⟩ := ordered_append.mp ordered
  obtain ⟨_, backOrdered, _⟩ := ordered_append.mp restOrdered
  have frontBelow := closed_below (by simpa using leftAligned) frontOrdered beforeBelow
  have backAbove := opened_above (by simpa using rightAligned) backOrdered afterAbove
  cases result with
  | none =>
      intro entry member
      rw [contents, view] at member
      simp only [entriesOf_append, List.mem_append] at member
      rcases member with inFront | inChild | inBack
      · obtain ⟨mark, markMember, same, _⟩ := exists_mark_of_mem_entriesOf kind.lawful inFront
        exact ((position_entry_lt kind).mp (same ▸ frontBelow mark markMember)).ne
      · exact answers entry inChild
      · obtain ⟨mark, markMember, same, _⟩ := exists_mark_of_mem_entriesOf kind.lawful inBack
        exact ((lt_position_entry kind).mp (same ▸ backAbove mark markMember)).ne'
  | some slot =>
      obtain ⟨old, located⟩ := answers
      obtain ⟨front, mark, back, traceEq, holdsKey, writes⟩ := located.focus
      refine ⟨old, located.stored, ?_, ?_⟩
      · rw [labels_mkNode]
        simp [located.member]
      · refine ⟨closed (before.map Sum.inl) (left.map trace) ++ front, mark,
          back ++ opened (after.map Sum.inl) (right.map trace), ?_, holdsKey, fun value => ?_⟩
        · rw [view, traceEq]
          simp
        · rw [writeAt, rewriteAt_child _ _ _ nodup located.member, view]
          have childTrace := writes value
          rw [writeAt] at childTrace
          rw [childTrace]
          simp

end Lifting

/-- The search in a leaf answers for the leaf. -/
theorem Answers.leaf {heap : Heap (Node t X)} {leaf : PtrTree I 0} {node : Node t X} {key : Key}
    (live : heap.get? (label leaf) = some node) (shows : Shows kind node.body leaf)
    (ordered : Ordered kind.scheme (trace leaf)) :
    ∃ index found, lowerIndexOf node key = .ok index ∧ keyMatches node index key = .ok found ∧
      Answers kind heap leaf key
        (if found then some { node := label leaf, index := index } else none) := by
  have ascending : leaf.entries.Pairwise fun a b => a.1 < b.1 := by
    refine (List.pairwise_map.mp ordered).imp fun below => ?_
    have := position_entry_lt_iff.mp below
    rwa [kind.entryKey_eq] at this
  obtain ⟨before, after, found, entriesEq, scanned, tested, below, cases⟩ :=
    probe_ok key shows.2.2 shows.2.1 (fun entry pair viewed => viewEntry_key viewed) ascending
  refine ⟨before.length, found, scanned, tested, ?_⟩
  rcases cases with ⟨rfl, hit, rest, rfl, hitKey, _⟩ | ⟨rfl, above⟩
  · obtain ⟨entry, written, viewed⟩ := shows.2.2 before.length hit (by simp [entriesEq])
    obtain ⟨value, valueRead, pairEq⟩ := Option.map_eq_some_iff.mp viewed
    have hitEq : hit = (key, value) := by rw [← pairEq, ← hitKey, ← pairEq]
    refine ⟨value, ⟨node, entry, live, written, valueRead⟩, label_mem_labels leaf,
      before.map Sum.inr, .inr hit, rest.map Sum.inr, ?_, by rw [hitEq]; rfl, fun newValue => ?_⟩
    · show leaf.entries.map Sum.inr = _
      rw [entriesEq]
      simp
    · show ((if leaf.label = leaf.label then _ else _ : List (Key × Value))).map Sum.inr = _
      rw [if_pos rfl, entriesEq, CArray.modify_at_length]
      simp [setMark]
  · intro entry member
    have inLeaf : entry ∈ leaf.entries := by
      have shown : contents kind.scheme leaf = leaf.entries := entriesOf_entries leaf.entries
      rwa [shown] at member
    rw [entriesEq] at inLeaf
    rcases List.mem_append.mp inLeaf with early | late
    · exact (below entry early).ne
    · exact (above entry late).ne'

/-- A key found among the separators of an inner node that stores entries there. -/
theorem Located.separator {heap : Heap (Node t X)} {depth low : Nat} {tree : PtrTree I (depth + 1)}
    {node : Node t X} {entry : Entry} {key : Key} {old : Value} {before rest : List I} {hit : I}
    (nodup : (labels tree).Nodup) (shape : Shape kind.scheme low tree)
    (live : heap.get? (label tree) = some node)
    (written : node.entries.at? before.length = some entry) (read : entry.value.string? = some old)
    (itemsEq : tree.items = before ++ hit :: rest)
    (stores : kind.scheme.carries hit = some (key, old)) :
    Located kind heap tree key { node := label tree, index := before.length } old := by
  obtain ⟨name, items, children⟩ := tree
  simp only at itemsEq
  subst itemsEq
  obtain ⟨left, child, others, rfl, aligned, othersLength⟩ := shape.child_at rfl
  obtain ⟨next, right, rfl⟩ : ∃ next right, others = next :: right :=
    List.exists_cons_of_length_eq_add_one othersLength
  have view := fun item : I => trace_around name item rest child next right aligned
  refine ⟨⟨node, entry, live, written, read⟩, label_mem_labels (mkNode name _ _), _, .inl hit, _,
    view hit, stores, fun value => ?_⟩
  have written : writeAt kind { node := name, index := before.length } value
      (mkNode name (before ++ hit :: rest) (left ++ child :: next :: right)) =
        mkNode name (before ++ kind.setItem value hit :: rest) (left ++ child :: next :: right) := by
    rw [writeAt, rewriteAt_root _ _ _ nodup, CArray.modify_at_length]
  show trace (writeAt kind { node := name, index := before.length } value
    (mkNode name (before ++ hit :: rest) (left ++ child :: next :: right))) = _
  rw [written, view]
  rfl

/-! ### Overwriting a value -/

theorem viewEntry_copy {entry : Entry} {pair : Key × Value} (value : Value)
    (viewed : viewEntry entry = some pair) :
    viewEntry { entry with value := entry.value.copyString value } = some (pair.1, value) := by
  rw [← viewEntry_key viewed]
  simp [viewEntry]

/-- The node after its entry `index` got a new value. -/
def withValue (node : Node t X) (index : Nat) (entry : Entry) (value : Value) : Node t X :=
  { node with
    entries := node.entries.put index { entry with value := entry.value.copyString value } }

section Overwriting

variable {heap : Heap (Node t X)} {slot : SlotRef} {node : Node t X} {entry : Entry}

theorem Shows.withValue {depth : Nat} {tree : PtrTree I depth} (value : Value)
    (shows : Shows kind node.body tree) (written : node.entries.at? slot.index = some entry)
    (here : label tree = slot.node) :
    Shows kind (withValue node slot.index entry value).body (writeAt kind slot value tree) := by
  cases depth with
  | zero =>
      obtain ⟨isLeaf, nk, shown⟩ := shows
      have changed : (writeAt kind slot value tree).entries =
          tree.entries.modify slot.index fun pair => (pair.1, value) := if_pos here
      refine ⟨isLeaf, ?_, ?_⟩
      · rw [changed, List.length_modify]
        exact nk
      · rw [changed]
        exact CArray.Prefix.put_modify shown written fun pair viewed => viewEntry_copy value viewed
  | succ depth =>
      obtain ⟨isLeaf, nk, shown, children⟩ := shows
      have changed : (writeAt kind slot value tree).items =
          tree.items.modify slot.index (kind.setItem value) := if_pos here
      refine ⟨isLeaf, ?_, ?_, ?_⟩
      · rw [changed, List.length_modify]
        exact nk
      · rw [changed]
        exact CArray.Prefix.put_modify shown written fun item viewed =>
          kind.viewItem_copy entry item value viewed
      · have sameLabels : (writeAt kind slot value tree).children.map label =
            tree.children.map label := by
          simp only [writeAt, rewriteAt, List.map_map]
          exact List.map_congr_left fun child _ => label_rewriteAt _ _ _ child
        rw [sameLabels]
        exact children

theorem Shows.elsewhere {depth : Nat} {body : Node t Unit} {tree : PtrTree I depth} (value : Value)
    (shows : Shows kind body tree) (different : label tree ≠ slot.node) :
    Shows kind body (writeAt kind slot value tree) := by
  cases depth with
  | zero =>
      have same : (writeAt kind slot value tree).entries = tree.entries := if_neg different
      rw [Shows, same]
      exact shows
  | succ depth =>
      have same : (writeAt kind slot value tree).items = tree.items := if_neg different
      have sameLabels : (writeAt kind slot value tree).children.map label =
          tree.children.map label := by
        simp only [writeAt, rewriteAt, List.map_map]
        exact List.map_congr_left fun child _ => label_rewriteAt _ _ _ child
      rw [Shows, same, sameLabels]
      exact shows

/-- Overwriting a value on the heap overwrites it in the tree. -/
theorem Rep.writeAt (value : Value) (live : heap.get? slot.node = some node)
    (written : node.entries.at? slot.index = some entry) :
    ∀ {depth : Nat} {tree : PtrTree I depth}, Rep kind heap tree →
      Rep kind (heap.set slot.node (withValue node slot.index entry value))
        (writeAt kind slot value tree) := by
  have shownAt : ∀ {depth : Nat} {tree : PtrTree I depth}, ShowsAt kind heap tree →
      ShowsAt kind (heap.set slot.node (withValue node slot.index entry value))
        (Trees.writeAt kind slot value tree) := by
    intro depth tree shown
    obtain ⟨body, found, shows⟩ := shown
    have sameLabel : label (Trees.writeAt kind slot value tree) = label tree :=
      label_rewriteAt _ _ _ tree
    by_cases here : label tree = slot.node
    · rw [here, bodyAt, live, Option.map_some, Option.some.injEq] at found
      subst found
      exact ⟨_, by rw [bodyAt_set live, sameLabel, if_pos here], shows.withValue value written here⟩
    · exact ⟨body, by rw [bodyAt_set live, sameLabel, if_neg here]; exact found,
        shows.elsewhere value here⟩
  intro depth
  induction depth with
  | zero => exact fun rep => shownAt rep
  | succ depth inductionHypothesis =>
      intro tree rep
      refine ⟨shownAt rep.1, fun child member => ?_⟩
      obtain ⟨old, oldMember, rfl⟩ := List.mem_map.mp member
      exact inductionHypothesis (rep.2 old oldMember)

end Overwriting

/-- `memcpy(slot, value, strlen(value) + 1)`. -/
def overwrite (slot : SlotRef) (value : Value) : TreeProg t X Unit :=
  Prog.modify slot.node fun node => do
    let entries ← copyValue node.entries slot.index value
    return { node with entries := entries }

section Results

variable {depth : Nat} {tree : PtrTree I depth} {key : Key} {slot : SlotRef} {old : Value}

/-- Overwriting a located value does to the heap what `writeAt` does to the tree. -/
theorem Located.overwrite_ok {chain : LeafChain X} {store : Store (Node t X) Unit}
    {front back : List Nat} (located : Located kind store.heap tree key slot old)
    (holds : Holds kind chain store front back tree) (value : Value) :
    ∃ next, overwrite slot value store = .ok ((), next) ∧ next.root = store.root ∧
      Holds kind chain next front back (writeAt kind slot value tree) := by
  obtain ⟨node, entry, live, written, _⟩ := located.stored
  refine ⟨{ store with heap := store.heap.set slot.node (withValue node slot.index entry value) },
    Prog.modify_ok live ?_, rfl, holds.rep.writeAt value live written, ?_, ?_⟩
  · simp only [copyValue, CArray.get_ok written, bind, Except.bind,
      CArray.set_ok (CArray.lt_of_at? written)]
    rfl
  · rw [writeAt, labels_rewriteAt]
    exact holds.nodup
  · have kept : (withValue node slot.index entry value).links = node.links := rfl
    simp only [linksAt_set live kept, writeAt, leafLabels_rewriteAt]
    exact holds.chained

/-- The value the caller sees through the returned pointer. -/
theorem Located.stringAt_ok {store : Store (Node t X) Unit}
    (located : Located kind store.heap tree key slot old) :
    stringAt store (some slot) = .ok (some old) := by
  obtain ⟨node, entry, live, written, read⟩ := located.stored
  simp only [stringAt, live, CArray.get_ok written, bind, Except.bind, read]

/-- A located key has its value in the contents, and overwriting it is the update of the map. -/
theorem Located.contents_eq {heap : Heap (Node t X)} (located : Located kind heap tree key slot old)
    (valid : Valid kind.scheme tree) (value : Value) :
    (contents kind.scheme tree).lookup key = some old ∧
      Valid kind.scheme (writeAt kind slot value tree) ∧
      contents kind.scheme (writeAt kind slot value tree) =
        upsert key value (contents kind.scheme tree) := by
  obtain ⟨front, mark, back, traceEq, stores, writes⟩ := located.focus
  have ascending := valid.contents_ascending kind.lawful
  have contentsEq : contents kind.scheme tree =
      entriesOf kind.scheme front ++ (key, old) :: entriesOf kind.scheme back := by
    rw [contents, traceEq, entriesOf_middle stores]
  rw [contentsEq, kind.entryKey_eq, List.pairwise_append] at ascending
  have below : ∀ entry ∈ entriesOf kind.scheme front, entry.1 < key :=
    fun entry member => ascending.2.2 entry member (key, old) (by simp)
  -- The changed mark has the same key, so it keeps its place in the order.
  have changed : carried kind.scheme (setMark kind value mark) = some (key, value) ∧
      position kind.scheme (setMark kind value mark) = position kind.scheme mark := by
    cases mark with
    | inl item =>
        refine ⟨kind.carries_set value item (key, old) stores, ?_⟩
        simp [setMark, position, kind.itemKey_set]
    | inr entry =>
        obtain rfl : entry = (key, old) := Option.some.inj stores
        exact ⟨rfl, by simp [setMark, position, kind.entryKey_eq]⟩
  refine ⟨?_, ?_, ?_⟩
  · rw [contentsEq, lookup_append_of_forall_ne _ fun entry member => (below entry member).ne,
      lookup_cons, if_pos rfl]
  · refine valid.replace kind.lawful ?_ traceEq (writes value) changed.2 stores changed.1 ?_
    · exact shape_rewriteAt _ _ _ (fun _ => List.length_modify _ _ _)
        (fun _ => List.length_modify _ _ _) valid.shape
    · rw [kind.entryKey_eq]
  · rw [contents, writes value, entriesOf_middle changed.1, contentsEq, upsert_update _ _ below]

end Results

/-! ### Searching and updating -/

/-- `search` answers for every tree it is started on, and leaves the store alone. -/
def SearchRefines (kind : Kind t I) (search : Nat → Ptr → Key → TreeProg t X (Option SlotRef)) :
    Prop :=
  ∀ {depth fuel low : Nat} {tree : PtrTree I depth} {store : Store (Node t X) Unit} (key : Key),
    depth < fuel → Rep kind store.heap tree → (labels tree).Nodup → Shape kind.scheme low tree →
    Ordered kind.scheme (trace tree) →
    ∃ result, search fuel (label tree) key store = .ok (result, store) ∧
      Answers kind store.heap tree key result

/-- Overwrite the value a search has found. -/
def overwriteFound (value : Value) : Option SlotRef → TreeProg t X Bool
  | none => return false
  | some slot => do
      overwrite slot value
      return true

/-- An update either finds the key and replaces its value or leaves everything as it is. -/
theorem update_refines {chain : LeafChain X}
    {search : Nat → Ptr → Key → TreeProg t X (Option SlotRef)} (searches : SearchRefines kind search)
    {depth fuel : Nat} {tree : PtrTree I depth} {store : Store (Node t X) Unit} {front back : List Nat}
    (bound : depth < fuel) (holds : Holds kind chain store front back tree)
    (valid : Valid kind.scheme tree) (key : Key) (value : Value) :
    (∃ next changed, (search fuel (label tree) key >>= overwriteFound value) store =
        .ok (true, next) ∧ next.root = store.root ∧ label changed = label tree ∧
        Holds kind chain next front back (changed : PtrTree I depth) ∧ Valid kind.scheme changed ∧
        contents kind.scheme changed = upsert key value (contents kind.scheme tree) ∧
        next.heap.size = store.heap.size ∧ labels changed = labels tree) ∨
      ((search fuel (label tree) key >>= overwriteFound value) store = .ok (false, store) ∧
        ∀ entry ∈ contents kind.scheme tree, entry.1 ≠ key) := by
  obtain ⟨result, ran, answers⟩ :=
    searches key bound holds.rep holds.nodup valid.shape valid.ordered
  rw [bind_ok ran]
  cases result with
  | none => exact Or.inr ⟨rfl, answers⟩
  | some slot =>
      obtain ⟨old, located⟩ := answers
      obtain ⟨next, overwritten, sameRoot, nextHolds⟩ := located.overwrite_ok holds value
      obtain ⟨_, nextValid, contentsEq⟩ := located.contents_eq valid value
      have sameSize : next.heap.size = store.heap.size := by
        obtain ⟨_, _, _, _, rfl⟩ := Prog.modify_inv overwritten
        exact Heap.size_set _ _ _
      refine Or.inl ⟨next, writeAt kind slot value tree, ?_, sameRoot, label_rewriteAt _ _ _ tree,
        nextHolds, nextValid, contentsEq, sameSize, labels_rewriteAt _ _ _ tree⟩
      rw [overwriteFound, bind_ok overwritten]
      rfl

end StoredsBench.Trees
