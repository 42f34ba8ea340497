/-
Module: StoredsBench.BTreeMemOpt.Refinement
Layer: Refinement
Purpose: The B-tree of pointers to entries does what `BTreeDram` does, node by node at the same
  addresses.  Every written slot of a `BTreeDram` node, in leaves and in inner nodes, has at its
  position a pointer to the entry that was allocated for its key; loops that compare keys through
  these pointers and moves of pointers keep it that way.
Trusted boundary: none
Main exports: BT.NodeStands, BT.Stands, BT.search_stands, BT.splitNode_stands,
  BT.insertNotFull_stands, BT.insertNew_stands
-/
import StoredsBench.BTreeMemOpt.Node
import StoredsBench.BTree.Correctness
import StoredsBench.MemOpt.Companions

namespace StoredsBench.BT

open Lib Lib.Multiway MemOpt

/-! ### Nodes -/

/-- The pointer to the entry of a key. -/
abbrev PointsTo (owners : List Key) (entry : Trees.Entry) (address : Ptr) : Prop :=
  OwnedBy owners address entry.key

/-- A node of `BTreeDram` and the node that stands for it. -/
structure NodeStands (owners : List Key) (node : Trees.Node BTREE_MIN_DEGREE Unit) (other : Node) :
    Prop where
  isLeaf : other.isLeaf = node.isLeaf
  nk : other.nk = node.nk
  entries : CArray.Related (PointsTo owners) node.entries other.entries
  children : CArray.Related (fun child address => address = child) node.children other.children

/-- An entry holds the key it was allocated for. -/
instance entryTagged : Tagged Entry where
  tag := fun entry key => entry.key = key
  tag_setSlot := fun _ tagged => tagged

/-- The two memories; `records` are the entries of the second one. -/
abbrev Stands (owners : List Key) (records : Heap Entry) (store : BTreeDram)
    (memory : Store Node (Heap Entry)) : Prop :=
  MemOpt.Stands NodeStands owners records store memory

/-! ### Comparing keys through pointers -/

section Comparing

variable {owners : List Key} {memory : Store Node (Heap Entry)}
  {entries changed : CArray Trees.Entry (2 * BTREE_MIN_DEGREE - 1)} {addresses : CArray Ptr BT_MAX_KEYS}

theorem keyAt_stands (tags : Tags owners memory.aux)
    (same : CArray.Related (PointsTo owners) entries addresses) {index : Nat} {entry : Trees.Entry}
    (read : entries.get index = .ok entry) :
    keyAt addresses index memory = .ok (entry.key, memory) := by
  obtain ⟨address, readThere, owned⟩ := same.get read
  obtain ⟨object, live, tagged⟩ := tags _ _ owned
  have keyEq : object.key = entry.key := tagged
  rw [keyAt, bind_ok (Prog.lift_ok readThere memory), bind_ok (Prog.loadBeside_ok live), keyEq]
  rfl

theorem lowerIndexFrom_stands (tags : Tags owners memory.aux)
    (same : CArray.Related (PointsTo owners) entries addresses) (key : Key) :
    ∀ (remaining index found : Nat),
      entries.scanUpFrom (fun entry => decide (entry.key < key)) remaining index = .ok found →
      lowerIndexFrom addresses key remaining index memory = .ok (found, memory)
  | 0, index, found, ran => by
      cases ran
      rfl
  | remaining + 1, index, found, ran => by
      rw [CArray.scanUpFrom] at ran
      obtain ⟨entry, read, ran⟩ := except_bind_inv ran
      rw [lowerIndexFrom, bind_ok (keyAt_stands tags same read)]
      by_cases below : entry.key < key
      · rw [if_pos (decide_eq_true below)] at ran
        rw [if_pos below]
        exact lowerIndexFrom_stands tags same key remaining _ _ ran
      · rw [if_neg (by simpa using below)] at ran
        cases ran
        rw [if_neg below]
        rfl

theorem upperIndexOf_stands (tags : Tags owners memory.aux)
    (same : CArray.Related (PointsTo owners) entries addresses) (key : Key) :
    ∀ (stop found : Nat),
      entries.scanDown (fun entry => decide (key < entry.key)) stop = .ok found →
      upperIndexOf addresses key stop memory = .ok (found, memory)
  | 0, found, ran => by
      cases ran
      rfl
  | stop + 1, found, ran => by
      rw [CArray.scanDown] at ran
      obtain ⟨entry, read, ran⟩ := except_bind_inv ran
      rw [upperIndexOf, bind_ok (keyAt_stands tags same read)]
      by_cases above : key < entry.key
      · rw [if_pos (decide_eq_true above)] at ran
        rw [if_pos above]
        exact upperIndexOf_stands tags same key stop _ ran
      · rw [if_neg (by simpa using above)] at ran
        cases ran
        rw [if_neg above]
        rfl

theorem shiftLarger_stands (tags : Tags owners memory.aux) (key : Key) :
    ∀ {stop index : Nat} {entries changed : CArray Trees.Entry (2 * BTREE_MIN_DEGREE - 1)}
      {addresses : CArray Ptr BT_MAX_KEYS},
      CArray.Related (PointsTo owners) entries addresses →
      CArray.shiftUpWhile (fun entry => decide (key < entry.key)) stop entries = .ok (index, changed) →
      ∃ shifted, shiftLarger key stop addresses memory = .ok ((index, shifted), memory) ∧
        CArray.Related (PointsTo owners) changed shifted
  | 0, index, entries, changed, addresses, same, ran => by
      cases ran
      exact ⟨addresses, rfl, same⟩
  | stop + 1, index, entries, changed, addresses, same, ran => by
      rw [CArray.shiftUpWhile] at ran
      obtain ⟨entry, read, ran⟩ := except_bind_inv ran
      rw [shiftLarger, bind_ok (keyAt_stands tags same read)]
      by_cases above : key < entry.key
      · rw [if_pos (decide_eq_true above)] at ran
        obtain ⟨between, wrote, ran⟩ := except_bind_inv ran
        obtain ⟨address, readThere, owned⟩ := same.get read
        obtain ⟨moved, wroteThere, stillSame⟩ := same.set owned wrote
        have moves : (do
            let address ← addresses.get stop
            addresses.set (stop + 1) address) = .ok moved := by
          rw [except_bind_ok readThere, wroteThere]
        rw [if_pos above, bind_ok (Prog.lift_ok moves memory)]
        exact shiftLarger_stands tags key stillSame ran
      · rw [if_neg (by simpa using above)] at ran
        cases ran
        rw [if_neg above]
        exact ⟨addresses, rfl, same⟩

variable {node : Trees.Node BTREE_MIN_DEGREE Unit} {other : Node}

theorem lowerIndexOf_stands (tags : Tags owners memory.aux) (stands : NodeStands owners node other)
    {key : Key} {index : Nat} (found : Trees.lowerIndexOf node key = .ok index) :
    lowerIndexOf other key memory = .ok (index, memory) := by
  rw [lowerIndexOf, stands.nk]
  exact lowerIndexFrom_stands tags stands.entries key _ _ _ found

theorem keyMatches_stands (tags : Tags owners memory.aux) (stands : NodeStands owners node other)
    {index : Nat} {key : Key} {found : Bool} (ran : Trees.keyMatches node index key = .ok found) :
    keyMatches other index key memory = .ok (found, memory) ∧
      (found = true → ∃ entry, node.entries.get index = .ok entry ∧ entry.key = key) := by
  unfold Trees.keyMatches at ran
  unfold keyMatches
  rw [stands.nk]
  split at ran
  · rename_i inside
    obtain ⟨entry, read, ran⟩ := except_bind_inv ran
    cases ran
    rw [if_pos inside, bind_ok (keyAt_stands tags stands.entries read)]
    refine ⟨rfl, ?_⟩
    intro equal
    exact ⟨entry, read, (eq_of_beq equal).symm⟩
  · rename_i outside
    cases ran
    rw [if_neg outside]
    exact ⟨rfl, fun impossible => by cases impossible⟩

end Comparing

/-! ### Searching -/

section Searching

variable {owners : List Key} {records : Heap Entry}

/-- Reading in the second memory alone. -/
theorem Stands.tags {store : BTreeDram} {memory : Store Node (Heap Entry)}
    (stands : Stands owners records store memory) (tags : Tags owners records) :
    Tags owners memory.aux := by
  have sameRecords : memory.aux = records := stands.aux
  rw [sameRecords]
  exact tags

theorem lowerIndexOf_simulates (tags : Tags owners records)
    {node : Trees.Node BTREE_MIN_DEGREE Unit} {other : Node} (stands : NodeStands owners node other)
    (key : Key) :
    Simulates (Stands owners records) (Prog.lift (Trees.lowerIndexOf node key)) (lowerIndexOf other key)
      fun index there store memory => there = index ∧ Stands owners records store memory :=
  Simulates.reading fun _ _ index same found =>
    ⟨index, lowerIndexOf_stands (same.tags tags) stands found, rfl⟩

theorem keyMatches_simulates (tags : Tags owners records)
    {node : Trees.Node BTREE_MIN_DEGREE Unit} {other : Node} (stands : NodeStands owners node other)
    (index : Nat) (key : Key) :
    Simulates (Stands owners records) (Prog.lift (Trees.keyMatches node index key))
      (keyMatches other index key) fun found there store memory =>
        (there = found ∧
          (found = true → ∃ entry, node.entries.get index = .ok entry ∧ entry.key = key)) ∧
        Stands owners records store memory := by
  apply Simulates.reading
  intro store memory found same ran
  obtain ⟨ranThere, matched⟩ := keyMatches_stands (same.tags tags) stands ran
  exact ⟨found, ranThere, rfl, matched⟩

theorem search_stands (tags : Tags owners records) (key : Key) : ∀ (fuel : Nat) (current : Ptr),
    Simulates (Stands owners records) (BTreeDram.search fuel current key) (search fuel current key)
      fun slot found store memory => Finds owners key slot found ∧ Stands owners records store memory
  | 0, _ => Simulates.fault _
  | fuel + 1, current => by
      rw [BTreeDram.search, search]
      refine Simulates.bind (Simulates.load current) fun contents there =>
        Simulates.assume fun stands => ?_
      refine Simulates.bind (lowerIndexOf_simulates tags stands key) fun index other =>
        Simulates.assume ?_
      rintro rfl
      refine Simulates.bind (keyMatches_simulates tags stands other key) fun found there =>
        Simulates.assume ?_
      rintro ⟨rfl, matched⟩
      cases there with
      | true =>
          obtain ⟨entry, read, rfl⟩ := matched rfl
          obtain ⟨address, readThere, owned⟩ := stands.entries.get read
          rw [if_pos rfl, if_pos rfl]
          apply Simulates.after fun found store memory =>
            found = address ∧ Stands owners records store memory
          · intro store memory same
            exact ⟨address, memory, Prog.lift_ok readThere memory, rfl, same⟩
          · intro found
            apply Simulates.assume
            rintro rfl
            exact Simulates.pure fun _ _ same => ⟨⟨_, rfl, owned⟩, same⟩
      | false =>
          simp only [Bool.false_eq_true, if_false]
          apply Simulates.branch (by rw [stands.isLeaf])
          · intro _
            exact Simulates.pure fun _ _ same => ⟨rfl, same⟩
          · intro _
            refine Simulates.bind (Simulates.lift fun child read => stands.children.get read)
              fun child other => Simulates.assume ?_
            rintro rfl
            exact search_stands tags key fuel _

end Searching

/-! ### Splitting -/

section Splitting

variable {owners : List Key} {records : Heap Entry} (pool : Pool Node Entry)

theorem createNode_stands {isLeaf there : Bool} (same : there = isLeaf) :
    Simulates (Unlogged (Stands owners records)) (Trees.createNode isLeaf ()) (createNode pool there)
      fun address other => Unlogged fun store memory =>
        other = address ∧ Stands owners records store memory := by
  apply Simulates.perform
  apply Simulates.after fun _ => Stands owners records
  · intro store memory same
    exact ⟨_, _, Prog.heapSize_ok memory, same⟩
  · intro size
    apply Simulates.malloc
    exact ⟨same, rfl, .unwritten (by decide), .unwritten (by decide)⟩

theorem storeNode_stands (address : Ptr)
    {change : Trees.Node BTREE_MIN_DEGREE Unit → Except Fault (Trees.Node BTREE_MIN_DEGREE Unit)}
    {changeThere : Node → Except Fault Node}
    (agree : ∀ node other, NodeStands owners node other → ∀ changed, change node = .ok changed →
      ∃ there, changeThere other = .ok there ∧ NodeStands owners changed there) :
    Simulates (Unlogged (Stands owners records)) (Prog.modify address change)
      (storeNode address changeThere) fun _ _ => Unlogged (Stands owners records) :=
  (Simulates.modify address agree).perform

/-- Copying the upper entries and, out of an inner node, the upper children. -/
theorem copyUpper_stands {node target changed : Trees.Node BTREE_MIN_DEGREE Unit} {other there : Node}
    (stands : NodeStands owners node other) (same : NodeStands owners target there)
    (ran : (do
      let entries ← CArray.copyFrom node.entries BTREE_MIN_DEGREE (BTREE_MIN_DEGREE - 1) target.entries
      let children ←
        if !node.isLeaf then
          CArray.copyFrom node.children BTREE_MIN_DEGREE BTREE_MIN_DEGREE target.children
        else pure target.children
      return { target with nk := BTREE_MIN_DEGREE - 1, entries := entries, children := children }) =
        .ok changed) :
    ∃ final, (do
      let entries ← CArray.copyFrom other.entries BT_MIN_DEGREE (BT_MIN_DEGREE - 1) there.entries
      let children ←
        if other.isLeaf then pure there.children
        else CArray.copyFrom other.children BT_MIN_DEGREE BT_MIN_DEGREE there.children
      return { there with nk := BT_MIN_DEGREE - 1, entries := entries, children := children }) =
        .ok final ∧ NodeStands owners changed final := by
  obtain ⟨entries, entriesRan, ran⟩ := except_bind_inv ran
  obtain ⟨copied, copiedRan, sameEntries⟩ := stands.entries.copyFrom _ same.entries entriesRan
  have copiedRan : CArray.copyFrom other.entries BT_MIN_DEGREE (BT_MIN_DEGREE - 1) there.entries =
    .ok copied := copiedRan
  rw [except_bind_ok copiedRan, stands.isLeaf]
  cases isLeaf : node.isLeaf with
  | true =>
      rw [isLeaf] at ran
      cases ran
      exact ⟨_, rfl, same.isLeaf, rfl, sameEntries, same.children⟩
  | false =>
      rw [isLeaf] at ran
      obtain ⟨children, childrenRan, ran⟩ := except_bind_inv ran
      cases ran
      obtain ⟨moved, movedRan, sameChildren⟩ :=
        stands.children.copyFrom _ same.children childrenRan
      have movedRan : CArray.copyFrom other.children BT_MIN_DEGREE BT_MIN_DEGREE there.children =
        .ok moved := movedRan
      simp only [Bool.false_eq_true, if_false]
      rw [except_bind_ok movedRan]
      exact ⟨_, rfl, same.isLeaf, rfl, sameEntries, sameChildren⟩

/-- The parent of a split gets the middle entry and the sibling. -/
theorem graft_stands {node changed : Trees.Node BTREE_MIN_DEGREE Unit} {other : Node}
    (stands : NodeStands owners node other) {index : Nat} {sibling address : Ptr}
    {middle : Trees.Entry} (owned : OwnedBy owners address middle.key)
    (ran : Trees.graft index sibling (fun entries => entries.set index middle) node = .ok changed) :
    ∃ there, graft index sibling address other = .ok there ∧ NodeStands owners changed there := by
  obtain ⟨room, roomRan, ran⟩ := except_bind_inv ran
  obtain ⟨grown, setRan, ran⟩ := except_bind_inv ran
  obtain ⟨shifted, shiftRan, ran⟩ := except_bind_inv ran
  obtain ⟨placed, placeRan, ran⟩ := except_bind_inv ran
  cases ran
  obtain ⟨roomThere, roomRanThere, children⟩ := stands.children.shiftUp _ roomRan
  obtain ⟨grownThere, setRanThere, children⟩ := children.set (Eq.refl sibling) setRan
  obtain ⟨shiftedThere, shiftRanThere, entries⟩ := stands.entries.shiftUp _ shiftRan
  obtain ⟨placedThere, placeRanThere, entries⟩ := entries.set owned placeRan
  rw [graft, stands.nk, except_bind_ok roomRanThere, except_bind_ok setRanThere,
    except_bind_ok shiftRanThere, except_bind_ok placeRanThere]
  exact ⟨_, rfl, stands.isLeaf, rfl, entries, children⟩

theorem splitNode_stands (index : Nat) (parent child : Ptr) :
    Simulates (Unlogged (Stands owners records)) (BTreeDram.splitNode index parent child)
      (splitNode pool index parent child) fun _ _ => Unlogged (Stands owners records) := by
  unfold BTreeDram.splitNode Trees.splitMiddle splitNode
  rw [Prog.load_load]
  refine Simulates.bind (Simulates.load_journaled child) fun contents there =>
    Simulates.assume fun stands => ?_
  refine Simulates.bind (createNode_stands pool stands.isLeaf) fun sibling other =>
    Simulates.assume ?_
  rintro rfl
  apply Simulates.quiet_first (Mode.quiet_addRange _ _)
  apply Simulates.quiet_first (Mode.quiet_addRange _ _)
  refine Simulates.bind (storeNode_stands other ?_) fun _ _ => ?_
  · exact fun node there same changed ran => copyUpper_stands stands same ran
  refine Simulates.bind (storeNode_stands child ?_) fun _ _ => ?_
  · intro node there same changed ran
    cases ran
    exact ⟨_, rfl, same.isLeaf, rfl, same.entries, same.children⟩
  refine Simulates.bind (Simulates.load_journaled child) fun childContents childThere =>
    Simulates.assume fun childStands => ?_
  have grafted : Simulates (Unlogged (Stands owners records))
      (Prog.modify parent <| Trees.graft index other fun entries => do
        let middle ← childContents.entries.get (BTREE_MIN_DEGREE - 1)
        entries.set index middle : BTreeDram.M Unit)
      (do
        let middle ← Prog.lift (childThere.entries.get (BT_MIN_DEGREE - 1))
        storeNode parent (graft index other middle))
      fun _ _ => Unlogged (Stands owners records) := by
    apply Simulates.modify_choose fun _ _ => Trees.graft_choose
    intro middle read
    obtain ⟨address, readThere, owned⟩ := childStands.entries.get read
    have lifted : (do
        let middle ← Prog.lift (childThere.entries.get (BT_MIN_DEGREE - 1))
        storeNode parent (graft index other middle) : M Unit) =
          storeNode parent (graft index other address) := by
      rw [show childThere.entries.get (BT_MIN_DEGREE - 1) = .ok address from readThere]
      rfl
    rw [lifted]
    exact storeNode_stands parent fun node there same changed ran => graft_stands same owned ran
  have simulates := Simulates.quiet_last grafted
    (quiet_persistAll pool (wholeNode other) (wholeNode child) (wholeNode parent))
  rwa [bind_assoc] at simulates

end Splitting

end StoredsBench.BT
