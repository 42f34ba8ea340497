/-
Module: StoredsBench.BTreeMemOpt.Insertion
Layer: Refinement
Purpose: Inserting a key that is not stored yet.  A leaf gets the pointer to a new entry where
  `BTreeDram` fills a slot, and the entry is appended to the ledger; on the way down and at the root
  the two trees split the same nodes.
Trusted boundary: none
Main exports: BT.newEntry, BT.insertIntoLeaf_stands, BT.insertNotFull_stands, BT.insertNew_stands
-/
import StoredsBench.BTreeMemOpt.Refinement

namespace StoredsBench.BT

open Lib Lib.Multiway MemOpt

variable {owners : List Key} {records : Heap Entry} (pool : Pool Node Entry)

/-- The entry an insert of a new key allocates. -/
def newEntry (records : Heap Entry) (key : Key) (value : Value) : Entry where
  key := key
  value := (pool.garbageRecord (records.size + 1)).value.copyString value

theorem createEntry_ok (key : Key) (value : Value) (state : State) :
    ∃ final, createEntry pool key value state = .ok ((memory state).aux.size + 1, final) ∧
      memory final = { memory state with
        aux := (memory state).aux.push (newEntry pool (memory state).aux key value) } := by
  obtain ⟨grown, allocated, grownEq⟩ := perform_memory (fun address => .allocate (wholeRecord address))
    (Prog.mallocBeside_ok pool.garbageRecord (memory state))
  have live : (memory grown).aux.get? ((memory state).aux.size + 1) =
      some (pool.garbageRecord ((memory state).aux.size + 1)) := by
    rw [grownEq]
    exact (Heap.get?_push _ _ _).trans (if_pos rfl)
  obtain ⟨keyed, keyRan, keyedEq⟩ := perform_memory
    (fun _ => .store (recordKey ((memory state).aux.size + 1)))
    (Prog.modifyBeside_ok (fun entry : Entry => { entry with key := key }) live)
  have liveKeyed : (memory keyed).aux.get? ((memory state).aux.size + 1) =
      some { pool.garbageRecord ((memory state).aux.size + 1) with key := key } := by
    rw [keyedEq]
    exact (Heap.get?_set live _ _).trans (if_pos rfl)
  obtain ⟨final, copied, finalEq⟩ := copyInto_memory liveKeyed value
  refine ⟨final, ?_, ?_⟩
  · rw [createEntry, bind_ok (show pool.allocateRecord state = _ from allocated),
      bind_ok (show storeRecord _ _ _ grown = _ from keyRan), bind_ok copied]
    rfl
  · rw [finalEq, keyedEq, grownEq]
    simp only [Store.mk.injEq, true_and]
    rw [Heap.set_set]
    exact Heap.push_set _ _ _

/-- Filling a slot with a key and a value, where the other node gets a pointer to its entry. -/
theorem place_stands {entries keyed placed : CArray Trees.Entry (2 * BTREE_MIN_DEGREE - 1)}
    {addresses : CArray Ptr BT_MAX_KEYS} (same : CArray.Related (PointsTo owners) entries addresses)
    {index : Nat} {key : Key} {value : Value} {address : Ptr} (owned : OwnedBy owners address key)
    (keyRan : Trees.setKey entries index key = .ok keyed)
    (copyRan : Trees.copyValue keyed index value = .ok placed) :
    ∃ there, addresses.set index address = .ok there ∧
      CArray.Related (PointsTo owners) placed there := by
  obtain ⟨slot, setRan⟩ : ∃ slot, entries.set index { key := key, value := slot } = .ok keyed := by
    unfold Trees.setKey at keyRan
    cases written : entries.at? index with
    | none => exact ⟨_, by simpa only [written] using keyRan⟩
    | some entry => exact ⟨entry.value, by simpa only [written] using keyRan⟩
  obtain ⟨there, setRanThere, sameKeyed⟩ := same.set owned setRan
  obtain ⟨entry, readRan, rewriteRan⟩ := except_bind_inv copyRan
  exact ⟨there, setRanThere, sameKeyed.rewrite readRan rewriteRan fun _ points => points⟩

/-- What the leaf case of `insert_not_full` leaves in memory. -/
theorem insertIntoLeaf_ok {state : State} {address : Ptr} {there : Node} {key : Key} (value : Value)
    {index : Nat} {shifted entries : CArray Ptr BT_MAX_KEYS}
    (live : (memory state).heap.get? address = some there)
    (shiftRan : shiftLarger key there.nk there.entries (memory state) =
      .ok ((index, shifted), memory state))
    (setRan : shifted.set index ((memory state).aux.size + 1) = .ok entries) :
    ∃ final, insertIntoLeaf pool address there key value state = .ok ((), final) ∧
      memory final =
        { heap := (memory state).heap.set address { there with entries := entries, nk := there.nk + 1 }
          root := (memory state).root
          aux := (memory state).aux.push (newEntry pool (memory state).aux key value) } := by
  obtain ⟨first, firstRan, firstEq⟩ :=
    storeNode_memory (fun node => .ok { node with entries := shifted }) live rfl
  obtain ⟨second, secondRan, secondEq⟩ := createEntry_ok pool key value first
  have liveSecond : (memory second).heap.get? address = some { there with entries := shifted } := by
    rw [secondEq, firstEq]
    exact (Heap.get?_set live _ _).trans (if_pos rfl)
  obtain ⟨third, thirdRan, thirdEq⟩ := storeNode_memory (fun node => do
    let entries ← node.entries.set index ((memory first).aux.size + 1)
    return { node with entries := entries, nk := node.nk + 1 }) liveSecond
      (except_bind_ok (show shifted.set index ((memory first).aux.size + 1) = .ok entries by
        rw [firstEq]
        exact setRan))
  obtain ⟨final, finalRan, finalEq⟩ := Mode.quiet_persist pool.mode (wholeNode address) third
  refine ⟨final, ?_, ?_⟩
  · rw [insertIntoLeaf, bind_ok (onMemory_reads shiftRan)]
    dsimp only
    rw [bind_ok firstRan, bind_ok secondRan, bind_ok thirdRan, finalRan]
  · rw [finalEq, thirdEq, secondEq, firstEq]
    simp only [Heap.set_set]

theorem insertIntoLeaf_stands {address : Ptr} {contents : Trees.Node BTREE_MIN_DEGREE Unit}
    {there : Node} (tags : Tags owners records) (key : Key) (value : Value)
    (level : records.size = owners.length) :
    Simulates (Unlogged fun (store : BTreeDram) memory =>
        Holding address contents there store memory ∧ Stands owners records store memory)
      (Prog.modify address (Trees.insertIntoLeaf key value))
      (insertIntoLeaf pool address there key value)
      fun _ _ => Unlogged
        (Stands (owners ++ [key]) (records.push (newEntry pool records key value))) := by
  intro store state ⟨⟨live, liveThere⟩, same⟩ _ after ran
  have recordsEq : (memory state).aux = records := same.aux
  obtain ⟨other, otherLive, stands⟩ := same.heap.live live
  obtain rfl := Option.some.inj (liveThere.symm.trans otherLive)
  obtain ⟨node, changed, nodeLive, inserted, rfl⟩ := Prog.modify_inv ran
  obtain rfl := Option.some.inj (live.symm.trans nodeLive)
  obtain ⟨⟨index, shifted⟩, shiftRan, inserted⟩ := except_bind_inv inserted
  obtain ⟨keyed, keyRan, inserted⟩ := except_bind_inv inserted
  obtain ⟨placed, copyRan, inserted⟩ := except_bind_inv inserted
  cases inserted
  obtain ⟨shiftedThere, shiftRanThere, sameShifted⟩ :=
    shiftLarger_stands (same.tags tags) key stands.entries shiftRan
  obtain ⟨placedThere, setRan, samePlaced⟩ := place_stands
    (sameShifted.mono fun owned => OwnedBy.append owned [key]) (OwnedBy.last owners key) keyRan copyRan
  rw [← stands.nk] at shiftRanThere
  rw [← level, ← recordsEq] at setRan
  obtain ⟨final, finalRan, finalEq⟩ := insertIntoLeaf_ok pool value liveThere shiftRanThere setRan
  have grown : ∀ {node : Trees.Node BTREE_MIN_DEGREE Unit} {other : Node},
      NodeStands owners node other → NodeStands (owners ++ [key]) node other := fun stands =>
    ⟨stands.isLeaf, stands.nk, stands.entries.mono fun owned => owned.append [key], stands.children⟩
  have changedStands : NodeStands (owners ++ [key]) { contents with entries := placed, nk := contents.nk + 1 }
      { there with entries := placedThere, nk := there.nk + 1 } :=
    ⟨stands.isLeaf, congrArg (· + 1) stands.nk, samePlaced, stands.children⟩
  have stillSame : Stands (owners ++ [key]) (records.push (newEntry pool records key value))
      { store with heap := store.heap.set address { contents with entries := placed, nk := contents.nk + 1 } }
      (memory final) := by
    rw [finalEq, recordsEq]
    exact ⟨(same.heap.mono grown).set live changedStands, same.root, rfl⟩
  exact ⟨(), final, finalRan, stillSame⟩

/-- What an insert of a new key leaves behind. -/
abbrev StandsAfter (owners : List Key) (records : Heap Entry) (key : Key) (value : Value) :
    BTreeDram → Store Node (Heap Entry) → Prop :=
  Stands (owners ++ [key]) (records.push (newEntry pool records key value))

/-- Reading the key of a slot. -/
theorem keyAt_simulates (tags : Tags owners records) {node : Trees.Node BTREE_MIN_DEGREE Unit}
    {other : Node} (stands : NodeStands owners node other) (index : Nat) :
    Simulates (Unlogged (Stands owners records)) (Prog.lift (node.entries.get index))
      (onMemory (keyAt other.entries index) : M Key)
      fun entry there => Unlogged fun store memory =>
        there = entry.key ∧ Stands owners records store memory := by
  apply Simulates.onMemory
  apply Simulates.reading
  intro store memory entry same read
  exact ⟨entry.key, keyAt_stands (same.tags tags) stands.entries read, rfl⟩

theorem upperIndexOf_simulates (tags : Tags owners records)
    {node : Trees.Node BTREE_MIN_DEGREE Unit} {other : Node} (stands : NodeStands owners node other)
    (key : Key) :
    Simulates (Unlogged (Stands owners records))
      (Prog.lift (node.entries.scanDown (fun entry => decide (key < entry.key)) node.nk))
      (onMemory (upperIndexOf other.entries key other.nk) : M Nat)
      fun index there => Unlogged fun store memory =>
        there = index ∧ Stands owners records store memory := by
  apply Simulates.onMemory
  apply Simulates.reading
  intro store memory index same found
  rw [stands.nk]
  exact ⟨index, upperIndexOf_stands (same.tags tags) stands.entries key _ _ found, rfl⟩

theorem insertNotFull_stands (tags : Tags owners records) (key : Key) (value : Value)
    (level : records.size = owners.length) : ∀ (fuel : Nat) (node : Ptr),
    Simulates (Unlogged (Stands owners records)) (BTreeDram.insertNotFull fuel node key value)
      (insertNotFull pool fuel node key value)
      fun _ _ => Unlogged (StandsAfter pool owners records key value)
  | 0, _ => Simulates.fault _
  | fuel + 1, node => by
      have descend : ∀ child, Simulates (Unlogged (Stands owners records))
          (BTreeDram.insertNotFull fuel child key value)
          (pool.mode.transaction do
            pool.mode.addRange (wholeNode child)
            insertNotFull pool fuel child key value)
          fun _ _ => Unlogged (StandsAfter pool owners records key value) := fun child =>
        Mode.simulates_transaction _ (Simulates.quiet_first (Mode.quiet_addRange _ _)
          (insertNotFull_stands tags key value level fuel child))
      rw [BTreeDram.insertNotFull, Trees.insertNotFull, insertNotFull]
      refine Simulates.bind (Simulates.load_holding node) fun contents there =>
        Simulates.assume fun stands => ?_
      apply Simulates.branch (by rw [stands.isLeaf])
      · intro _
        exact insertIntoLeaf_stands pool tags key value level
      · intro _
        apply Simulates.weaken _ (fun _ _ held => held.2) fun _ _ _ _ => id
        refine Simulates.bind (upperIndexOf_simulates tags stands key) fun index other =>
          Simulates.assume ?_
        rintro rfl
        refine Simulates.bind (Simulates.lift fun child read => stands.children.get read)
          fun child other => Simulates.assume ?_
        rintro rfl
        refine Simulates.bind (Simulates.load_journaled _) fun childContents childThere =>
          Simulates.assume fun childStands => ?_
        apply Simulates.branch (by rw [childStands.nk]; exact Iff.rfl)
        · intro _
          refine Simulates.bind (splitNode_stands pool _ _ _) fun _ _ => ?_
          refine Simulates.bind (Simulates.load_journaled _) fun contents there =>
            Simulates.assume fun stands => ?_
          refine Simulates.bind (keyAt_simulates tags stands _) fun separator other =>
            Simulates.assume ?_
          rintro rfl
          refine Simulates.bind (Simulates.lift fun child read => stands.children.get read)
            fun child other => Simulates.assume ?_
          rintro rfl
          exact descend _
        · intro _
          exact descend _

/-- The branch of `insert` that follows an unsuccessful update. -/
theorem insertNew_stands (tags : Tags owners records) (depthBound : Nat) (root : Ptr) (key : Key)
    (value : Value) (level : records.size = owners.length) :
    Simulates (Unlogged (Stands owners records))
      (Trees.insertAbsent BTreeDram.splitNode () depthBound root key value)
      (insertNew pool depthBound root key value)
      fun result _ => Unlogged fun store memory =>
        result = 1 ∧ StandsAfter pool owners records key value store memory := by
  rw [Trees.insertAbsent, insertNew]
  refine Simulates.bind (Simulates.load_journaled root) fun contents there =>
    Simulates.assume fun stands => ?_
  apply Simulates.branch (by rw [stands.nk]; exact Iff.rfl)
  · intro _
    apply Mode.simulates_transaction
    rw [insertBelowNewRoot]
    refine Simulates.bind (createNode_stands pool rfl) fun newRoot other => Simulates.assume ?_
    rintro rfl
    apply Simulates.quiet_first (Mode.quiet_addRange _ _)
    refine Simulates.bind (storeNode_stands other ?_) fun _ _ => ?_
    · intro node there same changed ran
      obtain ⟨children, setRan, ran⟩ := except_bind_inv ran
      cases ran
      obtain ⟨pointers, setRanThere, sameChildren⟩ := same.children.set (Eq.refl root) setRan
      rw [except_bind_ok setRanThere]
      exact ⟨_, rfl, same.isLeaf, same.nk, same.entries, sameChildren⟩
    refine Simulates.bind (splitNode_stands pool _ _ _) fun _ _ => ?_
    refine Simulates.bind (Simulates.load_journaled _) fun newContents newThere =>
      Simulates.assume fun newStands => ?_
    refine Simulates.bind (keyAt_simulates tags newStands _) fun separator other =>
      Simulates.assume ?_
    rintro rfl
    refine Simulates.bind (Simulates.lift fun child read => newStands.children.get read)
      fun child other => Simulates.assume ?_
    rintro rfl
    apply Simulates.quiet_first (Mode.quiet_addRange _ _)
    apply Simulates.bind (insertNotFull_stands pool tags key value level _ _)
    intro _ _
    apply Simulates.quiet_first (Mode.quiet_persist _ _)
    apply Simulates.quiet_first (Mode.quiet_addRange _ _)
    apply Simulates.returns (Simulates.quiet_last (Simulates.setRoot _).perform
      (Mode.quiet_persist _ _))
    exact fun _ _ _ _ same => ⟨rfl, same⟩
  · intro _
    apply Mode.simulates_transaction
    apply Simulates.quiet_first (Mode.quiet_addRange _ _)
    apply Simulates.returns (insertNotFull_stands pool tags key value level _ _)
    exact fun _ _ _ _ same => ⟨rfl, same⟩

end StoredsBench.BT
