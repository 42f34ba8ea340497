/-
Module: StoredsBench.BPlusTreeMemOpt.Insertion
Layer: Refinement
Purpose: Inserting a key that is not stored yet.  A leaf gets the key and the pointer to a new record
  where `BPlusTreeDram` gets a new entry, and the record is appended to the ledger; on the way down
  and at the root the two trees split the same nodes.
Trusted boundary: none
Main exports: BP.newRecord, BP.insertIntoLeaf_stands, BP.insertNotFull_stands, BP.insertNew_stands
-/
import StoredsBench.BPlusTreeMemOpt.Refinement

namespace StoredsBench.BP

open Lib Lib.Multiway MemOpt
open BPlusTreeDram (Links)

section Inserting

variable {owners : List Key} {records : Heap Record} (pool : Pool Node Record)

/-- The record an insert of a new key allocates. -/
def newRecord (records : Heap Record) (value : Value) : Record :=
  (pool.garbageRecord (records.size + 1)).copyString value

theorem createRecord_ok (value : Value) (state : State) :
    ∃ final, createRecord pool value state = .ok ((memory state).aux.size + 1, final) ∧
      memory final = { memory state with
        aux := (memory state).aux.push (newRecord pool (memory state).aux value) } := by
  obtain ⟨grown, allocated, grownEq⟩ := perform_memory (fun address => .allocate (wholeRecord address))
    (Prog.mallocBeside_ok pool.garbageRecord (memory state))
  have live : (memory grown).aux.get? ((memory state).aux.size + 1) =
      some (pool.garbageRecord ((memory state).aux.size + 1)) := by
    rw [grownEq]
    exact (Heap.get?_push _ _ _).trans (if_pos rfl)
  obtain ⟨final, copied, finalEq⟩ := perform_memory
    (fun _ => .store (recordBytes ((memory state).aux.size + 1) (value.chars.length + 1)))
    (Prog.modifyBeside_ok (fun record : Record => record.copyString value) live)
  refine ⟨final, ?_, ?_⟩
  · rw [createRecord, bind_ok (show pool.allocateRecord state = _ from allocated),
      bind_ok (show copyInto _ value grown = _ from copied)]
    rfl
  · rw [finalEq, grownEq]
    simp only [Store.mk.injEq, true_and]
    exact Heap.push_set _ _ _

/-- Writing a key, where the other node gets a pointer to its record. -/
theorem setKey_points {entries changed : CArray Trees.Entry (2 * BPLUSTREE_MIN_DEGREE - 1)}
    {pointers : CArray Pointer BP_MAX_CHILDREN}
    (same : CArray.Related (PointsTo owners) entries pointers) {index : Nat} {key : Key} {record : Ptr}
    (owned : OwnedBy owners record key) (ran : Trees.setKey entries index key = .ok changed) :
    ∃ there, pointers.set index (.record record) = .ok there ∧
      CArray.Related (PointsTo owners) changed there := by
  have points : ∀ value, PointsTo owners { key := key, value := value } (.record record) :=
    fun _ => ⟨record, rfl, owned⟩
  unfold Trees.setKey at ran
  cases written : entries.at? index with
  | none =>
      rw [written] at ran
      exact same.set (points _) ran
  | some entry =>
      rw [written] at ran
      exact same.set (points _) ran

/-- A leaf gets a new key and the pointer to its record, as it gets a new entry. -/
theorem insertIntoLeaf_parts {node changed : Trees.Node BPLUSTREE_MIN_DEGREE Links} {other : Node}
    (stands : NodeStands owners node other) (leaf : node.isLeaf = true) {key : Key} {value : Value}
    (ran : Trees.insertIntoLeaf key value node = .ok changed) :
    ∃ index shifted moved keys pointers,
      CArray.shiftBothUpWhile (fun stored => decide (key < stored)) other.nk other.keys
        other.pointers = .ok (index, shifted, moved) ∧
      shifted.set index key = .ok keys ∧
      moved.set index (.record (owners.length + 1)) = .ok pointers ∧
      NodeStands (owners ++ [key]) changed
        { other with keys := keys, pointers := pointers, nk := other.nk + 1 } := by
  obtain ⟨⟨index, entries⟩, shiftRan, ran⟩ := except_bind_inv ran
  obtain ⟨keyed, keyRan, ran⟩ := except_bind_inv ran
  obtain ⟨filled, copyRan, ran⟩ := except_bind_inv ran
  cases ran
  have stands := stands.append [key]
  have agree : ∀ (entry : Trees.Entry) (stored : Key), stored = entry.key →
      decide (key < entry.key) = decide (key < stored) := fun entry stored same => by rw [same]
  obtain ⟨shifted, moved, shiftRanThere, sameKeys, samePointers⟩ :=
    CArray.Related.shiftBothUpWhile agree stands.keys (stands.records leaf) shiftRan
  obtain ⟨keys, keysRan, sameKeys⟩ := setKey_stands sameKeys keyRan
  obtain ⟨pointers, pointersRan, samePointers⟩ :=
    setKey_points samePointers (OwnedBy.last owners key) keyRan
  obtain ⟨entry, readRan, setRan⟩ := except_bind_inv copyRan
  refine ⟨index, shifted, moved, keys, pointers, ?_, keysRan, pointersRan, stands.isLeaf,
    congrArg (· + 1) stands.nk, stands.next, stands.previous, ?_, ?_, ?_⟩
  · rw [stands.nk]
    exact shiftRanThere
  · exact sameKeys.rewrite readRan setRan fun _ same => same
  · exact fun _ => samePointers.rewrite readRan setRan fun _ points => points
  · exact fun inner => absurd (inner.symm.trans leaf) Bool.false_ne_true

/-- What the leaf case of `insert_not_full` leaves in memory. -/
theorem insertIntoLeaf_ok {state : State} {address : Ptr} {there : Node} {key : Key} (value : Value)
    {index : Nat} {shifted keys : CArray Key BP_MAX_KEYS} {moved pointers : CArray Pointer BP_MAX_CHILDREN}
    (live : (memory state).heap.get? address = some there)
    (shiftRan : CArray.shiftBothUpWhile (fun stored => decide (key < stored)) there.nk there.keys
      there.pointers = .ok (index, shifted, moved))
    (keysRan : shifted.set index key = .ok keys)
    (pointersRan : moved.set index (.record ((memory state).aux.size + 1)) = .ok pointers) :
    ∃ final, insertIntoLeaf pool address there key value state = .ok ((), final) ∧
      memory final =
        { heap := (memory state).heap.set address
            { there with keys := keys, pointers := pointers, nk := there.nk + 1 }
          root := (memory state).root
          aux := (memory state).aux.push (newRecord pool (memory state).aux value) } := by
  obtain ⟨first, firstRan, firstEq⟩ := storeNode_memory (fun node => do
    let keys ← shifted.set index key
    return { node with keys := keys, pointers := moved }) live (except_bind_ok keysRan)
  obtain ⟨second, secondRan, secondEq⟩ := createRecord_ok pool value first
  have liveSecond : (memory second).heap.get? address =
      some { there with keys := keys, pointers := moved } := by
    rw [secondEq, firstEq]
    exact (Heap.get?_set live _ _).trans (if_pos rfl)
  obtain ⟨third, thirdRan, thirdEq⟩ := storeNode_memory (fun node => do
    let pointers ← node.pointers.set index (.record ((memory first).aux.size + 1))
    return { node with pointers := pointers, nk := node.nk + 1 }) liveSecond
      (except_bind_ok (show moved.set index (.record ((memory first).aux.size + 1)) = .ok pointers by
        rw [firstEq]
        exact pointersRan))
  obtain ⟨final, finalRan, finalEq⟩ := Mode.quiet_persist pool.mode (wholeNode address) third
  refine ⟨final, ?_, ?_⟩
  · rw [insertIntoLeaf, bind_ok (Prog.lift_ok shiftRan state)]
    dsimp only
    rw [bind_ok firstRan, bind_ok secondRan, bind_ok thirdRan, finalRan]
  · rw [finalEq, thirdEq, secondEq, firstEq]
    simp only [Heap.set_set]

theorem insertIntoLeaf_stands {address : Ptr} {contents : Trees.Node BPLUSTREE_MIN_DEGREE Links}
    {there : Node} (leaf : contents.isLeaf = true) (key : Key) (value : Value)
    (level : records.size = owners.length) :
    Simulates (Unlogged fun (store : BPlusTreeDram) memory =>
        Holding address contents there store memory ∧ Stands owners records store memory)
      (Prog.modify address (Trees.insertIntoLeaf key value))
      (insertIntoLeaf pool address there key value)
      fun _ _ => Unlogged (Stands (owners ++ [key]) (records.push (newRecord pool records value))) := by
  intro store state ⟨⟨live, liveThere⟩, same⟩ _ after ran
  have recordsEq : (memory state).aux = records := same.aux
  obtain ⟨other, otherLive, stands⟩ := same.heap.live live
  obtain rfl := Option.some.inj (liveThere.symm.trans otherLive)
  cases inserted : Trees.insertIntoLeaf key value contents with
  | error fault => simp [Prog.modify, live, inserted] at ran
  | ok changed =>
      rw [Prog.modify_ok live inserted] at ran
      cases ran
      obtain ⟨index, shifted, moved, keys, pointers, shiftRan, keysRan, pointersRan, changedStands⟩ :=
        insertIntoLeaf_parts stands leaf inserted
      rw [← level, ← recordsEq] at pointersRan
      obtain ⟨final, finalRan, finalEq⟩ :=
        insertIntoLeaf_ok pool value liveThere shiftRan keysRan pointersRan
      have coupled := same.heap.mono fun stands => NodeStands.append stands [key]
      have stillSame : Stands (owners ++ [key]) (records.push (newRecord pool records value))
          { store with heap := store.heap.set address changed } (memory final) := by
        rw [finalEq, recordsEq]
        exact ⟨coupled.set live changedStands, same.root, rfl⟩
      exact ⟨(), final, finalRan, stillSame⟩

/-- What an insert of a new key leaves behind. -/
abbrev StandsAfter (owners : List Key) (records : Heap Record) (key : Key) (value : Value) :
    BPlusTreeDram → Store Node (Heap Record) → Prop :=
  Stands (owners ++ [key]) (records.push (newRecord pool records value))

theorem insertNotFull_stands (key : Key) (value : Value) (level : records.size = owners.length) :
    ∀ (fuel : Nat) (node : Ptr),
    Simulates (Unlogged (Stands owners records)) (BPlusTreeDram.insertNotFull fuel node key value)
      (insertNotFull pool fuel node key value)
      fun _ _ => Unlogged (StandsAfter pool owners records key value)
  | 0, _ => Simulates.fault _
  | fuel + 1, node => by
      have descend : ∀ child, Simulates (Unlogged (Stands owners records))
          (BPlusTreeDram.insertNotFull fuel child key value)
          (pool.mode.transaction do
            pool.mode.addRange (wholeNode child)
            insertNotFull pool fuel child key value)
          fun _ _ => Unlogged (StandsAfter pool owners records key value) := fun child =>
        Mode.simulates_transaction _ (Simulates.quiet_first (Mode.quiet_addRange _ _)
          (insertNotFull_stands key value level fuel child))
      rw [BPlusTreeDram.insertNotFull, Trees.insertNotFull, insertNotFull]
      refine Simulates.bind (Simulates.load_holding node) fun contents there => Simulates.assume fun stands => ?_
      apply Simulates.branch (by rw [stands.isLeaf])
      · intro leaf
        exact insertIntoLeaf_stands pool leaf key value level
      · intro inner
        have inner : contents.isLeaf = false := Bool.eq_false_iff.mpr inner
        have known : ∀ (store : BPlusTreeDram) (memory : Store Node (Heap Record)),
            (Holding node contents there store memory ∧ Stands owners records store memory) →
            StandsWith [(false, node)] owners records store memory := by
          rintro store memory ⟨⟨live, _⟩, same⟩
          refine ⟨?_, same⟩
          intro kind member
          rw [List.mem_singleton.mp member]
          exact ⟨contents, live, inner⟩
        apply Simulates.weaken _ (fun store state => known store (memory state)) fun _ _ _ _ => id
        refine Simulates.bind (Simulates.lift fun index found => ⟨index, ?_, Eq.refl index⟩)
          fun index other => Simulates.assume ?_
        · rw [stands.nk]
          exact stands.keys.scanDown (fun _ _ same => by rw [same]) found
        rintro rfl
        refine Simulates.bind (Simulates.lift fun child read =>
          ⟨child, childAt_stands stands inner read, Eq.refl child⟩) fun child other =>
            Simulates.assume ?_
        rintro rfl
        refine Simulates.bind (load_kind _) fun childContents childThere =>
          Simulates.assume fun childStands => ?_
        have forgetKinds : ∀ {kinds : List (Bool × Ptr)} {store : BPlusTreeDram} {state : State},
            Unlogged (StandsWith kinds owners records) store state →
            Unlogged (Stands owners records) store state := fun related => related.2
        apply Simulates.branch (by rw [childStands.nk]; exact Iff.rfl)
        · intro _
          refine Simulates.bind (splitNode_stands pool (List.mem_cons_of_mem _
            (List.mem_singleton.mpr rfl)) _) fun _ _ => ?_
          refine Simulates.bind (load_stands (List.mem_cons_of_mem _ (List.mem_singleton.mpr rfl)))
            fun contents there => Simulates.assume ?_
          rintro ⟨inner, stands⟩
          refine Simulates.bind (Simulates.lift fun separator read => stands.keys.get read)
            fun separator other => Simulates.assume ?_
          rintro rfl
          refine Simulates.bind (Simulates.lift fun child read =>
            ⟨child, childAt_stands stands inner read, Eq.refl child⟩) fun child other =>
              Simulates.assume ?_
          rintro rfl
          exact (descend _).weaken (fun _ _ => forgetKinds) fun _ _ _ _ related => related
        · intro _
          exact (descend _).weaken (fun _ _ => forgetKinds) fun _ _ _ _ related => related

/-- The branch of `insert` that follows an unsuccessful update. -/
theorem insertNew_stands (depthBound : Nat) (root : Ptr) (key : Key) (value : Value)
    (level : records.size = owners.length) :
    Simulates (Unlogged (Stands owners records))
      (Trees.insertAbsent BPlusTreeDram.splitNode Links.null depthBound root key value)
      (insertNew pool depthBound root key value)
      fun result _ => Unlogged fun store memory =>
        result = 1 ∧ StandsAfter pool owners records key value store memory := by
  have start : ∀ (store : BPlusTreeDram) (state : State), Unlogged (Stands owners records) store state →
      Unlogged (StandsWith [] owners records) store state :=
    fun store state same => ⟨fun kind member => absurd member List.not_mem_nil, same⟩
  rw [Trees.insertAbsent, insertNew]
  refine Simulates.bind (Simulates.load_journaled root) fun contents there =>
    Simulates.assume fun stands => ?_
  apply Simulates.branch (by rw [stands.nk]; exact Iff.rfl)
  · intro _
    apply Mode.simulates_transaction
    rw [insertBelowNewRoot]
    apply Simulates.weaken _ start fun _ _ _ _ => id
    refine Simulates.bind (createNode_stands pool false) fun newRoot other => Simulates.assume ?_
    rintro rfl
    have isInner : (false, other) ∈ [(false, other)] := List.mem_singleton.mpr rfl
    apply Simulates.quiet_first (Mode.quiet_addRange _ _)
    refine Simulates.bind (storeNode_stands isInner ?_ ?_) fun _ _ => ?_
    · intro node changed ran
      obtain ⟨_, _, ran⟩ := except_bind_inv ran
      cases ran
      rfl
    · intro node there inner same changed ran
      obtain ⟨children, setRan, ran⟩ := except_bind_inv ran
      cases ran
      obtain ⟨pointers, setRanThere, sameChildren⟩ :=
        (same.children inner).set (Eq.refl (Pointer.node root)) setRan
      rw [except_bind_ok setRanThere]
      exact ⟨_, rfl, same.isLeaf, same.nk, same.next, same.previous, same.keys,
        fun leaf => absurd (inner.symm.trans leaf) Bool.false_ne_true, fun _ => sameChildren⟩
    refine Simulates.bind (splitNode_stands pool isInner _) fun _ _ => ?_
    refine Simulates.bind (load_stands isInner) fun newContents newThere => Simulates.assume ?_
    rintro ⟨inner, newStands⟩
    refine Simulates.bind (Simulates.lift fun separator read => newStands.keys.get read)
      fun separator other => Simulates.assume ?_
    rintro rfl
    refine Simulates.bind (Simulates.lift fun child read =>
      ⟨child, childAt_stands newStands inner read, Eq.refl child⟩) fun child other =>
        Simulates.assume ?_
    rintro rfl
    apply Simulates.quiet_first (Mode.quiet_addRange _ _)
    apply Simulates.bind ((insertNotFull_stands pool key value level _ _).weaken
      (fun _ _ related => related.2) fun _ _ _ _ related => related)
    intro _ _
    apply Simulates.quiet_first (Mode.quiet_persist _ _)
    apply Simulates.quiet_first (Mode.quiet_addRange _ _)
    apply Simulates.returns (Simulates.quiet_last (Simulates.setRoot _).perform
      (Mode.quiet_persist _ _))
    exact fun _ _ _ _ same => ⟨rfl, same⟩
  · intro _
    apply Mode.simulates_transaction
    apply Simulates.quiet_first (Mode.quiet_addRange _ _)
    apply Simulates.returns (insertNotFull_stands pool key value level _ _)
    exact fun _ _ _ _ same => ⟨rfl, same⟩

end Inserting

end StoredsBench.BP
