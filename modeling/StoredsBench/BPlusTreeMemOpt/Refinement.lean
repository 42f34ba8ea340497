/-
Module: StoredsBench.BPlusTreeMemOpt.Refinement
Layer: Refinement
Purpose: The B+-tree with values in records does what `BPlusTreeDram` does, node by node at the same
  addresses.  A ledger lists for which key each record was allocated; keys stand where they stand in
  `BPlusTreeDram`, inner nodes point to the same children, and a leaf slot points to the record of its
  key.  Splits move keys and pointers in step and touch no record.
Trusted boundary: none
Main exports: BP.NodeStands, BP.Stands, BP.search_stands, BP.scanDescend_stands, BP.splitNode_stands
-/
import StoredsBench.BPlusTreeMemOpt.Node
import StoredsBench.BPlusTree.Correctness
import StoredsBench.MemOpt.Companions
import StoredsBench.Lib.ArrayRelation

namespace StoredsBench.BP

open Lib Lib.Multiway MemOpt
open BPlusTreeDram (Links)

/-! ### Nodes -/

/-- A pointer to the record of the entry's key. -/
def PointsTo (owners : List Key) (entry : Trees.Entry) (pointer : Pointer) : Prop :=
  ∃ record, pointer = .record record ∧ OwnedBy owners record entry.key

/-- A node of `BPlusTreeDram` and the node that stands for it. -/
structure NodeStands (owners : List Key) (node : Trees.Node BPLUSTREE_MIN_DEGREE Links)
    (other : Node) : Prop where
  isLeaf : other.isLeaf = node.isLeaf
  nk : other.nk = node.nk
  next : other.next = node.links.next
  previous : other.previous = node.links.previous
  keys : CArray.Related (fun entry key => key = entry.key) node.entries other.keys
  records : node.isLeaf = true → CArray.Related (PointsTo owners) node.entries other.pointers
  children : node.isLeaf = false →
    CArray.Related (fun child pointer => pointer = .node child) node.children other.pointers

/-- A record does not know its key. -/
instance recordTagged : Tagged Record where
  tag := fun _ _ => True
  tag_setSlot := fun _ _ => trivial

/-- The two memories; `records` are the records of the second one. -/
abbrev Stands (owners : List Key) (records : Heap Record) (store : BPlusTreeDram)
    (memory : Store Node (Heap Record)) : Prop :=
  MemOpt.Stands NodeStands owners records store memory

section Nodes

variable {owners : List Key} {node changed : Trees.Node BPLUSTREE_MIN_DEGREE Links} {other : Node}

theorem NodeStands.append (stands : NodeStands owners node other) (later : List Key) :
    NodeStands (owners ++ later) node other where
  isLeaf := stands.isLeaf
  nk := stands.nk
  next := stands.next
  previous := stands.previous
  keys := stands.keys
  records := fun leaf => (stands.records leaf).mono fun points => by
    obtain ⟨record, rfl, owned⟩ := points
    exact ⟨record, rfl, owned.append later⟩
  children := stands.children

theorem lowerIndexOf_stands (stands : NodeStands owners node other) {key : Key} {index : Nat}
    (found : Trees.lowerIndexOf node key = .ok index) : lowerIndexOf other key = .ok index := by
  unfold Trees.lowerIndexOf at found
  unfold lowerIndexOf
  rw [stands.nk]
  exact stands.keys.scanUp (fun entry key same => by rw [same]) found

theorem keyMatches_stands (stands : NodeStands owners node other) {index : Nat} {key : Key}
    (found : Bool) (ran : Trees.keyMatches node index key = .ok found) :
    ∃ there, keyMatches other index key = .ok there ∧ there = found ∧
      (found = true → ∃ entry, node.entries.get index = .ok entry ∧ entry.key = key) := by
  refine ⟨found, ?_, rfl, ?_⟩
  · unfold Trees.keyMatches at ran
    unfold keyMatches
    rw [stands.nk]
    split
    · rename_i inside
      rw [if_pos inside] at ran
      obtain ⟨entry, read, ran⟩ := except_bind_inv ran
      obtain ⟨there, readThere, same⟩ := stands.keys.get read
      rw [except_bind_ok readThere, same]
      exact ran
    · rename_i outside
      rwa [if_neg outside] at ran
  · rintro rfl
    unfold Trees.keyMatches at ran
    split at ran
    · obtain ⟨entry, read, ran⟩ := except_bind_inv ran
      have equal : (key == entry.key) = true := Except.ok.inj ran
      exact ⟨entry, read, (eq_of_beq equal).symm⟩
    · cases ran

theorem childAt_stands (stands : NodeStands owners node other) (inner : node.isLeaf = false)
    {index : Nat} {child : Ptr} (read : node.children.get index = .ok child) :
    childAt other index = .ok child := by
  obtain ⟨pointer, readThere, rfl⟩ := (stands.children inner).get read
  rw [childAt, except_bind_ok readThere]
  rfl

theorem recordAt_stands (stands : NodeStands owners node other) (leaf : node.isLeaf = true)
    {index : Nat} {entry : Trees.Entry} (read : node.entries.get index = .ok entry) :
    ∃ record, recordAt other index = .ok record ∧ OwnedBy owners record entry.key := by
  obtain ⟨pointer, readThere, record, rfl, owned⟩ := (stands.records leaf).get read
  refine ⟨record, ?_, owned⟩
  rw [recordAt, except_bind_ok readThere]
  rfl

end Nodes

/-! ### Searching -/

section Searching

variable {owners : List Key} {records : Heap Record}

theorem search_stands (key : Key) : ∀ (fuel : Nat) (current : Ptr),
    Simulates (Stands owners records) (BPlusTreeDram.search fuel current key)
      (search fuel current key)
      fun slot found store memory => Finds owners key slot found ∧ Stands owners records store memory
  | 0, _ => Simulates.fault _
  | fuel + 1, current => by
      rw [BPlusTreeDram.search, search]
      refine Simulates.bind (Simulates.load current) fun contents there =>
        Simulates.assume fun stands => ?_
      refine Simulates.bind (Simulates.lift fun index located =>
        ⟨index, lowerIndexOf_stands stands located, Eq.refl index⟩) fun index other =>
          Simulates.assume ?_
      rintro rfl
      refine Simulates.bind (Simulates.lift (keyMatches_stands stands))
        fun found other => Simulates.assume ?_
      rintro ⟨rfl, matched⟩
      have sameKind := stands.isLeaf
      rw [sameKind]
      cases leaf : contents.isLeaf with
      | true =>
          rw [if_pos rfl, if_pos rfl]
          cases other with
          | false =>
              exact Simulates.pure fun _ _ same => ⟨rfl, same⟩
          | true =>
              obtain ⟨entry, read, rfl⟩ := matched rfl
              obtain ⟨record, readThere, owned⟩ := recordAt_stands stands leaf read
              rw [if_pos rfl, if_pos rfl]
              refine Simulates.after (fun found => fun store memory =>
                found = record ∧ Stands owners records store memory) ?_ fun found =>
                  Simulates.assume ?_
              · intro store memory same
                exact ⟨record, memory, Prog.lift_ok readThere memory, rfl, same⟩
              · rintro rfl
                exact Simulates.pure fun _ _ same => ⟨⟨_, rfl, owned⟩, same⟩
      | false =>
          simp only [Bool.false_eq_true, if_false]
          refine Simulates.bind (Simulates.lift fun child read =>
            ⟨child, childAt_stands stands leaf read, Eq.refl child⟩) fun child other =>
              Simulates.assume ?_
          rintro rfl
          exact search_stands key fuel _

theorem scanDescend_stands (key : Key) : ∀ (fuel : Nat) (current : Ptr),
    Simulates (Stands owners records) (BPlusTreeDram.scanDescend fuel current key)
      (scanDescend fuel current key)
      fun leaf other store memory => other = leaf ∧ Stands owners records store memory
  | 0, _ => Simulates.fault _
  | fuel + 1, current => by
      rw [BPlusTreeDram.scanDescend, scanDescend]
      apply Simulates.branch Iff.rfl
      · intro _
        exact Simulates.pure fun _ _ same => ⟨rfl, same⟩
      · intro _
        refine Simulates.bind (Simulates.load current) fun contents there =>
          Simulates.assume fun stands => ?_
        apply Simulates.branch (by rw [stands.isLeaf])
        · intro _
          exact Simulates.pure fun _ _ same => ⟨rfl, same⟩
        · intro inner
          refine Simulates.bind (Simulates.lift fun index located =>
            ⟨index, lowerIndexOf_stands stands located, Eq.refl index⟩) fun index other =>
              Simulates.assume ?_
          rintro rfl
          refine Simulates.bind (Simulates.lift fun child read =>
            ⟨child, childAt_stands stands (Bool.eq_false_iff.mpr inner) read, Eq.refl child⟩)
              fun child other => Simulates.assume ?_
          rintro rfl
          exact scanDescend_stands key fuel _

end Searching

/-! ### Splitting -/

section Splitting

variable {owners : List Key} {records : Heap Record} (pool : Pool Node Record)

/-- The node at an address is a leaf, or is an inner node. -/
abbrev IsKind (leaf : Bool) (address : Ptr) : BPlusTreeDram → Prop :=
  At address fun node => node.isLeaf = leaf

/-- What kind of node is at each of the addresses. -/
def Kinds (kinds : List (Bool × Ptr)) (store : BPlusTreeDram) : Prop :=
  ∀ kind ∈ kinds, IsKind kind.1 kind.2 store

theorem kinds_modify (kinds : List (Bool × Ptr)) {address : Ptr}
    {change : Trees.Node BPLUSTREE_MIN_DEGREE Links →
      Except Fault (Trees.Node BPLUSTREE_MIN_DEGREE Links)}
    (keeps : ∀ node changed, change node = .ok changed → changed.isLeaf = node.isLeaf) :
    Preserves (Kinds kinds) (Prog.modify address change) := by
  intro store known value after ran kind member
  have kept : Preserves (IsKind kind.1 kind.2) (Prog.modify address change) :=
    Preserves.modify fun node changed isKind changes => (keeps node changed changes).trans isKind
  exact kept (known kind member) ran

theorem kinds_malloc (kinds : List (Bool × Ptr)) (node : Trees.Node BPLUSTREE_MIN_DEGREE Links) :
    Preserves (Kinds kinds) (Prog.malloc node) := by
  intro store known value after ran kind member
  have kept : Preserves (IsKind kind.1 kind.2) (Prog.malloc node : BPlusTreeDram.M Ptr) :=
    Preserves.malloc node
  exact kept (known kind member) ran

/-- The two memories, and the kinds of some nodes. -/
def StandsWith (kinds : List (Bool × Ptr)) (owners : List Key) (records : Heap Record)
    (store : BPlusTreeDram) (memory : Store Node (Heap Record)) : Prop :=
  Kinds kinds store ∧ Stands owners records store memory

variable {kinds : List (Bool × Ptr)}

/-- Whatever the allocator leaves in a new node, it stands for a blank one. -/
theorem blank_stands (isLeaf : Bool) (garbage : Node) :
    NodeStands owners
      { isLeaf := isLeaf, nk := 0, entries := CArray.unwritten _ _, children := CArray.unwritten _ _,
        links := Links.null }
      { garbage with isLeaf := isLeaf, nk := 0, next := null, previous := null } where
  isLeaf := rfl
  nk := rfl
  next := rfl
  previous := rfl
  keys := .unwritten (by decide)
  records := fun _ => .unwritten (by decide)
  children := fun _ => .unwritten (by decide)

theorem createNode_stands (isLeaf : Bool) :
    Simulates (Unlogged (StandsWith kinds owners records)) (Trees.createNode isLeaf Links.null)
      (createNode pool isLeaf)
      fun address other => Unlogged fun store memory => other = address ∧
        StandsWith ((isLeaf, address) :: kinds) owners records store memory := by
  apply Simulates.perform
  apply Simulates.after fun _ => StandsWith kinds owners records
  · intro store memory same
    exact ⟨_, _, Prog.heapSize_ok memory, same⟩
  · intro size
    have isNewKind : ∀ address other (store : BPlusTreeDram) (memory : Store Node (Heap Record)),
        (other = address ∧ (IsKind isLeaf address store ∧ Kinds kinds store) ∧
          Stands owners records store memory) →
        other = address ∧ StandsWith ((isLeaf, address) :: kinds) owners records store memory := by
      rintro address other store memory ⟨same, ⟨isKind, known⟩, stands⟩
      refine ⟨same, ?_, stands⟩
      intro kind member
      rcases List.mem_cons.mp member with rfl | old
      · exact isKind
      · exact known kind old
    apply Simulates.weaken _ (fun _ _ related => related) isNewKind
    exact Simulates.malloc_known (kinds_malloc kinds _) rfl (blank_stands isLeaf (pool.garbage (size + 1)))

theorem load_stands {leaf : Bool} {address : Ptr} (member : (leaf, address) ∈ kinds) :
    Simulates (Unlogged (StandsWith kinds owners records)) (Prog.load address)
      (Prog.load address : M Node) fun contents there => Unlogged fun store memory =>
        (contents.isLeaf = leaf ∧ NodeStands owners contents there) ∧
          StandsWith kinds owners records store memory := by
  have simulates : Simulates (StandsWith kinds owners records) (Prog.load address)
      (Prog.load address) fun contents there store memory =>
        (contents.isLeaf = leaf ∧ NodeStands owners contents there) ∧
          StandsWith kinds owners records store memory :=
    Simulates.load_known fun _ known => known _ member
  have journaled := simulates.onMemory (L := Place)
  rwa [onMemory_load] at journaled

/-- Reading a node makes its kind known. -/
theorem load_kind (address : Ptr) :
    Simulates (Unlogged (StandsWith kinds owners records)) (Prog.load address)
      (Prog.load address : M Node) fun contents there => Unlogged fun store memory =>
        NodeStands owners contents there ∧
          StandsWith ((contents.isLeaf, address) :: kinds) owners records store memory := by
  intro store state ⟨known, same⟩ object after ran
  cases live : store.heap.get? address with
  | none => simp [Prog.load, live] at ran
  | some found =>
      rw [Prog.load_ok live] at ran
      cases ran
      obtain ⟨there, liveThere, stands⟩ := same.heap.live live
      refine ⟨there, state, Prog.load_ok liveThere, stands, ?_, same⟩
      intro kind member
      rcases List.mem_cons.mp member with rfl | old
      · exact ⟨object, live, rfl⟩
      · exact known kind old

/-- The kinds known already stay known. -/
theorem standsWith_tail {kind : Bool × Ptr} {store : BPlusTreeDram} {memory : Store Node (Heap Record)}
    (stands : StandsWith (kind :: kinds) owners records store memory) :
    StandsWith kinds owners records store memory :=
  ⟨fun other member => stands.1 other (List.mem_cons_of_mem kind member), stands.2⟩

theorem load_kept (address : Ptr) :
    Simulates (Unlogged (StandsWith kinds owners records)) (Prog.load address)
      (Prog.load address : M Node) fun contents there => Unlogged fun store memory =>
        NodeStands owners contents there ∧ StandsWith kinds owners records store memory :=
  (load_kind address).weaken (fun _ _ related => related) fun _ _ _ _ related =>
    ⟨related.1, standsWith_tail related.2⟩

/-- A store to a node whose kind is known, which it keeps. -/
theorem storeNode_stands {leaf : Bool} {address : Ptr} (member : (leaf, address) ∈ kinds)
    {change : Trees.Node BPLUSTREE_MIN_DEGREE Links →
      Except Fault (Trees.Node BPLUSTREE_MIN_DEGREE Links)} {changeThere : Node → Except Fault Node}
    (keeps : ∀ node changed, change node = .ok changed → changed.isLeaf = node.isLeaf)
    (agree : ∀ node other, node.isLeaf = leaf → NodeStands owners node other →
      ∀ changed, change node = .ok changed →
        ∃ there, changeThere other = .ok there ∧ NodeStands owners changed there) :
    Simulates (Unlogged (StandsWith kinds owners records)) (Prog.modify address change)
      (storeNode address changeThere) fun _ _ => Unlogged (StandsWith kinds owners records) :=
  (Simulates.modify_known (fun _ known => known _ member) (kinds_modify kinds keeps) agree).perform

/-- A store to any node that changes neither its kind nor what it stands for. -/
theorem relink_stands (address : Ptr)
    {change : Trees.Node BPLUSTREE_MIN_DEGREE Links →
      Except Fault (Trees.Node BPLUSTREE_MIN_DEGREE Links)} {changeThere : Node → Except Fault Node}
    (keeps : ∀ node changed, change node = .ok changed → changed.isLeaf = node.isLeaf)
    (agree : ∀ node other, NodeStands owners node other → ∀ changed, change node = .ok changed →
      ∃ there, changeThere other = .ok there ∧ NodeStands owners changed there) :
    Simulates (Unlogged (StandsWith kinds owners records)) (Prog.modify address change)
      (storeNode address changeThere) fun _ _ => Unlogged (StandsWith kinds owners records) :=
  ((Simulates.modify address agree).keep (kinds_modify kinds keeps)).perform

theorem setNext_stands (address next : Ptr) :
    Simulates (Unlogged (StandsWith kinds owners records))
      (Prog.modify address fun node => .ok { node with links := { node.links with next := next } } :
        BPlusTreeDram.M Unit)
      (storeNode address fun node => .ok { node with next := next })
      fun _ _ => Unlogged (StandsWith kinds owners records) := by
  apply relink_stands
  · rintro node changed ran
    cases ran
    rfl
  · intro node other stands changed ran
    cases ran
    exact ⟨_, rfl, stands.isLeaf, stands.nk, rfl, stands.previous, stands.keys, stands.records,
      stands.children⟩

theorem setPrevious_stands (address previous : Ptr) :
    Simulates (Unlogged (StandsWith kinds owners records))
      (Prog.modify address fun node =>
        .ok { node with links := { node.links with previous := previous } } : BPlusTreeDram.M Unit)
      (storeNode address fun node => .ok { node with previous := previous })
      fun _ _ => Unlogged (StandsWith kinds owners records) := by
  apply relink_stands
  · rintro node changed ran
    cases ran
    rfl
  · intro node other stands changed ran
    cases ran
    exact ⟨_, rfl, stands.isLeaf, stands.nk, stands.next, rfl, stands.keys, stands.records,
      stands.children⟩

theorem linkSibling_stands (child sibling : Ptr) :
    Simulates (Unlogged (StandsWith kinds owners records)) (BPlusTreeDram.linkSibling child sibling)
      (linkSibling pool child sibling) fun _ _ => Unlogged (StandsWith kinds owners records) := by
  unfold BPlusTreeDram.linkSibling linkSibling
  refine Simulates.bind (load_kept child) fun contents there =>
    Simulates.assume fun stands => ?_
  rw [stands.next]
  refine Simulates.bind (setNext_stands sibling _) fun _ _ => ?_
  refine Simulates.bind (load_kept sibling) fun siblingContents there =>
    Simulates.assume fun stands => ?_
  rw [stands.next]
  have linkChild := Simulates.bind (@setNext_stands owners records kinds child sibling)
    fun _ _ => @setPrevious_stands owners records kinds sibling child
  dsimp only
  apply Simulates.branch Iff.rfl
  · intro _
    apply Simulates.quiet_first (Mode.quiet_addRange _ _)
    refine Simulates.bind (setPrevious_stands _ sibling) fun _ _ => ?_
    exact Simulates.quiet_first (Mode.quiet_persist _ _) linkChild
  · intro _
    exact linkChild

/-- Every split gives the parent, an inner node, a key and a child. -/
theorem graft_stands {node changed : Trees.Node BPLUSTREE_MIN_DEGREE Links} {other : Node}
    (stands : NodeStands owners node other) (inner : node.isLeaf = false) {index : Nat} {sibling : Ptr}
    {separator : Key} {place : CArray Trees.Entry (2 * BPLUSTREE_MIN_DEGREE - 1) →
      Except Fault (CArray Trees.Entry (2 * BPLUSTREE_MIN_DEGREE - 1))}
    (agree : ∀ entries (keys : CArray Key BP_MAX_KEYS),
      CArray.Related (fun entry key => key = entry.key) entries keys →
      ∀ placed, place entries = .ok placed → ∃ there, keys.set index separator = .ok there ∧
        CArray.Related (fun entry key => key = entry.key) placed there)
    (ran : Trees.graft index sibling place node = .ok changed) :
    ∃ there, graft index sibling separator other = .ok there ∧ NodeStands owners changed there := by
  obtain ⟨room, roomRan, ran⟩ := except_bind_inv ran
  obtain ⟨grown, setRan, ran⟩ := except_bind_inv ran
  obtain ⟨shifted, shiftRan, ran⟩ := except_bind_inv ran
  obtain ⟨placed, placeRan, ran⟩ := except_bind_inv ran
  cases ran
  obtain ⟨roomThere, roomRanThere, children⟩ := (stands.children inner).shiftUp _ roomRan
  obtain ⟨grownThere, setRanThere, children⟩ := children.set (Eq.refl (Pointer.node sibling)) setRan
  obtain ⟨shiftedThere, shiftRanThere, keys⟩ := stands.keys.shiftUp _ shiftRan
  obtain ⟨placedThere, placeRanThere, keys⟩ := agree _ _ keys _ placeRan
  rw [graft, stands.nk, except_bind_ok roomRanThere, except_bind_ok setRanThere,
    except_bind_ok shiftRanThere, except_bind_ok placeRanThere]
  refine ⟨_, rfl, stands.isLeaf, rfl, stands.next, stands.previous, keys, ?_, fun _ => children⟩
  intro leaf
  exact absurd (inner.symm.trans leaf) Bool.false_ne_true

theorem graft_isLeaf {node changed : Trees.Node BPLUSTREE_MIN_DEGREE Links} {index : Nat}
    {sibling : Ptr} {place : CArray Trees.Entry (2 * BPLUSTREE_MIN_DEGREE - 1) →
      Except Fault (CArray Trees.Entry (2 * BPLUSTREE_MIN_DEGREE - 1))}
    (ran : Trees.graft index sibling place node = .ok changed) : changed.isLeaf = node.isLeaf := by
  obtain ⟨_, _, ran⟩ := except_bind_inv ran
  obtain ⟨_, _, ran⟩ := except_bind_inv ran
  obtain ⟨_, _, ran⟩ := except_bind_inv ran
  obtain ⟨_, _, ran⟩ := except_bind_inv ran
  cases ran
  rfl

/-- The graft of a split, whose separator comes from another node. -/
theorem graftFrom_stands {parent : Ptr} (inner : (false, parent) ∈ kinds) {index : Nat} {sibling : Ptr}
    {source : Except Fault Trees.Entry} {sourceThere : Except Fault Key}
    (same : ∀ entry, source = .ok entry → sourceThere = .ok entry.key)
    {place : Trees.Entry → CArray Trees.Entry (2 * BPLUSTREE_MIN_DEGREE - 1) →
      Except Fault (CArray Trees.Entry (2 * BPLUSTREE_MIN_DEGREE - 1))}
    (agree : ∀ entry entries (keys : CArray Key BP_MAX_KEYS),
      CArray.Related (fun entry key => key = entry.key) entries keys →
      ∀ placed, place entry entries = .ok placed → ∃ there, keys.set index entry.key = .ok there ∧
        CArray.Related (fun entry key => key = entry.key) placed there) :
    Simulates (Unlogged (StandsWith kinds owners records))
      (Prog.modify parent (Trees.graft index sibling fun entries => do
        let entry ← source
        place entry entries))
      (do
        let separator ← Prog.lift sourceThere
        storeNode parent (graft index sibling separator))
      fun _ _ => Unlogged (StandsWith kinds owners records) := by
  apply Simulates.modify_choose fun _ _ => Trees.graft_choose
  intro entry chosen
  have lifted : (do
      let separator ← Prog.lift sourceThere
      storeNode parent (graft index sibling separator) : M Unit) =
        storeNode parent (graft index sibling entry.key) := by
    rw [same entry chosen]
    rfl
  rw [lifted]
  apply storeNode_stands inner
  · exact fun node changed ran => graft_isLeaf ran
  · exact fun node other isInner stands changed ran =>
      graft_stands stands isInner (agree entry) ran

/-- Reading a key where the other node has the entry. -/
theorem get_key_stands {entries : CArray Trees.Entry (2 * BPLUSTREE_MIN_DEGREE - 1)}
    {keys : CArray Key BP_MAX_KEYS}
    (same : CArray.Related (fun entry key => key = entry.key) entries keys) {index : Nat}
    {entry : Trees.Entry} (read : entries.get index = .ok entry) : keys.get index = .ok entry.key := by
  obtain ⟨key, readThere, rfl⟩ := same.get read
  exact readThere

/-- Writing a key, where the other node keeps the value bytes of the slot. -/
theorem setKey_stands {entries changed : CArray Trees.Entry (2 * BPLUSTREE_MIN_DEGREE - 1)}
    {keys : CArray Key BP_MAX_KEYS}
    (same : CArray.Related (fun entry key => key = entry.key) entries keys) {index : Nat} {key : Key}
    (ran : Trees.setKey entries index key = .ok changed) :
    ∃ there, keys.set index key = .ok there ∧
      CArray.Related (fun entry key => key = entry.key) changed there := by
  unfold Trees.setKey at ran
  cases written : entries.at? index with
  | none =>
      rw [written] at ran
      exact same.set rfl ran
  | some entry =>
      rw [written] at ran
      exact same.set rfl ran

theorem setNk_stands {leaf : Bool} {address : Ptr} (member : (leaf, address) ∈ kinds) (nk : Nat) :
    Simulates (Unlogged (StandsWith kinds owners records))
      (Prog.modify address fun node => .ok { node with nk := nk } : BPlusTreeDram.M Unit)
      (storeNode address fun node => .ok { node with nk := nk })
      fun _ _ => Unlogged (StandsWith kinds owners records) := by
  apply storeNode_stands member
  · rintro node changed ran
    cases ran
    rfl
  · intro node other isKind stands changed ran
    cases ran
    exact ⟨_, rfl, stands.isLeaf, rfl, stands.next, stands.previous, stands.keys, stands.records,
      stands.children⟩

/-- Copying the upper keys and pointers of a leaf into a new sibling, with its entries. -/
theorem copyLeaf_stands {node target changed : Trees.Node BPLUSTREE_MIN_DEGREE Links}
    {other there : Node} (stands : NodeStands owners node other) (isLeaf : node.isLeaf = true)
    (same : NodeStands owners target there) (isKind : target.isLeaf = true)
    (ran : (do
      let entries ← CArray.copyFrom node.entries (BPLUSTREE_MIN_DEGREE - 1) BPLUSTREE_MIN_DEGREE
        target.entries
      return { target with nk := BPLUSTREE_MIN_DEGREE, entries := entries }) = .ok changed) :
    ∃ final, (do
      let keys ← CArray.copyFrom other.keys (BP_MIN_DEGREE - 1) BP_MIN_DEGREE there.keys
      let pointers ← CArray.copyFrom other.pointers (BP_MIN_DEGREE - 1) BP_MIN_DEGREE there.pointers
      return { there with nk := BP_MIN_DEGREE, keys := keys, pointers := pointers }) = .ok final ∧
      NodeStands owners changed final := by
  obtain ⟨entries, copyRan, ran⟩ := except_bind_inv ran
  cases ran
  obtain ⟨keys, keysRan, sameKeys⟩ := stands.keys.copyFrom _ same.keys copyRan
  obtain ⟨pointers, pointersRan, samePointers⟩ :=
    (stands.records isLeaf).copyFrom _ (same.records isKind) copyRan
  have keysRan : CArray.copyFrom other.keys (BP_MIN_DEGREE - 1) BP_MIN_DEGREE there.keys = .ok keys :=
    keysRan
  have pointersRan : CArray.copyFrom other.pointers (BP_MIN_DEGREE - 1) BP_MIN_DEGREE there.pointers =
    .ok pointers := pointersRan
  rw [except_bind_ok keysRan, except_bind_ok pointersRan]
  refine ⟨_, rfl, same.isLeaf, rfl, same.next, same.previous, sameKeys, fun _ => samePointers,
    fun inner => ?_⟩
  exact absurd (inner.symm.trans isKind) Bool.false_ne_true

/-- Copying the upper keys and children of an inner node into a new sibling. -/
theorem copyInner_stands {node target changed : Trees.Node BPLUSTREE_MIN_DEGREE Links}
    {other there : Node} (stands : NodeStands owners node other) (inner : node.isLeaf = false)
    (same : NodeStands owners target there) (isKind : target.isLeaf = false)
    (ran : (do
      let entries ← CArray.copyFrom node.entries BPLUSTREE_MIN_DEGREE (BPLUSTREE_MIN_DEGREE - 1)
        target.entries
      let children ← CArray.copyFrom node.children BPLUSTREE_MIN_DEGREE BPLUSTREE_MIN_DEGREE
        target.children
      return { target with nk := BPLUSTREE_MIN_DEGREE - 1, entries := entries, children := children }) =
        .ok changed) :
    ∃ final, (do
      let keys ← CArray.copyFrom other.keys BP_MIN_DEGREE (BP_MIN_DEGREE - 1) there.keys
      let pointers ← CArray.copyFrom other.pointers BP_MIN_DEGREE BP_MIN_DEGREE there.pointers
      return { there with nk := BP_MIN_DEGREE - 1, keys := keys, pointers := pointers }) = .ok final ∧
      NodeStands owners changed final := by
  obtain ⟨entries, entriesRan, ran⟩ := except_bind_inv ran
  obtain ⟨children, childrenRan, ran⟩ := except_bind_inv ran
  cases ran
  obtain ⟨keys, keysRan, sameKeys⟩ := stands.keys.copyFrom _ same.keys entriesRan
  obtain ⟨pointers, pointersRan, samePointers⟩ :=
    (stands.children inner).copyFrom _ (same.children isKind) childrenRan
  have keysRan : CArray.copyFrom other.keys BP_MIN_DEGREE (BP_MIN_DEGREE - 1) there.keys = .ok keys :=
    keysRan
  have pointersRan : CArray.copyFrom other.pointers BP_MIN_DEGREE BP_MIN_DEGREE there.pointers =
    .ok pointers := pointersRan
  rw [except_bind_ok keysRan, except_bind_ok pointersRan]
  refine ⟨_, rfl, same.isLeaf, rfl, same.next, same.previous, sameKeys, fun leaf => ?_,
    fun _ => samePointers⟩
  exact absurd (isKind.symm.trans leaf) Bool.false_ne_true

theorem splitLeafNode_stands {parent child : Ptr} (parentKind : (false, parent) ∈ kinds)
    (childKind : (true, child) ∈ kinds) (index : Nat) :
    Simulates (Unlogged (StandsWith kinds owners records))
      (BPlusTreeDram.splitLeafNode index parent child) (splitLeafNode pool index parent child)
      fun _ _ => Unlogged (StandsWith kinds owners records) := by
  unfold BPlusTreeDram.splitLeafNode splitLeafNode
  refine Simulates.bind (load_stands childKind) fun contents there => Simulates.assume ?_
  rintro ⟨isLeaf, stands⟩
  rw [stands.isLeaf, isLeaf]
  refine Simulates.bind (createNode_stands pool true) fun sibling other => Simulates.assume ?_
  rintro rfl
  apply Simulates.quiet_first (Mode.quiet_addRange _ _)
  apply Simulates.quiet_first (Mode.quiet_addRange _ _)
  have siblingKind : (true, other) ∈ (true, other) :: kinds := List.mem_cons_self
  refine Simulates.bind (storeNode_stands siblingKind ?_ ?_) fun _ _ => ?_
  · intro node changed ran
    obtain ⟨_, _, ran⟩ := except_bind_inv ran
    cases ran
    rfl
  · exact fun node there isKind same changed ran => copyLeaf_stands stands isLeaf same isKind ran
  refine Simulates.bind (setNk_stands (List.mem_cons_of_mem _ childKind) _) fun _ _ => ?_
  refine Simulates.bind (load_stands siblingKind) fun siblingContents siblingThere =>
    Simulates.assume ?_
  rintro ⟨_, siblingStands⟩
  have grafted : Simulates (Unlogged (StandsWith ((true, other) :: kinds) owners records))
      (Prog.modify parent <| Trees.graft index other fun entries => do
        let first ← siblingContents.entries.get 0
        Trees.setKey entries index first.key : BPlusTreeDram.M Unit)
      (do
        let first ← Prog.lift (siblingThere.keys.get 0)
        storeNode parent (graft index other first))
      fun _ _ => Unlogged (StandsWith ((true, other) :: kinds) owners records) := by
    apply graftFrom_stands (List.mem_cons_of_mem _ parentKind)
    · exact fun first read => get_key_stands siblingStands.keys read
    · exact fun first entries keys same placed ran => setKey_stands same ran
  have simulates := Simulates.bind grafted fun _ _ =>
    Simulates.quiet_last (linkSibling_stands pool child other)
      (quiet_persistAll pool (wholeNode other) (wholeNode child) (wholeNode parent))
  rw [bind_assoc] at simulates
  exact simulates.weaken (fun _ _ related => related) fun _ _ _ _ => standsWith_tail

theorem splitInnerNode_stands {parent child : Ptr} (parentKind : (false, parent) ∈ kinds)
    (childKind : (false, child) ∈ kinds) (index : Nat) :
    Simulates (Unlogged (StandsWith kinds owners records))
      (Trees.splitMiddle true Links.null index parent child : BPlusTreeDram.M Unit)
      (splitInnerNode pool index parent child)
      fun _ _ => Unlogged (StandsWith kinds owners records) := by
  unfold Trees.splitMiddle splitInnerNode
  refine Simulates.bind (load_stands childKind) fun contents there => Simulates.assume ?_
  rintro ⟨inner, stands⟩
  rw [stands.isLeaf, inner]
  refine Simulates.bind (createNode_stands pool false) fun sibling other => Simulates.assume ?_
  rintro rfl
  apply Simulates.quiet_first (Mode.quiet_addRange _ _)
  apply Simulates.quiet_first (Mode.quiet_addRange _ _)
  have siblingKind : (false, other) ∈ (false, other) :: kinds := List.mem_cons_self
  refine Simulates.bind (storeNode_stands siblingKind ?_ ?_) fun _ _ => ?_
  · intro node changed ran
    obtain ⟨_, _, ran⟩ := except_bind_inv ran
    obtain ⟨_, _, ran⟩ := except_bind_inv ran
    cases ran
    rfl
  · exact fun node there isKind same changed ran => copyInner_stands stands inner same isKind ran
  have stillChild : (false, child) ∈ (false, other) :: kinds := List.mem_cons_of_mem _ childKind
  refine Simulates.bind (setNk_stands stillChild _) fun _ _ => ?_
  refine Simulates.bind (load_stands stillChild) fun childContents childThere => Simulates.assume ?_
  rintro ⟨_, childStands⟩
  have grafted : Simulates (Unlogged (StandsWith ((false, other) :: kinds) owners records))
      (Prog.modify parent <| Trees.graft index other fun entries => do
        let middle ← childContents.entries.get (BPLUSTREE_MIN_DEGREE - 1)
        entries.set index middle : BPlusTreeDram.M Unit)
      (do
        let middle ← Prog.lift (childThere.keys.get (BP_MIN_DEGREE - 1))
        storeNode parent (graft index other middle))
      fun _ _ => Unlogged (StandsWith ((false, other) :: kinds) owners records) := by
    apply graftFrom_stands (List.mem_cons_of_mem _ parentKind)
    · exact fun middle read => get_key_stands childStands.keys read
    · exact fun middle entries keys same placed ran => same.set (Eq.refl middle.key) ran
  have simulates := Simulates.quiet_last grafted
    (quiet_persistAll pool (wholeNode other) (wholeNode child) (wholeNode parent))
  rw [bind_assoc] at simulates
  exact simulates.weaken (fun _ _ related => related) fun _ _ _ _ => standsWith_tail

theorem splitNode_stands {parent child : Ptr} (parentKind : (false, parent) ∈ kinds) (index : Nat) :
    Simulates (Unlogged (StandsWith kinds owners records))
      (BPlusTreeDram.splitNode index parent child) (splitNode pool index parent child)
      fun _ _ => Unlogged (StandsWith kinds owners records) := by
  unfold BPlusTreeDram.splitNode splitNode
  refine Simulates.bind (load_kind child) fun contents there => Simulates.assume fun stands => ?_
  have stillParent := List.mem_cons_of_mem (contents.isLeaf, child) parentKind
  apply Simulates.branch (by rw [stands.isLeaf])
  · intro leaf
    have childKind : (true, child) ∈ (contents.isLeaf, child) :: kinds := by
      rw [leaf]
      exact List.mem_cons_self
    exact (splitLeafNode_stands pool stillParent childKind index).weaken
      (fun _ _ related => related) fun _ _ _ _ => standsWith_tail
  · intro inner
    have childKind : (false, child) ∈ (contents.isLeaf, child) :: kinds := by
      rw [Bool.eq_false_iff.mpr inner]
      exact List.mem_cons_self
    exact (splitInnerNode_stands pool stillParent childKind index).weaken
      (fun _ _ related => related) fun _ _ _ _ => standsWith_tail

end Splitting

end StoredsBench.BP
