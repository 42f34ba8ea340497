/-
Module: StoredsBench.Trees.Filled
Layer: Refinement
Purpose: The persistent trees do what the DRAM trees do.  A node of the one stands for a node of the
  other when it agrees with it wherever the DRAM class has written; what the allocator left elsewhere
  does not matter.  Every function of the DRAM classes that succeeds is matched step by step by the
  same function over a pool, in every mode.
Trusted boundary: none
Main exports: EntryFilled, NodeFilled, Mirrors, splitMiddle_mirrors, insertNotFull_mirrors,
  insert_mirrors, Rep.filled
-/
import StoredsBench.Trees.Pmem
import StoredsBench.Trees.Refinement
import StoredsBench.Lib.ArrayRelation

namespace StoredsBench

open Lib Lib.Multiway

/-! ### What the calls of a mode do to the memory -/

namespace Mode

variable {N M X Y α β : Type}

theorem simulates_transaction (mode : Mode) {program : Prog N X α} {code : PmemProg M Y Place β}
    {pre : Store N X → Store M Y → Prop} {post : α → β → Store N X → Store M Y → Prop}
    (simulates : Simulates (Unlogged pre) program code fun value result =>
      Unlogged (post value result)) :
    Simulates (Unlogged pre) program (mode.transaction code) fun value result =>
      Unlogged (post value result) := by
  cases mode with
  | transactional => exact simulates.transaction
  | volatile => exact simulates
  | persistent => exact simulates

end Mode

namespace Trees

section Objects

variable {t : Nat} {X : Type}

/-- The entry has the same key and agrees on every written byte of the value. -/
structure EntryFilled (entry other : Entry) : Prop where
  key : other.key = entry.key
  value : CharArray.Filled entry.value other.value

/-- The node has the same kind, count and chain pointers, and agrees on every written slot. -/
structure NodeFilled (node other : Node t X) : Prop where
  isLeaf : other.isLeaf = node.isLeaf
  nk : other.nk = node.nk
  links : other.links = node.links
  entries : CArray.Related EntryFilled node.entries other.entries
  children : CArray.Related (fun child there => there = child) node.children other.children

/-- The memories of a DRAM class and of a class over a pool. -/
abbrev Mirrors (store other : Store (Node t X) Unit) : Prop :=
  Same NodeFilled (fun _ _ => True) store other

variable {node other changed : Node t X}

theorem lowerIndexOf_filled (filled : NodeFilled node other) {key : Key} {index : Nat}
    (found : lowerIndexOf node key = .ok index) : lowerIndexOf other key = .ok index := by
  unfold lowerIndexOf at found ⊢
  rw [filled.nk]
  exact filled.entries.scanUp (fun entry there same => by rw [same.key]) found

theorem keyMatches_filled (filled : NodeFilled node other) {index : Nat} {key : Key} {found : Bool}
    (ran : keyMatches node index key = .ok found) : keyMatches other index key = .ok found := by
  unfold keyMatches at ran ⊢
  rw [filled.nk]
  split
  · rename_i inside
    rw [if_pos inside] at ran
    cases read : node.entries.get index with
    | error fault => simp [read, bind, Except.bind] at ran
    | ok entry =>
        obtain ⟨there, readThere, same⟩ := filled.entries.get read
        simp only [read, bind, Except.bind, pure, Except.pure] at ran
        simp only [readThere, bind, Except.bind, pure, Except.pure, same.key]
        exact ran
  · rename_i outside
    rwa [if_neg outside] at ran

variable {capacity : Nat} {entries written : CArray Entry capacity} {others : CArray Entry capacity}

theorem setKey_filled (filled : CArray.Related EntryFilled entries others) {index : Nat} {key : Key}
    (ran : setKey entries index key = .ok written) :
    ∃ there, setKey others index key = .ok there ∧ CArray.Related EntryFilled written there := by
  unfold setKey at ran ⊢
  cases found : entries.at? index with
  | some entry =>
      obtain ⟨other, foundThere, same⟩ := filled.written found
      simp only [found] at ran
      simp only [foundThere]
      have keyed : EntryFilled { entry with key := key } { other with key := key } :=
        ⟨rfl, same.value⟩
      exact filled.set keyed ran
  | none =>
      simp only [found] at ran
      have keyed : ∀ slot, EntryFilled { key := key, value := CharArray.unwritten _ }
          { key := key, value := slot } := fun slot => ⟨rfl, CharArray.Filled.unwritten slot⟩
      cases foundThere : others.at? index with
      | some other => exact filled.set (keyed other.value) ran
      | none => exact filled.set (keyed (CharArray.unwritten _)) ran

theorem copyValue_filled (filled : CArray.Related EntryFilled entries others) {index : Nat}
    {value : Value} (ran : copyValue entries index value = .ok written) :
    ∃ there, copyValue others index value = .ok there ∧
      CArray.Related EntryFilled written there := by
  unfold copyValue at ran ⊢
  cases read : entries.get index with
  | error fault => simp [read, bind, Except.bind] at ran
  | ok entry =>
      obtain ⟨other, readThere, same⟩ := filled.get read
      simp only [read, bind, Except.bind] at ran
      simp only [readThere, bind, Except.bind]
      have copied : EntryFilled { entry with value := entry.value.copyString value }
          { other with value := other.value.copyString value } :=
        ⟨same.key, same.value.copyString value⟩
      exact filled.set copied ran

theorem insertIntoLeaf_filled (filled : NodeFilled node other) {key : Key} {value : Value}
    (ran : insertIntoLeaf key value node = .ok changed) :
    ∃ there, insertIntoLeaf key value other = .ok there ∧ NodeFilled changed there := by
  obtain ⟨⟨index, shifted⟩, shiftRan, ran⟩ := except_bind_inv ran
  obtain ⟨keyed, keyRan, ran⟩ := except_bind_inv ran
  obtain ⟨placed, copyRan, ran⟩ := except_bind_inv ran
  cases ran
  have sameTest : ∀ entry there : Entry, EntryFilled entry there →
      decide (key < entry.key) = decide (key < there.key) := fun _ _ same => by rw [same.key]
  obtain ⟨shiftedThere, shiftRanThere, same⟩ := filled.entries.shiftUpWhile sameTest shiftRan
  obtain ⟨keyedThere, keyRanThere, same⟩ := setKey_filled same keyRan
  obtain ⟨placedThere, copyRanThere, same⟩ := copyValue_filled same copyRan
  rw [insertIntoLeaf, filled.nk, except_bind_ok shiftRanThere]
  dsimp only
  rw [except_bind_ok keyRanThere, except_bind_ok copyRanThere]
  exact ⟨_, rfl, filled.isLeaf, rfl, filled.links, same, filled.children⟩

theorem graft_filled (filled : NodeFilled node other) {index : Nat} {sibling : Ptr}
    {place placeThere : CArray Entry (2 * t - 1) → Except Fault (CArray Entry (2 * t - 1))}
    (agree : ∀ {entries others}, CArray.Related EntryFilled entries others →
      ∀ placed, place entries = .ok placed →
        ∃ there, placeThere others = .ok there ∧ CArray.Related EntryFilled placed there)
    (ran : graft index sibling place node = .ok changed) :
    ∃ there, graft index sibling placeThere other = .ok there ∧ NodeFilled changed there := by
  obtain ⟨room, roomRan, ran⟩ := except_bind_inv ran
  obtain ⟨grown, setRan, ran⟩ := except_bind_inv ran
  obtain ⟨shifted, shiftRan, ran⟩ := except_bind_inv ran
  obtain ⟨placed, placeRan, ran⟩ := except_bind_inv ran
  cases ran
  obtain ⟨roomThere, roomRanThere, children⟩ := filled.children.shiftUp _ roomRan
  obtain ⟨grownThere, setRanThere, children⟩ := children.set (Eq.refl sibling) setRan
  obtain ⟨shiftedThere, shiftRanThere, entries⟩ := filled.entries.shiftUp _ shiftRan
  obtain ⟨placedThere, placeRanThere, entries⟩ := agree entries _ placeRan
  rw [graft, filled.nk, except_bind_ok roomRanThere, except_bind_ok setRanThere,
    except_bind_ok shiftRanThere, except_bind_ok placeRanThere]
  exact ⟨_, rfl, filled.isLeaf, rfl, filled.links, entries, children⟩

/-- Copying the upper entries, and in an inner node the upper children, into a new sibling. -/
theorem copyUpper_filled {source sourceThere : Node t X} (sources : NodeFilled source sourceThere)
    (filled : NodeFilled node other) (copyChildren : Bool)
    (ran : (do
      let entries ← CArray.copyFrom source.entries t (t - 1) node.entries
      let children ←
        if copyChildren then CArray.copyFrom source.children t t node.children
        else pure node.children
      return { node with nk := t - 1, entries := entries, children := children }) = .ok changed) :
    ∃ there, (do
      let entries ← CArray.copyFrom sourceThere.entries t (t - 1) other.entries
      let children ←
        if copyChildren then CArray.copyFrom sourceThere.children t t other.children
        else pure other.children
      return { other with nk := t - 1, entries := entries, children := children }) = .ok there ∧
      NodeFilled changed there := by
  obtain ⟨entries, entriesRan, ran⟩ := except_bind_inv ran
  obtain ⟨entriesThere, entriesRanThere, sameEntries⟩ :=
    sources.entries.copyFrom _ filled.entries entriesRan
  rw [except_bind_ok entriesRanThere]
  cases copyChildren with
  | false =>
      cases ran
      exact ⟨_, rfl, filled.isLeaf, rfl, filled.links, sameEntries, filled.children⟩
  | true =>
      obtain ⟨children, childrenRan, ran⟩ := except_bind_inv ran
      cases ran
      obtain ⟨childrenThere, childrenRanThere, sameChildren⟩ :=
        sources.children.copyFrom _ filled.children childrenRan
      dsimp only
      rw [if_pos rfl, except_bind_ok childrenRanThere]
      exact ⟨_, rfl, filled.isLeaf, rfl, filled.links, sameEntries, sameChildren⟩

end Objects

section Programs

variable {t : Nat} {X : Type} {pool : Pool (Node t X)}

theorem storeNode_mirrors (address : Ptr) {change changeThere : Node t X → Except Fault (Node t X)}
    (agree : ∀ node other, NodeFilled node other → ∀ changed, change node = .ok changed →
      ∃ there, changeThere other = .ok there ∧ NodeFilled changed there) :
    Simulates (Unlogged Mirrors) (Prog.modify address change) (storeNode address changeThere)
      fun _ _ => Unlogged Mirrors :=
  (Simulates.modify address agree).perform

/-- A blank node is mirrored by one whose arrays hold anything. -/
theorem createNode_mirrors (pool : Pool (Node t X)) (isLeaf : Bool) (links : X) :
    Simulates (Unlogged Mirrors) (createNode isLeaf links) (pool.createNode isLeaf links)
      fun address other => Unlogged fun store memory => other = address ∧ Mirrors store memory := by
  apply Simulates.perform
  apply Simulates.after fun _ => Mirrors
  · intro store memory mirrors
    exact ⟨_, _, Prog.heapSize_ok memory, mirrors⟩
  · intro size
    apply Simulates.malloc
    exact ⟨rfl, rfl, rfl, .unwritten (Nat.le_refl _), .unwritten (Nat.le_refl _)⟩

theorem splitMiddle_mirrors (pool : Pool (Node t X)) (copyChildren : Bool) (links : X) (index : Nat)
    (parent child : Ptr) :
    Simulates (Unlogged Mirrors) (splitMiddle copyChildren links index parent child)
      (pool.splitMiddle copyChildren links index parent child) fun _ _ => Unlogged Mirrors := by
  unfold splitMiddle Pool.splitMiddle
  refine Simulates.bind (Simulates.load_journaled child) fun contents contentsThere =>
    Simulates.assume fun filled => ?_
  rw [filled.isLeaf]
  refine Simulates.bind (createNode_mirrors pool _ _) fun sibling other => Simulates.assume ?_
  rintro rfl
  refine Simulates.quiet_first (Mode.quiet_addRange _ _) ?_
  refine Simulates.quiet_first (Mode.quiet_addRange _ _) ?_
  refine Simulates.bind (storeNode_mirrors _ ?_) fun _ _ => ?_
  · exact fun _ _ same _ ran => copyUpper_filled filled same copyChildren ran
  refine Simulates.bind (storeNode_mirrors _ ?_) fun _ _ => ?_
  · intro node there same changed ran
    cases ran
    exact ⟨_, rfl, same.isLeaf, rfl, same.links, same.entries, same.children⟩
  refine Simulates.bind (Simulates.load_journaled child) fun childContents childThere =>
    Simulates.assume fun childFilled => ?_
  refine Simulates.quiet_last (storeNode_mirrors _ ?_)
    ((Mode.quiet_persist _ _).bind ((Mode.quiet_persist _ _).bind (Mode.quiet_persist _ _)))
  intro node there same changed ran
  refine graft_filled same (fun placedBefore placed placeRan => ?_) ran
  obtain ⟨middle, middleRan, setRan⟩ := except_bind_inv placeRan
  obtain ⟨middleThere, middleRanThere, sameMiddle⟩ := childFilled.entries.get middleRan
  rw [except_bind_ok middleRanThere]
  exact placedBefore.set sameMiddle setRan

/-- The splits of two classes do the same. -/
def SplitMirrors (splitNode : Nat → Ptr → Ptr → TreeProg t X Unit)
    (splitThere : Nat → Ptr → Ptr → PmemTreeProg t X Unit) : Prop :=
  ∀ index parent child, Simulates (Unlogged Mirrors) (splitNode index parent child)
    (splitThere index parent child) fun _ _ => Unlogged Mirrors

variable {splitNode : Nat → Ptr → Ptr → TreeProg t X Unit}
  {splitThere : Nat → Ptr → Ptr → PmemTreeProg t X Unit}

theorem insertNotFull_mirrors (pool : Pool (Node t X)) (splits : SplitMirrors splitNode splitThere)
    (key : Key) (value : Value) : ∀ (fuel : Nat) (node : Ptr),
    Simulates (Unlogged Mirrors) (insertNotFull splitNode fuel node key value)
      (pool.insertNotFull splitThere fuel node key value) fun _ _ => Unlogged Mirrors
  | 0, _ => Simulates.fault _
  | fuel + 1, node => by
      have descend : ∀ child, Simulates (Unlogged Mirrors)
          (insertNotFull splitNode fuel child key value)
          (pool.mode.transaction do
            pool.mode.addRange (wholeNode child)
            pool.insertNotFull splitThere fuel child key value)
          fun _ _ => Unlogged Mirrors := fun child =>
        Mode.simulates_transaction _ (Simulates.quiet_first (Mode.quiet_addRange _ _)
          (insertNotFull_mirrors pool splits key value fuel child))
      rw [insertNotFull, Pool.insertNotFull]
      refine Simulates.bind (Simulates.load_journaled node) fun contents contentsThere =>
        Simulates.assume fun filled => ?_
      refine Simulates.branch (by rw [filled.isLeaf]) (fun _ => ?_) (fun _ => ?_)
      · refine Simulates.quiet_last (storeNode_mirrors _ ?_) (Mode.quiet_persist _ _)
        exact fun _ _ same _ ran => insertIntoLeaf_filled same ran
      · refine Simulates.bind (Simulates.lift fun index found => ⟨index, ?_, Eq.refl index⟩)
          fun index other => Simulates.assume ?_
        · rw [filled.nk]
          exact filled.entries.scanDown (fun _ _ same => by rw [same.key]) found
        rintro rfl
        refine Simulates.bind (Simulates.lift fun child read => filled.children.get read)
          fun child other => Simulates.assume ?_
        rintro rfl
        refine Simulates.bind (Simulates.load_journaled _) fun childContents childThere =>
          Simulates.assume fun childFilled => ?_
        refine Simulates.branch (by rw [childFilled.nk]) (fun _ => ?_) (fun _ => descend _)
        refine Simulates.bind (splits _ _ _) fun _ _ => ?_
        refine Simulates.bind (Simulates.load_journaled node) fun contents contentsThere =>
          Simulates.assume fun filled => ?_
        refine Simulates.bind (Simulates.lift fun separator read => filled.entries.get read)
          fun separator other => Simulates.assume fun same => ?_
        rw [same.key]
        refine Simulates.bind (Simulates.lift fun child read => filled.children.get read)
          fun child other => Simulates.assume ?_
        rintro rfl
        exact descend _

theorem insertNew_mirrors (pool : Pool (Node t X)) (splits : SplitMirrors splitNode splitThere)
    (links : X) (depthBound : Nat) (root : Ptr) (key : Key) (value : Value) :
    Simulates (Unlogged Mirrors) (insertAbsent splitNode links depthBound root key value)
      (pool.insertNew splitThere links depthBound root key value)
      fun result _ => Unlogged fun store memory => result = 1 ∧ Mirrors store memory := by
  rw [insertAbsent, Pool.insertNew]
  refine Simulates.bind (Simulates.load_journaled root) fun contents contentsThere =>
    Simulates.assume fun filled => ?_
  refine Simulates.branch (by rw [filled.nk]) (fun _ => ?_) (fun _ => ?_)
  · refine Mode.simulates_transaction _ ?_
    rw [Pool.insertBelowNewRoot]
    refine Simulates.bind (createNode_mirrors pool _ _) fun newRoot other => Simulates.assume ?_
    rintro rfl
    refine Simulates.quiet_first (Mode.quiet_addRange _ _) ?_
    refine Simulates.bind (storeNode_mirrors _ ?_) fun _ _ => ?_
    · intro node there same changed ran
      obtain ⟨children, setRan, ran⟩ := except_bind_inv ran
      cases ran
      obtain ⟨childrenThere, setRanThere, sameChildren⟩ := same.children.set (Eq.refl root) setRan
      rw [except_bind_ok setRanThere]
      exact ⟨_, rfl, same.isLeaf, same.nk, same.links, same.entries, sameChildren⟩
    refine Simulates.bind (splits _ _ _) fun _ _ => ?_
    refine Simulates.bind (Simulates.load_journaled _) fun newContents newThere =>
      Simulates.assume fun newFilled => ?_
    refine Simulates.bind (Simulates.lift fun separator read => newFilled.entries.get read)
      fun separator other => Simulates.assume fun same => ?_
    rw [same.key]
    refine Simulates.bind (Simulates.lift fun child read => newFilled.children.get read)
      fun child other => Simulates.assume ?_
    rintro rfl
    refine Simulates.quiet_first (Mode.quiet_addRange _ _) ?_
    refine Simulates.bind (insertNotFull_mirrors pool splits key value _ _) fun _ _ => ?_
    refine Simulates.quiet_first (Mode.quiet_persist _ _) ?_
    refine Simulates.quiet_first (Mode.quiet_addRange _ _) ?_
    refine Simulates.returns (Simulates.quiet_last (Simulates.setRoot _).perform
      (Mode.quiet_persist _ _)) fun _ _ _ _ mirrors => ⟨rfl, mirrors⟩
  · refine Mode.simulates_transaction _ (Simulates.quiet_first (Mode.quiet_addRange _ _) ?_)
    exact Simulates.returns (insertNotFull_mirrors pool splits key value _ _)
      fun _ _ _ _ mirrors => ⟨rfl, mirrors⟩

end Programs

end Trees

end StoredsBench
