/-
Module: StoredsBench.Trees.Effects
Layer: Refinement
Purpose: The effects of the persistent trees in transactions: what the places of a pool hold, how the
  stores to nodes change it, and which functions log what they store to.
Trusted boundary: none
Main exports: Cell, Node.cell, readTree, node_ext, get?_of_readTree, SplitLogs, logs_splitMiddle,
  logs_insertNotFull, logs_insertBelowNewRoot
-/
import StoredsBench.Trees.Pmem

namespace StoredsBench.Trees

open Lib

/-- What a place of a tree's pool may hold. -/
inductive Cell (X : Type) where
  | content (content : Content)
  | flag (isLeaf : Bool)
  | count (nk : Nat)
  | links (links : X)

variable {t : Nat} {X : Type}

/-- What a member of a node holds. -/
def Node.cell (node : Node t X) : NodeField → Cell X
  | .isLeaf => .flag node.isLeaf
  | .nk => .count node.nk
  | .key index => .content (.word ((node.entries.at? index).map Entry.key))
  | .valueByte index offset =>
      .content (.byte ((node.entries.at? index).bind fun entry => entry.value.bytes.getD offset none))
  | .pointer index => .content (.pointer (node.children.at? index))
  | .links => .links node.links

/-- The persistent memory of the trees. -/
def readTree (store : Store (Node t X) Unit) : Place → Option (Cell X)
  | .poolRoot => some (.content (.pointer (some store.root)))
  | .node address field => (store.heap.get? address).map fun node => node.cell field
  | .recordKey _ => none
  | .recordByte _ _ => none

/-! ### What places hold -/

section Cells

variable {node other : Node t X}

/-- The members of a node determine it. -/
theorem node_ext (same : ∀ field, node.cell field = other.cell field) : node = other := by
  have entriesEq : node.entries = other.entries := by
    apply CArray.ext_at?
    intro index
    have keys : (node.entries.at? index).map Entry.key = (other.entries.at? index).map Entry.key :=
      Content.word.inj (Cell.content.inj (same (.key index)))
    have bytes : ∀ offset, (node.entries.at? index).bind (fun entry => entry.value.bytes.getD offset none) =
        (other.entries.at? index).bind fun entry => entry.value.bytes.getD offset none :=
      fun offset => Content.byte.inj (Cell.content.inj (same (.valueByte index offset)))
    cases here : node.entries.at? index with
    | none =>
        rw [here] at keys
        exact (Option.map_eq_none_iff.mp keys.symm).symm
    | some entry =>
        rw [here] at keys bytes
        obtain ⟨there, found, keyEq⟩ := Option.map_eq_some_iff.mp keys.symm
        rw [found] at bytes ⊢
        obtain ⟨key, value⟩ := entry
        obtain ⟨otherKey, otherValue⟩ := there
        obtain rfl : otherKey = key := keyEq
        have valueEq : value = otherValue := CharArray.ext_bytes bytes
        rw [valueEq]
  have childrenEq : node.children = other.children := by
    apply CArray.ext_at?
    intro index
    exact Content.pointer.inj (Cell.content.inj (same (.pointer index)))
  have isLeafEq := Cell.flag.inj (same .isLeaf)
  have nkEq := Cell.count.inj (same .nk)
  have linksEq := Cell.links.inj (same .links)
  obtain ⟨isLeaf, nk, entries, children, links⟩ := node
  cases other
  simp only at isLeafEq nkEq entriesEq childrenEq linksEq
  subst isLeafEq nkEq entriesEq childrenEq linksEq
  rfl

end Cells

section Memories

variable {store other : Store (Node t X) Unit}

/-- Memories that read alike have the same nodes. -/
theorem get?_of_readTree (same : readTree store = readTree other) (address : Ptr) :
    store.heap.get? address = other.heap.get? address := by
  have members : ∀ field, (store.heap.get? address).map (fun node => node.cell field) =
      (other.heap.get? address).map fun node => node.cell field :=
    fun field => congrFun same (.node address field)
  cases here : store.heap.get? address with
  | none =>
      have count := members .nk
      rw [here] at count
      exact (Option.map_eq_none_iff.mp count.symm).symm
  | some node =>
      have count := members .nk
      rw [here] at count
      obtain ⟨there, found, _⟩ := Option.map_eq_some_iff.mp count.symm
      rw [found]
      apply congrArg some
      apply node_ext
      intro field
      have member := members field
      rw [here, found] at member
      exact Option.some.inj member

theorem root_of_readTree (same : readTree store = readTree other) : store.root = other.root := by
  have pointers := Option.some.inj (congrFun same .poolRoot)
  exact Option.some.inj (Content.pointer.inj (Cell.content.inj pointers))

end Memories

/-! ### Stores -/

section Frames

variable {address : Ptr} {change : Node t X → Except Fault (Node t X)} {range : Place → Bool}

/-- A change of a node stores to the members it changes. -/
theorem modify_frames
    (kept : ∀ node changed field, change node = .ok changed → range (.node address field) = false →
      changed.cell field = node.cell field)
    (before : Store (Node t X) Unit) (value : Unit) (after : Store (Node t X) Unit)
    (ran : Prog.modify address change before = .ok (value, after)) (place : Place) :
    (Effect.store range).Frames place (readTree before place) (readTree after place) := by
  obtain ⟨node, changed, live, changedEq, rfl⟩ := Prog.modify_inv ran
  cases place with
  | node other field =>
      simp only [readTree, Heap.get?_set live]
      by_cases isHere : other = address
      · subst isHere
        rw [if_pos rfl, live]
        constructor
        · intro outside
          exact congrArg some (kept node changed field changedEq outside)
        · simp
      · rw [if_neg isHere]
        exact ⟨fun _ => rfl, Iff.rfl⟩
  | _ => exact ⟨fun _ => rfl, Iff.rfl⟩

theorem setRoot_frames (root : Ptr) (before : Store (Node t X) Unit) (value : Unit)
    (after : Store (Node t X) Unit) (ran : Prog.setRoot root before = .ok (value, after)) (place : Place) :
    (Effect.store poolRoot).Frames place (readTree before place) (readTree after place) := by
  cases ran
  cases place with
  | poolRoot =>
      constructor
      · intro outside
        cases outside
      · constructor
        · intro missing
          cases missing
        · intro missing
          cases missing
  | _ => exact ⟨fun _ => rfl, Iff.rfl⟩

/-- Allocating touches only places that no node had. -/
theorem malloc_frames (blank : Ptr → Node t X) (before : Store (Node t X) Unit) (address : Ptr)
    (after : Store (Node t X) Unit)
    (ran : (do let size ← Prog.heapSize; Prog.malloc (blank (size + 1))) before = .ok (address, after))
    (place : Place) :
    (Effect.allocate (wholeNode address)).Frames place (readTree before place) (readTree after place) := by
  cases ran
  cases place with
  | node other field =>
      constructor
      · intro outside
        have different : other ≠ before.heap.size + 1 := by simpa [wholeNode] using outside
        simp only [readTree, Heap.get?_push, if_neg different]
      · intro inside
        obtain rfl : other = before.heap.size + 1 := by simpa [wholeNode] using inside
        cases live : before.heap.get? (before.heap.size + 1) with
        | none => simp [readTree, live]
        | some node => exact absurd rfl (Heap.ne_fresh_of_get? live)
  | _ =>
      constructor
      · exact fun _ => rfl
      · intro inside
        cases inside

/-- A copy stores to the bytes of the value and its terminator. -/
theorem copy_kept {index : Nat} {value : Value} (node changed : Node t X) (field : NodeField)
    (changedEq : (do
      let entries ← copyValue node.entries index value
      return { node with entries := entries } : Except Fault (Node t X)) = .ok changed)
    (outside : valueBytes address index (value.chars.length + 1) (.node address field) = false) :
    changed.cell field = node.cell field := by
  obtain ⟨entries, copied, done⟩ := except_bind_inv changedEq
  cases done
  obtain ⟨entry, read, written⟩ := except_bind_inv copied
  obtain ⟨inside, found⟩ := CArray.get_inv read
  obtain ⟨_, rfl⟩ := CArray.set_inv written
  cases field with
  | key other =>
      simp only [Node.cell, CArray.at?_put _ inside]
      split
      · rename_i same
        rw [same, found]
        rfl
      · rfl
  | valueByte other offset =>
      simp only [Node.cell, CArray.at?_put _ inside]
      split
      · rename_i same
        subst same
        have behind : value.chars.length + 1 ≤ offset := by simpa [valueBytes] using outside
        simp only [found, Option.bind_some, List.getD_eq_getElem?_getD,
          entry.value.copyString_behind value behind]
      · rfl
  | _ => rfl

end Frames

/-! ### Code that logs its stores -/

section Logged

variable {pool : Pool (Node t X)} {covered : Place → Bool} {address : Ptr}

/-- The node is covered. -/
abbrev Covered (covered : Place → Bool) (address : Ptr) : Prop := Extends (wholeNode address) covered

theorem logs_range (transactional : pool.mode = .transactional) (range : Place → Bool) :
    Logs readTree covered (pool.mode.addRange range : PmemTreeProg t X Unit)
      fun _ more => Extends covered more ∧ Extends range more := by
  rw [transactional]
  exact Mode.logs_addRange covered range

theorem logs_persist (transactional : pool.mode = .transactional) (range : Place → Bool) :
    Logs readTree covered (pool.mode.persist range : PmemTreeProg t X Unit)
      fun _ more => more = covered := by
  rw [transactional]
  exact EffectLogic.Holds.pure rfl

/-- A transaction inside another one. -/
theorem logs_nested {α : Type} (transactional : pool.mode = .transactional) {code : PmemTreeProg t X α}
    {post : α → (Place → Bool) → Prop} (logs : Logs readTree covered code post) :
    Logs readTree covered (pool.mode.transaction code) post := by
  rw [transactional]
  exact logs.nested

theorem logs_storeNode (change : Node t X → Except Fault (Node t X)) (covers : Covered covered address) :
    Logs readTree covered (storeNode address change) fun _ more => more = covered := by
  apply Logs.store covers
  · apply modify_frames
    intro node changed field _ outside
    simp [wholeNode] at outside
  · exact fun _ => rfl

theorem logs_createNode (isLeaf : Bool) (links : X) :
    Logs readTree covered (pool.createNode isLeaf links)
      fun address more => Extends covered more ∧ Covered more address := by
  apply Logs.allocate
  · exact malloc_frames fun address =>
      { pool.garbage address with isLeaf := isLeaf, nk := 0, links := links }
  · intro address
    constructor
    · intro place inside
      simp [inside]
    · intro place inside
      simp [inside]

theorem logs_storeRoot (root : Ptr) (covers : covered .poolRoot = true) :
    Logs readTree covered (storeRoot root : PmemTreeProg t X Unit) fun _ more => more = covered := by
  apply Logs.store
  · intro place inside
    obtain rfl : place = .poolRoot := by simpa [poolRoot] using inside
    exact covers
  · exact setRoot_frames root
  · exact fun _ => rfl

/-- A split needs a snapshot of the parent only. -/
def SplitLogs (splitNode : Nat → Ptr → Ptr → PmemTreeProg t X Unit) : Prop :=
  ∀ covered index parent child, Covered covered parent →
    Logs readTree covered (splitNode index parent child) fun _ more => Extends covered more

theorem logs_splitMiddle (transactional : pool.mode = .transactional) (copyChildren : Bool) (links : X)
    (index : Nat) {parent : Ptr} (child : Ptr) (covers : Covered covered parent) :
    Logs readTree covered (pool.splitMiddle copyChildren links index parent child)
      fun _ more => Extends covered more := by
  apply (EffectLogic.Holds.load child fun _ => rfl).bind
  rintro childContents _ rfl
  apply (logs_createNode _ _).bind
  intro sibling one ⟨first, ownSibling⟩
  apply (logs_range transactional _).bind
  intro _ two ⟨second, ownChild⟩
  apply (logs_range transactional _).bind
  intro _ three ⟨third, _⟩
  apply (logs_storeNode _ (ownSibling.trans (second.trans third))).bind
  rintro _ _ rfl
  apply (logs_storeNode _ (ownChild.trans third)).bind
  rintro _ _ rfl
  apply (EffectLogic.Holds.load child fun _ => rfl).bind
  rintro _ _ rfl
  have grows := first.trans (second.trans third)
  apply (logs_storeNode _ (covers.trans grows)).bind
  rintro _ _ rfl
  apply (logs_persist transactional _).bind
  rintro _ _ rfl
  apply (logs_persist transactional _).bind
  rintro _ _ rfl
  apply (logs_persist transactional _).weaken
  rintro _ _ rfl
  exact grows

variable {splitNode : Nat → Ptr → Ptr → PmemTreeProg t X Unit}

/-- `insert_not_full` takes the snapshots for the levels below. -/
theorem logs_insertNotFull (transactional : pool.mode = .transactional) (splits : SplitLogs splitNode)
    (fuel : Nat) {node : Ptr} (key : Key) (value : Value) (covers : Covered covered node) :
    Logs readTree covered (pool.insertNotFull splitNode fuel node key value) fun _ _ => True := by
  induction fuel generalizing node covered with
  | zero => exact EffectLogic.Holds.fault _
  | succ fuel inductionHypothesis =>
      apply (EffectLogic.Holds.load node fun _ => rfl).bind
      rintro contents _ rfl
      apply EffectLogic.Holds.branch
      · intro _
        apply (logs_storeNode _ covers).bind
        rintro _ _ rfl
        exact (logs_persist transactional _).weaken fun _ _ _ => trivial
      · intro _
        have below : ∀ (child : Ptr) (covered : Place → Bool), Logs readTree covered
            (pool.mode.transaction do
              pool.mode.addRange (wholeNode child)
              pool.insertNotFull splitNode fuel child key value) fun _ _ => True := by
          intro child covered
          apply logs_nested transactional
          apply (logs_range transactional _).bind
          rintro _ more ⟨_, own⟩
          exact inductionHypothesis own
        apply (EffectLogic.Holds.lift _ fun _ => rfl).bind
        rintro index _ rfl
        apply (EffectLogic.Holds.lift _ fun _ => rfl).bind
        rintro child _ rfl
        apply (EffectLogic.Holds.load child fun _ => rfl).bind
        rintro childContents _ rfl
        apply EffectLogic.Holds.branch
        · intro _
          apply (splits _ index node child covers).bind
          intro _ more grows
          apply (EffectLogic.Holds.load node fun _ => rfl).bind
          rintro contents _ rfl
          apply (EffectLogic.Holds.lift _ fun _ => rfl).bind
          rintro separator _ rfl
          apply (EffectLogic.Holds.lift _ fun _ => rfl).bind
          rintro child _ rfl
          exact below child _
        · intro _
          exact below child _

/-- A new root needs no snapshot before. -/
theorem logs_insertBelowNewRoot (transactional : pool.mode = .transactional) (splits : SplitLogs splitNode)
    (links : X) (depthBound : Nat) (root : Ptr) (key : Key) (value : Value) :
    Logs readTree covered (pool.insertBelowNewRoot splitNode links depthBound root key value)
      fun _ _ => True := by
  apply (logs_createNode _ _).bind
  rintro newRoot one ⟨first, ownRoot⟩
  apply (logs_range transactional _).bind
  rintro _ two ⟨second, own⟩
  apply (logs_storeNode _ own).bind
  rintro _ _ rfl
  apply (splits _ 0 newRoot root own).bind
  intro _ three third
  apply (EffectLogic.Holds.load newRoot fun _ => rfl).bind
  rintro newContents _ rfl
  apply (EffectLogic.Holds.lift _ fun _ => rfl).bind
  rintro separator _ rfl
  apply (EffectLogic.Holds.lift _ fun _ => rfl).bind
  rintro child _ rfl
  apply (logs_range transactional _).bind
  rintro _ four ⟨fourth, ownChild⟩
  apply (logs_insertNotFull transactional splits depthBound key value ownChild).bind
  intro _ five _
  apply (logs_persist transactional _).bind
  rintro _ _ rfl
  apply (logs_range transactional _).bind
  rintro _ six ⟨_, ownPool⟩
  apply (logs_storeRoot newRoot (ownPool _ _)).bind
  · rintro _ _ rfl
    exact (logs_persist transactional _).weaken fun _ _ _ => trivial
  · simp [Pool.rootRange, poolRoot]

end Logged

end StoredsBench.Trees
