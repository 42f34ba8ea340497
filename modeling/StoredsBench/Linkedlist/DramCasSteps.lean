/-
Module: StoredsBench.Linkedlist.DramCasSteps
Layer: Correctness
Purpose: Every access of `LinkedlistDram_CAS::insert` with a `Current` view keeps the invariant of the
  list, leads to what its outline asserts next, and does not interfere with other calls.
Trusted boundary: none
Main exports: Advances, advances, outline_sound
-/
import StoredsBench.Linkedlist.DramCasOutline

namespace StoredsBench.LinkedlistDramCAS

open Lib

variable {order order' : Order} {list list' : LinkedlistDramCAS} {call : Call} {pc pc' : Pc}
variable {place place' : Place} {node : Ptr}

/-! ### Steps -/

/-- What a step has to establish. -/
structure Advances (place : Place) (order : Order) (list : LinkedlistDramCAS) (order' : Order)
    (list' : LinkedlistDramCAS) (place' : Place) : Prop where
  invariant : ListInvariant order' list'
  asserts : Asserts order' list' place'
  effect : Effect place order list order' list'
  newNode : ∀ node, place'.newNode = some node → place.newNode = some node ∨ list.keyAt node = none
  held : ∀ node, place'.held = some node → place.held = some node ∨ ¬ list.Locked node

theorem ListInvariant.exists_next (invariant : ListInvariant order list)
    (inside : node ∈ order.nodes) : ∃ contents, list.nodes.get? node = some contents := by
  obtain ⟨before, after, split⟩ := List.append_of_mem inside
  have linked := invariant.linked
  rw [split] at linked
  obtain ⟨_, _, rfl, _, following, found, _⟩ := leads_append.mp linked
  obtain ⟨contents, stored, _⟩ := Option.map_eq_some_iff.mp found
  exact ⟨contents, stored⟩

theorem ListInvariant.exists_key (invariant : ListInvariant order list)
    (inside : node ∈ order.nodes) : ∃ key, list.keyAt node = some key := by
  obtain ⟨contents, stored⟩ := invariant.exists_next inside
  exact ⟨contents.key, by rw [keyAt, stored]; rfl⟩

/-- The new node of a call exists. -/
theorem AssertsAt.exists_key (asserts : AssertsAt order list call pc)
    (invariant : ListInvariant order list) : ∃ key, list.keyAt call.newNode = some key := by
  cases pc with
  | testHead | storeFirstTail => exact ⟨_, asserts.key⟩
  | loadHead | loadPrevHead | loadTail | loadPrevTail | loadTemp => exact ⟨_, asserts.key⟩
  | compareHead _ | loadFlagHead _ | compareTail _ | loadFlagTail _ => exact ⟨_, asserts.key⟩
  | loadHeadFlag _ _ | casHead _ _ | loadTailFlag _ _ | casTail _ _ => exact ⟨_, asserts.key⟩
  | storeFirstHead | loadNewNext _ | loadLast _ => exact ⟨_, asserts.isPrivate.key⟩
  | storeNewNext _ _ | storeHead _ | storeLastNext _ _ => exact ⟨_, asserts.1.isPrivate.key⟩
  | testNext _ | compareTemp _ | advance _ => exact ⟨_, asserts.1.key⟩
  | loadTempNext _ | compareNext _ _ | loadNextNode _ | loadTempFlag _ _ | casTemp _ _ _ =>
      exact ⟨_, asserts.isPrivate.key⟩
  | storeNextNode _ _ => exact ⟨_, asserts.passed.isPrivate.key⟩
  | storeTempNext _ =>
      obtain ⟨_, between, _⟩ := asserts
      exact ⟨_, between.passed.isPrivate.key⟩
  | storeTail _ => exact invariant.exists_key asserts.inside
  | renewHead _ | renewTail _ | renewTemp _ => exact invariant.exists_key asserts.inside

theorem AssertsAt.holds (asserts : AssertsAt order list call pc) (isHeld : pc.held = some node) :
    Holds order list node := by
  cases pc <;> cases isHeld
  case storeTempNext =>
    obtain ⟨_, between, _⟩ := asserts
    exact between.holds
  case storeNewNext | storeHead | storeLastNext => exact asserts.1.holds
  all_goals exact asserts.holds

/-- The other threads are where they were. -/
theorem Advances.others (advances : Advances place order list order' list' place')
    (invariant : ListInvariant order list) {other : Place} (asserts : Asserts order list other)
    (apart : Apart place other) : Asserts order' list' other ∧ Apart place' other := by
  cases other with
  | idle =>
      refine ⟨trivial, ?_, ?_⟩
      · exact fun _ _ same => nomatch same
      · exact fun _ _ same => nomatch same
  | inside call pc =>
      constructor
      · apply advances.effect.stable invariant advances.invariant asserts
        · exact fun own => apart.newNode _ own rfl
        · exact fun node isHeld own => apart.held node own isHeld
      · constructor
        · intro node own same
          rcases advances.newNode node own with before | new
          · exact apart.newNode node before same
          · obtain ⟨key, known⟩ := AssertsAt.exists_key asserts invariant
            obtain rfl := Option.some.inj same
            rw [known] at new
            cases new
        · intro node own same
          rcases advances.held node own with before | free
          · exact apart.held node before same
          · exact free (AssertsAt.holds asserts same).locked

theorem Effect.refl (held : ∀ node, place.held = some node → node ∈ order.nodes) :
    Effect place order list order list where
  held := held
  kept := fun _ inside => inside
  fresh := fun _ inside => Or.inl inside
  key := fun _ _ known => known
  next := fun _ _ known _ _ => known
  locked := fun _ locked _ => locked
  head := Or.inl rfl
  tail := Or.inl rfl
  extended := fun _ _ => Iff.rfl

/-- A step that loads. -/
theorem loads (invariant : ListInvariant order list) (asserts : AssertsAt order list call pc)
    (next : AssertsAt order list call pc') (held : pc'.held = pc.held) :
    Advances (.inside call pc) order list order list (.inside call pc') where
  invariant := invariant
  asserts := next
  effect := Effect.refl fun _ isHeld => (asserts.holds isHeld).inside
  newNode := fun _ own => Or.inl own
  held := fun _ isHeld => Or.inl (held.symm.trans isHeld)

/-- A call that gives up. -/
theorem returnsZero (invariant : ListInvariant order list) (asserts : AssertsAt order list call pc) :
    Advances (.inside call pc) order list order list .idle where
  invariant := invariant
  asserts := trivial
  effect := Effect.refl fun _ isHeld => (asserts.holds isHeld).inside
  newNode := fun _ own => nomatch own
  held := fun _ isHeld => nomatch isHeld

/-! ### Taking a flag -/

/-- The list after the flag was taken. -/
def taken (list : LinkedlistDramCAS) (flag : Ptr) : LinkedlistDramCAS :=
  { list with flags := list.flags.set flag 1 }

theorem compareAndSwap_cases {flag : Ptr} {raceResult : Bool}
    (swapped : list.compareAndSwap flag = some (raceResult, list')) :
    list.flags.get? flag = some 0 ∧ raceResult = true ∧ list' = list.taken flag ∨
      raceResult = false ∧ list' = list := by
  unfold compareAndSwap at swapped
  obtain ⟨stored, found, rest⟩ := Option.bind_eq_some_iff.mp swapped
  split at rest
  · next isZero =>
      cases rest
      rw [isZero] at found
      exact Or.inl ⟨found, rfl, rfl⟩
  · cases rest
    exact Or.inr ⟨rfl, rfl⟩

theorem Locked.taken (locked : list.Locked node) {flag : Ptr} (free : list.flags.get? flag = some 0) :
    (list.taken flag).Locked node := by
  obtain ⟨other, value, flagAt, stored, nonzero⟩ := locked
  by_cases same : other = flag
  · refine ⟨other, 1, flagAt, ?_, by decide⟩
    rw [LinkedlistDramCAS.taken, Heap.get?_set free, if_pos same]
  · refine ⟨other, value, flagAt, ?_, nonzero⟩
    rw [LinkedlistDramCAS.taken, Heap.get?_set free, if_neg same]
    exact stored

theorem locked_taken {flag : Ptr} (isFlag : list.flagAt node = some flag)
    (free : list.flags.get? flag = some 0) : (list.taken flag).Locked node := by
  refine ⟨flag, 1, isFlag, ?_, by decide⟩
  rw [taken, Heap.get?_set free, if_pos rfl]

theorem not_locked {flag : Ptr} (isFlag : list.flagAt node = some flag)
    (free : list.flags.get? flag = some 0) : ¬ list.Locked node := by
  rintro ⟨other, value, otherFlag, stored, nonzero⟩
  obtain rfl := Option.some.inj (otherFlag.symm.trans isFlag)
  rw [stored] at free
  exact nonzero (Option.some.inj free)

theorem ListInvariant.notExtended_of_free (invariant : ListInvariant order list) {flag : Ptr}
    (isFlag : list.flagAt node = some flag) (free : list.flags.get? flag = some 0) :
    order.extended ≠ some node := by
  intro extended
  exact not_locked isFlag free (invariant.beforeLast node extended).2.1

theorem ListInvariant.taken (invariant : ListInvariant order list) {flag : Ptr}
    (free : list.flags.get? flag = some 0) : ListInvariant order (list.taken flag) where
  linked := invariant.linked
  distinct := invariant.distinct
  sorted := invariant.sorted
  flags := by
    intro node other isFlag
    obtain ⟨value, stored⟩ := invariant.flags node other isFlag
    rw [LinkedlistDramCAS.taken, Heap.get?_set free]
    by_cases same : other = flag
    · exact ⟨1, if_pos same⟩
    · exact ⟨value, by rw [if_neg same, stored]⟩
  inserted := invariant.inserted
  last := invariant.last
  beforeLast := by
    intro node extended
    obtain ⟨tail, locked, split⟩ := invariant.beforeLast node extended
    exact ⟨tail, locked.taken free, split⟩

/-- A compare-and-swap that wins. -/
theorem takes {flag : Ptr} (invariant : ListInvariant order list)
    (asserts : AssertsAt order list call pc) (isFlag : list.flagAt node = some flag)
    (free : list.flags.get? flag = some 0) (next : AssertsAt order (list.taken flag) call pc')
    (held : pc'.held = some node) :
    Advances (.inside call pc) order list order (list.taken flag) (.inside call pc') := by
  have unchanged : Effect (.inside call pc) order list order list :=
    Effect.refl fun _ isHeld => (asserts.holds isHeld).inside
  constructor
  · exact invariant.taken free
  · exact next
  · exact { unchanged with locked := fun _ locked _ => locked.taken free }
  · exact fun _ own => Or.inl own
  · intro other isHeld
    obtain rfl := Option.some.inj (held.symm.trans isHeld)
    exact Or.inr (not_locked isFlag free)

/-! ### Linking -/

/-- Only pointers between nodes change, and the pointers to the first and the last one. -/
structure Relinked (list list' : LinkedlistDramCAS) : Prop where
  key : list'.keyAt = list.keyAt
  flag : list'.flagAt = list.flagAt
  flags : list'.flags = list.flags
  inserted : list'.inserted = list.inserted

/-- The `next` member of a node was stored to. -/
structure NextStored (list : LinkedlistDramCAS) (node next : Ptr) (list' : LinkedlistDramCAS) : Prop
    extends Relinked list list' where
  next : ∀ other, list'.nextAt other = if other = node then some next else list.nextAt other
  head : list'.head = list.head
  tail : list'.tail = list.tail

theorem setNext_some {next : Ptr} (stored : list.setNext node next = some list') :
    NextStored list node next list' := by
  unfold setNext at stored
  obtain ⟨contents, found, rest⟩ := Option.bind_eq_some_iff.mp stored
  cases rest
  constructor
  · constructor
    · funext other
      rw [keyAt, keyAt, Heap.get?_set found]
      split
      · next same => rw [same, found]; rfl
      · rfl
    · funext other
      rw [flagAt, flagAt, Heap.get?_set found]
      split
      · next same => rw [same, found]; rfl
      · rfl
    · rfl
    · rfl
  · intro other
    rw [nextAt, Heap.get?_set found]
    split
    · rfl
    · rfl
  · rfl
  · rfl

theorem Relinked.locked (relinked : Relinked list list') : list'.Locked node ↔ list.Locked node := by
  rw [Locked, Locked, relinked.flag, relinked.flags]

theorem Relinked.keysLe (relinked : Relinked list list') : list'.KeysLe = list.KeysLe := by
  funext first second
  rw [KeysLe, KeysLe, relinked.key]

theorem Relinked.holds (relinked : Relinked list list') (holds : Holds order list node) :
    Holds order list' node where
  inside := holds.inside
  locked := relinked.locked.mpr holds.locked

theorem NextStored.next_self {next : Ptr} (stored : NextStored list node next list') :
    list'.nextAt node = some next := by
  rw [stored.next, if_pos rfl]

theorem NextStored.next_of_ne {next other : Ptr} (stored : NextStored list node next list')
    (different : other ≠ node) : list'.nextAt other = list.nextAt other := by
  rw [stored.next, if_neg different]

/-- A store to the new node before the others know it. -/
theorem ListInvariant.privateStored {next : Ptr} (invariant : ListInvariant order list)
    (outside : node ∉ order.nodes) (stored : NextStored list node next list') :
    ListInvariant order list' where
  linked := by
    rw [stored.head]
    apply invariant.linked.congr
    intro other inside
    apply stored.next_of_ne
    rintro rfl
    exact outside inside
  distinct := invariant.distinct
  sorted := by
    rw [stored.keysLe]
    exact invariant.sorted
  flags := by
    rw [stored.flag, stored.flags]
    exact invariant.flags
  inserted := by
    rw [stored.inserted]
    exact invariant.inserted
  last := by
    rw [stored.tail]
    exact invariant.last
  beforeLast := by
    intro other extended
    rw [stored.tail, stored.locked]
    exact invariant.beforeLast other extended

theorem storesPrivate {next : Ptr} (invariant : ListInvariant order list)
    (asserts : AssertsAt order list call pc) (isPrivate : Private order list call)
    (stored : NextStored list call.newNode next list') (after : AssertsAt order list' call pc')
    (held : pc'.held = pc.held) :
    Advances (.inside call pc) order list order list' (.inside call pc') := by
  constructor
  · exact invariant.privateStored isPrivate.outside stored
  · exact after
  · constructor
    · exact fun _ isHeld => (asserts.holds isHeld).inside
    · exact fun _ inside => inside
    · exact fun _ inside => Or.inl inside
    · intro other key known
      rw [stored.key]
      exact known
    · intro other target known _ notOwn
      rw [stored.next_of_ne, known]
      rintro rfl
      exact isPrivate.outside (notOwn rfl)
    · intro other locked _
      exact stored.locked.mpr locked
    · exact Or.inl stored.head
    · exact Or.inl stored.tail
    · exact fun _ _ => Iff.rfl
  · exact fun _ own => Or.inl own
  · exact fun _ isHeld => Or.inl (held.symm.trans isHeld)

theorem Private.stored (isPrivate : Private order list call)
    (relinked : Relinked list list') : Private order list' call where
  key := by
    rw [relinked.key]
    exact isPrivate.key
  outside := isPrivate.outside

theorem BeforeHead.stored {next : Ptr} (before : BeforeHead order list call node)
    (stored : NextStored list call.newNode next list') : BeforeHead order list' call node where
  isPrivate := before.isPrivate.stored stored.toRelinked
  holds := stored.holds before.holds
  notExtended := before.notExtended
  head := stored.head.trans before.head
  key := by
    rw [stored.key]
    exact before.key

theorem Between.stored {nextNode next : Ptr} (between : Between order list call node nextNode)
    (stored : NextStored list call.newNode next list') : Between order list' call node nextNode where
  passed := by
    constructor
    · exact between.passed.isPrivate.stored stored.toRelinked
    · exact between.passed.inside
    · rw [stored.key]
      exact between.passed.key
  holds := stored.holds between.holds
  notExtended := between.notExtended
  next := by
    rw [stored.next_of_ne, between.next]
    rintro rfl
    exact between.passed.isPrivate.outside between.holds.inside
  key := by
    rw [stored.key]
    exact between.key

theorem KeysLe.trans {first second third : Ptr} (le : list.KeysLe first second)
    (le' : list.KeysLe second third) : list.KeysLe first third := by
  obtain ⟨firstKey, secondKey, firstKnown, secondKnown, keys⟩ := le
  obtain ⟨secondKey', thirdKey, secondKnown', thirdKnown, keys'⟩ := le'
  obtain rfl := Option.some.inj (secondKnown.symm.trans secondKnown')
  exact ⟨firstKey, thirdKey, firstKnown, thirdKnown, le_trans keys keys'⟩

section Linking

variable {before after : List Ptr}

/-- The order of the nodes after the new one was linked in. -/
structure Placed (list : LinkedlistDramCAS) (order : Order) (before : List Ptr) (newNode : Ptr)
    (after : List Ptr) : Prop where
  split : order.nodes = before ++ after
  outside : newNode ∉ order.nodes
  below : ∀ other ∈ before, list.KeysLe other newNode
  above : ∀ other ∈ after, list.KeysLe newNode other

theorem Placed.distinct (placed : Placed list order before node after)
    (invariant : ListInvariant order list) : (before ++ node :: after).Nodup := by
  rw [List.perm_middle.nodup_iff, ← placed.split]
  exact List.nodup_cons.mpr ⟨placed.outside, invariant.distinct⟩

theorem pairwise_insert {R : Ptr → Ptr → Prop} (related : (before ++ after).Pairwise R)
    (below : ∀ other ∈ before, R other node) (above : ∀ other ∈ after, R node other) :
    (before ++ node :: after).Pairwise R := by
  obtain ⟨relatedBefore, relatedAfter, across⟩ := List.pairwise_append.mp related
  refine List.pairwise_append.mpr ⟨relatedBefore, List.pairwise_cons.mpr ⟨above, relatedAfter⟩, ?_⟩
  intro first firstInside second secondInside
  rcases List.mem_cons.mp secondInside with rfl | later
  · exact below first firstInside
  · exact across first firstInside second later

theorem Placed.sorted (placed : Placed list order before node after)
    (invariant : ListInvariant order list) (relinked : Relinked list list') :
    (before ++ node :: after).Pairwise list'.KeysLe := by
  have sorted := invariant.sorted
  rw [placed.split] at sorted
  rw [relinked.keysLe]
  exact pairwise_insert sorted placed.below placed.above

theorem Placed.kept (placed : Placed list order before node after) :
    ∀ other ∈ order.nodes, other ∈ before ++ node :: after := by
  intro other inside
  rw [placed.split] at inside
  rw [List.mem_append, List.mem_cons]
  exact (List.mem_append.mp inside).imp_right Or.inr

theorem Placed.fresh (placed : Placed list order before node after) :
    ∀ other ∈ before ++ node :: after, other ∈ order.nodes ∨ node = other := by
  intro other inside
  rw [placed.split, List.mem_append]
  rcases List.mem_append.mp inside with front | back
  · exact Or.inl (Or.inl front)
  · rcases List.mem_cons.mp back with rfl | later
    · exact Or.inr rfl
    · exact Or.inl (Or.inr later)

/-- Where `last` and `beforeLast` are kept, linking keeps the invariant. -/
theorem ListInvariant.link {extended : Option Ptr} (invariant : ListInvariant order list)
    (placed : Placed list order before node after) (relinked : Relinked list list')
    (linked : Linked list'.nextAt list'.head (before ++ node :: after))
    (last : ∀ front other, before ++ node :: after = front ++ [other] → extended = none →
      list'.tail = other)
    (beforeLast : ∀ other, extended = some other → list'.tail = other ∧ list.Locked other ∧
      ∃ front last, before ++ node :: after = front ++ [other, last]) :
    ListInvariant ⟨before ++ node :: after, extended⟩ list' where
  linked := linked
  distinct := placed.distinct invariant
  sorted := placed.sorted invariant relinked
  flags := by
    rw [relinked.flag, relinked.flags]
    exact invariant.flags
  inserted := by
    rw [relinked.inserted]
    exact fun other member => placed.kept other (invariant.inserted other member)
  last := last
  beforeLast := by
    intro other isExtended
    rw [relinked.locked]
    exact beforeLast other isExtended

/-- In front of other nodes the last ones stay the last ones. -/
theorem ListInvariant.linkInside (invariant : ListInvariant order list)
    (placed : Placed list order before node after) (relinked : Relinked list list')
    (linked : Linked list'.nextAt list'.head (before ++ node :: after)) (tail : list'.tail = list.tail)
    (nonempty : after ≠ [])
    (behind : ∀ other, order.extended = some other → ∃ front last, after = front ++ [other, last]) :
    ListInvariant ⟨before ++ node :: after, order.extended⟩ list' := by
  apply invariant.link placed relinked linked
  · intro front other split notExtended
    obtain ⟨rest, last, rfl⟩ := List.eq_nil_or_concat after |>.resolve_left nonempty
    rw [List.concat_eq_append] at split placed
    rw [← List.cons_append, ← List.append_assoc] at split
    obtain ⟨_, same⟩ := List.append_inj' split rfl
    obtain rfl := (List.cons.inj same).1
    rw [tail]
    apply invariant.last (before ++ rest) last _ notExtended
    rw [placed.split, List.append_assoc]
  · intro other extended
    obtain ⟨isTail, locked, _⟩ := invariant.beforeLast other extended
    obtain ⟨front, last, split⟩ := behind other extended
    refine ⟨tail.trans isTail, locked, before ++ node :: front, last, ?_⟩
    rw [split, List.append_assoc, List.cons_append]

/-- What linking in the new node of a call does to others. -/
theorem Placed.effect {extended : Option Ptr} (placed : Placed list order before call.newNode after)
    (asserts : AssertsAt order list call pc) (relinked : Relinked list list')
    (next : ∀ other target, list.nextAt other = some target → pc.held ≠ some other →
      list'.nextAt other = some target)
    (head : list'.head = list.head ∨ pc.held = some list.head ∨
      order.nodes = [] ∧ call.newNode = list.tail)
    (tail : list'.tail = list.tail)
    (unextended : ∀ other, pc.held ≠ some other →
      (extended = some other ↔ order.extended = some other)) :
    Effect (.inside call pc) order list ⟨before ++ call.newNode :: after, extended⟩ list' where
  held := fun _ isHeld => (asserts.holds isHeld).inside
  kept := placed.kept
  fresh := fun other inside => (placed.fresh other inside).imp_right (congrArg some)
  key := by
    intro other key known
    rw [relinked.key]
    exact known
  next := fun other target known free _ => next other target known free
  locked := fun _ locked _ => relinked.locked.mpr locked
  head := head.imp_right fun rest => rest.imp_right fun first => ⟨first.1, congrArg some first.2⟩
  tail := Or.inl tail
  extended := unextended

end Linking

/-! ### Accesses that store -/

theorem BeforeHead.placed (asserts : BeforeHead order list call node)
    (invariant : ListInvariant order list) :
    ∃ rest, order.nodes = node :: rest ∧ Placed list order [] call.newNode (node :: rest) := by
  obtain ⟨isPrivate, holds, _, head, key, known, below⟩ := asserts
  have first := invariant.linked.eq_headD
  have sorted := invariant.sorted
  cases nodes : order.nodes with
  | nil =>
      have inside := holds.inside
      rw [nodes] at inside
      cases inside
  | cons other rest =>
      rw [nodes, head] at first
      obtain rfl : node = other := first
      have le : list.KeysLe call.newNode node :=
        ⟨call.uint64Key, key, isPrivate.key, known, le_of_lt below⟩
      refine ⟨rest, rfl, nodes, isPrivate.outside, (fun _ inside => nomatch inside), ?_⟩
      intro other inside
      rcases List.mem_cons.mp inside with rfl | later
      · exact le
      · rw [nodes] at sorted
        exact le.trans ((List.pairwise_cons.mp sorted).1 other later)

theorem storeHead_advances (invariant : ListInvariant order list)
    (asserts : AssertsAt order list call (.storeHead node)) :
    ∃ order', Advances (.inside call (.storeHead node)) order list order'
      { list with head := call.newNode } (.inside call (.renewHead node)) := by
  have before : BeforeHead order list call node := asserts.1
  obtain ⟨rest, nodes, placed⟩ := before.placed invariant
  have relinked : Relinked list { list with head := call.newNode } := ⟨rfl, rfl, rfl, rfl⟩
  have linked := invariant.linked
  rw [before.head, nodes] at linked
  have invariant' : ListInvariant ⟨call.newNode :: node :: rest, order.extended⟩
      { list with head := call.newNode } := by
    apply invariant.linkInside placed relinked
    · exact ⟨rfl, ne_null_of_keyAt before.isPrivate.key, node, asserts.2, linked⟩
    · rfl
    · exact List.cons_ne_nil _ _
    · intro other extended
      rw [← nodes]
      exact (invariant.beforeLast other extended).2.2
  refine ⟨_, invariant', ?_, ?_, fun _ own => Or.inl own, fun _ isHeld => Or.inl isHeld⟩
  · constructor
    · exact List.mem_cons_self
    · exact ⟨placed.kept node before.holds.inside, before.holds.locked⟩
    · exact before.notExtended
  · apply placed.effect asserts relinked
    · exact fun _ _ known _ => known
    · exact Or.inr (Or.inl (congrArg some before.head.symm))
    · rfl
    · exact fun _ _ => Iff.rfl

/-- The last two members of a list are behind every other member that is not the last. -/
theorem behind_of_split {before front rest : List Ptr} {next other last : Ptr}
    (split : before ++ node :: next :: rest = front ++ [other, last]) (different : other ≠ node) :
    ∃ front last, next :: rest = front ++ [other, last] := by
  rcases List.append_eq_append_iff.mp split with ⟨between, _, back⟩ | ⟨between, _, back⟩
  · cases between with
    | nil => exact absurd (List.cons.inj back).1.symm different
    | cons _ between => exact ⟨between, last, (List.cons.inj back).2⟩
  · cases between with
    | nil => exact absurd (List.cons.inj back).1 different
    | cons _ between =>
        have lengths := congrArg List.length back
        simp only [List.length_cons, List.length_append, List.length_nil] at lengths
        omega

theorem Between.placed {nextNode : Ptr} (asserts : Between order list call node nextNode)
    (invariant : ListInvariant order list) :
    ∃ before rest, order.nodes = before ++ node :: nextNode :: rest ∧
      Placed list order (before ++ [node]) call.newNode (nextNode :: rest) := by
  obtain ⟨⟨isPrivate, inside, key, known, atMost⟩, _, _, next, nextKey, nextKnown, atLeast⟩ := asserts
  obtain ⟨before, after, split⟩ := List.append_of_mem inside
  have linked := invariant.linked
  have sorted := invariant.sorted
  rw [split] at linked sorted
  obtain ⟨_, _, _, _, following, found, restLinked⟩ := leads_append.mp linked
  obtain rfl := Option.some.inj (next.symm.trans found)
  have le : list.KeysLe node call.newNode := ⟨key, _, known, isPrivate.key, atMost⟩
  have le' : list.KeysLe call.newNode nextNode := ⟨_, nextKey, isPrivate.key, nextKnown, atLeast⟩
  obtain ⟨_, sortedAfter, across⟩ := List.pairwise_append.mp sorted
  cases after with
  | nil => exact absurd restLinked (ne_null_of_keyAt nextKnown)
  | cons other rest =>
      obtain rfl : nextNode = other := restLinked.1
      refine ⟨before, rest, split, ?_, isPrivate.outside, ?_, ?_⟩
      · rw [split, List.append_assoc]
        rfl
      · intro other member
        rcases List.mem_append.mp member with front | own
        · exact (across other front node List.mem_cons_self).trans le
        · obtain rfl := List.mem_singleton.mp own
          exact le
      · intro other member
        rcases List.mem_cons.mp member with rfl | later
        · exact le'
        · have sortedRest := (List.pairwise_cons.mp sortedAfter).2
          exact le'.trans ((List.pairwise_cons.mp sortedRest).1 other later)

theorem storeTempNext_advances (invariant : ListInvariant order list)
    (asserts : AssertsAt order list call (.storeTempNext node))
    (stored : NextStored list node call.newNode list') :
    ∃ order', Advances (.inside call (.storeTempNext node)) order list order' list'
      (.inside call (.renewTemp node)) := by
  have between := asserts
  obtain ⟨nextNode, between, newNext⟩ := between
  obtain ⟨before, rest, split, placed⟩ := between.placed invariant
  have different : call.newNode ≠ node := by
    intro same
    apply between.passed.isPrivate.outside
    rw [same]
    exact between.holds.inside
  have linked : Linked list'.nextAt list'.head (before ++ [node] ++ call.newNode :: nextNode :: rest) := by
    have linked := invariant.linked
    have distinct := invariant.distinct
    rw [split] at linked distinct
    obtain ⟨start, leads, isNode, notNull, following, found, restLinked⟩ := leads_append.mp linked
    rw [isNode] at leads
    obtain rfl := Option.some.inj (between.next.symm.trans found)
    obtain ⟨_, distinctAfter, across⟩ := List.nodup_append.mp distinct
    rw [stored.head, List.append_assoc]
    refine leads_append.mpr ⟨node, leads.congr ?_, rfl, notNull, call.newNode, stored.next_self, rfl,
      ne_null_of_keyAt between.passed.isPrivate.key, nextNode, ?_, restLinked.congr ?_⟩
    · intro other member
      exact stored.next_of_ne (across other member node List.mem_cons_self)
    · rw [stored.next_of_ne different, newNext]
    · intro other member
      apply stored.next_of_ne
      rintro rfl
      exact (List.nodup_cons.mp distinctAfter).1 member
  have invariant' : ListInvariant
      ⟨before ++ [node] ++ call.newNode :: nextNode :: rest, order.extended⟩ list' := by
    apply invariant.linkInside placed stored.toRelinked linked stored.tail (List.cons_ne_nil _ _)
    intro other extended
    obtain ⟨_, _, front, last, splitLast⟩ := invariant.beforeLast other extended
    apply behind_of_split (split.symm.trans splitLast)
    rintro rfl
    exact between.notExtended extended
  refine ⟨_, invariant', ?_, ?_, fun _ own => Or.inl own, fun _ isHeld => Or.inl isHeld⟩
  · constructor
    · exact List.mem_append_right _ List.mem_cons_self
    · exact ⟨placed.kept node between.holds.inside, stored.locked.mpr between.holds.locked⟩
    · exact between.notExtended
  · apply placed.effect asserts stored.toRelinked
    · intro other target known free
      rw [stored.next_of_ne, known]
      rintro rfl
      exact free rfl
    · exact Or.inl stored.head
    · exact stored.tail
    · exact fun _ _ => Iff.rfl

/-- Unless the list is being extended, `tail` points to its last node. -/
theorem BehindTail.placed (asserts : BehindTail order list call node)
    (invariant : ListInvariant order list) :
    order.extended = none ∧ ∃ before, order.nodes = before ++ [node] ∧
      Placed list order (before ++ [node]) call.newNode [] := by
  obtain ⟨isPrivate, holds, notExtended, tail, _, _, key, known, above⟩ := asserts
  have extended : order.extended = none := by
    cases isExtended : order.extended with
    | none => rfl
    | some other =>
        obtain ⟨isTail, _⟩ := invariant.beforeLast other isExtended
        rw [isExtended, ← isTail, tail] at notExtended
        exact absurd rfl notExtended
  have le : list.KeysLe node call.newNode := ⟨key, _, known, isPrivate.key, le_of_lt above⟩
  rcases List.eq_nil_or_concat order.nodes with empty | ⟨before, last, split⟩
  · have inside := holds.inside
    rw [empty] at inside
    cases inside
  · rw [List.concat_eq_append] at split
    obtain rfl : node = last := tail.symm.trans (invariant.last before last split extended)
    have sorted := invariant.sorted
    rw [split] at sorted
    refine ⟨extended, before, split, ?_, isPrivate.outside, ?_, fun _ inside => nomatch inside⟩
    · rw [split, List.append_nil]
    · intro other member
      rcases List.mem_append.mp member with front | own
      · exact ((List.pairwise_append.mp sorted).2.2 other front node List.mem_cons_self).trans le
      · obtain rfl := List.mem_singleton.mp own
        exact le

theorem storeLastNext_advances (invariant : ListInvariant order list)
    (asserts : AssertsAt order list call (.storeLastNext node node))
    (stored : NextStored list node call.newNode list') :
    ∃ order', Advances (.inside call (.storeLastNext node node)) order list order' list'
      (.inside call (.storeTail node)) := by
  have behind : BehindTail order list call node := asserts.1
  obtain ⟨notExtended, before, split, placed⟩ := behind.placed invariant
  have different : call.newNode ≠ node := by
    intro same
    apply behind.isPrivate.outside
    rw [same]
    exact behind.holds.inside
  have linked : Linked list'.nextAt list'.head (before ++ [node] ++ [call.newNode]) := by
    have linked := invariant.linked
    have distinct := invariant.distinct
    rw [split] at linked distinct
    obtain ⟨leads, notNull, _⟩ := linked_append_singleton.mp linked
    obtain ⟨_, _, across⟩ := List.nodup_append.mp distinct
    rw [stored.head]
    apply linked_append_singleton.mpr
    refine ⟨leads_append.mpr ⟨node, leads.congr ?_, rfl, notNull, _, stored.next_self, rfl⟩, ?_, ?_⟩
    · intro other member
      exact stored.next_of_ne (across other member node List.mem_cons_self)
    · exact ne_null_of_keyAt behind.isPrivate.key
    · rw [stored.next_of_ne different, behind.newNext]
  have invariant' : ListInvariant ⟨before ++ [node] ++ [call.newNode], some node⟩ list' := by
    apply invariant.link placed stored.toRelinked linked
    · intro _ _ _ impossible
      cases impossible
    · intro other extended
      obtain rfl := Option.some.inj extended
      refine ⟨stored.tail.trans behind.tail, behind.holds.locked, before, call.newNode, ?_⟩
      rw [List.append_assoc]
      rfl
  refine ⟨_, invariant', ?_, ?_, fun _ own => Or.inl own, fun _ isHeld => Or.inl isHeld⟩
  · constructor
    · exact List.mem_append_right _ List.mem_cons_self
    · exact ⟨placed.kept node behind.holds.inside, stored.locked.mpr behind.holds.locked⟩
    · rfl
    · exact stored.next_self
  · apply placed.effect asserts stored.toRelinked
    · intro other target known free
      rw [stored.next_of_ne, known]
      rintro rfl
      exact free rfl
    · exact Or.inl stored.head
    · exact stored.tail
    · intro other free
      rw [notExtended]
      constructor
      · exact fun same => absurd same free
      · exact fun impossible => nomatch impossible

/-- A call that has linked its node in returns 1. -/
theorem Advances.returnsOne (advances : Advances place order list order' list' place')
    (inside : call.newNode ∈ order'.nodes) :
    Advances place order list order' (list'.returnsOne call).1 .idle := by
  obtain ⟨⟨linked, distinct, sorted, flags, inserted, last, beforeLast⟩, _, effect, _, _⟩ := advances
  constructor
  · refine ⟨linked, distinct, sorted, flags, ?_, last, beforeLast⟩
    exact List.forall_mem_cons.mpr ⟨inside, inserted⟩
  · trivial
  · exact ⟨effect.held, effect.kept, effect.fresh, effect.key, effect.next, effect.locked, effect.head,
      effect.tail, effect.extended⟩
  · exact fun _ own => nomatch own
  · exact fun _ isHeld => nomatch isHeld

theorem storeFirstHead_advances (invariant : ListInvariant order list)
    (asserts : AssertsAt order list call .storeFirstHead) :
    ∃ order', Advances (.inside call .storeFirstHead) order list order'
      (returnsOne { list with head := call.newNode } call).1 .idle := by
  have founds : Founds order list call := asserts
  have placed : Placed list order [] call.newNode [] :=
    ⟨founds.empty, founds.isPrivate.outside, (fun _ inside => nomatch inside),
      (fun _ inside => nomatch inside)⟩
  have relinked : Relinked list { list with head := call.newNode } := ⟨rfl, rfl, rfl, rfl⟩
  have invariant' : ListInvariant ⟨[call.newNode], order.extended⟩
      { list with head := call.newNode } := by
    apply invariant.link placed relinked
    · exact ⟨rfl, ne_null_of_keyAt founds.isPrivate.key, null, founds.next, rfl⟩
    · intro front other split _
      obtain ⟨_, same⟩ := List.append_inj' (show [] ++ [call.newNode] = front ++ [other] from split) rfl
      exact founds.tail.trans (List.cons.inj same).1
    · intro other extended
      obtain ⟨_, _, front, last, split⟩ := invariant.beforeLast other extended
      rw [founds.empty] at split
      have lengths := congrArg List.length split
      simp at lengths
  have advances : Advances (.inside call .storeFirstHead) order list ⟨[call.newNode], order.extended⟩
      { list with head := call.newNode } .idle := by
    refine ⟨invariant', trivial, ?_, (fun _ own => nomatch own), (fun _ isHeld => nomatch isHeld)⟩
    apply placed.effect asserts relinked
    · exact fun _ _ known _ => known
    · exact Or.inr (Or.inr ⟨founds.empty, founds.tail.symm⟩)
    · rfl
    · exact fun _ _ => Iff.rfl
  exact ⟨_, advances.returnsOne List.mem_cons_self⟩

/-- The first node of a list that is still empty. -/
theorem storeFirstTail_advances (invariant : ListInvariant order list)
    (asserts : AssertsAt order list call .storeFirstTail)
    (current : list.Current (.inside call .storeFirstTail)) :
    ∃ order', Advances (.inside call .storeFirstTail) order list order'
      { list with tail := call.newNode } (.inside call .storeFirstHead) := by
  have isPrivate : Private order list call := asserts
  obtain ⟨isNull, next⟩ := current
  have noneExtended : ∀ other, order.extended ≠ some other := by
    intro other extended
    obtain ⟨isTail, _, front, last, split⟩ := invariant.beforeLast other extended
    apply invariant.ne_null _ (isTail.symm.trans isNull)
    rw [split]
    exact List.mem_append_right _ List.mem_cons_self
  have empty : order.nodes = [] := by
    rcases List.eq_nil_or_concat order.nodes with empty | ⟨before, last, split⟩
    · exact empty
    · rw [List.concat_eq_append] at split
      have isTail := invariant.last before last split (Option.eq_none_iff_forall_ne_some.mpr noneExtended)
      apply absurd (isTail.symm.trans isNull)
      apply invariant.ne_null
      rw [split]
      exact List.mem_append_right _ List.mem_cons_self
  refine ⟨order, ?_, ?_, ?_, fun _ own => Or.inl own, fun _ isHeld => nomatch isHeld⟩
  · obtain ⟨linked, distinct, sorted, flags, inserted, _, _⟩ := invariant
    refine ⟨linked, distinct, sorted, flags, inserted, ?_, ?_⟩
    · intro before node split
      rw [empty] at split
      have lengths := congrArg List.length split
      simp at lengths
    · exact fun other extended => absurd extended (noneExtended other)
  · exact ⟨⟨isPrivate.key, isPrivate.outside⟩, empty, rfl, next⟩
  · have unchanged : Effect (.inside call .storeFirstTail) order list order list :=
      Effect.refl fun _ isHeld => nomatch isHeld
    exact ⟨unchanged.held, unchanged.kept, unchanged.fresh, unchanged.key, unchanged.next,
      unchanged.locked, unchanged.head, Or.inr (Or.inr isNull), unchanged.extended⟩

theorem storeTail_advances (invariant : ListInvariant order list)
    (asserts : AssertsAt order list call (.storeTail node)) :
    ∃ order', Advances (.inside call (.storeTail node)) order list order'
      { list with tail := call.newNode } (.inside call (.renewTail node)) := by
  have extending : Extends order list call node := asserts
  obtain ⟨isTail, locked, before, last, split⟩ := invariant.beforeLast node extending.extended
  have isLast : call.newNode = last := by
    have linked := invariant.linked
    rw [split] at linked
    obtain ⟨_, _, _, _, following, found, rest⟩ := leads_append.mp linked
    obtain rfl := Option.some.inj (extending.next.symm.trans found)
    exact rest.1
  refine ⟨⟨order.nodes, none⟩, ?_, ?_, ?_, fun _ own => Or.inl own, fun _ isHeld => Or.inl isHeld⟩
  · obtain ⟨linked, distinct, sorted, flags, inserted, _, _⟩ := invariant
    refine ⟨linked, distinct, sorted, flags, inserted, ?_, fun _ impossible => nomatch impossible⟩
    intro front other otherSplit _
    have both : before ++ [node] ++ [last] = front ++ [other] := by
      rw [List.append_assoc]
      exact split.symm.trans otherSplit
    obtain ⟨_, same⟩ := List.append_inj' both rfl
    exact isLast.trans (List.cons.inj same).1
  · exact ⟨extending.inside, ⟨extending.holds.inside, locked⟩, fun impossible => nomatch impossible⟩
  · have unchanged : Effect (.inside call (.storeTail node)) order list order list :=
      Effect.refl fun _ isHeld => (AssertsAt.holds asserts isHeld).inside
    refine ⟨unchanged.held, unchanged.kept, unchanged.fresh, unchanged.key, unchanged.next,
      unchanged.locked, unchanged.head, Or.inr (Or.inl (congrArg some isTail.symm)), ?_⟩
    intro other free
    rw [extending.extended]
    constructor
    · exact fun impossible => nomatch impossible
    · exact fun same => absurd same free

/-- A new flag for the node, which gives its old one up. -/
structure Renewed (list : LinkedlistDramCAS) (node : Ptr) (list' : LinkedlistDramCAS) : Prop where
  next : list'.nextAt = list.nextAt
  key : list'.keyAt = list.keyAt
  flag : ∀ other, other ≠ node → list'.flagAt other = list.flagAt other
  stored : ∀ flag value, list.flags.get? flag = some value → list'.flags.get? flag = some value
  own : ∀ flag, list'.flagAt node = some flag → ∃ value, list'.flags.get? flag = some value
  head : list'.head = list.head
  tail : list'.tail = list.tail
  inserted : list'.inserted = list.inserted

theorem renewFlag_some (renewed : list.renewFlag node = some list') : Renewed list node list' := by
  unfold renewFlag at renewed
  obtain ⟨contents, found, rest⟩ := Option.bind_eq_some_iff.mp renewed
  cases rest
  constructor
  · funext other
    rw [nextAt, nextAt, Heap.get?_set found]
    split
    · next same => rw [same, found]; rfl
    · rfl
  · funext other
    rw [keyAt, keyAt, Heap.get?_set found]
    split
    · next same => rw [same, found]; rfl
    · rfl
  · intro other different
    rw [flagAt, flagAt, Heap.get?_set found, if_neg different]
  · intro flag value stored
    rw [Heap.get?_push, if_neg (Heap.ne_fresh_of_get? stored), stored]
  · intro flag isFlag
    rw [flagAt, Heap.get?_set found, if_pos rfl] at isFlag
    obtain rfl := Option.some.inj isFlag
    exact ⟨0, by rw [Heap.get?_push, if_pos rfl]⟩
  · rfl
  · rfl
  · rfl

theorem Renewed.locked (renewed : Renewed list node list') {other : Ptr} (different : other ≠ node)
    (locked : list.Locked other) : list'.Locked other := by
  obtain ⟨flag, value, isFlag, stored, nonzero⟩ := locked
  exact ⟨flag, value, (renewed.flag other different).trans isFlag, renewed.stored _ _ stored, nonzero⟩

/-- A call gives the flag up that it has taken, and returns 1. -/
theorem renews (invariant : ListInvariant order list) (asserts : AssertsAt order list call pc)
    (inserted : Inserted order list call node) (held : pc.held = some node)
    (renewed : Renewed list node list') :
    Advances (.inside call pc) order list order (list'.returnsOne call).1 .idle := by
  have advances : Advances (.inside call pc) order list order list' .idle := by
    refine ⟨?_, trivial, ?_, (fun _ own => nomatch own), (fun _ isHeld => nomatch isHeld)⟩
    · constructor
      · rw [renewed.next, renewed.head]
        exact invariant.linked
      · exact invariant.distinct
      · have same : list'.KeysLe = list.KeysLe := by
          funext first second
          rw [KeysLe, KeysLe, renewed.key]
        rw [same]
        exact invariant.sorted
      · intro other flag isFlag
        by_cases same : other = node
        · rw [same] at isFlag
          exact renewed.own flag isFlag
        · rw [renewed.flag other same] at isFlag
          obtain ⟨value, stored⟩ := invariant.flags other flag isFlag
          exact ⟨value, renewed.stored _ _ stored⟩
      · rw [renewed.inserted]
        exact invariant.inserted
      · rw [renewed.tail]
        exact invariant.last
      · intro other extended
        obtain ⟨isTail, locked, split⟩ := invariant.beforeLast other extended
        refine ⟨renewed.tail.trans isTail, renewed.locked ?_ locked, split⟩
        rintro rfl
        exact inserted.notExtended extended
    · constructor
      · exact fun _ isHeld => (asserts.holds isHeld).inside
      · exact fun _ inside => inside
      · exact fun _ inside => Or.inl inside
      · intro other key known
        rw [renewed.key]
        exact known
      · intro other target known _ _
        rw [renewed.next]
        exact known
      · intro other locked free
        apply renewed.locked _ locked
        rintro rfl
        exact free held
      · exact Or.inl renewed.head
      · exact Or.inl renewed.tail
      · exact fun _ _ => Iff.rfl
  exact advances.returnsOne inserted.inside

/-! ### A new call -/

theorem get?_createNode {key : Key} {value : Value} {garbage : Ptr} {contents : LlDramNode}
    (stored : list.nodes.get? node = some contents) :
    (list.createNode key value garbage).nodes.get? node = some contents := by
  rw [createNode, Heap.get?_push, if_neg (Heap.ne_fresh_of_get? stored), stored]

theorem keyAt_createNode {key other : Key} {value : Value} {garbage : Ptr}
    (known : list.keyAt node = some other) :
    (list.createNode key value garbage).keyAt node = some other := by
  obtain ⟨contents, stored, same⟩ := Option.map_eq_some_iff.mp known
  rw [keyAt, get?_createNode stored, ← same]
  rfl

theorem nextAt_createNode {key : Key} {value : Value} {garbage target : Ptr}
    (known : list.nextAt node = some target) :
    (list.createNode key value garbage).nextAt node = some target := by
  obtain ⟨contents, stored, same⟩ := Option.map_eq_some_iff.mp known
  rw [nextAt, get?_createNode stored, ← same]
  rfl

theorem Locked.createNode {key : Key} {value : Value} {garbage : Ptr} (locked : list.Locked node) :
    (list.createNode key value garbage).Locked node := by
  obtain ⟨flag, stored, isFlag, inFlags, nonzero⟩ := locked
  obtain ⟨contents, inNodes, same⟩ := Option.map_eq_some_iff.mp isFlag
  refine ⟨flag, stored, ?_, ?_, nonzero⟩
  · rw [flagAt, get?_createNode inNodes, ← same]
    rfl
  · rw [LinkedlistDramCAS.createNode, Heap.get?_push, if_neg (Heap.ne_fresh_of_get? inFlags), inFlags]

theorem ListInvariant.createNode (invariant : ListInvariant order list) (key : Key) (value : Value)
    (garbage : Ptr) : ListInvariant order (list.createNode key value garbage) where
  linked := by
    apply invariant.linked.congr
    intro other inside
    obtain ⟨contents, stored⟩ := invariant.exists_next inside
    rw [nextAt, nextAt, get?_createNode stored, stored]
  distinct := invariant.distinct
  sorted := by
    apply invariant.sorted.imp
    rintro first second ⟨firstKey, secondKey, firstKnown, secondKnown, le⟩
    exact ⟨firstKey, secondKey, keyAt_createNode firstKnown, keyAt_createNode secondKnown, le⟩
  flags := by
    intro other flag isFlag
    rw [flagAt, LinkedlistDramCAS.createNode, Heap.get?_push] at isFlag
    rw [LinkedlistDramCAS.createNode, Heap.get?_push]
    split at isFlag
    · cases isFlag
      exact ⟨0, if_pos rfl⟩
    · obtain ⟨stored, inFlags⟩ := invariant.flags other flag isFlag
      exact ⟨stored, by rw [if_neg (Heap.ne_fresh_of_get? inFlags), inFlags]⟩
  inserted := invariant.inserted
  last := invariant.last
  beforeLast := by
    intro other extended
    obtain ⟨isTail, locked, split⟩ := invariant.beforeLast other extended
    exact ⟨isTail, locked.createNode, split⟩

theorem fresh_keyAt (list : LinkedlistDramCAS) : list.keyAt (list.nodes.size + 1) = none := by
  rw [keyAt, Option.map_eq_none_iff, Option.eq_none_iff_forall_ne_some]
  intro contents stored
  exact Heap.ne_fresh_of_get? stored rfl

theorem call_advances (invariant : ListInvariant order list) (key : Key) (value : Value)
    (garbage : Ptr) :
    Advances .idle order list order (list.createNode key value garbage)
      (.inside ⟨key, list.nodes.size + 1⟩ .testHead) := by
  constructor
  · exact invariant.createNode key value garbage
  · constructor
    · rw [keyAt, createNode, Heap.get?_push, if_pos rfl]
      rfl
    · intro inside
      obtain ⟨contents, stored⟩ := invariant.exists_next inside
      exact Heap.ne_fresh_of_get? stored rfl
  · constructor
    · exact fun _ isHeld => nomatch isHeld
    · exact fun _ inside => inside
    · exact fun _ inside => Or.inl inside
    · exact fun _ _ known => keyAt_createNode known
    · exact fun _ _ known _ _ => nextAt_createNode known
    · exact fun _ locked _ => locked.createNode
    · exact Or.inl rfl
    · exact Or.inl rfl
    · exact fun _ _ => Iff.rfl
  · intro other own
    obtain rfl := Option.some.inj own
    exact Or.inr (fresh_keyAt list)
  · exact fun _ isHeld => nomatch isHeld

/-! ### All accesses -/

theorem ne_null_of_nextAt {target : Ptr} (known : list.nextAt node = some target) : node ≠ null := by
  intro isNull
  rw [isNull] at known
  cases known

theorem ListInvariant.head_mem (invariant : ListInvariant order list) :
    list.head = null ∨ list.head ∈ order.nodes := by
  rw [invariant.linked.eq_headD]
  cases order.nodes with
  | nil => exact Or.inl rfl
  | cons head rest => exact Or.inr List.mem_cons_self

/-- `tail` points to the last node, unless to the last but one. -/
theorem ListInvariant.tail_last (invariant : ListInvariant order list) (nonempty : order.nodes ≠ [])
    (notExtended : order.extended ≠ some list.tail) :
    list.tail ∈ order.nodes ∧ list.nextAt list.tail = some null := by
  have extended : order.extended = none := by
    cases isExtended : order.extended with
    | none => rfl
    | some other =>
        rw [isExtended, (invariant.beforeLast other isExtended).1] at notExtended
        exact absurd rfl notExtended
  obtain ⟨before, last, split⟩ := (List.eq_nil_or_concat order.nodes).resolve_left nonempty
  rw [List.concat_eq_append] at split
  have linked := invariant.linked
  rw [split] at linked
  rw [invariant.last before last split extended, split]
  constructor
  · exact List.mem_append_right _ List.mem_cons_self
  · exact (linked_append_singleton.mp linked).2.2

theorem ListInvariant.next_mem (invariant : ListInvariant order list) (inside : node ∈ order.nodes)
    {target : Ptr} (known : list.nextAt node = some target) :
    target = null ∨ target ∈ order.nodes := by
  obtain ⟨before, after, split⟩ := List.append_of_mem inside
  have linked := invariant.linked
  rw [split] at linked
  obtain ⟨_, _, _, _, following, found, rest⟩ := leads_append.mp linked
  obtain rfl := Option.some.inj (known.symm.trans found)
  rw [split]
  cases after with
  | nil => exact Or.inl rest
  | cons other after =>
      obtain rfl : target = other := rest.1
      exact Or.inr (List.mem_append_right _ (List.mem_cons_of_mem _ List.mem_cons_self))

/-- One access of a call with a current view. -/
theorem access_advances (invariant : ListInvariant order list)
    (asserts : AssertsAt order list call pc) (current : list.Current (.inside call pc))
    (acted : list.act call pc = some (list', place')) :
    ∃ order', Advances (.inside call pc) order list order' list' place' := by
  cases pc with
  | testHead =>
      simp only [act] at acted
      split at acted
      · cases acted
        exact ⟨order, loads invariant asserts asserts rfl⟩
      · next notNull =>
          cases acted
          have isPrivate : Private order list call := asserts
          have nonempty : order.nodes ≠ [] := by
            rw [Ne, ← invariant.head_eq_null_iff]
            exact notNull
          exact ⟨order, loads invariant asserts ⟨isPrivate, nonempty⟩ rfl⟩
  | storeFirstTail =>
      cases acted
      exact storeFirstTail_advances invariant asserts current
  | storeFirstHead =>
      cases acted
      exact storeFirstHead_advances invariant asserts
  | loadHead | loadPrevHead | loadFlagHead prevHead | loadTail | loadPrevTail | loadFlagTail prevTail =>
      cases acted
      exact ⟨order, loads invariant asserts asserts rfl⟩
  | compareHead head =>
      obtain ⟨key, _, rest⟩ := Option.bind_eq_some_iff.mp acted
      split at rest
      · cases rest
        exact ⟨order, loads invariant asserts asserts rfl⟩
      · cases rest
        exact ⟨order, loads invariant asserts asserts rfl⟩
  | compareTail tail =>
      obtain ⟨key, _, rest⟩ := Option.bind_eq_some_iff.mp acted
      split at rest
      · cases rest
        exact ⟨order, loads invariant asserts asserts rfl⟩
      · cases rest
        exact ⟨order, loads invariant asserts asserts rfl⟩
  | loadHeadFlag prevHead head =>
      obtain ⟨flag, _, rest⟩ := Option.bind_eq_some_iff.mp acted
      cases rest
      exact ⟨order, loads invariant asserts asserts rfl⟩
  | loadTailFlag prevTail tail =>
      obtain ⟨flag, _, rest⟩ := Option.bind_eq_some_iff.mp acted
      cases rest
      exact ⟨order, loads invariant asserts asserts rfl⟩
  | casHead prevHead flag =>
      obtain ⟨⟨raceResult, swapped⟩, swap, rest⟩ := Option.bind_eq_some_iff.mp acted
      rcases compareAndSwap_cases swap with ⟨free, rfl, rfl⟩ | ⟨rfl, rfl⟩
      · cases rest
        obtain ⟨head, isFlag, key⟩ := current free
        have isPrivate : Private order list call := asserts.toPrivate
        have inside : prevHead ∈ order.nodes := by
          obtain ⟨_, known, _⟩ := key
          rw [← head] at known ⊢
          exact invariant.head_mem.resolve_left (ne_null_of_keyAt known)
        refine ⟨order, takes invariant asserts isFlag free ?_ rfl⟩
        constructor
        · exact ⟨isPrivate.key, isPrivate.outside⟩
        · exact ⟨inside, locked_taken isFlag free⟩
        · exact invariant.notExtended_of_free isFlag free
        · exact head
        · exact key
      · cases rest
        exact ⟨order, returnsZero invariant asserts⟩
  | casTail prevTail flag =>
      obtain ⟨⟨raceResult, swapped⟩, swap, rest⟩ := Option.bind_eq_some_iff.mp acted
      rcases compareAndSwap_cases swap with ⟨free, rfl, rfl⟩ | ⟨rfl, rfl⟩
      · cases rest
        obtain ⟨tail, isFlag, key, newNext⟩ := current free
        have isPrivate : Private order list call := asserts.toPrivate
        have notExtended := invariant.notExtended_of_free isFlag free
        obtain ⟨inside, lastNext⟩ := invariant.tail_last asserts.nonempty (tail ▸ notExtended)
        rw [tail] at inside lastNext
        refine ⟨order, takes invariant asserts isFlag free ?_ rfl⟩
        constructor
        · exact ⟨isPrivate.key, isPrivate.outside⟩
        · exact ⟨inside, locked_taken isFlag free⟩
        · exact notExtended
        · exact tail
        · exact lastNext
        · exact newNext
        · exact key
      · cases rest
        exact ⟨order, returnsZero invariant asserts⟩
  | casTemp temp nextNode flag =>
      obtain ⟨⟨raceResult, swapped⟩, swap, rest⟩ := Option.bind_eq_some_iff.mp acted
      have passed : Passed order list call temp := asserts
      rcases compareAndSwap_cases swap with ⟨free, rfl, rfl⟩ | ⟨rfl, rfl⟩
      · cases rest
        obtain ⟨next, isFlag, key⟩ := current free
        refine ⟨order, takes invariant asserts isFlag free ?_ rfl⟩
        constructor
        · exact ⟨⟨passed.isPrivate.key, passed.isPrivate.outside⟩, passed.inside, passed.key⟩
        · exact ⟨passed.inside, locked_taken isFlag free⟩
        · exact invariant.notExtended_of_free isFlag free
        · exact next
        · exact key
      · cases rest
        exact ⟨order, loads invariant asserts ⟨passed.isPrivate, passed.inside⟩ rfl⟩
  | loadNewNext prevHead =>
      cases acted
      exact ⟨order, loads invariant asserts ⟨asserts, asserts.head⟩ rfl⟩
  | storeNewNext prevHead head =>
      obtain ⟨stored, setNext, rest⟩ := Option.bind_eq_some_iff.mp acted
      cases rest
      have before : BeforeHead order list call prevHead := asserts.1
      have nextStored := setNext_some setNext
      rw [asserts.2] at nextStored
      exact ⟨order, storesPrivate invariant asserts before.isPrivate nextStored
        ⟨before.stored nextStored, nextStored.next_self⟩ rfl⟩
  | storeHead prevHead =>
      cases acted
      exact storeHead_advances invariant asserts
  | renewHead prevHead =>
      obtain ⟨stored, renewed, rest⟩ := Option.bind_eq_some_iff.mp acted
      cases rest
      exact ⟨order, renews invariant asserts asserts rfl (renewFlag_some renewed)⟩
  | loadLast prevTail =>
      cases acted
      exact ⟨order, loads invariant asserts ⟨asserts, asserts.tail⟩ rfl⟩
  | storeLastNext prevTail tail =>
      obtain ⟨stored, setNext, rest⟩ := Option.bind_eq_some_iff.mp acted
      cases rest
      obtain rfl : tail = prevTail := asserts.2
      exact storeLastNext_advances invariant asserts (setNext_some setNext)
  | storeTail prevTail =>
      cases acted
      exact storeTail_advances invariant asserts
  | renewTail prevTail =>
      obtain ⟨stored, renewed, rest⟩ := Option.bind_eq_some_iff.mp acted
      cases rest
      exact ⟨order, renews invariant asserts asserts rfl (renewFlag_some renewed)⟩
  | loadTemp =>
      cases acted
      exact ⟨order, loads invariant asserts ⟨asserts.toPrivate, invariant.head_mem⟩ rfl⟩
  | testNext temp =>
      obtain ⟨next, known, rest⟩ := Option.bind_eq_some_iff.mp acted
      split at rest
      · cases rest
        have inside := asserts.2.resolve_left (ne_null_of_nextAt known)
        exact ⟨order, loads invariant asserts ⟨asserts.1, inside⟩ rfl⟩
      · cases rest
        exact ⟨order, returnsZero invariant asserts⟩
  | compareTemp temp =>
      obtain ⟨key, known, rest⟩ := Option.bind_eq_some_iff.mp acted
      split at rest
      · next atMost =>
          cases rest
          exact ⟨order, loads invariant asserts ⟨asserts.1, asserts.2, key, known, atMost⟩ rfl⟩
      · cases rest
        exact ⟨order, loads invariant asserts asserts rfl⟩
  | loadTempNext temp =>
      obtain ⟨next, _, rest⟩ := Option.bind_eq_some_iff.mp acted
      cases rest
      exact ⟨order, loads invariant asserts asserts rfl⟩
  | compareNext temp next =>
      obtain ⟨key, _, rest⟩ := Option.bind_eq_some_iff.mp acted
      have passed : Passed order list call temp := asserts
      split at rest
      · cases rest
        exact ⟨order, loads invariant asserts asserts rfl⟩
      · cases rest
        exact ⟨order, loads invariant asserts ⟨passed.isPrivate, passed.inside⟩ rfl⟩
  | loadNextNode temp =>
      obtain ⟨next, _, rest⟩ := Option.bind_eq_some_iff.mp acted
      cases rest
      exact ⟨order, loads invariant asserts asserts rfl⟩
  | loadTempFlag temp nextNode =>
      obtain ⟨flag, _, rest⟩ := Option.bind_eq_some_iff.mp acted
      cases rest
      exact ⟨order, loads invariant asserts asserts rfl⟩
  | storeNextNode temp nextNode =>
      obtain ⟨stored, setNext, rest⟩ := Option.bind_eq_some_iff.mp acted
      cases rest
      have between : Between order list call temp nextNode := asserts
      have nextStored := setNext_some setNext
      exact ⟨order, storesPrivate invariant asserts between.passed.isPrivate nextStored
        ⟨nextNode, between.stored nextStored, nextStored.next_self⟩ rfl⟩
  | storeTempNext temp =>
      obtain ⟨stored, setNext, rest⟩ := Option.bind_eq_some_iff.mp acted
      cases rest
      exact storeTempNext_advances invariant asserts (setNext_some setNext)
  | renewTemp temp =>
      obtain ⟨stored, renewed, rest⟩ := Option.bind_eq_some_iff.mp acted
      cases rest
      exact ⟨order, renews invariant asserts asserts rfl (renewFlag_some renewed)⟩
  | advance temp =>
      obtain ⟨next, known, rest⟩ := Option.bind_eq_some_iff.mp acted
      cases rest
      exact ⟨order, loads invariant asserts ⟨asserts.1, invariant.next_mem asserts.2 known⟩ rfl⟩

/-- The outline is sound for steps with a current view. -/
theorem outline_sound :
    outline.Sound fun list place list' place' => list.Current place ∧ Act list place list' place' := by
  intro order list place list' place' invariant asserts acted
  obtain ⟨current, acted⟩ := acted
  cases acted with
  | call key value garbage =>
      have advances := call_advances invariant key value garbage
      exact ⟨order, advances.invariant, advances.asserts, fun _ otherAsserts apart =>
        advances.others invariant otherAsserts apart⟩
  | access acted =>
      obtain ⟨order', advances⟩ := access_advances invariant asserts current acted
      exact ⟨order', advances.invariant, advances.asserts, fun _ otherAsserts apart =>
        advances.others invariant otherAsserts apart⟩

end StoredsBench.LinkedlistDramCAS
