/-
Module: StoredsBench.Linkedlist.DramCasOutline
Layer: Correctness
Purpose: The proof outline of `LinkedlistDram_CAS::insert`.  Its ghost value is the order of the nodes
  in the list.  The flag of a node is a lock for its `next` member and for `head` or `tail` where they
  point to it, as long as whoever takes it has a `Current` view of what it protects.
Trusted boundary: none
Main exports: Current, Order, ListInvariant, AssertsAt, outline, Effect, Effect.stable
-/
import StoredsBench.Linkedlist.DramCas
import StoredsBench.Lib.LinkedList

namespace StoredsBench.LinkedlistDramCAS

open Lib

/-! ### Places -/

/-- The node whose flag a call has taken. -/
def Pc.held : Pc → Option Ptr
  | .loadNewNext prevHead | .storeNewNext prevHead _ | .storeHead prevHead | .renewHead prevHead =>
      some prevHead
  | .loadLast prevTail | .storeLastNext prevTail _ | .storeTail prevTail | .renewTail prevTail =>
      some prevTail
  | .storeNextNode temp _ | .storeTempNext temp | .renewTemp temp => some temp
  | _ => none

def Place.held : Place → Option Ptr
  | .idle => none
  | .inside _ pc => pc.held

def Place.newNode : Place → Option Ptr
  | .idle => none
  | .inside call _ => some call.newNode

/-- Two threads have different nodes, new ones and ones whose flags they have taken. -/
structure Apart (first second : Place) : Prop where
  newNode : ∀ node, first.newNode = some node → second.newNode ≠ some node
  held : ∀ node, first.held = some node → second.held ≠ some node

theorem Apart.symm {first second : Place} (apart : Apart first second) : Apart second first where
  newNode := fun node isSecond isFirst => apart.newNode node isFirst isSecond
  held := fun node isSecond isFirst => apart.held node isFirst isSecond

/-! ### The list -/

section List

variable (list : LinkedlistDramCAS)

/-- The flag of the node is taken. -/
def Locked (node : Ptr) : Prop :=
  ∃ flag value, list.flagAt node = some flag ∧ list.flags.get? flag = some value ∧ value ≠ 0

/-- The keys of the nodes are in order. -/
def KeysLe (first second : Ptr) : Prop :=
  ∃ firstKey secondKey, list.keyAt first = some firstKey ∧ list.keyAt second = some secondKey ∧
    firstKey ≤ secondKey

/-- What a call has read still holds where it relies on it: the first node goes into an empty list; a
flag that a call takes is the one of `prev_head`, `prev_tail` or `temp`, which `head`, `tail` or
`next_node` still belong to; and its key still belongs there.  A node that becomes the last one has
a null pointer from `malloc`. -/
def Current : Place → Prop
  | .inside call .storeFirstTail => list.tail = null ∧ list.nextAt call.newNode = some null
  | .inside call (.casHead prevHead flag) =>
      list.flags.get? flag = some 0 →
        list.head = prevHead ∧ list.flagAt prevHead = some flag ∧
          ∃ key, list.keyAt prevHead = some key ∧ call.uint64Key < key
  | .inside call (.casTail prevTail flag) =>
      list.flags.get? flag = some 0 →
        list.tail = prevTail ∧ list.flagAt prevTail = some flag ∧
          (∃ key, list.keyAt prevTail = some key ∧ call.uint64Key > key) ∧
          list.nextAt call.newNode = some null
  | .inside call (.casTemp temp nextNode flag) =>
      list.flags.get? flag = some 0 →
        list.nextAt temp = some nextNode ∧ list.flagAt temp = some flag ∧
          ∃ key, list.keyAt nextNode = some key ∧ key ≥ call.uint64Key
  | _ => True

end List

/-- The nodes of the list in order, and the last but one of them as long as `tail` points to it. -/
structure Order where
  nodes : List Ptr
  extended : Option Ptr

/-- What holds of the list whenever no step is under way. -/
structure ListInvariant (order : Order) (list : LinkedlistDramCAS) : Prop where
  linked : Linked list.nextAt list.head order.nodes
  distinct : order.nodes.Nodup
  sorted : order.nodes.Pairwise list.KeysLe
  flags : ∀ node flag, list.flagAt node = some flag → ∃ value, list.flags.get? flag = some value
  inserted : ∀ node ∈ list.inserted, node ∈ order.nodes
  last : ∀ before node, order.nodes = before ++ [node] → order.extended = none → list.tail = node
  beforeLast : ∀ node, order.extended = some node →
    list.tail = node ∧ list.Locked node ∧ ∃ before last, order.nodes = before ++ [node, last]

/-! ### Assertions -/

section Assertions

variable (order : Order) (list : LinkedlistDramCAS) (call : Call)

/-- The new node has its key and is not in the list yet. -/
structure Private : Prop where
  key : list.keyAt call.newNode = some call.uint64Key
  outside : call.newNode ∉ order.nodes

/-- So it is while the call looks at a list that has nodes. -/
structure Searches : Prop extends Private order list call where
  nonempty : order.nodes ≠ []

/-- The call has taken the flag of a node of the list. -/
structure Holds (node : Ptr) : Prop where
  inside : node ∈ order.nodes
  locked : list.Locked node

/-- The list is empty, and `tail` points to the new node already. -/
structure Founds : Prop where
  isPrivate : Private order list call
  empty : order.nodes = []
  tail : list.tail = call.newNode
  next : list.nextAt call.newNode = some null

/-- The new node belongs before `head`. -/
structure BeforeHead (prevHead : Ptr) : Prop where
  isPrivate : Private order list call
  holds : Holds order list prevHead
  notExtended : order.extended ≠ some prevHead
  head : list.head = prevHead
  key : ∃ key, list.keyAt prevHead = some key ∧ call.uint64Key < key

/-- The new node belongs behind `tail`. -/
structure BehindTail (prevTail : Ptr) : Prop where
  isPrivate : Private order list call
  holds : Holds order list prevTail
  notExtended : order.extended ≠ some prevTail
  tail : list.tail = prevTail
  lastNext : list.nextAt prevTail = some null
  newNext : list.nextAt call.newNode = some null
  key : ∃ key, list.keyAt prevTail = some key ∧ call.uint64Key > key

/-- The search has come to a node of the list; its key is not above that of the call. -/
structure Passed (temp : Ptr) : Prop where
  isPrivate : Private order list call
  inside : temp ∈ order.nodes
  key : ∃ key, list.keyAt temp = some key ∧ key ≤ call.uint64Key

/-- The new node belongs between `temp` and `next_node`. -/
structure Between (temp nextNode : Ptr) : Prop where
  passed : Passed order list call temp
  holds : Holds order list temp
  notExtended : order.extended ≠ some temp
  next : list.nextAt temp = some nextNode
  key : ∃ key, list.keyAt nextNode = some key ∧ key ≥ call.uint64Key

/-- The new node is the last one, but `tail` does not point to it yet. -/
structure Extends (prevTail : Ptr) : Prop where
  inside : call.newNode ∈ order.nodes
  holds : Holds order list prevTail
  extended : order.extended = some prevTail
  next : list.nextAt prevTail = some call.newNode

/-- The new node is in the list. -/
structure Inserted (node : Ptr) : Prop where
  inside : call.newNode ∈ order.nodes
  holds : Holds order list node
  notExtended : order.extended ≠ some node

/-- What holds before an access of a call. -/
def AssertsAt : Pc → Prop
  | .testHead | .storeFirstTail => Private order list call
  | .storeFirstHead => Founds order list call
  | .loadHead | .compareHead _ | .loadPrevHead | .loadFlagHead _ | .loadHeadFlag _ _ | .casHead _ _ =>
      Searches order list call
  | .loadNewNext prevHead => BeforeHead order list call prevHead
  | .storeNewNext prevHead head => BeforeHead order list call prevHead ∧ head = prevHead
  | .storeHead prevHead =>
      BeforeHead order list call prevHead ∧ list.nextAt call.newNode = some prevHead
  | .loadTail | .compareTail _ | .loadPrevTail | .loadFlagTail _ | .loadTailFlag _ _ | .casTail _ _ =>
      Searches order list call
  | .loadLast prevTail => BehindTail order list call prevTail
  | .storeLastNext prevTail tail => BehindTail order list call prevTail ∧ tail = prevTail
  | .storeTail prevTail => Extends order list call prevTail
  | .loadTemp => Searches order list call
  | .testNext temp => Private order list call ∧ (temp = null ∨ temp ∈ order.nodes)
  | .compareTemp temp | .advance temp => Private order list call ∧ temp ∈ order.nodes
  | .loadTempNext temp | .compareNext temp _ | .loadNextNode temp | .loadTempFlag temp _
  | .casTemp temp _ _ => Passed order list call temp
  | .storeNextNode temp nextNode => Between order list call temp nextNode
  | .storeTempNext temp =>
      ∃ nextNode, Between order list call temp nextNode ∧ list.nextAt call.newNode = some nextNode
  | .renewHead node | .renewTail node | .renewTemp node => Inserted order list call node

def Asserts : Place → Prop
  | .idle => True
  | .inside call pc => AssertsAt order list call pc

end Assertions

/-- The proof outline of `insert`. -/
def outline : Outline Order LinkedlistDramCAS Place where
  Invariant := ListInvariant
  Asserts := Asserts
  Apart := Apart

/-! ### Nodes -/

section Nodes

variable {order : Order} {list : LinkedlistDramCAS} {node : Ptr}

theorem ne_null_of_keyAt {key : Key} (known : list.keyAt node = some key) : node ≠ null := by
  intro isNull
  rw [isNull] at known
  cases known

theorem ListInvariant.ne_null (invariant : ListInvariant order list) (inside : node ∈ order.nodes) :
    node ≠ null :=
  invariant.linked.ne_null node inside

theorem ListInvariant.head_eq_null_iff (invariant : ListInvariant order list) :
    list.head = null ↔ order.nodes = [] := by
  have first := invariant.linked.eq_headD
  constructor
  · intro isNull
    cases nodes : order.nodes with
    | nil => rfl
    | cons head rest =>
        have inside : head ∈ order.nodes := by
          rw [nodes]
          exact List.mem_cons_self
        rw [nodes, isNull] at first
        exact absurd first.symm (invariant.ne_null inside)
  · intro empty
    rw [empty] at first
    exact first

end Nodes

/-! ### Interference -/

/-- What a step from `place` may do to the memory that others see. -/
structure Effect (place : Place) (order : Order) (list : LinkedlistDramCAS) (order' : Order)
    (list' : LinkedlistDramCAS) : Prop where
  held : ∀ node, place.held = some node → node ∈ order.nodes
  kept : ∀ node ∈ order.nodes, node ∈ order'.nodes
  fresh : ∀ node ∈ order'.nodes, node ∈ order.nodes ∨ place.newNode = some node
  key : ∀ node key, list.keyAt node = some key → list'.keyAt node = some key
  next : ∀ node target, list.nextAt node = some target → place.held ≠ some node →
    (place.newNode = some node → node ∈ order.nodes) → list'.nextAt node = some target
  locked : ∀ node, list.Locked node → place.held ≠ some node → list'.Locked node
  head : list'.head = list.head ∨ place.held = some list.head ∨
    order.nodes = [] ∧ place.newNode = some list.tail
  tail : list'.tail = list.tail ∨ place.held = some list.tail ∨ list.tail = null
  extended : ∀ node, place.held ≠ some node →
    (order'.extended = some node ↔ order.extended = some node)

namespace Effect

variable {place : Place} {order order' : Order} {list list' : LinkedlistDramCAS} {call : Call}
variable {node : Ptr}

theorem keyBound (effect : Effect place order list order' list') {bound : Key → Prop}
    (known : ∃ key, list.keyAt node = some key ∧ bound key) :
    ∃ key, list'.keyAt node = some key ∧ bound key := by
  obtain ⟨key, keyEq, bounded⟩ := known
  exact ⟨key, effect.key node key keyEq, bounded⟩

theorem isPrivate (effect : Effect place order list order' list')
    (other : place.newNode ≠ some call.newNode) (asserts : Private order list call) :
    Private order' list' call := by
  constructor
  · exact effect.key _ _ asserts.key
  · intro inside
    rcases effect.fresh _ inside with before | own
    · exact asserts.outside before
    · exact other own

theorem searches (effect : Effect place order list order' list')
    (other : place.newNode ≠ some call.newNode) (asserts : Searches order list call) :
    Searches order' list' call where
  toPrivate := effect.isPrivate other asserts.toPrivate
  nonempty := by
    obtain ⟨node, inside⟩ := List.exists_mem_of_ne_nil _ asserts.nonempty
    exact List.ne_nil_of_mem (effect.kept node inside)

/-- Nobody else writes to a node that is not in the list. -/
theorem privateNext (effect : Effect place order list order' list')
    (other : place.newNode ≠ some call.newNode) (asserts : Private order list call) {target : Ptr}
    (next : list.nextAt call.newNode = some target) : list'.nextAt call.newNode = some target := by
  apply effect.next _ _ next
  · intro isHeld
    exact asserts.outside (effect.held _ isHeld)
  · intro own
    exact absurd own other

theorem listNext (effect : Effect place order list order' list') (free : place.held ≠ some node)
    (inside : node ∈ order.nodes) {target : Ptr} (next : list.nextAt node = some target) :
    list'.nextAt node = some target :=
  effect.next _ _ next free fun _ => inside

theorem holds (effect : Effect place order list order' list') (free : place.held ≠ some node)
    (asserts : Holds order list node) : Holds order' list' node where
  inside := effect.kept _ asserts.inside
  locked := effect.locked _ asserts.locked free

theorem notExtended (effect : Effect place order list order' list') (free : place.held ≠ some node)
    (asserts : order.extended ≠ some node) : order'.extended ≠ some node := by
  rw [Ne, effect.extended node free]
  exact asserts

theorem founds (effect : Effect place order list order' list') (invariant : ListInvariant order list)
    (invariant' : ListInvariant order' list') (other : place.newNode ≠ some call.newNode)
    (asserts : Founds order list call) : Founds order' list' call := by
  obtain ⟨isPrivate, empty, tail, next⟩ := asserts
  have nothingHeld : ∀ node, place.held ≠ some node := by
    intro node isHeld
    have inside := effect.held node isHeld
    rw [empty] at inside
    cases inside
  have headKept : list'.head = list.head := by
    rcases effect.head with same | isHeld | ⟨_, own⟩
    · exact same
    · exact absurd isHeld (nothingHeld _)
    · rw [tail] at own
      exact absurd own other
  have tailKept : list'.tail = list.tail := by
    rcases effect.tail with same | isHeld | isNull
    · exact same
    · exact absurd isHeld (nothingHeld _)
    · exact absurd (tail.symm.trans isNull) (ne_null_of_keyAt isPrivate.key)
  constructor
  · exact effect.isPrivate other isPrivate
  · rw [← invariant'.head_eq_null_iff, headKept, invariant.head_eq_null_iff]
    exact empty
  · exact tailKept.trans tail
  · exact effect.privateNext other isPrivate next

theorem beforeHead (effect : Effect place order list order' list')
    (other : place.newNode ≠ some call.newNode) (free : place.held ≠ some node)
    (asserts : BeforeHead order list call node) : BeforeHead order' list' call node := by
  obtain ⟨isPrivate, holds, notExtended, head, key⟩ := asserts
  constructor
  · exact effect.isPrivate other isPrivate
  · exact effect.holds free holds
  · exact effect.notExtended free notExtended
  · rcases effect.head with same | isHeld | ⟨empty, _⟩
    · exact same.trans head
    · rw [head] at isHeld
      exact absurd isHeld free
    · have inside := holds.inside
      rw [empty] at inside
      cases inside
  · exact effect.keyBound key

theorem behindTail (effect : Effect place order list order' list')
    (invariant : ListInvariant order list) (other : place.newNode ≠ some call.newNode)
    (free : place.held ≠ some node) (asserts : BehindTail order list call node) :
    BehindTail order' list' call node := by
  obtain ⟨isPrivate, holds, notExtended, tail, lastNext, newNext, key⟩ := asserts
  constructor
  · exact effect.isPrivate other isPrivate
  · exact effect.holds free holds
  · exact effect.notExtended free notExtended
  · rcases effect.tail with same | isHeld | isNull
    · exact same.trans tail
    · rw [tail] at isHeld
      exact absurd isHeld free
    · exact absurd (tail.symm.trans isNull) (invariant.ne_null holds.inside)
  · exact effect.listNext free holds.inside lastNext
  · exact effect.privateNext other isPrivate newNext
  · exact effect.keyBound key

theorem passed (effect : Effect place order list order' list')
    (other : place.newNode ≠ some call.newNode) (asserts : Passed order list call node) :
    Passed order' list' call node where
  isPrivate := effect.isPrivate other asserts.isPrivate
  inside := effect.kept _ asserts.inside
  key := effect.keyBound asserts.key

theorem between (effect : Effect place order list order' list')
    (other : place.newNode ≠ some call.newNode) (free : place.held ≠ some node) {nextNode : Ptr}
    (asserts : Between order list call node nextNode) : Between order' list' call node nextNode where
  passed := effect.passed other asserts.passed
  holds := effect.holds free asserts.holds
  notExtended := effect.notExtended free asserts.notExtended
  next := effect.listNext free asserts.holds.inside asserts.next
  key := effect.keyBound asserts.key

theorem extending (effect : Effect place order list order' list') (free : place.held ≠ some node)
    (asserts : Extends order list call node) : Extends order' list' call node where
  inside := effect.kept _ asserts.inside
  holds := effect.holds free asserts.holds
  extended := (effect.extended node free).mpr asserts.extended
  next := effect.listNext free asserts.holds.inside asserts.next

theorem inserted (effect : Effect place order list order' list') (free : place.held ≠ some node)
    (asserts : Inserted order list call node) : Inserted order' list' call node where
  inside := effect.kept _ asserts.inside
  holds := effect.holds free asserts.holds
  notExtended := effect.notExtended free asserts.notExtended

/-- A step does not interfere with what holds where another thread is. -/
theorem stable (effect : Effect place order list order' list') (invariant : ListInvariant order list)
    (invariant' : ListInvariant order' list') {pc : Pc} (asserts : AssertsAt order list call pc)
    (other : place.newNode ≠ some call.newNode)
    (free : ∀ node, pc.held = some node → place.held ≠ some node) :
    AssertsAt order' list' call pc := by
  cases pc with
  | testHead | storeFirstTail => exact effect.isPrivate other asserts
  | loadHead | loadPrevHead | loadTail | loadPrevTail | loadTemp => exact effect.searches other asserts
  | compareHead _ | loadFlagHead _ | compareTail _ | loadFlagTail _ =>
      exact effect.searches other asserts
  | loadHeadFlag _ _ | casHead _ _ | loadTailFlag _ _ | casTail _ _ =>
      exact effect.searches other asserts
  | storeFirstHead => exact effect.founds invariant invariant' other asserts
  | loadNewNext prevHead => exact effect.beforeHead other (free prevHead rfl) asserts
  | storeNewNext prevHead head =>
      exact ⟨effect.beforeHead other (free prevHead rfl) asserts.1, asserts.2⟩
  | storeHead prevHead =>
      exact ⟨effect.beforeHead other (free prevHead rfl) asserts.1,
        effect.privateNext other asserts.1.isPrivate asserts.2⟩
  | loadLast prevTail => exact effect.behindTail invariant other (free prevTail rfl) asserts
  | storeLastNext prevTail tail =>
      exact ⟨effect.behindTail invariant other (free prevTail rfl) asserts.1, asserts.2⟩
  | storeTail prevTail => exact effect.extending (free prevTail rfl) asserts
  | testNext temp => exact ⟨effect.isPrivate other asserts.1, asserts.2.imp_right (effect.kept _)⟩
  | compareTemp temp | advance temp =>
      exact ⟨effect.isPrivate other asserts.1, effect.kept _ asserts.2⟩
  | loadTempNext temp | compareNext temp _ | loadNextNode temp => exact effect.passed other asserts
  | loadTempFlag temp _ | casTemp temp _ _ => exact effect.passed other asserts
  | storeNextNode temp nextNode => exact effect.between other (free temp rfl) asserts
  | storeTempNext temp =>
      obtain ⟨nextNode, between, next⟩ := asserts
      exact ⟨nextNode, effect.between other (free temp rfl) between,
        effect.privateNext other between.passed.isPrivate next⟩
  | renewHead node | renewTail node | renewTemp node => exact effect.inserted (free node rfl) asserts

end Effect

end StoredsBench.LinkedlistDramCAS
