/-
Module: StoredsBench.Linkedlist.DramCasAlone
Layer: Correctness
Purpose: `LinkedlistDram_CAS::insert` without interference, in the lists that earlier such inserts leave.
  `malloc` decides what the last node points to, so a list is taken from `head` to `tail` here.
Trusted boundary: none
Main exports: Alone, InsertsAlone, Sequential, AddsNode, Admits, insert_alone_iff
-/
import StoredsBench.Linkedlist.DramCasSteps

namespace StoredsBench.LinkedlistDramCAS

open Lib

variable {list list' final : LinkedlistDramCAS} {call : Call} {place : Place} {node : Ptr}

/-! ### Inserts one after another -/

/-- A call goes on to its end while no other thread takes a step. -/
inductive Alone : LinkedlistDramCAS → Place → LinkedlistDramCAS → Prop where
  | returned (list : LinkedlistDramCAS) : Alone list .idle list
  | access {list list' final : LinkedlistDramCAS} {call : Call} {pc : Pc} {place : Place} :
      list.act call pc = some (list', place) → Alone list' place final →
      Alone list (.inside call pc) final

/-- A call of `insert` from its beginning to its end. -/
def InsertsAlone (list : LinkedlistDramCAS) (key : Key) (value : Value) (garbage : Ptr)
    (final : LinkedlistDramCAS) : Prop :=
  Alone (list.createNode key value garbage) (.inside ⟨key, list.nodes.size + 1⟩ .testHead) final

/-- The lists that inserts one after another produce. -/
inductive Sequential : LinkedlistDramCAS → Prop where
  | init : Sequential init
  | insert {list final : LinkedlistDramCAS} {key : Key} {value : Value} {garbage : Ptr} :
      Sequential list → InsertsAlone list key value garbage final → Sequential final

/-- The nodes from `head` to `tail`. -/
def Members (list : LinkedlistDramCAS) (members : List Ptr) : Prop :=
  members = [] ∧ list.head = null ∧ list.tail = null ∨
    ∃ front, members = front ++ [list.tail] ∧ Leads list.nextAt list.tail list.head front ∧
      list.tail ≠ null

/-- `insert` ends and returns 1, and leaves a sorted list that ends with a null pointer and has the new
node besides the ones from before. -/
def AddsNode (list : LinkedlistDramCAS) (key : Key) (value : Value) (garbage : Ptr) : Prop :=
  ∃ final before after, InsertsAlone list key value garbage final ∧
    final.inserted = (list.nodes.size + 1) :: list.inserted ∧
    list.Members (before ++ after) ∧ (before ++ after).Nodup ∧
    Linked final.nextAt final.head (before ++ (list.nodes.size + 1) :: after) ∧
    (before ++ (list.nodes.size + 1) :: after).Pairwise final.KeysLe ∧
    final.keyAt (list.nodes.size + 1) = some key ∧
    ∀ node ∈ before ++ after, final.keyAt node = list.keyAt node

/-- The node that becomes or stays the last one has a null pointer from `malloc`, and the list does not
consist of one node with the same key. -/
def Admits (list : LinkedlistDramCAS) (key : Key) (garbage : Ptr) : Prop :=
  (list.head = null ∨ (∃ last, list.keyAt list.tail = some last ∧ key > last)) ∧ garbage = null ∨
    list.head ≠ null ∧ (∃ last, list.keyAt list.tail = some last ∧ ¬ key > last) ∧
      list.nextAt list.tail = some null ∧ ¬ (list.head = list.tail ∧ list.keyAt list.head = some key)

/-! ### Lists at rest -/

/-- Nobody holds a flag, and every node has its own. -/
structure FlagsFree (list : LinkedlistDramCAS) : Prop where
  free : ∀ node flag, list.flagAt node = some flag → list.flags.get? flag = some 0
  own : ∀ node other flag, list.flagAt node = some flag → list.flagAt other = some flag → node = other

/-- A list between two calls. -/
structure Resting (members : List Ptr) (list : LinkedlistDramCAS) : Prop where
  path : list.Members members
  distinct : members.Nodup
  sorted : members.Pairwise list.KeysLe
  keyed : ∀ node ∈ members, ∃ key, list.keyAt node = some key
  flags : FlagsFree list

theorem resting_init : Resting [] init where
  path := Or.inl ⟨rfl, rfl, rfl⟩
  distinct := List.nodup_nil
  sorted := List.Pairwise.nil
  keyed := by
    intro node member
    cases member
  flags := by
    constructor
    · intro node flag isFlag
      rw [flagAt, init, Heap.get?_empty] at isFlag
      cases isFlag
    · intro node other flag isFlag
      rw [flagAt, init, Heap.get?_empty] at isFlag
      cases isFlag

theorem Alone.unique {first second : LinkedlistDramCAS} (alone : Alone list place first)
    (other : Alone list place second) : first = second := by
  induction alone with
  | returned =>
      cases other
      rfl
  | access acted _ inductionHypothesis =>
      cases other with
      | access otherActed rest =>
          have same := Option.some.inj (acted.symm.trans otherActed)
          cases same
          exact inductionHypothesis rest

/-- One node gets a flag that no other has. -/
theorem flagsFree_of_fresh {fresh : Ptr} (own : final.flagAt node = some fresh)
    (freshFree : final.flags.get? fresh = some 0)
    (others : ∀ other flag, other ≠ node → final.flagAt other = some flag →
      flag ≠ fresh ∧ final.flags.get? flag = some 0)
    (distinct : ∀ first second flag, first ≠ node → second ≠ node → final.flagAt first = some flag →
      final.flagAt second = some flag → first = second) : FlagsFree final := by
  constructor
  · intro other flag isFlag
    by_cases same : other = node
    · rw [same, own] at isFlag
      cases isFlag
      exact freshFree
    · exact (others other flag same isFlag).2
  · intro first second flag isFirst isSecond
    by_cases firstSame : first = node
    · by_cases secondSame : second = node
      · exact firstSame.trans secondSame.symm
      · rw [firstSame, own] at isFirst
        exact absurd (Option.some.inj isFirst).symm (others second flag secondSame isSecond).1
    · by_cases secondSame : second = node
      · rw [secondSame, own] at isSecond
        exact absurd (Option.some.inj isSecond).symm (others first flag firstSame isFirst).1
      · exact distinct first second flag firstSame secondSame isFirst isSecond

theorem Alone.access_iff {pc : Pc} (acted : list.act call pc = some (list', place)) :
    Alone list (.inside call pc) final ↔ Alone list' place final := by
  constructor
  · intro alone
    cases alone with
    | access otherActed rest =>
        cases Option.some.inj (acted.symm.trans otherActed)
        exact rest
  · exact .access acted

theorem FlagsFree.createNode (flags : FlagsFree list) (key : Key) (value : Value) (garbage : Ptr) :
    FlagsFree (list.createNode key value garbage) := by
  have others : ∀ other, other ≠ list.nodes.size + 1 →
      (list.createNode key value garbage).flagAt other = list.flagAt other := by
    intro other different
    rw [flagAt, LinkedlistDramCAS.createNode, Heap.get?_push, if_neg different]
    rfl
  apply flagsFree_of_fresh
  · rw [flagAt, LinkedlistDramCAS.createNode, Heap.get?_push, if_pos rfl]
    rfl
  · rw [LinkedlistDramCAS.createNode, Heap.get?_push, if_pos rfl]
  · intro other flag different isFlag
    rw [others other different] at isFlag
    have stored := flags.free other flag isFlag
    have notFresh := Heap.ne_fresh_of_get? stored
    exact ⟨notFresh, by rw [LinkedlistDramCAS.createNode, Heap.get?_push, if_neg notFresh, stored]⟩
  · intro first second flag firstDifferent secondDifferent isFirst isSecond
    rw [others first firstDifferent] at isFirst
    rw [others second secondDifferent] at isSecond
    exact flags.own first second flag isFirst isSecond

/-- A flag that was taken and given up again. -/
theorem FlagsFree.renewed {flag : Ptr} (flags : FlagsFree list) (isFlag : list.flagAt node = some flag)
    (sameFlag : list'.flagAt = list.flagAt) (taken : list'.flags = list.flags.set flag 1)
    (renewed : list'.renewFlag node = some final) : FlagsFree final := by
  unfold renewFlag at renewed
  obtain ⟨contents, found, rest⟩ := Option.bind_eq_some_iff.mp renewed
  cases rest
  have isFree := flags.free node flag isFlag
  have others : ∀ other otherFlag, other ≠ node → list.flagAt other = some otherFlag →
      otherFlag ≠ list'.flags.size + 1 ∧ (list'.flags.push 0).get? otherFlag = some 0 := by
    intro other otherFlag different isOther
    have notTaken : otherFlag ≠ flag := by
      rintro rfl
      exact different (flags.own other node otherFlag isOther isFlag)
    have stored : list'.flags.get? otherFlag = some 0 := by
      rw [taken, Heap.get?_set isFree, if_neg notTaken]
      exact flags.free other otherFlag isOther
    have notFresh := Heap.ne_fresh_of_get? stored
    exact ⟨notFresh, by rw [Heap.get?_push, if_neg notFresh, stored]⟩
  have otherFlags : ∀ other, other ≠ node →
      (list'.nodes.set node { contents with flag := list'.flags.size + 1 }).get? other =
        list'.nodes.get? other := by
    intro other different
    rw [Heap.get?_set found, if_neg different]
  apply flagsFree_of_fresh
  · rw [flagAt, Heap.get?_set found, if_pos rfl]
    rfl
  · rw [Heap.get?_push, if_pos rfl]
  · intro other otherFlag different isOther
    rw [flagAt, otherFlags other different] at isOther
    exact others other otherFlag different (sameFlag ▸ isOther)
  · intro first second otherFlag firstDifferent secondDifferent isFirst isSecond
    rw [flagAt, otherFlags first firstDifferent] at isFirst
    rw [flagAt, otherFlags second secondDifferent] at isSecond
    exact flags.own first second otherFlag (sameFlag ▸ isFirst) (sameFlag ▸ isSecond)

/-! ### The branches -/

theorem compareAndSwap_free {flag : Ptr} (free : list.flags.get? flag = some 0) :
    list.compareAndSwap flag = some (true, list.taken flag) := by
  rw [compareAndSwap, free]
  rfl

theorem exists_setNext {target : Ptr} (known : list.nextAt node = some target) (next : Ptr) :
    ∃ list', list.setNext node next = some list' := by
  obtain ⟨contents, stored, _⟩ := Option.map_eq_some_iff.mp known
  exact ⟨_, by rw [setNext, stored]; rfl⟩

theorem exists_renewFlag {flag : Ptr} (known : list.flagAt node = some flag) :
    ∃ list', list.renewFlag node = some list' := by
  obtain ⟨contents, stored, _⟩ := Option.map_eq_some_iff.mp known
  exact ⟨_, by rw [renewFlag, stored]; rfl⟩

theorem exists_flag {key : Key} (known : list.keyAt node = some key) :
    ∃ flag, list.flagAt node = some flag := by
  obtain ⟨contents, stored, _⟩ := Option.map_eq_some_iff.mp known
  exact ⟨contents.flag, by rw [flagAt, stored]; rfl⟩

theorem exists_next {key : Key} (known : list.keyAt node = some key) :
    ∃ next, list.nextAt node = some next := by
  obtain ⟨contents, stored, _⟩ := Option.map_eq_some_iff.mp known
  exact ⟨contents.next, by rw [nextAt, stored]; rfl⟩

/-- What an insert that returns 1 leaves besides its links. -/
structure Outcome (list : LinkedlistDramCAS) (newNode : Ptr) (final : LinkedlistDramCAS) : Prop where
  key : final.keyAt = list.keyAt
  inserted : final.inserted = newNode :: list.inserted
  flags : FlagsFree final

/-- The first node. -/
theorem first_runs (flags : FlagsFree list) (isNull : list.head = null) :
    ∃ final, Alone list (.inside call .testHead) final ∧ Outcome list call.newNode final ∧
      final.head = call.newNode ∧ final.tail = call.newNode ∧ final.nextAt = list.nextAt := by
  have tested : list.act call .testHead = some (list, .inside call .storeFirstTail) := if_pos isNull
  have run := Alone.access tested (.access rfl (.access rfl (.returned _)))
  exact ⟨_, run, ⟨rfl, rfl, ⟨flags.free, flags.own⟩⟩, rfl, rfl, rfl⟩

/-- The last access gives the flag up. -/
theorem renew_runs {flag : Ptr} {pc : Pc} (flags : FlagsFree list)
    (isFlag : list.flagAt node = some flag) (relinked : Relinked (list.taken flag) list')
    (renews : list'.act call pc = (list'.renewFlag node).bind fun renewed => some (renewed.returnsOne call)) :
    ∃ final, Alone list' (.inside call pc) final ∧ Outcome list call.newNode final ∧
      final.head = list'.head ∧ final.tail = list'.tail ∧ final.nextAt = list'.nextAt := by
  have hasFlag : list'.flagAt node = some flag := by
    rw [relinked.flag]
    exact isFlag
  obtain ⟨renewed, renewedEq⟩ := exists_renewFlag hasFlag
  have facts := renewFlag_some renewedEq
  rw [renewedEq] at renews
  have freeAgain := flags.renewed isFlag relinked.flag relinked.flags renewedEq
  refine ⟨_, .access renews (.returned _), ⟨?_, ?_, ⟨freeAgain.free, freeAgain.own⟩⟩, ?_, ?_, ?_⟩
  · exact facts.key.trans relinked.key
  · exact congrArg _ (facts.inserted.trans relinked.inserted)
  · exact facts.head
  · exact facts.tail
  · exact facts.next

/-- Before the head. -/
theorem front_runs (flags : FlagsFree list) {headKey newKey : Key}
    (known : list.keyAt list.head = some headKey) (below : call.uint64Key < headKey)
    (newKnown : list.keyAt call.newNode = some newKey) :
    ∃ final, Alone list (.inside call .testHead) final ∧ Outcome list call.newNode final ∧
      final.head = call.newNode ∧ final.tail = list.tail ∧
      ∀ other, final.nextAt other =
        if other = call.newNode then some list.head else list.nextAt other := by
  obtain ⟨flag, isFlag⟩ := exists_flag known
  obtain ⟨garbage, newNext⟩ := exists_next newKnown
  have free := flags.free _ flag isFlag
  have tested : list.act call .testHead = some (list, .inside call .loadHead) :=
    if_neg (ne_null_of_keyAt known)
  have compared : list.act call (.compareHead list.head) = some (list, .inside call .loadPrevHead) := by
    rw [act, known]
    exact if_pos below
  have loaded : list.act call (.loadHeadFlag list.head list.head) =
      some (list, .inside call (.casHead list.head flag)) := by
    rw [act, isFlag]
    rfl
  have swapped : list.act call (.casHead list.head flag) =
      some (list.taken flag, .inside call (.loadNewNext list.head)) := by
    rw [act, compareAndSwap_free free]
    rfl
  have hasNext : (list.taken flag).nextAt call.newNode = some garbage := newNext
  obtain ⟨linked, linkedEq⟩ := exists_setNext hasNext list.head
  have stored := setNext_some linkedEq
  have storedStep : (list.taken flag).act call (.storeNewNext list.head list.head) =
      some (linked, .inside call (.storeHead list.head)) := by
    rw [act, linkedEq]
    rfl
  have relinked : Relinked (list.taken flag) { linked with head := call.newNode } :=
    ⟨stored.key, stored.flag, stored.flags, stored.inserted⟩
  obtain ⟨final, run, outcome, head, tail, next⟩ :=
    renew_runs flags isFlag relinked (rfl : act _ call (.renewHead list.head) = _)
  refine ⟨final, ?_, outcome, head, tail.trans stored.tail, ?_⟩
  · exact .access tested (.access rfl (.access compared (.access rfl (.access rfl (.access loaded
      (.access swapped (.access rfl (.access storedStep (.access rfl run)))))))))
  · intro other
    rw [next]
    exact stored.next other

/-- Behind the tail. -/
theorem behind_runs (flags : FlagsFree list) {headKey lastKey : Key}
    (headKnown : list.keyAt list.head = some headKey) (notBelow : ¬ call.uint64Key < headKey)
    (known : list.keyAt list.tail = some lastKey) (above : call.uint64Key > lastKey) :
    ∃ final, Alone list (.inside call .testHead) final ∧ Outcome list call.newNode final ∧
      final.head = list.head ∧ final.tail = call.newNode ∧
      ∀ other, final.nextAt other =
        if other = list.tail then some call.newNode else list.nextAt other := by
  obtain ⟨flag, isFlag⟩ := exists_flag known
  obtain ⟨lastNext, lastNextEq⟩ := exists_next known
  have free := flags.free _ flag isFlag
  have tested : list.act call .testHead = some (list, .inside call .loadHead) :=
    if_neg (ne_null_of_keyAt headKnown)
  have compared : list.act call (.compareHead list.head) = some (list, .inside call .loadTail) := by
    rw [act, headKnown]
    exact if_neg notBelow
  have comparedTail : list.act call (.compareTail list.tail) =
      some (list, .inside call .loadPrevTail) := by
    rw [act, known]
    exact if_pos above
  have loaded : list.act call (.loadTailFlag list.tail list.tail) =
      some (list, .inside call (.casTail list.tail flag)) := by
    rw [act, isFlag]
    rfl
  have swapped : list.act call (.casTail list.tail flag) =
      some (list.taken flag, .inside call (.loadLast list.tail)) := by
    rw [act, compareAndSwap_free free]
    rfl
  have hasNext : (list.taken flag).nextAt list.tail = some lastNext := lastNextEq
  obtain ⟨linked, linkedEq⟩ := exists_setNext hasNext call.newNode
  have stored := setNext_some linkedEq
  have storedStep : (list.taken flag).act call (.storeLastNext list.tail list.tail) =
      some (linked, .inside call (.storeTail list.tail)) := by
    rw [act, linkedEq]
    rfl
  have relinked : Relinked (list.taken flag) { linked with tail := call.newNode } :=
    ⟨stored.key, stored.flag, stored.flags, stored.inserted⟩
  obtain ⟨final, run, outcome, head, tail, next⟩ :=
    renew_runs flags isFlag relinked (rfl : act _ call (.renewTail list.tail) = _)
  refine ⟨final, ?_, outcome, head.trans stored.head, tail, ?_⟩
  · exact .access tested (.access rfl (.access compared (.access rfl (.access comparedTail (.access rfl
      (.access rfl (.access loaded (.access swapped (.access rfl (.access storedStep
        (.access rfl run)))))))))))
  · intro other
    rw [next]
    exact stored.next other

/-- Between two nodes: the call has taken the flag of the first one. -/
theorem between_runs {flag nextNode : Ptr} (flags : FlagsFree list)
    (isFlag : list.flagAt node = some flag) (next : list.nextAt node = some nextNode)
    {garbage : Ptr} (newNext : list.nextAt call.newNode = some garbage) :
    ∃ final, Alone (list.taken flag) (.inside call (.storeNextNode node nextNode)) final ∧
      Outcome list call.newNode final ∧ final.head = list.head ∧ final.tail = list.tail ∧
      ∀ other, final.nextAt other =
        if other = node then some call.newNode
        else if other = call.newNode then some nextNode else list.nextAt other := by
  have hasNext : (list.taken flag).nextAt call.newNode = some garbage := newNext
  obtain ⟨first, firstEq⟩ := exists_setNext hasNext nextNode
  have firstStored := setNext_some firstEq
  obtain ⟨between, betweenEq⟩ : ∃ between, first.nextAt node = some between := by
    rw [firstStored.next]
    split
    · exact ⟨_, rfl⟩
    · exact ⟨_, next⟩
  obtain ⟨second, secondEq⟩ := exists_setNext betweenEq call.newNode
  have secondStored := setNext_some secondEq
  have firstStep : (list.taken flag).act call (.storeNextNode node nextNode) =
      some (first, .inside call (.storeTempNext node)) := by
    rw [act, firstEq]
    rfl
  have secondStep : first.act call (.storeTempNext node) = some (second, .inside call (.renewTemp node)) := by
    rw [act, secondEq]
    rfl
  have relinked : Relinked (list.taken flag) second :=
    ⟨secondStored.key.trans firstStored.key, secondStored.flag.trans firstStored.flag,
      secondStored.flags.trans firstStored.flags, secondStored.inserted.trans firstStored.inserted⟩
  obtain ⟨final, run, outcome, head, tail, nextEq⟩ :=
    renew_runs flags isFlag relinked (rfl : act _ call (.renewTemp node) = _)
  refine ⟨final, .access firstStep (.access secondStep run), outcome,
    head.trans (secondStored.head.trans firstStored.head),
    tail.trans (secondStored.tail.trans firstStored.tail), ?_⟩
  intro other
  rw [nextEq, secondStored.next, firstStored.next]
  rfl

/-! ### The search -/

/-- Between the keys of `head` and `tail` an insert searches from `head` on. -/
theorem search_starts_iff {headKey lastKey : Key} (headKnown : list.keyAt list.head = some headKey)
    (notBelow : ¬ call.uint64Key < headKey) (lastKnown : list.keyAt list.tail = some lastKey)
    (notAbove : ¬ call.uint64Key > lastKey) :
    Alone list (.inside call .testHead) final ↔ Alone list (.inside call (.testNext list.head)) final := by
  have tested : list.act call .testHead = some (list, .inside call .loadHead) :=
    if_neg (ne_null_of_keyAt headKnown)
  have loaded : list.act call .loadHead = some (list, .inside call (.compareHead list.head)) := rfl
  have compared : list.act call (.compareHead list.head) = some (list, .inside call .loadTail) := by
    rw [act, headKnown]
    exact if_neg notBelow
  have loadedTail : list.act call .loadTail = some (list, .inside call (.compareTail list.tail)) := rfl
  have comparedTail : list.act call (.compareTail list.tail) = some (list, .inside call .loadTemp) := by
    rw [act, lastKnown]
    exact if_neg notAbove
  have loadedTemp : list.act call .loadTemp = some (list, .inside call (.testNext list.head)) := rfl
  rw [Alone.access_iff tested, Alone.access_iff loaded, Alone.access_iff compared,
    Alone.access_iff loadedTail, Alone.access_iff comparedTail, Alone.access_iff loadedTemp]

/-- One round of the loop that ends in front of a key not below that of the call. -/
theorem search_here {flag next : Ptr} {key nextKey : Key} (flags : FlagsFree list)
    (isFlag : list.flagAt node = some flag) (isNext : list.nextAt node = some next)
    (known : list.keyAt node = some key) (atMost : key ≤ call.uint64Key)
    (nextKnown : list.keyAt next = some nextKey) (atLeast : nextKey ≥ call.uint64Key)
    (run : Alone (list.taken flag) (.inside call (.storeNextNode node next)) final) :
    Alone list (.inside call (.testNext node)) final := by
  have tested : list.act call (.testNext node) = some (list, .inside call (.compareTemp node)) := by
    rw [act, isNext]
    exact if_pos (ne_null_of_keyAt nextKnown)
  have compared : list.act call (.compareTemp node) = some (list, .inside call (.loadTempNext node)) := by
    rw [act, known]
    exact if_pos atMost
  have loaded : list.act call (.loadTempNext node) =
      some (list, .inside call (.compareNext node next)) := by
    rw [act, isNext]
    rfl
  have comparedNext : list.act call (.compareNext node next) =
      some (list, .inside call (.loadNextNode node)) := by
    rw [act, nextKnown]
    exact if_pos atLeast
  have loadedNext : list.act call (.loadNextNode node) =
      some (list, .inside call (.loadTempFlag node next)) := by
    rw [act, isNext]
    rfl
  have loadedFlag : list.act call (.loadTempFlag node next) =
      some (list, .inside call (.casTemp node next flag)) := by
    rw [act, isFlag]
    rfl
  have swapped : list.act call (.casTemp node next flag) =
      some (list.taken flag, .inside call (.storeNextNode node next)) := by
    rw [act, compareAndSwap_free (flags.free node flag isFlag)]
    rfl
  exact .access tested (.access compared (.access loaded (.access comparedNext (.access loadedNext
    (.access loadedFlag (.access swapped run))))))

/-- One round that goes on. -/
theorem search_further {next : Ptr} {key nextKey : Key} (isNext : list.nextAt node = some next)
    (known : list.keyAt node = some key) (atMost : key ≤ call.uint64Key)
    (nextKnown : list.keyAt next = some nextKey) (below : ¬ nextKey ≥ call.uint64Key)
    (run : Alone list (.inside call (.testNext next)) final) :
    Alone list (.inside call (.testNext node)) final := by
  have tested : list.act call (.testNext node) = some (list, .inside call (.compareTemp node)) := by
    rw [act, isNext]
    exact if_pos (ne_null_of_keyAt nextKnown)
  have compared : list.act call (.compareTemp node) = some (list, .inside call (.loadTempNext node)) := by
    rw [act, known]
    exact if_pos atMost
  have loaded : list.act call (.loadTempNext node) =
      some (list, .inside call (.compareNext node next)) := by
    rw [act, isNext]
    rfl
  have comparedNext : list.act call (.compareNext node next) =
      some (list, .inside call (.advance node)) := by
    rw [act, nextKnown]
    exact if_neg below
  have advanced : list.act call (.advance node) = some (list, .inside call (.testNext next)) := by
    rw [act, isNext]
    rfl
  exact .access tested (.access compared (.access loaded (.access comparedNext (.access advanced run))))

/-- The place of a key among the nodes from `temp` to `tail`. -/
structure Found (list : LinkedlistDramCAS) (call : Call) (temp : Ptr) (members : List Ptr)
    (before : List Ptr) (first second : Ptr) (after : List Ptr) : Prop where
  split : members = before ++ first :: second :: after
  next : list.nextAt first = some second
  firstKey : ∃ key, list.keyAt first = some key ∧ key ≤ call.uint64Key
  secondKey : ∃ key, list.keyAt second = some key ∧ call.uint64Key ≤ key
  reached : ∃ flag, list.flagAt first = some flag ∧ ∀ final,
    Alone (list.taken flag) (.inside call (.storeNextNode first second)) final →
      Alone list (.inside call (.testNext temp)) final

/-- From a key that is not above to the tail, whose key is not below, the search finds a place. -/
theorem search_finds {front : List Ptr} {temp : Ptr} {tempKey lastKey : Key} (flags : FlagsFree list)
    (leads : Leads list.nextAt list.tail temp front) (apart : front ≠ [])
    (keyed : ∀ member ∈ front, ∃ key, list.keyAt member = some key)
    (known : list.keyAt temp = some tempKey) (atMost : tempKey ≤ call.uint64Key)
    (lastKnown : list.keyAt list.tail = some lastKey) (upTo : call.uint64Key ≤ lastKey) :
    ∃ before first second after,
      Found list call temp (front ++ [list.tail]) before first second after := by
  induction front generalizing temp tempKey with
  | nil => exact absurd rfl apart
  | cons head rest inductionHypothesis =>
      obtain ⟨rfl, _, next, isNext, restLeads⟩ := leads
      obtain ⟨nextKey, nextKnown⟩ : ∃ key, list.keyAt next = some key := by
        cases rest with
        | nil =>
            obtain rfl : next = list.tail := restLeads
            exact ⟨lastKey, lastKnown⟩
        | cons other rest =>
            obtain rfl : next = other := restLeads.1
            exact keyed next (List.mem_cons_of_mem _ List.mem_cons_self)
      obtain ⟨after, members⟩ : ∃ after, rest ++ [list.tail] = next :: after := by
        cases rest with
        | nil =>
            obtain rfl : next = list.tail := restLeads
            exact ⟨[], rfl⟩
        | cons other rest =>
            obtain rfl : next = other := restLeads.1
            exact ⟨rest ++ [list.tail], rfl⟩
      by_cases atLeast : nextKey ≥ call.uint64Key
      · obtain ⟨flag, isFlag⟩ := exists_flag known
        refine ⟨[], temp, next, after, ?_, isNext, ⟨tempKey, known, atMost⟩, ⟨nextKey, nextKnown, atLeast⟩,
          flag, isFlag, ?_⟩
        · rw [List.cons_append, members]
          rfl
        · intro final run
          exact search_here flags isFlag isNext known atMost nextKnown atLeast run
      · have restApart : rest ≠ [] := by
          rintro rfl
          obtain rfl : next = list.tail := restLeads
          rw [lastKnown] at nextKnown
          cases nextKnown
          exact atLeast upTo
        obtain ⟨before, first, second, behind, found⟩ := inductionHypothesis restLeads restApart
          (fun member inside => keyed member (List.mem_cons_of_mem _ inside)) nextKnown
          (le_of_lt (not_le.mp atLeast))
        obtain ⟨flag, isFlag, reached⟩ := found.reached
        refine ⟨temp :: before, first, second, behind, ?_, found.next, found.firstKey, found.secondKey,
          flag, isFlag, ?_⟩
        · rw [List.cons_append, found.split]
          rfl
        · intro final run
          exact search_further isNext known atMost nextKnown atLeast (reached final run)

/-- What the search has loaded, as long as nobody stores. -/
def Loaded (list : LinkedlistDramCAS) : Pc → Prop
  | .testNext _ | .compareTemp _ | .loadTempNext _ | .advance _ => True
  | .compareNext temp next => list.nextAt temp = some next
  | .loadNextNode temp =>
      ∃ next, list.nextAt temp = some next ∧ ∃ key, list.keyAt next = some key
  | .loadTempFlag temp nextNode =>
      list.nextAt temp = some nextNode ∧ ∃ key, list.keyAt nextNode = some key
  | .casTemp temp nextNode flag =>
      (list.nextAt temp = some nextNode ∧ ∃ key, list.keyAt nextNode = some key) ∧
        list.flagAt temp = some flag
  | _ => False

/-- The search goes on without a store, or gives up, or has taken a flag. -/
theorem Loaded.cases {pc : Pc} (loaded : Loaded list pc) (flags : FlagsFree list)
    (acted : list.act call pc = some (list', place)) :
    list' = list ∧ (place = .idle ∨ ∃ pc', place = .inside call pc' ∧ Loaded list pc') ∨
      ∃ temp next flag, list' = list.taken flag ∧ place = .inside call (.storeNextNode temp next) ∧
        list.flagAt temp = some flag ∧ list.nextAt temp = some next ∧
        ∃ key, list.keyAt next = some key := by
  cases pc with
  | testNext temp =>
      obtain ⟨next, _, rest⟩ := Option.bind_eq_some_iff.mp acted
      split at rest
      · cases rest
        exact Or.inl ⟨rfl, Or.inr ⟨_, rfl, trivial⟩⟩
      · cases rest
        exact Or.inl ⟨rfl, Or.inl rfl⟩
  | compareTemp temp =>
      obtain ⟨key, _, rest⟩ := Option.bind_eq_some_iff.mp acted
      split at rest
      · cases rest
        exact Or.inl ⟨rfl, Or.inr ⟨_, rfl, trivial⟩⟩
      · cases rest
        exact Or.inl ⟨rfl, Or.inr ⟨_, rfl, trivial⟩⟩
  | loadTempNext temp =>
      obtain ⟨next, known, rest⟩ := Option.bind_eq_some_iff.mp acted
      cases rest
      exact Or.inl ⟨rfl, Or.inr ⟨_, rfl, known⟩⟩
  | compareNext temp next =>
      obtain ⟨key, known, rest⟩ := Option.bind_eq_some_iff.mp acted
      split at rest
      · cases rest
        exact Or.inl ⟨rfl, Or.inr ⟨_, rfl, next, loaded, key, known⟩⟩
      · cases rest
        exact Or.inl ⟨rfl, Or.inr ⟨_, rfl, trivial⟩⟩
  | loadNextNode temp =>
      obtain ⟨next, known, rest⟩ := Option.bind_eq_some_iff.mp acted
      cases rest
      obtain ⟨other, otherKnown, key⟩ := loaded
      cases Option.some.inj (known.symm.trans otherKnown)
      exact Or.inl ⟨rfl, Or.inr ⟨_, rfl, known, key⟩⟩
  | loadTempFlag temp next =>
      obtain ⟨flag, known, rest⟩ := Option.bind_eq_some_iff.mp acted
      cases rest
      exact Or.inl ⟨rfl, Or.inr ⟨_, rfl, loaded, known⟩⟩
  | casTemp temp next flag =>
      obtain ⟨⟨nextKnown, key⟩, flagKnown⟩ := loaded
      rw [act, compareAndSwap_free (flags.free temp flag flagKnown)] at acted
      cases acted
      exact Or.inr ⟨temp, next, flag, rfl, rfl, flagKnown, nextKnown, key⟩
  | advance temp =>
      obtain ⟨next, _, rest⟩ := Option.bind_eq_some_iff.mp acted
      cases rest
      exact Or.inl ⟨rfl, Or.inr ⟨_, rfl, trivial⟩⟩
  | _ => exact loaded.elim

/-- A search that ends has stored nothing, or it has put the new node before another one. -/
theorem search_ends {pc : Pc} {garbage : Ptr} (alone : Alone list (.inside call pc) final)
    (loaded : Loaded list pc) (flags : FlagsFree list)
    (newNext : list.nextAt call.newNode = some garbage) :
    final = list ∨ ∃ temp next, next ≠ null ∧ Outcome list call.newNode final ∧
      final.head = list.head ∧ final.tail = list.tail ∧
      ∀ other, final.nextAt other =
        if other = temp then some call.newNode
        else if other = call.newNode then some next else list.nextAt other := by
  generalize placeEq : Place.inside call pc = place at alone
  induction alone generalizing pc with
  | returned => cases placeEq
  | access acted rest inductionHypothesis =>
      cases placeEq
      rcases loaded.cases flags acted with ⟨rfl, isIdle | ⟨pc', isInside, loadedNext⟩⟩ | taken
      · rw [isIdle] at rest
        cases rest
        exact Or.inl rfl
      · exact inductionHypothesis loadedNext flags newNext isInside.symm
      · obtain ⟨temp, next, flag, rfl, rfl, isFlag, isNext, key, known⟩ := taken
        obtain ⟨other, run, outcome, head, tail, links⟩ := between_runs flags isFlag isNext newNext
        cases rest.unique run
        exact Or.inr ⟨temp, next, ne_null_of_keyAt known, outcome, head, tail, links⟩

/-! ### Lists after an insert -/

section Inserts

variable {members before after : List Ptr} {garbage : Ptr}

theorem keysLe_congr (same : final.keyAt = list.keyAt) : final.KeysLe = list.KeysLe := by
  funext first second
  rw [KeysLe, KeysLe, same]

/-- What is left to show of a list that a node was linked into. -/
theorem Resting.inserted (resting : Resting (before ++ after) list) (outcome : Outcome list node final)
    (outside : node ∉ before ++ after) {key : Key} (known : list.keyAt node = some key)
    (path : final.Members (before ++ node :: after)) (below : ∀ other ∈ before, list.KeysLe other node)
    (above : ∀ other ∈ after, list.KeysLe node other) : Resting (before ++ node :: after) final where
  path := path
  distinct := by
    rw [List.perm_middle.nodup_iff]
    exact List.nodup_cons.mpr ⟨outside, resting.distinct⟩
  sorted := by
    rw [keysLe_congr outcome.key]
    exact pairwise_insert resting.sorted below above
  keyed := by
    rw [outcome.key]
    intro other inside
    rcases List.mem_append.mp inside with front | back
    · exact resting.keyed other (List.mem_append_left _ front)
    · rcases List.mem_cons.mp back with rfl | later
      · exact ⟨key, known⟩
      · exact resting.keyed other (List.mem_append_right _ later)
  flags := outcome.flags

/-- An insert that a list at rest admits, whatever its last node points to. -/
structure Inserts (list : LinkedlistDramCAS) (call : Call) (members : List Ptr)
    (final : LinkedlistDramCAS) (before after : List Ptr) : Prop where
  run : Alone list (.inside call .testHead) final
  split : members = before ++ after
  resting : Resting (before ++ call.newNode :: after) final
  outcome : Outcome list call.newNode final

theorem first_inserts (resting : Resting [] list) (known : list.keyAt call.newNode = some call.uint64Key)
    (isNull : list.head = null) : ∃ final, Inserts list call [] final [] [] ∧
      final.tail = call.newNode ∧ final.nextAt = list.nextAt := by
  obtain ⟨final, run, outcome, head, tail, next⟩ := first_runs resting.flags isNull
  refine ⟨final, ⟨run, rfl, ?_, outcome⟩, tail, next⟩
  apply resting.inserted outcome List.not_mem_nil known
  · refine Or.inr ⟨[], by rw [tail], ?_, ?_⟩
    · rw [head, tail]
      rfl
    · rw [tail]
      exact ne_null_of_keyAt known
  · exact fun _ inside => nomatch inside
  · exact fun _ inside => nomatch inside

theorem front_inserts {front : List Ptr} {headKey : Key} (resting : Resting (front ++ [list.tail]) list)
    (leads : Leads list.nextAt list.tail list.head front) (tailNotNull : list.tail ≠ null)
    (known : list.keyAt call.newNode = some call.uint64Key)
    (outside : call.newNode ∉ front ++ [list.tail]) (headKnown : list.keyAt list.head = some headKey)
    (below : call.uint64Key < headKey) :
    ∃ final, Inserts list call (front ++ [list.tail]) final [] (front ++ [list.tail]) ∧
      final.tail = list.tail ∧ final.nextAt list.tail = list.nextAt list.tail := by
  obtain ⟨final, run, outcome, head, tail, next⟩ := front_runs resting.flags headKnown below known
  have apart : ∀ other ∈ front ++ [list.tail], final.nextAt other = list.nextAt other := by
    intro other inside
    rw [next, if_neg]
    rintro rfl
    exact outside inside
  refine ⟨final, ⟨run, rfl, ?_, outcome⟩, tail, apart _ (List.mem_append_right _ List.mem_cons_self)⟩
  have whole : Resting ([] ++ (front ++ [list.tail])) list := resting
  apply whole.inserted outcome outside known
  · refine Or.inr ⟨call.newNode :: front, by rw [tail]; rfl, ?_, tail ▸ tailNotNull⟩
    rw [head, tail]
    refine ⟨rfl, ne_null_of_keyAt known, list.head, ?_, leads.congr ?_⟩
    · rw [next, if_pos rfl]
    · exact fun other inside => apart other (List.mem_append_left _ inside)
  · exact fun _ inside => nomatch inside
  · have le : list.KeysLe call.newNode list.head := ⟨_, _, known, headKnown, le_of_lt below⟩
    obtain ⟨rest, members⟩ : ∃ rest, front ++ [list.tail] = list.head :: rest := by
      cases front with
      | nil =>
          have same : list.head = list.tail := leads
          exact ⟨[], by rw [same]; rfl⟩
      | cons first rest => exact ⟨rest ++ [list.tail], by rw [leads.1]; rfl⟩
    have sorted := resting.sorted
    rw [members] at sorted ⊢
    intro other inside
    rcases List.mem_cons.mp inside with rfl | later
    · exact le
    · exact le.trans ((List.pairwise_cons.mp sorted).1 other later)

theorem behind_inserts {front : List Ptr} {headKey lastKey : Key}
    (resting : Resting (front ++ [list.tail]) list)
    (leads : Leads list.nextAt list.tail list.head front) (tailNotNull : list.tail ≠ null)
    (known : list.keyAt call.newNode = some call.uint64Key)
    (outside : call.newNode ∉ front ++ [list.tail]) (headKnown : list.keyAt list.head = some headKey)
    (notBelow : ¬ call.uint64Key < headKey) (lastKnown : list.keyAt list.tail = some lastKey)
    (above : call.uint64Key > lastKey) :
    ∃ final, Inserts list call (front ++ [list.tail]) final (front ++ [list.tail]) [] ∧
      final.tail = call.newNode ∧ final.nextAt call.newNode = list.nextAt call.newNode := by
  obtain ⟨final, run, outcome, head, tail, next⟩ :=
    behind_runs resting.flags headKnown notBelow lastKnown above
  obtain ⟨_, _, across⟩ := List.nodup_append.mp resting.distinct
  have newNotTail : call.newNode ≠ list.tail := by
    intro same
    apply outside
    rw [same]
    exact List.mem_append_right _ List.mem_cons_self
  refine ⟨final, ⟨run, (List.append_nil _).symm, ?_, outcome⟩, tail, by rw [next, if_neg newNotTail]⟩
  have whole : Resting (front ++ [list.tail] ++ []) list := by
    rw [List.append_nil]
    exact resting
  apply whole.inserted outcome (by rw [List.append_nil]; exact outside) known
  · refine Or.inr ⟨front ++ [list.tail], by rw [tail], ?_, tail ▸ ne_null_of_keyAt known⟩
    rw [head, tail]
    refine leads_append.mpr ⟨list.tail, leads.congr ?_, rfl, tailNotNull, call.newNode, ?_, rfl⟩
    · intro other inside
      rw [next, if_neg (across other inside list.tail List.mem_cons_self)]
    · rw [next, if_pos rfl]
  · have le : list.KeysLe list.tail call.newNode := ⟨_, _, lastKnown, known, le_of_lt above⟩
    intro other inside
    rcases List.mem_append.mp inside with earlier | isTail
    · exact ((List.pairwise_append.mp resting.sorted).2.2 other earlier list.tail
        List.mem_cons_self).trans le
    · obtain rfl := List.mem_singleton.mp isTail
      exact le
  · exact fun _ inside => nomatch inside

theorem between_inserts {front : List Ptr} {headKey lastKey : Key}
    (resting : Resting (front ++ [list.tail]) list)
    (leads : Leads list.nextAt list.tail list.head front) (several : front ≠ [])
    (known : list.keyAt call.newNode = some call.uint64Key)
    (outside : call.newNode ∉ front ++ [list.tail]) (headKnown : list.keyAt list.head = some headKey)
    (notBelow : ¬ call.uint64Key < headKey) (lastKnown : list.keyAt list.tail = some lastKey)
    (notAbove : ¬ call.uint64Key > lastKey) :
    ∃ final before after, Inserts list call (front ++ [list.tail]) final before after ∧
      final.tail = list.tail ∧ final.nextAt list.tail = list.nextAt list.tail := by
  obtain ⟨before, first, second, after, found⟩ := search_finds resting.flags leads several
    (fun member inside => resting.keyed member (List.mem_append_left _ inside)) headKnown
    (not_lt.mp notBelow) lastKnown (not_lt.mp notAbove)
  obtain ⟨split, firstNext, ⟨firstKey, firstKnown, atMost⟩, ⟨secondKey, secondKnown, atLeast⟩, flag, isFlag,
    reached⟩ := found
  obtain ⟨garbage, newNext⟩ := exists_next known
  obtain ⟨final, run, outcome, head, tail, next⟩ := between_runs resting.flags isFlag firstNext newNext
  have start := (search_starts_iff headKnown notBelow lastKnown notAbove).mpr (reached final run)
  -- `tail` is behind the first of the two nodes
  obtain ⟨rest, last, behind⟩ := (List.eq_nil_or_concat (second :: after)).resolve_left
    (List.cons_ne_nil _ _)
  rw [List.concat_eq_append] at behind
  have both : front ++ [list.tail] = before ++ first :: rest ++ [last] := by
    rw [split, behind, List.append_assoc]
    rfl
  obtain ⟨frontEq, isLast⟩ := List.append_inj' both rfl
  obtain rfl := (List.cons.inj isLast).1
  have distinct := resting.distinct
  rw [split] at distinct outside
  obtain ⟨_, distinctBehind, across⟩ := List.nodup_append.mp distinct
  have firstNotBehind := (List.nodup_cons.mp distinctBehind).1
  have apart : ∀ other ∈ front ++ [list.tail], other ≠ first → final.nextAt other = list.nextAt other := by
    intro other inside different
    rw [next, if_neg different, if_neg]
    rintro rfl
    rw [split] at inside
    exact outside inside
  have tailNotFirst : list.tail ≠ first := by
    rintro same
    apply firstNotBehind
    rw [behind, same]
    exact List.mem_append_right _ List.mem_cons_self
  refine ⟨final, before ++ [first], second :: after, ⟨start, ?_, ?_, outcome⟩, tail,
    apart _ (List.mem_append_right _ List.mem_cons_self) tailNotFirst⟩
  · rw [split, List.append_assoc]
    rfl
  have whole : Resting (before ++ [first] ++ second :: after) list := by
    rw [List.append_assoc]
    exact split ▸ resting
  apply whole.inserted outcome (by rw [List.append_assoc]; exact outside) known
  · refine Or.inr ⟨before ++ first :: call.newNode :: rest, ?_, ?_, tail ▸ ne_null_of_keyAt lastKnown⟩
    · rw [tail, behind]
      simp only [List.append_assoc, List.cons_append, List.nil_append]
    · rw [frontEq] at leads
      obtain ⟨start, leadsFirst, isFirst, firstNotNull, following, followed, leadsRest⟩ :=
        leads_append.mp leads
      rw [isFirst] at leadsFirst
      obtain rfl := Option.some.inj (firstNext.symm.trans followed)
      rw [head, tail]
      refine leads_append.mpr ⟨first, leadsFirst.congr ?_, rfl, firstNotNull, call.newNode, ?_, rfl,
        ne_null_of_keyAt known, second, ?_, leadsRest.congr ?_⟩
      · intro other inside
        apply apart other
        · rw [split]
          exact List.mem_append_left _ inside
        · exact across other inside first List.mem_cons_self
      · rw [next, if_pos rfl]
      · rw [next, if_neg, if_pos rfl]
        rintro same
        apply outside
        rw [same]
        exact List.mem_append_right _ List.mem_cons_self
      · intro other inside
        have behindFirst : other ∈ second :: after := by
          rw [behind]
          exact List.mem_append_left _ inside
        apply apart other
        · rw [split]
          exact List.mem_append_right _ (List.mem_cons_of_mem _ behindFirst)
        · rintro rfl
          exact firstNotBehind behindFirst
  · have le : list.KeysLe first call.newNode := ⟨_, _, firstKnown, known, atMost⟩
    have sorted := resting.sorted
    rw [split] at sorted
    intro other inside
    rcases List.mem_append.mp inside with earlier | isFirst
    · exact ((List.pairwise_append.mp sorted).2.2 other earlier first List.mem_cons_self).trans le
    · obtain rfl := List.mem_singleton.mp isFirst
      exact le
  · have le : list.KeysLe call.newNode second := ⟨_, _, known, secondKnown, atLeast⟩
    have sorted := resting.sorted
    rw [split] at sorted
    have sortedBehind := (List.pairwise_cons.mp (List.pairwise_append.mp sorted).2.1).2
    intro other inside
    rcases List.mem_cons.mp inside with rfl | later
    · exact le
    · exact le.trans ((List.pairwise_cons.mp sortedBehind).1 other later)

theorem Resting.createNode (resting : Resting members list) (key : Key) (value : Value) (garbage : Ptr) :
    Resting members (list.createNode key value garbage) := by
  have kept : ∀ other ∈ members,
      (list.createNode key value garbage).nextAt other = list.nextAt other := by
    intro other inside
    obtain ⟨_, known⟩ := resting.keyed other inside
    obtain ⟨next, found⟩ := exists_next known
    rw [found, nextAt_createNode found]
  constructor
  · rcases resting.path with empty | ⟨front, split, leads, notNull⟩
    · exact Or.inl empty
    · refine Or.inr ⟨front, split, leads.congr ?_, notNull⟩
      intro other inside
      apply kept
      rw [split]
      exact List.mem_append_left _ inside
  · exact resting.distinct
  · apply resting.sorted.imp
    rintro first second ⟨firstKey, secondKey, firstKnown, secondKnown, le⟩
    exact ⟨firstKey, secondKey, keyAt_createNode firstKnown, keyAt_createNode secondKnown, le⟩
  · intro other inside
    obtain ⟨otherKey, known⟩ := resting.keyed other inside
    exact ⟨otherKey, keyAt_createNode known⟩
  · exact resting.flags.createNode key value garbage

theorem Resting.outside (resting : Resting members list) : list.nodes.size + 1 ∉ members := by
  intro inside
  obtain ⟨_, known⟩ := resting.keyed _ inside
  rw [fresh_keyAt] at known
  cases known

theorem keyAt_new (list : LinkedlistDramCAS) (key : Key) (value : Value) (garbage : Ptr) :
    (list.createNode key value garbage).keyAt (list.nodes.size + 1) = some key := by
  rw [keyAt, LinkedlistDramCAS.createNode, Heap.get?_push, if_pos rfl]
  rfl

theorem nextAt_new (list : LinkedlistDramCAS) (key : Key) (value : Value) (garbage : Ptr) :
    (list.createNode key value garbage).nextAt (list.nodes.size + 1) = some garbage := by
  rw [nextAt, LinkedlistDramCAS.createNode, Heap.get?_push, if_pos rfl]
  rfl

/-- The list consists of one node with the key. -/
def Single (list : LinkedlistDramCAS) (key : Key) : Prop :=
  list.head = list.tail ∧ list.keyAt list.head = some key

/-- The new node becomes the last one. -/
def ComesLast (list : LinkedlistDramCAS) (key : Key) : Prop :=
  list.head = null ∨ ∃ last, list.keyAt list.tail = some last ∧ key > last

/-- Every other insert puts the new node into the list.  Its end is what `malloc` left there. -/
theorem insert_inserts (resting : Resting members list)
    (known : list.keyAt call.newNode = some call.uint64Key) (outside : call.newNode ∉ members)
    (notSingle : ¬ list.Single call.uint64Key) :
    ∃ final before after, Inserts list call members final before after ∧
      (list.ComesLast call.uint64Key ∧ final.nextAt final.tail = list.nextAt call.newNode ∨
        ¬ list.ComesLast call.uint64Key ∧ final.nextAt final.tail = list.nextAt list.tail) := by
  rcases resting.path with ⟨rfl, isNull, _⟩ | ⟨front, rfl, leads, notNull⟩
  · obtain ⟨final, inserts, tail, next⟩ := first_inserts resting known isNull
    exact ⟨final, [], [], inserts, Or.inl ⟨Or.inl isNull, by rw [tail, next]⟩⟩
  · obtain ⟨lastKey, lastKnown⟩ :=
      resting.keyed list.tail (List.mem_append_right _ List.mem_cons_self)
    obtain ⟨headKey, headKnown⟩ : ∃ key, list.keyAt list.head = some key := by
      cases front with
      | nil =>
          have same : list.head = list.tail := leads
          rw [same]
          exact ⟨lastKey, lastKnown⟩
      | cons first rest =>
          rw [leads.1]
          exact resting.keyed first List.mem_cons_self
    have comesLast : list.ComesLast call.uint64Key ↔ call.uint64Key > lastKey := by
      constructor
      · rintro (isNull | ⟨last, isLast, above⟩)
        · exact absurd isNull (ne_null_of_keyAt headKnown)
        · cases Option.some.inj (lastKnown.symm.trans isLast)
          exact above
      · exact fun above => Or.inr ⟨lastKey, lastKnown, above⟩
    have headUpTo : headKey ≤ lastKey := by
      cases front with
      | nil =>
          have same : list.head = list.tail := leads
          rw [same, lastKnown] at headKnown
          exact le_of_eq (Option.some.inj headKnown).symm
      | cons first rest =>
          obtain ⟨firstKey, secondKey, firstKnown, secondKnown, le⟩ :=
            (List.pairwise_cons.mp resting.sorted).1 list.tail (List.mem_append_right _ List.mem_cons_self)
          rw [← leads.1, headKnown] at firstKnown
          rw [lastKnown] at secondKnown
          cases firstKnown
          cases secondKnown
          exact le
    by_cases below : call.uint64Key < headKey
    · obtain ⟨final, inserts, tail, next⟩ :=
        front_inserts resting leads notNull known outside headKnown below
      refine ⟨final, _, _, inserts, Or.inr ⟨?_, by rw [tail, next]⟩⟩
      rw [comesLast]
      exact not_lt.mpr (le_trans (le_of_lt below) headUpTo)
    · by_cases above : call.uint64Key > lastKey
      · obtain ⟨final, inserts, tail, next⟩ :=
          behind_inserts resting leads notNull known outside headKnown below lastKnown above
        exact ⟨final, _, _, inserts, Or.inl ⟨comesLast.mpr above, by rw [tail, next]⟩⟩
      · have several : front ≠ [] := by
          rintro rfl
          have same : list.head = list.tail := leads
          apply notSingle
          refine ⟨same, ?_⟩
          rw [same, lastKnown] at headKnown
          cases headKnown
          rw [same, lastKnown]
          exact congrArg some (le_antisymm (not_lt.mp below) (not_lt.mp above))
        obtain ⟨final, before, after, inserts, tail, next⟩ :=
          between_inserts resting leads several known outside headKnown below lastKnown above
        refine ⟨final, before, after, inserts, Or.inr ⟨?_, by rw [tail, next]⟩⟩
        rw [comesLast]
        exact above

theorem Resting.single (resting : Resting members list) {key : Key} (single : list.Single key) :
    members = [list.tail] := by
  obtain ⟨same, known⟩ := single
  rcases resting.path with ⟨_, isNull, _⟩ | ⟨front, rfl, leads, notNull⟩
  · exact absurd isNull (ne_null_of_keyAt known)
  · cases front with
    | nil => rfl
    | cons first rest =>
        have distinct := resting.distinct
        rw [← same, leads.1] at distinct
        exact absurd (List.mem_append_right _ List.mem_cons_self) (List.nodup_cons.mp distinct).1

/-- An insert of the only key either stores nothing or makes a list that goes on behind its new node. -/
theorem single_ends (resting : Resting members list) (single : list.Single call.uint64Key)
    {garbage : Ptr} (newNext : list.nextAt call.newNode = some garbage)
    (alone : Alone list (.inside call .testHead) final) :
    Resting members final ∧ (final = list ∨
      final.head = list.head ∧ ∃ next, next ≠ null ∧ final.nextAt call.newNode = some next) := by
  have isTail := resting.single single
  obtain ⟨same, known⟩ := single
  have lastKnown : list.keyAt list.tail = some call.uint64Key := same ▸ known
  have searches := (search_starts_iff known (lt_irrefl _) lastKnown (lt_irrefl _)).mp alone
  have search := search_ends searches trivial resting.flags newNext
  rcases search with rfl | ⟨temp, next, notNull, outcome, head, tail, links⟩
  · exact ⟨resting, Or.inl rfl⟩
  · constructor
    · constructor
      · refine Or.inr ⟨[], ?_, ?_, ?_⟩
        · rw [isTail, tail]
          rfl
        · rw [head, tail, same]
          rfl
        · rw [tail]
          exact ne_null_of_keyAt lastKnown
      · exact resting.distinct
      · rw [keysLe_congr outcome.key]
        exact resting.sorted
      · rw [outcome.key]
        exact resting.keyed
      · exact outcome.flags
    · apply Or.inr
      refine ⟨head, ?_⟩
      rw [links]
      split
      · next isTemp =>
          obtain ⟨contents, stored, _⟩ := Option.map_eq_some_iff.mp newNext
          exact ⟨_, Heap.ne_null_of_get? stored, rfl⟩
      · exact ⟨next, notNull, if_pos rfl⟩

/-- The call of `insert` for a list between two calls. -/
theorem new_inserts (resting : Resting members list) {key : Key} {value : Value}
    (notSingle : ¬ (list.createNode key value garbage).Single key) :
    ∃ final before after,
      Inserts (list.createNode key value garbage) ⟨key, list.nodes.size + 1⟩ members final before after ∧
        ((list.createNode key value garbage).ComesLast key ∧ final.nextAt final.tail = some garbage ∨
          ¬ (list.createNode key value garbage).ComesLast key ∧
            final.nextAt final.tail = (list.createNode key value garbage).nextAt list.tail) := by
  have created := resting.createNode key value garbage
  have inserts := insert_inserts created
    (show _ = some (Call.mk key (list.nodes.size + 1)).uint64Key from keyAt_new list key value garbage)
    resting.outside notSingle
  rw [nextAt_new] at inserts
  exact inserts

theorem Sequential.resting (sequential : Sequential list) : ∃ members, Resting members list := by
  induction sequential with
  | init => exact ⟨[], resting_init⟩
  | @insert list final key value garbage _ inserted inductionHypothesis =>
      obtain ⟨members, resting⟩ := inductionHypothesis
      by_cases single : (list.createNode key value garbage).Single key
      · have created := resting.createNode key value garbage
        exact ⟨members, (single_ends created single (nextAt_new list key value garbage) inserted).1⟩
      · obtain ⟨other, before, after, inserts, _⟩ := new_inserts resting single
        cases inserts.run.unique inserted
        exact ⟨_, inserts.resting⟩

theorem Resting.members_unique {others : List Ptr} (resting : Resting members list)
    (path : list.Members others) (distinct : others.Nodup) : members = others := by
  rcases resting.path with ⟨rfl, _, tailNull⟩ | ⟨front, rfl, leads, notNull⟩
  · rcases path with ⟨rfl, _⟩ | ⟨_, _, _, notNull⟩
    · rfl
    · exact absurd tailNull notNull
  · rcases path with ⟨_, _, tailNull⟩ | ⟨otherFront, rfl, otherLeads, _⟩
    · exact absurd tailNull notNull
    · have apart := (List.nodup_append.mp resting.distinct).2.2
      have otherApart := (List.nodup_append.mp distinct).2.2
      rw [leads.unique otherLeads
        (fun inside => apart _ inside _ List.mem_cons_self rfl)
        (fun inside => otherApart _ inside _ List.mem_cons_self rfl)]

/-- The key that decides where the new node belongs. -/
theorem Resting.keyAt_tail (resting : Resting members list) (someNode : list.head ≠ null) :
    ∃ last, list.keyAt list.tail = some last := by
  rcases resting.path with ⟨_, isNull, _⟩ | ⟨front, rfl, _, _⟩
  · exact absurd isNull someNode
  · exact resting.keyed list.tail (List.mem_append_right _ List.mem_cons_self)

end Inserts

/-! ### Adding a node -/

section Adding

variable {members : List Ptr} {key : Key} {value : Value} {garbage : Ptr}

/-- What an insert looks at of a list with nodes is the same before and after `malloc`. -/
theorem Resting.looks (resting : Resting members list) (someNode : list.head ≠ null) (key : Key)
    (value : Value) (garbage : Ptr) :
    (list.createNode key value garbage).keyAt list.head = list.keyAt list.head ∧
      (list.createNode key value garbage).keyAt list.tail = list.keyAt list.tail ∧
      (list.createNode key value garbage).nextAt list.tail = list.nextAt list.tail := by
  obtain ⟨lastKey, lastKnown⟩ := resting.keyAt_tail someNode
  obtain ⟨next, nextKnown⟩ := exists_next lastKnown
  obtain ⟨headKey, headKnown⟩ : ∃ key, list.keyAt list.head = some key := by
    rcases resting.path with ⟨_, isNull, _⟩ | ⟨front, rfl, leads, _⟩
    · exact absurd isNull someNode
    · cases front with
      | nil =>
          have same : list.head = list.tail := leads
          exact ⟨lastKey, same ▸ lastKnown⟩
      | cons first rest =>
          rw [leads.1]
          exact resting.keyed first List.mem_cons_self
  rw [headKnown, lastKnown, nextKnown]
  exact ⟨keyAt_createNode headKnown, keyAt_createNode lastKnown, nextAt_createNode nextKnown⟩

/-- What `Admits` asks for, in terms of the list that the call sees. -/
theorem Resting.admits_iff (resting : Resting members list) :
    list.Admits key garbage ↔ ¬ (list.createNode key value garbage).Single key ∧
      ((list.createNode key value garbage).ComesLast key ∧ garbage = null ∨
        ¬ (list.createNode key value garbage).ComesLast key ∧
          (list.createNode key value garbage).nextAt list.tail = some null) := by
  by_cases isNull : list.head = null
  · have comesLast : (list.createNode key value garbage).ComesLast key := Or.inl isNull
    have notSingle : ¬ (list.createNode key value garbage).Single key := by
      rintro ⟨_, known⟩
      exact ne_null_of_keyAt known isNull
    constructor
    · rintro (⟨_, same⟩ | ⟨notNull, _⟩)
      · exact ⟨notSingle, Or.inl ⟨comesLast, same⟩⟩
      · exact absurd isNull notNull
    · rintro ⟨_, ⟨_, same⟩ | ⟨notLast, _⟩⟩
      · exact Or.inl ⟨Or.inl isNull, same⟩
      · exact absurd comesLast notLast
  · obtain ⟨headSame, lastSame, nextSame⟩ := resting.looks isNull key value garbage
    obtain ⟨last, lastKnown⟩ := resting.keyAt_tail isNull
    have single : (list.createNode key value garbage).Single key ↔ list.Single key := by
      rw [Single, Single]
      exact and_congr_right fun _ => by rw [← headSame]; rfl
    have comesLast : (list.createNode key value garbage).ComesLast key ↔ key > last := by
      constructor
      · rintro (headNull | ⟨other, isLast, above⟩)
        · exact absurd headNull isNull
        · cases Option.some.inj ((lastSame.trans lastKnown).symm.trans isLast)
          exact above
      · exact fun above => Or.inr ⟨last, lastSame.trans lastKnown, above⟩
    rw [single, comesLast, nextSame]
    constructor
    · rintro (⟨headNull | ⟨other, isLast, above⟩, same⟩ | ⟨_, ⟨other, isLast, notAbove⟩, next, notSingle⟩)
      · exact absurd headNull isNull
      · cases Option.some.inj (lastKnown.symm.trans isLast)
        refine ⟨?_, Or.inl ⟨above, same⟩⟩
        rintro ⟨headIsTail, known⟩
        rw [headIsTail, lastKnown] at known
        cases known
        exact lt_irrefl _ above
      · cases Option.some.inj (lastKnown.symm.trans isLast)
        exact ⟨notSingle, Or.inr ⟨notAbove, next⟩⟩
    · rintro ⟨notSingle, ⟨above, same⟩ | ⟨notAbove, next⟩⟩
      · exact Or.inl ⟨Or.inr ⟨last, lastKnown, above⟩, same⟩
      · exact Or.inr ⟨isNull, ⟨last, lastKnown, notAbove⟩, next, notSingle⟩

theorem Resting.addsNode_iff (resting : Resting members list) (key : Key) (value : Value)
    (garbage : Ptr) : list.AddsNode key value garbage ↔ list.Admits key garbage := by
  rw [resting.admits_iff]
  constructor
  · rintro ⟨final, before, after, run, inserted, path, distinct, linked, _⟩
    have isMembers := resting.members_unique path distinct
    have notSingle : ¬ (list.createNode key value garbage).Single key := by
      intro single
      have created := resting.createNode key value garbage
      have isTail := isMembers.symm.trans (created.single single)
      rcases (single_ends created single (nextAt_new list key value garbage) run).2 with
        rfl | ⟨head, next, notNull, newNext⟩
      · exact absurd inserted.symm (List.cons_ne_self _ _)
      · rcases List.append_eq_singleton_iff.mp isTail with ⟨rfl, rfl⟩ | ⟨rfl, rfl⟩
        · have isNew : final.head = list.nodes.size + 1 := linked.1
          apply resting.outside
          rw [isMembers, ← isNew, head, single.1]
          exact List.mem_singleton_self _
        · have ends := (linked_append_singleton.mp linked).2.2
          cases Option.some.inj (newNext.symm.trans ends)
          exact notNull rfl
    obtain ⟨other, front, back, inserts, last⟩ := new_inserts resting notSingle
    cases inserts.run.unique run
    have lastNext : final.nextAt final.tail = some null := by
      have lengths : (before ++ after).length = (front ++ back).length :=
        congrArg List.length (isMembers.symm.trans inserts.split)
      rcases inserts.resting.path with ⟨empty, _⟩ | ⟨rest, split, leads, _⟩
      · exact absurd empty (by simp)
      · apply leads.next_last linked
        have whole := congrArg List.length split
        simp only [List.length_append, List.length_cons, List.length_nil] at lengths whole ⊢
        omega
    rw [lastNext] at last
    exact ⟨notSingle, last.imp (And.imp_right fun same => (Option.some.inj same).symm)
      (And.imp_right Eq.symm)⟩
  · rintro ⟨notSingle, ends⟩
    obtain ⟨final, front, back, inserts, last⟩ := new_inserts resting notSingle
    have lastNext : final.nextAt final.tail = some null := by
      rcases ends with ⟨comesLast, isNull⟩ | ⟨notLast, isNull⟩
      · rcases last with ⟨_, isGarbage⟩ | ⟨notLast, _⟩
        · rw [isGarbage, isNull]
        · exact absurd comesLast notLast
      · rcases last with ⟨comesLast, _⟩ | ⟨_, same⟩
        · exact absurd comesLast notLast
        · rw [same, isNull]
    refine ⟨final, front, back, inserts.run, inserts.outcome.inserted, ?_, ?_, ?_,
      inserts.resting.sorted, ?_, ?_⟩
    · rw [← inserts.split]
      exact resting.path
    · rw [← inserts.split]
      exact resting.distinct
    · rcases inserts.resting.path with ⟨empty, _⟩ | ⟨rest, split, leads, notNull⟩
      · exact absurd empty (by simp)
      · rw [split]
        exact linked_append_singleton.mpr ⟨leads, notNull, lastNext⟩
    · rw [inserts.outcome.key]
      exact keyAt_new list key value garbage
    · intro node inside
      rw [← inserts.split] at inside
      obtain ⟨nodeKey, known⟩ := resting.keyed node inside
      rw [inserts.outcome.key, known]
      exact keyAt_createNode known

/-- An insert without interference returns 1 and leaves a sorted list with one more node, whatever was
inserted before, if and only if `malloc` left a null pointer in the node that is the last one then, and
the list did not consist of one node with the same key. -/
theorem insert_alone_iff (sequential : Sequential list) (key : Key) (value : Value) (garbage : Ptr) :
    list.AddsNode key value garbage ↔ list.Admits key garbage := by
  obtain ⟨members, resting⟩ := sequential.resting
  exact resting.addsNode_iff key value garbage

/-- A list of one node, which `malloc` returned with a null pointer. -/
theorem sequential_one (value : Value) : ∃ list, Sequential list ∧ list.inserted = [1] ∧
    list.head = 1 ∧ list.tail = 1 ∧ list.keyAt 1 = some 5 ∧ list.nextAt 1 = some null := by
  obtain ⟨list, run, outcome, head, tail, next⟩ := first_runs
    (resting_init.flags.createNode 5 value null) rfl
  refine ⟨list, .insert .init run, outcome.inserted, head, tail, ?_, ?_⟩
  · rw [outcome.key]
    exact keyAt_new init 5 value null
  · rw [next]
    exact nextAt_new init 5 value null

theorem insert_alone_behind : ∃ (list : LinkedlistDramCAS) (value : Value), Sequential list ∧
    list.inserted = [1] ∧ list.AddsNode 7 value null := by
  obtain ⟨list, sequential, inserted, _, tail, known, _⟩ :=
    sequential_one ⟨[97], by decide, by decide⟩
  refine ⟨list, ⟨[97], by decide, by decide⟩, sequential, inserted,
    (insert_alone_iff sequential 7 _ null).mpr (Or.inl ⟨Or.inr ⟨5, ?_, by decide⟩, rfl⟩)⟩
  rw [tail]
  exact known

/-- Its key is not inserted a second time, although `malloc` has left null pointers everywhere. -/
theorem insert_alone_repeated : ∃ (list : LinkedlistDramCAS) (value : Value), Sequential list ∧
    list.inserted = [1] ∧ list.nextAt list.tail = some null ∧ ¬ list.AddsNode 5 value null := by
  obtain ⟨list, sequential, inserted, head, tail, known, next⟩ :=
    sequential_one ⟨[97], by decide, by decide⟩
  obtain ⟨members, resting⟩ := sequential.resting
  refine ⟨list, ⟨[97], by decide, by decide⟩, sequential, inserted, tail ▸ next, ?_⟩
  rw [resting.addsNode_iff]
  rintro (⟨isNull | ⟨last, isLast, above⟩, _⟩ | ⟨_, _, _, notSingle⟩)
  · rw [head] at isNull
    cases isNull
  · rw [tail, known] at isLast
    cases isLast
    exact absurd above (by decide)
  · exact notSingle ⟨head.trans tail.symm, head ▸ known⟩

end Adding

end StoredsBench.LinkedlistDramCAS
