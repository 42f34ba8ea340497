/-
Module: StoredsBench.Lib.Release
Layer: Lib
Purpose: Tear-down over a heap of live objects.  As addresses are never used again and only a live object
  is freed or accessed, a run without a fault that leaves an object dead freed it exactly once and did
  not access it afterwards.  `Released` says which objects are gone, `Releasing` that a program makes no
  new ones, and `freeChain` is the loop that frees a linked list.
Trusted boundary: none
Main exports: Heap.Live, Released, Frees, Releasing, Prog.freeChain, freeChain_ok, freeChain_dangling,
  Linking, Linking.unlink_ok
-/
import StoredsBench.Lib.LinkedList

namespace StoredsBench.Lib

variable {N X α β : Type}

/-! ### Live objects -/

namespace Heap

/-- There is an object that was allocated and not freed. -/
def Live (heap : Heap N) (address : Ptr) : Prop := ∃ object, heap.get? address = some object

variable {heap : Heap N} {address : Ptr} {old : N}

theorem not_live_iff : ¬ heap.Live address ↔ heap.get? address = none := by
  rw [Live, ← Option.isSome_iff_exists, Option.not_isSome_iff_eq_none]

theorem live_set (live : heap.get? address = some old) (object : N) (other : Ptr) :
    (heap.set address object).Live other ↔ heap.Live other := by
  rw [Live, Live, get?_set live]
  by_cases same : other = address
  · subst same
    rw [if_pos rfl]
    exact ⟨fun _ => ⟨old, live⟩, fun _ => ⟨object, rfl⟩⟩
  · rw [if_neg same]

theorem live_erase (live : heap.get? address = some old) (other : Ptr) :
    (heap.erase address).Live other ↔ heap.Live other ∧ other ≠ address := by
  rw [Live, Live, get?_erase live]
  by_cases same : other = address
  · rw [if_pos same]
    constructor
    · rintro ⟨object, found⟩
      cases found
    · exact fun both => absurd same both.2
  · rw [if_neg same]
    exact (and_iff_left same).symm

theorem live_push (heap : Heap N) (object : N) (other : Ptr) :
    (heap.push object).Live other ↔ heap.Live other ∨ other = heap.size + 1 := by
  rw [Live, Live, get?_push]
  by_cases same : other = heap.size + 1
  · rw [if_pos same]
    exact ⟨fun _ => Or.inr same, fun _ => ⟨object, rfl⟩⟩
  · rw [if_neg same, or_iff_left same]

end Heap

/-! ### Faults -/

/-- A fault of the first part is one of the whole program. -/
theorem bind_error {first : Prog N X α} {rest : α → Prog N X β} {store : Store N X} {fault : Fault}
    (failed : first store = .error fault) : (first >>= rest) store = .error fault := by
  simp only [bind, StateT.bind, failed, Except.bind]

/-- An object that is gone is read. -/
theorem load_dangling {store : Store N X} {address : Ptr} (dead : store.heap.get? address = none) :
    Prog.load address store = .error .invalidPointer := by
  simp only [Prog.load, dead]

/-! ### Freed objects -/

/-- The objects at these addresses are gone, and the others are as they were. -/
def Released (before after : Heap N) (addresses : List Ptr) : Prop :=
  ∀ address, after.get? address = if address ∈ addresses then none else before.get? address

theorem Released.nil (heap : Heap N) : Released heap heap [] := by
  intro address
  rw [if_neg List.not_mem_nil]

/-- One object freed and then the others. -/
theorem Released.cons {before after : Heap N} {address : Ptr} {addresses : List Ptr} {old : N}
    (live : before.get? address = some old)
    (released : Released (before.erase address) after addresses) :
    Released before after (address :: addresses) := by
  intro other
  rw [released other, Heap.get?_erase live]
  by_cases same : other = address
  · rw [if_pos same, ite_self, if_pos (same ▸ List.mem_cons_self)]
  · rw [if_neg same]
    simp only [List.mem_cons, same, false_or]

theorem Released.append {first second third : Heap N} {earlier later : List Ptr}
    (firstReleased : Released first second earlier) (thenReleased : Released second third later) :
    Released first third (earlier ++ later) := by
  intro address
  rw [thenReleased address, firstReleased address]
  by_cases inLater : address ∈ later
  · rw [if_pos inLater, if_pos (List.mem_append_right _ inLater)]
  · rw [if_neg inLater]
    simp only [List.mem_append, inLater, or_false]

/-- An object that is not among the released ones. -/
theorem Released.kept {before after : Heap N} {address : Ptr} {addresses : List Ptr}
    (released : Released before after addresses) (apart : address ∉ addresses) :
    after.get? address = before.get? address := by
  rw [released address, if_neg apart]

/-- The program ends without a fault, and exactly these objects are gone. -/
def Frees (program : Prog N X Unit) (store : Store N X) (addresses : List Ptr) : Prop :=
  ∃ after, program store = .ok ((), after) ∧ Released store.heap after.heap addresses

/-- A member of the object at an address. -/
def Prog.follow (member : N → Except Fault α) (address : Ptr) : Prog N X α := do
  let object ← Prog.load address
  Prog.lift (member object)

theorem Prog.follow_ok {member : N → Except Fault α} {address : Ptr} {store : Store N X} {object : N}
    {value : α} (live : store.heap.get? address = some object) (found : member object = .ok value) :
    Prog.follow member address store = .ok (value, store) := by
  rw [Prog.follow, bind_ok (Prog.load_ok live)]
  exact Prog.lift_ok found store

/-- `if (node != NULL) free(node);` -/
def Prog.freeUnlessNull (node : Ptr) : Prog N X Unit :=
  if node = null then return () else Prog.free node

/-! ### Programs that make no new objects -/

/-- The store is entered through the same pointer, and whatever is live afterwards was live before. -/
structure Shrinks (before after : Store N X) : Prop where
  root : after.root = before.root
  size : after.heap.size = before.heap.size
  live : ∀ address, after.heap.Live address → before.heap.Live address

theorem Shrinks.refl (store : Store N X) : Shrinks store store := ⟨rfl, rfl, fun _ live => live⟩

theorem Shrinks.trans {first second third : Store N X} (earlier : Shrinks first second)
    (later : Shrinks second third) : Shrinks first third :=
  ⟨later.root.trans earlier.root, later.size.trans earlier.size,
    fun address live => earlier.live address (later.live address live)⟩

/-- The program allocates nothing. -/
def Releasing (program : Prog N X α) : Prop :=
  ∀ ⦃store after : Store N X⦄ ⦃value : α⦄, program store = .ok (value, after) → Shrinks store after

namespace Releasing

variable {program : Prog N X α}

theorem bind {rest : α → Prog N X β} (first : Releasing program)
    (second : ∀ value, Releasing (rest value)) : Releasing (program >>= rest) := by
  intro store after value ran
  obtain ⟨between, middle, firstRan, restRan⟩ := bind_ok_inv ran
  exact (first firstRan).trans (second between restRan)

theorem of_reading (reading : Reading program) : Releasing program := by
  intro store after value ran
  rw [reading ran]
  exact Shrinks.refl _

theorem pure (value : α) : Releasing (pure value : Prog N X α) := of_reading (Reading.pure value)

theorem fault (reason : Fault) : Releasing (Prog.fault reason : Prog N X α) :=
  of_reading (Reading.fault reason)

theorem lift (computation : Except Fault α) : Releasing (Prog.lift computation : Prog N X α) :=
  of_reading (Reading.lift computation)

theorem load (address : Ptr) : Releasing (Prog.load address : Prog N X N) :=
  of_reading (Reading.load address)

theorem getAux : Releasing (Prog.getAux : Prog N X X) := by
  intro store after value ran
  cases ran
  exact Shrinks.refl _

theorem setAux (aux : X) : Releasing (Prog.setAux aux : Prog N X Unit) := by
  intro store after value ran
  cases ran
  exact ⟨rfl, rfl, fun _ live => live⟩

theorem modify (address : Ptr) (change : N → Except Fault N) :
    Releasing (Prog.modify address change : Prog N X Unit) := by
  intro store after value ran
  obtain ⟨object, changed, live, _, rfl⟩ := Prog.modify_inv ran
  exact ⟨rfl, Heap.size_set _ _ _, fun other otherLive => (Heap.live_set live changed other).mp otherLive⟩

theorem free (address : Ptr) : Releasing (Prog.free address : Prog N X Unit) := by
  intro store after value ran
  unfold Prog.free at ran
  split at ran
  · cases ran
  · next object live =>
      cases ran
      exact ⟨rfl, Heap.size_erase _ _,
        fun other otherLive => ((Heap.live_erase live other).mp otherLive).1⟩

theorem branch {condition : Prop} [Decidable condition] {other : Prog N X α}
    (left : Releasing program) (right : Releasing other) :
    Releasing (if condition then program else other) := by
  by_cases holds : condition
  · rw [if_pos holds]
    exact left
  · rw [if_neg holds]
    exact right

end Releasing

/-! ### Linked lists -/

/-- A list that is linked up to a null pointer visits no address twice. -/
theorem Linked.nodup {next : Nat → Option Nat} {first : Nat} {members : List Nat}
    (linked : Linked next first members) : members.Nodup := by
  induction members generalizing first with
  | nil => exact List.nodup_nil
  | cons address rest inductionHypothesis =>
      obtain ⟨rfl, notNull, following, found, restLinked⟩ := linked
      refine List.nodup_cons.mpr ⟨?_, inductionHypothesis restLinked⟩
      intro member
      obtain ⟨before, after, rfl⟩ := List.append_of_mem member
      -- what follows the second visit would be as long as what follows the first one
      obtain ⟨between, _, again⟩ := leads_append.mp restLinked
      have whole : Leads next null first (first :: (before ++ first :: after)) :=
        ⟨rfl, notNull, following, found, restLinked⟩
      obtain rfl : between = first := again.1
      have apart : ∀ {list : List Nat}, Linked next between list → null ∉ list :=
        fun list isMember => list.ne_null null isMember rfl
      have same := whole.unique again (apart whole) (apart again)
      have lengths := congrArg List.length same
      simp at lengths
      omega

/-- A member of a list has a pointer to the next one. -/
theorem Leads.exists_next {next : Nat → Option Nat} {first last address : Nat} {members : List Nat}
    (leads : Leads next last first members) (member : address ∈ members) :
    ∃ target, next address = some target := by
  induction members generalizing first with
  | nil => cases member
  | cons head rest inductionHypothesis =>
      obtain ⟨rfl, _, following, found, restLeads⟩ := leads
      rcases List.mem_cons.mp member with rfl | later
      · exact ⟨following, found⟩
      · exact inductionHypothesis restLeads later

/-- The pointer that a live object has to the next one. -/
def linkBy (next : N → Except Fault Ptr) (heap : Heap N) (address : Ptr) : Option Ptr :=
  (heap.get? address).bind fun object => (next object).toOption

theorem linkBy_eq_some {next : N → Except Fault Ptr} {heap : Heap N} {address target : Ptr} :
    linkBy next heap address = some target ↔
      ∃ object, heap.get? address = some object ∧ next object = .ok target := by
  rw [linkBy, Option.bind_eq_some_iff]
  constructor
  · rintro ⟨object, live, found⟩
    cases followed : next object with
    | error fault =>
        rw [followed] at found
        cases found
    | ok following =>
        rw [followed] at found
        cases found
        exact ⟨object, live, followed⟩
  · rintro ⟨object, live, found⟩
    refine ⟨object, live, ?_⟩
    rw [found]
    rfl

/-- `while (head != NULL) { current = head; head = head->next; free(current); }`, where `assign` stores
the new head. -/
def Prog.freeChain (assign : Ptr → Prog N X Unit) (next : N → Except Fault Ptr) :
    (fuel : Nat) → (head : Ptr) → Prog N X Unit
  | 0, _ => Prog.fault .diverged
  | fuel + 1, head => do
      if head = null then return ()
      else
        let contents ← Prog.load head
        let following ← Prog.lift (next contents)
        assign following
        Prog.free head
        Prog.freeChain assign next fuel following

section Chains

variable {assign : Ptr → Prog N X Unit} {next : N → Except Fault Ptr} {store : Store N X}
  {fuel : Nat} {head last : Ptr} {members : List Ptr}

/-- Assigning the head always works and concerns no object. -/
def Assigns (assign : Ptr → Prog N X Unit) : Prop :=
  ∀ address store, ∃ after, assign address store = .ok ((), after) ∧ after.heap = store.heap

/-- The first round of the loop. -/
theorem freeChain_step (assigns : Assigns assign) (notNull : head ≠ null)
    {following : Ptr} (found : linkBy next store.heap head = some following) (fuel : Nat) :
    ∃ object middle, store.heap.get? head = some object ∧ middle.heap = store.heap.erase head ∧
      Prog.freeChain assign next (fuel + 1) head store =
        Prog.freeChain assign next fuel following middle := by
  obtain ⟨object, live, followed⟩ := linkBy_eq_some.mp found
  obtain ⟨assigned, assignRan, sameHeap⟩ := assigns following store
  have assignedLive : assigned.heap.get? head = some object := by
    rw [sameHeap]
    exact live
  refine ⟨object, { assigned with heap := assigned.heap.erase head }, live, ?_, ?_⟩
  · rw [sameHeap]
  · rw [Prog.freeChain, if_neg notNull, bind_ok (Prog.load_ok live),
      bind_ok (Prog.lift_ok followed store), bind_ok assignRan, bind_ok (Prog.free_ok assignedLive)]

/-- The members of a list are live. -/
theorem Linked.exists_live {heap : Heap N} (linked : Linked (linkBy next heap) head members)
    {address : Ptr} (member : address ∈ members) :
    ∃ object target, heap.get? address = some object ∧ next object = .ok target := by
  obtain ⟨target, found⟩ := Leads.exists_next linked member
  obtain ⟨object, live, followed⟩ := linkBy_eq_some.mp found
  exact ⟨object, target, live, followed⟩

/-- Distinct live members are fewer than the bound of the loop. -/
theorem Linked.length_lt {heap : Heap N} (linked : Linked (linkBy next heap) head members) :
    members.length < heap.size + 1 := by
  apply Nat.lt_succ_of_le
  apply Heap.length_le_size linked.nodup
  intro address member
  obtain ⟨object, target, live, _⟩ := linked.exists_live member
  exact Heap.bounds_of_get? live

theorem linkBy_erase {heap : Heap N} {address other : Ptr} {object : N}
    (live : heap.get? address = some object) (different : other ≠ address) :
    linkBy next (heap.erase address) other = linkBy next heap other := by
  rw [linkBy, linkBy, Heap.get?_erase live, if_neg different]

/-- What concerns no object and no assignment of the head is as before the loop. -/
theorem freeChain_keeps {T : Type} (observe : Store N X → T)
    (assigned : ∀ address before after, assign address before = .ok ((), after) →
      observe after = observe before)
    (freed : ∀ (before : Store N X) heap, observe { before with heap := heap } = observe before)
    {after : Store N X} (ran : Prog.freeChain assign next fuel head store = .ok ((), after)) :
    observe after = observe store := by
  induction fuel generalizing store head with
  | zero => cases ran
  | succ fuel inductionHypothesis =>
      rw [Prog.freeChain] at ran
      split at ran
      · cases ran
        rfl
      · obtain ⟨contents, loaded, loadRan, followRan⟩ := bind_ok_inv ran
        obtain ⟨following, followed, liftRan, assignRan⟩ := bind_ok_inv followRan
        obtain ⟨_, headed, headRan, freeRan⟩ := bind_ok_inv assignRan
        obtain ⟨_, erased, eraseRan, restRan⟩ := bind_ok_inv freeRan
        have sameErased : observe erased = observe headed := by
          unfold Prog.free at eraseRan
          split at eraseRan
          · cases eraseRan
          · cases eraseRan
            exact freed headed _
        rw [inductionHypothesis restRan, sameErased, assigned _ _ _ headRan, (Prog.lift_inv liftRan).2,
          Reading.load head loadRan]

/-- A list none of whose members is released is still linked. -/
theorem Linked.released {before after : Heap N} {gone : List Ptr}
    (linked : Linked (linkBy next before) head members) (released : Released before after gone)
    (apart : ∀ member ∈ members, member ∉ gone) : Linked (linkBy next after) head members := by
  apply Linked.congr linked
  intro address member
  rw [linkBy, released.kept (apart address member), linkBy]

/-- The loop frees every member of the list. -/
theorem freeChain_ok (assigns : Assigns assign) (linked : Linked (linkBy next store.heap) head members)
    (enough : members.length < fuel) :
    ∃ after, Prog.freeChain assign next fuel head store = .ok ((), after) ∧
      Released store.heap after.heap members := by
  induction members generalizing store head fuel with
  | nil =>
      obtain ⟨fuel, rfl⟩ := Nat.exists_eq_add_of_lt enough
      refine ⟨store, ?_, Released.nil _⟩
      rw [Prog.freeChain, if_pos (show head = null from linked)]
      rfl
  | cons address rest inductionHypothesis =>
      have distinct := linked.nodup
      obtain ⟨rfl, notNull, following, found, restLinked⟩ := linked
      obtain ⟨fuel, rfl⟩ : ∃ less, fuel = less + 1 := ⟨fuel - 1, by omega⟩
      obtain ⟨object, middle, live, erased, step⟩ := freeChain_step assigns notNull found fuel
      have middleLinked : Linked (linkBy next middle.heap) following rest := by
        apply Linked.congr restLinked
        intro other member
        rw [erased]
        apply linkBy_erase live
        rintro rfl
        exact (List.nodup_cons.mp distinct).1 member
      obtain ⟨after, ran, released⟩ := inductionHypothesis middleLinked (Nat.lt_of_succ_lt_succ enough)
      rw [erased] at released
      exact ⟨after, step.trans ran, released.cons live⟩

/-- Where the list leads to an object that is gone, the loop accesses it. -/
theorem freeChain_dangling (assigns : Assigns assign)
    (leads : Leads (linkBy next store.heap) last head members) (distinct : members.Nodup)
    (dead : store.heap.get? last = none) (notNull : last ≠ null) (enough : members.length < fuel) :
    Prog.freeChain assign next fuel head store = .error .invalidPointer := by
  induction members generalizing store head fuel with
  | nil =>
      obtain rfl : head = last := leads
      obtain ⟨fuel, rfl⟩ : ∃ less, fuel = less + 1 := ⟨fuel - 1, by omega⟩
      rw [Prog.freeChain, if_neg notNull]
      exact bind_error (load_dangling dead)
  | cons address rest inductionHypothesis =>
      obtain ⟨rfl, headNotNull, following, found, restLeads⟩ := leads
      obtain ⟨fuel, rfl⟩ : ∃ less, fuel = less + 1 := ⟨fuel - 1, by omega⟩
      obtain ⟨object, middle, live, erased, step⟩ := freeChain_step assigns headNotNull found fuel
      obtain ⟨headFresh, restDistinct⟩ := List.nodup_cons.mp distinct
      rw [step]
      apply inductionHypothesis _ restDistinct _ (Nat.lt_of_succ_lt_succ enough)
      · apply restLeads.congr
        intro other member
        rw [erased]
        apply linkBy_erase live
        rintro rfl
        exact headFresh member
      · rw [erased, Heap.get?_erase live]
        split
        · rfl
        · exact dead

/-- Chains none of whose entries is released are still there. -/
theorem forall₂_released {before after : Heap N}
    {firsts gone : List Ptr} {chains : List (List Ptr)}
    (linked : List.Forall₂ (Linked (linkBy next before)) firsts chains)
    (released : Released before after gone) (apart : ∀ address ∈ chains.flatten, address ∉ gone) :
    List.Forall₂ (Linked (linkBy next after)) firsts chains := by
  induction linked with
  | nil => exact List.Forall₂.nil
  | cons firstLinked restLinked inductionHypothesis =>
      rw [List.flatten_cons] at apart
      apply List.Forall₂.cons
      · apply firstLinked.released released
        exact fun address member => apart address (List.mem_append_left _ member)
      · exact inductionHypothesis fun address member => apart address (List.mem_append_right _ member)

/-- The loop over several lists: `for (; index < end; index += 1) if (first[index] != NULL) free it`. -/
def Prog.freeEach (firstAt : Nat → Prog N X Ptr) (freeAll : Ptr → Prog N X Unit) :
    (count : Nat) → (index : Nat) → Prog N X Unit
  | 0, _ => return ()
  | count + 1, index => do
      let first ← firstAt index
      if first = null then freeEach firstAt freeAll count (index + 1)
      else
        freeAll first
        freeEach firstAt freeAll count (index + 1)

/-- The loop over several lists frees the members of all of them.  What it reads the firsts from is kept. -/
theorem freeEach_ok {firstAt : Nat → Prog N X Ptr} {freeAll : Ptr → Prog N X Unit}
    {table : Store N X → Prop} {all : List Ptr}
    (reads : ∀ {store index first}, table store → all[index]? = some first →
      firstAt index store = .ok (first, store))
    (frees : ∀ {store first chain}, table store → Linked (linkBy next store.heap) first chain →
      ∃ after, freeAll first store = .ok ((), after) ∧ table after ∧ Released store.heap after.heap chain)
    {store : Store N X} {index : Nat} {firsts : List Ptr} {chains : List (List Ptr)} (holds : table store)
    (remaining : all.drop index = firsts)
    (linked : List.Forall₂ (Linked (linkBy next store.heap)) firsts chains)
    (distinct : chains.flatten.Nodup) :
    ∃ after, Prog.freeEach firstAt freeAll firsts.length index store = .ok ((), after) ∧ table after ∧
      Released store.heap after.heap chains.flatten := by
  induction chains generalizing store index firsts with
  | nil =>
      cases linked
      exact ⟨store, rfl, holds, Released.nil _⟩
  | cons chain chains inductionHypothesis =>
      cases linked
      rename_i first firsts firstLinked restLinked
      have isFirst : all[index]? = some first := by
        have heads := congrArg List.head? remaining
        rwa [List.head?_drop] at heads
      have rest : all.drop (index + 1) = firsts := by
        have tails := congrArg List.tail remaining
        rwa [List.tail_drop] at tails
      rw [List.length_cons, Prog.freeEach, bind_ok (reads holds isFirst)]
      rw [List.flatten_cons] at distinct
      obtain ⟨_, restDistinct, apart⟩ := List.nodup_append.mp distinct
      split
      · next isNull =>
          obtain rfl : chain = [] := by
            cases chain with
            | nil => rfl
            | cons address others => exact absurd (firstLinked.1.symm.trans isNull) firstLinked.2.1
          exact inductionHypothesis holds rest restLinked restDistinct
      · obtain ⟨freed, freeRan, stillHolds, released⟩ := frees holds firstLinked
        have chainsLeft : List.Forall₂ (Linked (linkBy next freed.heap)) firsts chains := by
          apply forall₂_released restLinked released
          intro address member inChain
          exact apart address inChain address member rfl
        obtain ⟨after, ran, afterHolds, restReleased⟩ :=
          inductionHypothesis stillHolds rest chainsLeft restDistinct
        refine ⟨after, ?_, afterHolds, ?_⟩
        · rw [bind_ok freeRan, ran]
        · rw [List.flatten_cons]
          exact released.append restReleased

end Chains

/-! ### Doubly linked objects -/

/-- The members by which objects are doubly linked. -/
structure Linking (N : Type) where
  next : N → Ptr
  previous : N → Ptr
  setNext : Ptr → N → N
  setPrevious : Ptr → N → N
  next_setPrevious : ∀ address object, next (setPrevious address object) = next object
  previous_setPrevious : ∀ address object, previous (setPrevious address object) = address

namespace Linking

variable (linking : Linking N)

def nextIn (heap : Heap N) (address : Ptr) : Option Ptr := (heap.get? address).map linking.next

def previousIn (heap : Heap N) (address : Ptr) : Option Ptr := (heap.get? address).map linking.previous

/-- `if (node->next != NULL) node->next->previous = node->previous;` -/
def unlinkNext (address : Ptr) : Prog N X Unit := do
  let object ← Prog.load address
  if linking.next object = null then return ()
  else
    Prog.modify (linking.next object) fun other =>
      .ok (linking.setPrevious (linking.previous object) other)

/-- `if (node->previous != NULL) node->previous->next = node->next;` -/
def unlinkPrevious (address : Ptr) : Prog N X Unit := do
  let object ← Prog.load address
  if linking.previous object = null then return ()
  else
    Prog.modify (linking.previous object) fun other =>
      .ok (linking.setNext (linking.next object) other)

/-- Both neighbours of an object are linked to one another. -/
def unlink (address : Ptr) : Prog N X Unit := do
  linking.unlinkNext address
  linking.unlinkPrevious address

/-- The addresses are the distinct objects of a doubly linked list. -/
def Listed (heap : Heap N) (addresses : List Ptr) : Prop :=
  addresses.Nodup ∧ Chain (linking.nextIn heap) (linking.previousIn heap) null addresses

variable {linking}

/-- What is linked depends on the listed objects only. -/
theorem Listed.congr {before after : Heap N} {addresses : List Ptr}
    (listed : linking.Listed before addresses)
    (same : ∀ address ∈ addresses, after.get? address = before.get? address) :
    linking.Listed after addresses := by
  refine ⟨listed.1, listed.2.congr ?_ ?_⟩
  · intro address member
    rw [nextIn, same address member, nextIn]
  · intro address member
    rw [previousIn, same address member, previousIn]

/-- The first object of a list is unlinked by a store to the second one. -/
theorem unlink_ok {store : Store N X} {first : Ptr} {rest : List Ptr}
    (listed : linking.Listed store.heap (first :: rest)) :
    ∃ heap, linking.unlink first store = .ok ((), { store with heap := heap }) ∧
      linking.Listed heap rest ∧ heap.get? first = store.heap.get? first ∧
      (heap = store.heap ∨ ∃ second object, second ∈ rest ∧ store.heap.get? second = some object ∧
        heap = store.heap.set second (linking.setPrevious null object)) := by
  obtain ⟨distinct, backward, forward, chained⟩ := listed
  obtain ⟨firstFresh, restDistinct⟩ := List.nodup_cons.mp distinct
  obtain ⟨object, live, isFirst⟩ := Option.map_eq_some_iff.mp backward
  have isNext : linking.next object = rest.headD null := by
    obtain ⟨same, sameLive, found⟩ := Option.map_eq_some_iff.mp forward
    obtain rfl := Option.some.inj (live.symm.trans sameLive)
    exact found
  have noPrevious : ∀ {heap : Heap N}, heap.get? first = some object →
      linking.unlinkPrevious first { store with heap := heap } = .ok ((), { store with heap := heap }) := by
    intro heap stillLive
    rw [unlinkPrevious, bind_ok (Prog.load_ok stillLive), if_pos isFirst]
    rfl
  cases rest with
  | nil =>
      refine ⟨store.heap, ?_, ⟨restDistinct, trivial⟩, rfl, Or.inl rfl⟩
      have atEnd : linking.next object = null := isNext
      have noNext : linking.unlinkNext first store = .ok ((), store) := by
        rw [unlinkNext, bind_ok (Prog.load_ok live), if_pos atEnd]
        rfl
      rw [unlink, bind_ok noNext, noPrevious live]
  | cons second others =>
      obtain ⟨secondBackward, secondForward, othersChained⟩ := chained
      obtain ⟨secondObject, secondLive, _⟩ := Option.map_eq_some_iff.mp secondBackward
      have different : first ≠ second := fun same => firstFresh (same ▸ List.mem_cons_self)
      have isSecond : linking.next object = second := isNext
      have stillLive : (store.heap.set second (linking.setPrevious null secondObject)).get? first =
          some object := by
        rw [Heap.get?_set secondLive, if_neg different, live]
      have redirected : linking.unlinkNext first store = .ok ((),
          { store with heap := store.heap.set second (linking.setPrevious null secondObject) }) := by
        rw [unlinkNext, bind_ok (Prog.load_ok live), isSecond, if_neg (Heap.ne_null_of_get? secondLive),
          isFirst, Prog.modify_pure_ok _ secondLive]
      refine ⟨store.heap.set second (linking.setPrevious null secondObject), ?_, ⟨restDistinct, ?_, ?_, ?_⟩,
        stillLive.trans live.symm,
        Or.inr ⟨second, secondObject, List.mem_cons_self, secondLive, rfl⟩⟩
      · rw [unlink, bind_ok redirected, noPrevious stillLive]
      · rw [previousIn, Heap.get?_set secondLive, if_pos rfl, Option.map_some,
          linking.previous_setPrevious]
      · rw [nextIn, Heap.get?_set secondLive, if_pos rfl, Option.map_some, linking.next_setPrevious]
        rw [nextIn, secondLive, Option.map_some] at secondForward
        exact secondForward
      · have apart : ∀ address ∈ others, address ≠ second := by
          rintro address member rfl
          exact (List.nodup_cons.mp restDistinct).1 member
        apply othersChained.congr
        · intro address member
          rw [nextIn, Heap.get?_set secondLive, if_neg (apart address member), nextIn]
        · intro address member
          rw [previousIn, Heap.get?_set secondLive, if_neg (apart address member), previousIn]

end Linking

end StoredsBench.Lib
