/-
Module: StoredsBench.Lib.LinkedList
Layer: Lib
Purpose: Linked lists as they lie in memory.  `Chain` says that a list of addresses is linked in
  order by the `next` and `previous` pointers, with null pointers at the ends; linking a fresh
  address in behind a member keeps it a chain.  `Linked` and `LinkedAfter` say the same of lists
  with a `next` pointer only, entered through a pointer or from a node, and `Leads` of a part of
  such a list.
Trusted boundary: none
Main exports: Chain, Chain.congr, Chain.behind, Chain.next_of_split, Chain.insertAfter, Leads,
  Linked, LinkedAfter, LinkedAfter.splice, LinkedAfter.unsplice
-/
import StoredsBench.Lib.Memory

namespace StoredsBench.Lib

/-- The addresses are linked in order; the first one points back to `origin`, the last one forward
to the null pointer. -/
def Chain (next previous : Nat → Option Nat) : (origin : Nat) → List Nat → Prop
  | _, [] => True
  | origin, address :: rest =>
      previous address = some origin ∧ next address = some (rest.headD null) ∧
        Chain next previous address rest

namespace Chain

variable {next previous next' previous' : Nat → Option Nat} {origin : Nat}

/-- Pointers that agree wherever there were some before. -/
theorem mono (nextKept : ∀ {address target : Nat}, next address = some target →
      next' address = some target)
    (previousKept : ∀ {address target : Nat}, previous address = some target →
      previous' address = some target) :
    ∀ {origin : Nat} {addresses : List Nat}, Chain next previous origin addresses →
      Chain next' previous' origin addresses
  | _, [], _ => trivial
  | _, _ :: _, ⟨backward, forward, rest⟩ =>
      ⟨previousKept backward, nextKept forward, mono nextKept previousKept rest⟩

/-- Only the pointers of the members matter. -/
theorem congr : ∀ {members : List Nat} {origin : Nat}, Chain next previous origin members →
    (∀ address ∈ members, next' address = next address) →
    (∀ address ∈ members, previous' address = previous address) →
    Chain next' previous' origin members
  | [], _, _, _, _ => trivial
  | address :: rest, origin, ⟨back, forward, chain⟩, sameNext, samePrevious =>
      ⟨by rw [samePrevious address (by simp), back], by rw [sameNext address (by simp), forward],
        chain.congr (fun other member => sameNext other (List.mem_cons_of_mem _ member))
          fun other member => samePrevious other (List.mem_cons_of_mem _ member)⟩

theorem exists_previous : ∀ {members : List Nat} {origin : Nat},
    Chain next previous origin members → ∀ address ∈ members, ∃ other, previous address = some other
  | address :: rest, origin, ⟨backward, _, chain⟩, other, member => by
      rcases List.mem_cons.mp member with rfl | later
      · exact ⟨origin, backward⟩
      · exact chain.exists_previous other later

/-- What lies behind a prefix of the list is linked itself. -/
theorem behind : ∀ {front : List Nat} {origin : Nat} {back : List Nat},
    Chain next previous origin (front ++ back) → ∃ other, Chain next previous other back
  | [], origin, _, chain => ⟨origin, chain⟩
  | _ :: _, _, _, ⟨_, _, chain⟩ => chain.behind

/-- The pointer out of a member leads to the member behind it. -/
theorem next_of_split : ∀ {front : List Nat} {origin address : Nat} {back : List Nat},
    Chain next previous origin (front ++ address :: back) →
      next address = some (back.headD null)
  | [], _, _, _, ⟨_, forward, _⟩ => forward
  | _ :: _, _, _, _, ⟨_, _, chain⟩ => chain.next_of_split

/-- Linking `fresh` in behind `address` changes four pointers and keeps the chain. -/
theorem insertAfter {address fresh : Nat} {back : List Nat}
    (nextAddress : next' address = some fresh) (nextFresh : next' fresh = some (back.headD null))
    (previousFresh : previous' fresh = some address)
    (previousBack : ∀ first, back.head? = some first → previous' first = some fresh) :
    ∀ {front : List Nat} {origin : Nat}, Chain next previous origin (front ++ address :: back) →
      (∀ other ∈ front ++ back, next' other = next other) →
      (∀ other ∈ front ++ address :: back.tail, previous' other = previous other) →
      Chain next' previous' origin (front ++ address :: fresh :: back)
  | [], origin, ⟨backward, forward, chain⟩, sameNext, samePrevious => by
      refine ⟨by rw [samePrevious address (by simp), backward], nextAddress, previousFresh,
        nextFresh, ?_⟩
      cases back with
      | nil => trivial
      | cons first rest =>
          obtain ⟨_, firstForward, restChain⟩ := chain
          exact ⟨previousBack first rfl, by rw [sameNext first (by simp), firstForward],
            restChain.congr (fun other member => sameNext other (by simp [member]))
              fun other member => samePrevious other (by simp [member])⟩
  | first :: front, origin, ⟨backward, forward, chain⟩, sameNext, samePrevious => by
      refine ⟨by rw [samePrevious first (by simp), backward], ?_, ?_⟩
      · rw [sameNext first (by simp), forward]
        cases front <;> rfl
      · exact insertAfter nextAddress nextFresh previousFresh previousBack chain
          (fun other member => sameNext other (List.mem_cons_of_mem first member))
          fun other member => samePrevious other (List.mem_cons_of_mem first member)

end Chain

/-! ### Singly linked lists -/

/-- From the pointer `first` on the members are linked in order; the last pointer is `last`. -/
def Leads (next : Nat → Option Nat) (last : Nat) : (first : Nat) → List Nat → Prop
  | first, [] => first = last
  | first, address :: rest =>
      first = address ∧ address ≠ null ∧
        ∃ following, next address = some following ∧ Leads next last following rest

/-- From the pointer `first` on the members are linked in order; the last pointer is null. -/
def Linked (next : Nat → Option Nat) (first : Nat) (members : List Nat) : Prop :=
  Leads next null first members

/-- The members are linked in order behind the node `origin`. -/
def LinkedAfter (next : Nat → Option Nat) (origin : Nat) (members : List Nat) : Prop :=
  ∃ first, next origin = some first ∧ Linked next first members

section SinglyLinked

variable {next next' : Nat → Option Nat} {first origin fresh address : Nat}
  {members before after : List Nat}

theorem Leads.congr {last : Nat} (leads : Leads next last first members)
    (same : ∀ address ∈ members, next' address = next address) : Leads next' last first members := by
  induction members generalizing first with
  | nil => exact leads
  | cons address rest inductionHypothesis =>
      obtain ⟨rfl, notNull, following, found, restLeads⟩ := leads
      refine ⟨rfl, notNull, following, ?_, ?_⟩
      · rw [same first List.mem_cons_self, found]
      · exact inductionHypothesis restLeads fun other member =>
          same other (List.mem_cons_of_mem _ member)

theorem leads_append {last : Nat} : Leads next last first (before ++ after) ↔
    ∃ between, Leads next between first before ∧ Leads next last between after := by
  induction before generalizing first with
  | nil =>
      constructor
      · exact fun leads => ⟨first, rfl, leads⟩
      · rintro ⟨between, rfl, leads⟩
        exact leads
  | cons address rest inductionHypothesis =>
      constructor
      · rintro ⟨rfl, notNull, following, found, leads⟩
        obtain ⟨between, restLeads, afterLeads⟩ := inductionHypothesis.mp leads
        exact ⟨between, ⟨rfl, notNull, following, found, restLeads⟩, afterLeads⟩
      · rintro ⟨between, ⟨rfl, notNull, following, found, restLeads⟩, afterLeads⟩
        exact ⟨rfl, notNull, following, found, inductionHypothesis.mpr ⟨between, restLeads, afterLeads⟩⟩

/-- A list that leads to `last` leads to every earlier member first. -/
theorem Leads.reach {last : Nat} (leads : Leads next last first members)
    (split : members ++ [last] = before ++ address :: after) : Leads next address first before := by
  induction before generalizing first members with
  | nil =>
      cases members with
      | nil =>
          obtain rfl : first = last := leads
          exact (List.cons.inj split).1
      | cons head rest => exact leads.1.trans (List.cons.inj split).1
  | cons other before inductionHypothesis =>
      cases members with
      | nil =>
          have length := congrArg List.length split
          simp at length
      | cons head rest =>
          obtain ⟨rfl, restSplit⟩ := List.cons.inj split
          obtain ⟨same, notNull, following, found, restLeads⟩ := leads
          exact ⟨same, notNull, following, found, inductionHypothesis restLeads restSplit⟩

/-- The pointers determine the members before `last`. -/
theorem Leads.unique {last : Nat} {others : List Nat} (leads : Leads next last first members)
    (otherLeads : Leads next last first others) (apart : last ∉ members) (otherApart : last ∉ others) :
    members = others := by
  induction members generalizing first others with
  | nil =>
      obtain rfl : first = last := leads
      cases others with
      | nil => rfl
      | cons address rest =>
          obtain ⟨rfl, _⟩ := otherLeads
          exact absurd List.mem_cons_self otherApart
  | cons address rest inductionHypothesis =>
      obtain ⟨rfl, _, following, found, restLeads⟩ := leads
      cases others with
      | nil =>
          obtain rfl : first = last := otherLeads
          exact absurd List.mem_cons_self apart
      | cons other otherRest =>
          obtain ⟨rfl, _, otherFollowing, otherFound, otherRestLeads⟩ := otherLeads
          obtain rfl : following = otherFollowing := Option.some.inj (found.symm.trans otherFound)
          rw [inductionHypothesis restLeads otherRestLeads
            (fun member => apart (List.mem_cons_of_mem _ member))
            fun member => otherApart (List.mem_cons_of_mem _ member)]

/-- Links out of a list lead to its members and to the end. -/
theorem Leads.mem_of_linked {last : Nat} {all : List Nat} (leads : Leads next last first members)
    (linked : Linked next first all) : last = null ∨ last ∈ all := by
  induction members generalizing first all with
  | nil =>
      obtain rfl : first = last := leads
      cases all with
      | nil => exact Or.inl linked
      | cons address rest =>
          apply Or.inr
          rw [linked.1]
          exact List.mem_cons_self
  | cons address rest inductionHypothesis =>
      obtain ⟨rfl, notNull, following, found, restLeads⟩ := leads
      cases all with
      | nil => exact absurd linked notNull
      | cons head others =>
          obtain ⟨rfl, _, next, otherFound, othersLinked⟩ := linked
          obtain rfl : following = next := Option.some.inj (found.symm.trans otherFound)
          rcases inductionHypothesis restLeads othersLinked with isNull | member
          · exact Or.inl isNull
          · exact Or.inr (List.mem_cons_of_mem _ member)

theorem Linked.congr (linked : Linked next first members)
    (same : ∀ address ∈ members, next' address = next address) : Linked next' first members :=
  Leads.congr linked same

theorem Linked.eq_headD (linked : Linked next first members) : first = members.headD null := by
  cases members with
  | nil => exact linked
  | cons address rest => exact linked.1

theorem Linked.ne_null (linked : Linked next first members) :
    ∀ address ∈ members, address ≠ null := by
  induction members generalizing first with
  | nil =>
      intro address member
      cases member
  | cons head rest inductionHypothesis =>
      obtain ⟨rfl, notNull, following, _, restLinked⟩ := linked
      intro address member
      rcases List.mem_cons.mp member with rfl | later
      · exact notNull
      · exact inductionHypothesis restLinked address later

/-- The pointer of the last member is null. -/
theorem linked_append_singleton : Linked next first (before ++ [address]) ↔
    Leads next address first before ∧ address ≠ null ∧ next address = some null := by
  constructor
  · intro linked
    obtain ⟨between, leads, rfl, notNull, following, found, isNull⟩ := leads_append.mp linked
    have followingNull : following = null := isNull
    rw [followingNull] at found
    exact ⟨leads, notNull, found⟩
  · rintro ⟨leads, notNull, found⟩
    exact leads_append.mpr ⟨address, leads, rfl, notNull, null, found, rfl⟩

/-- A list with one member more than there are before `last` ends with `last`. -/
theorem Leads.next_last {last : Nat} {all : List Nat} (leads : Leads next last first members)
    (linked : Linked next first all) (one : all.length = members.length + 1) :
    next last = some null := by
  induction members generalizing first all with
  | nil =>
      obtain rfl : first = last := leads
      obtain ⟨address, rfl⟩ := List.length_eq_one_iff.mp one
      obtain ⟨rfl, _, following, found, isNull⟩ := linked
      have followingNull : following = null := isNull
      rw [found, followingNull]
  | cons address rest inductionHypothesis =>
      obtain ⟨rfl, _, following, found, restLeads⟩ := leads
      cases all with
      | nil => cases one
      | cons head others =>
          obtain ⟨rfl, _, otherFollowing, otherFound, othersLinked⟩ := linked
          obtain rfl := Option.some.inj (found.symm.trans otherFound)
          exact inductionHypothesis restLeads othersLinked (Nat.succ.inj one)

theorem linkedAfter_nil : LinkedAfter next origin [] ↔ next origin = some null := by
  constructor
  · rintro ⟨first, found, isNull⟩
    rw [found, isNull]
  · intro found
    exact ⟨null, found, rfl⟩

theorem linkedAfter_cons : LinkedAfter next origin (address :: members) ↔
    next origin = some address ∧ address ≠ null ∧ LinkedAfter next address members := by
  constructor
  · rintro ⟨first, found, rfl, notNull, restLinked⟩
    exact ⟨found, notNull, restLinked⟩
  · rintro ⟨found, notNull, restLinked⟩
    exact ⟨address, found, rfl, notNull, restLinked⟩

namespace LinkedAfter

/-- The pointer out of the origin leads to the first member. -/
theorem next_origin (linked : LinkedAfter next origin members) :
    next origin = some (members.headD null) := by
  obtain ⟨first, found, rest⟩ := linked
  rw [found, rest.eq_headD]

theorem congr (linked : LinkedAfter next origin members)
    (same : ∀ address ∈ origin :: members, next' address = next address) :
    LinkedAfter next' origin members := by
  obtain ⟨first, found, rest⟩ := linked
  refine ⟨first, ?_, ?_⟩
  · rw [same origin List.mem_cons_self, found]
  · exact rest.congr fun address member => same address (List.mem_cons_of_mem _ member)

/-- What lies behind a prefix is linked behind the last member of the prefix. -/
theorem behind (linked : LinkedAfter next origin (before ++ after)) :
    LinkedAfter next (before.getLastD origin) after := by
  induction before generalizing origin with
  | nil => exact linked
  | cons address rest inductionHypothesis =>
      rw [List.getLastD_cons]
      exact inductionHypothesis (linkedAfter_cons.mp linked).2.2

theorem getLastD_mem (origin : Nat) (before : List Nat) :
    before.getLastD origin ∈ origin :: before := by
  induction before generalizing origin with
  | nil => exact List.mem_cons_self
  | cons address rest inductionHypothesis =>
      rw [List.getLastD_cons]
      exact List.mem_cons_of_mem _ (inductionHypothesis address)

/-- Behind every member of a prefix lies the rest of it. -/
theorem from_member (linked : LinkedAfter next origin (before ++ after))
    (member : address ∈ origin :: before) :
    ∃ between, between.Sublist before ∧ between.getLastD address = before.getLastD origin ∧
      LinkedAfter next address (between ++ after) := by
  induction before generalizing origin with
  | nil =>
      obtain rfl := List.mem_singleton.mp member
      exact ⟨[], List.Sublist.refl _, rfl, linked⟩
  | cons head rest inductionHypothesis =>
      rcases List.mem_cons.mp member with rfl | later
      · exact ⟨head :: rest, List.Sublist.refl _, rfl, linked⟩
      · obtain ⟨between, sublist, last, betweenLinked⟩ :=
          inductionHypothesis (linkedAfter_cons.mp linked).2.2 later
        refine ⟨between, sublist.cons head, ?_, betweenLinked⟩
        rw [last, List.getLastD_cons]

/-- A fresh node linked in at a place of the list: its own pointer takes over the one of the node
before it. -/
theorem splice (linked : LinkedAfter next origin (before ++ after))
    (nextPrevious : next' (before.getLastD origin) = some fresh)
    (nextFresh : next' fresh = next (before.getLastD origin)) (notNull : fresh ≠ null)
    (same : ∀ address ∈ origin :: (before ++ after), address ≠ before.getLastD origin →
      next' address = next address)
    (distinct : (origin :: (before ++ after)).Nodup) :
    LinkedAfter next' origin (before ++ fresh :: after) := by
  induction before generalizing origin with
  | nil =>
      refine linkedAfter_cons.mpr ⟨nextPrevious, notNull, ?_⟩
      obtain ⟨first, found, rest⟩ := linked
      refine ⟨first, nextFresh.trans found, rest.congr fun address member => ?_⟩
      apply same address (List.mem_cons_of_mem _ member)
      rintro rfl
      exact (List.nodup_cons.mp distinct).1 member
  | cons address rest inductionHypothesis =>
      obtain ⟨originFresh, restDistinct⟩ := List.nodup_cons.mp distinct
      obtain ⟨found, addressNotNull, restLinked⟩ := linkedAfter_cons.mp linked
      rw [List.getLastD_cons] at nextPrevious nextFresh same
      have different : origin ≠ rest.getLastD address := by
        intro isLast
        have member := getLastD_mem address rest
        rw [← isLast] at member
        exact originFresh (List.mem_append_left after member)
      refine linkedAfter_cons.mpr ⟨?_, addressNotNull, ?_⟩
      · rw [same origin List.mem_cons_self different, found]
      · exact inductionHypothesis restLinked nextPrevious nextFresh
          (fun other member => same other (List.mem_cons_of_mem _ member)) restDistinct

/-- A member taken out of the list: the node before it takes over its pointer. -/
theorem unsplice (linked : LinkedAfter next origin (before ++ address :: after))
    (nextPrevious : next' (before.getLastD origin) = next address)
    (same : ∀ other ∈ origin :: (before ++ after), other ≠ before.getLastD origin →
      next' other = next other)
    (distinct : (origin :: (before ++ after)).Nodup) :
    LinkedAfter next' origin (before ++ after) := by
  induction before generalizing origin with
  | nil =>
      obtain ⟨_, _, first, found, rest⟩ := linkedAfter_cons.mp linked
      refine ⟨first, nextPrevious.trans found, rest.congr fun other member => ?_⟩
      apply same other (List.mem_cons_of_mem _ member)
      rintro rfl
      exact (List.nodup_cons.mp distinct).1 member
  | cons head rest inductionHypothesis =>
      obtain ⟨originFresh, restDistinct⟩ := List.nodup_cons.mp distinct
      obtain ⟨found, headNotNull, restLinked⟩ := linkedAfter_cons.mp linked
      rw [List.getLastD_cons] at nextPrevious same
      have different : origin ≠ rest.getLastD head := by
        intro isLast
        have member := getLastD_mem head rest
        rw [← isLast] at member
        exact originFresh (List.mem_append_left after member)
      refine linkedAfter_cons.mpr ⟨?_, headNotNull, ?_⟩
      · rw [same origin List.mem_cons_self different, found]
      · exact inductionHypothesis restLinked nextPrevious
          (fun other member => same other (List.mem_cons_of_mem _ member)) restDistinct

end LinkedAfter

end SinglyLinked

end StoredsBench.Lib
