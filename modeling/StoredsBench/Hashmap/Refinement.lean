/-
Module: StoredsBench.Hashmap.Refinement
Layer: Refinement
Purpose: The heap of an `HtDram` shows one chain of cells for every bucket, each cell in the bucket of
  its key; `insert` changes the chain of its key and no other.
Trusted boundary: none
Main exports: home, Holds, findNode_ok, insert_ok
-/
import StoredsBench.Hashmap.Dram
import StoredsBench.Lists.Refinement

namespace StoredsBench.Hashmap

open Lib Lib.SortedAssoc Lists

/-- The bucket of a key. -/
def home (coefficients : HashCoefficients) (key : Key) : Nat :=
  (HtDram.hashFunction coefficients key).toNat

theorem home_lt (coefficients : HashCoefficients) (key : Key) :
    home coefficients key < coefficients.nbuckets.toNat := by
  have positive : 0 < coefficients.nbuckets.toNat :=
    UInt64.lt_iff_toNat_lt.mp coefficients.nbuckets_pos
  rw [home, HtDram.hashFunction, UInt64.toNat_mod]
  exact Nat.mod_lt _ positive

/-- The chains the buckets lead to: linked up to a null pointer, with the entries of their cells, and
every key at most once and in its own bucket. -/
structure Holds (coefficients : HashCoefficients) (bucket : List Ptr) (store : HtDram)
    (chains : Nat → List Cell) : Prop where
  table : store.aux = some { coefficients := coefficients, bucket := bucket }
  linked : ∀ index < coefficients.nbuckets.toNat, ∃ first, bucket[index]? = some first ∧
    Linked (nextAt store.heap) first (labels (chains index))
  shown : ∀ index, ∀ cell ∈ chains index, entryAt store.heap cell.label = some cell.entry
  placed : ∀ index, ∀ cell ∈ chains index, home coefficients cell.entry.1 = index
  distinct : ∀ index, (chains index).Pairwise fun cell other => cell.entry.1 ≠ other.entry.1

namespace Holds

variable {coefficients : HashCoefficients} {bucket : List Ptr} {store : HtDram}
  {chains : Nat → List Cell} {key : Key}

theorem check_ok (holds : Holds coefficients bucket store chains) :
    HtDram.check store = .ok ({ coefficients := coefficients, bucket := bucket }, store) := by
  have root : Prog.getAux store =
      .ok (some { coefficients := coefficients, bucket := bucket }, store) := by
    rw [Prog.getAux_ok, holds.table]
  rw [HtDram.check, bind_ok root]
  rfl

/-- Cells with different keys are different nodes. -/
theorem label_ne (holds : Holds coefficients bucket store chains) {index otherIndex : Nat}
    {cell other : Cell} (member : cell ∈ chains index) (otherMember : other ∈ chains otherIndex)
    (different : cell.entry.1 ≠ other.entry.1) : cell.label ≠ other.label := by
  intro same
  have shown := holds.shown index cell member
  rw [same, holds.shown otherIndex other otherMember, Option.some.injEq] at shown
  exact different (congrArg Prod.fst shown).symm

theorem labels_nodup (holds : Holds coefficients bucket store chains) (index : Nat) :
    (labels (chains index)).Nodup := by
  rw [labels, List.nodup_iff_pairwise_ne, List.pairwise_map]
  apply (holds.distinct index).imp_of_mem
  intro cell other member otherMember different
  exact holds.label_ne member otherMember different

theorem label_bounds (holds : Holds coefficients bucket store chains) {index : Nat} {cell : Cell}
    (member : cell ∈ chains index) : 0 < cell.label ∧ cell.label ≤ store.heap.size :=
  bounds_of_entry (holds.shown index cell member)

/-- No chain is longer than the number of allocated objects. -/
theorem length_le (holds : Holds coefficients bucket store chains) (index : Nat) :
    (chains index).length ≤ store.heap.size := by
  have bound : (labels (chains index)).length ≤ store.heap.size := by
    apply Heap.length_le_size (holds.labels_nodup index)
    intro label member
    obtain ⟨cell, cellMember, rfl⟩ := List.mem_map.mp member
    exact holds.label_bounds cellMember
  rwa [labels, List.length_map] at bound

/-- The pointer in the bucket of a key. -/
theorem bucketAt_ok (holds : Holds coefficients bucket store chains) (key : Key) :
    ∃ first, HtDram.bucketAt { coefficients := coefficients, bucket := bucket }
        (HtDram.hashFunction coefficients key) = .ok first ∧
      Linked (nextAt store.heap) first (labels (chains (home coefficients key))) := by
  obtain ⟨first, found, linked⟩ := holds.linked _ (home_lt coefficients key)
  refine ⟨first, ?_, linked⟩
  have atHome : bucket[(HtDram.hashFunction coefficients key).toNat]? = some first := found
  simp only [HtDram.bucketAt, atHome]

/-- The search through the chain of a key ends at the cell of the key, or at its end. -/
theorem findNode_ok (holds : Holds coefficients bucket store chains) (key : Key) {first : Nat}
    (linked : Linked (nextAt store.heap) first (labels (chains (home coefficients key)))) :
    (∃ before cell after, chains (home coefficients key) = before ++ cell :: after ∧
        (∀ other ∈ before, other.entry.1 ≠ key) ∧ cell.entry.1 = key ∧
        findNode key (store.heap.size + 1) first store = .ok (cell.label, store)) ∨
      ((∀ cell ∈ chains (home coefficients key), cell.entry.1 ≠ key) ∧
        findNode key (store.heap.size + 1) first store = .ok (null, store)) := by
  have shown := holds.shown (home coefficients key)
  have bound := holds.length_le (home coefficients key)
  rcases exists_first key (chains (home coefficients key)) with
    ⟨before, cell, after, split, different, same⟩ | different
  · rw [split] at shown bound linked
    rw [labels, List.map_append] at linked
    obtain ⟨between, leads, rest⟩ := leads_append.mp linked
    obtain rfl : between = cell.label := rest.1
    refine Or.inl ⟨before, cell, after, split, different, same, ?_⟩
    apply findNode_found leads
    · exact fun other member => shown other (List.mem_append_left _ member)
    · exact shown cell (List.mem_append_right _ List.mem_cons_self)
    · exact different
    · exact same
    · rw [List.length_append, List.length_cons] at bound
      omega
  · exact Or.inr ⟨different, findNode_missing linked shown different (by omega)⟩

end Holds

/-! ### Inserting -/

section Inserting

variable {coefficients : HashCoefficients} {bucket : List Ptr} {store : HtDram}
  {chains : Nat → List Cell} {key : Key}

/-- The value of a stored key is overwritten. -/
theorem update_ok (holds : Holds coefficients bucket store chains) {before after : List Cell}
    {cell : Cell} (split : chains (home coefficients cell.entry.1) = before ++ cell :: after)
    (value : Value) :
    ∃ next, setValue value cell.label store = .ok ((), next) ∧
      Holds coefficients bucket next
        (Function.update chains (home coefficients cell.entry.1)
          (before ++ { cell with entry := (cell.entry.1, value) } :: after)) := by
  have member : cell ∈ chains (home coefficients cell.entry.1) := by
    rw [split]
    exact List.mem_append_right _ List.mem_cons_self
  obtain ⟨next, ran, kept, nexts, shown⟩ :=
    setValue_ok (holds.shown _ cell member) value
  have distinct := holds.distinct (home coefficients cell.entry.1)
  rw [split, List.pairwise_append, List.pairwise_cons] at distinct
  obtain ⟨beforeDistinct, ⟨cellDistinct, afterDistinct⟩, across⟩ := distinct
  -- the cells beside the updated one have other keys
  have others : ∀ index, ∀ other ∈ chains index, other.entry.1 ≠ cell.entry.1 →
      entryAt next.heap other.label = some other.entry := by
    intro index other otherMember different
    rw [shown, Function.update_of_ne (holds.label_ne otherMember member different)]
    exact holds.shown index other otherMember
  refine ⟨next, ran, ?_⟩
  constructor
  · rw [kept.aux, holds.table]
  · intro index inside
    obtain ⟨first, found, linked⟩ := holds.linked index inside
    refine ⟨first, found, ?_⟩
    rw [nexts]
    by_cases isHome : index = home coefficients cell.entry.1
    · subst isHome
      rw [split] at linked
      rw [Function.update_self]
      simpa only [labels, List.map_append, List.map_cons] using linked
    · rw [Function.update_of_ne isHome]
      exact linked
  · intro index other otherMember
    by_cases isHome : index = home coefficients cell.entry.1
    · subst isHome
      rw [Function.update_self] at otherMember
      rcases List.mem_append.mp otherMember with inBefore | later
      · apply others (home coefficients cell.entry.1) other
        · rw [split]
          exact List.mem_append_left _ inBefore
        · exact across other inBefore cell List.mem_cons_self
      · rcases List.mem_cons.mp later with rfl | inAfter
        · rw [shown, Function.update_self]
        · apply others (home coefficients cell.entry.1) other
          · rw [split]
            exact List.mem_append_right _ (List.mem_cons_of_mem _ inAfter)
          · exact (cellDistinct other inAfter).symm
    · rw [Function.update_of_ne isHome] at otherMember
      apply others index other otherMember
      intro same
      rw [← same, holds.placed index other otherMember] at isHome
      exact isHome rfl
  · intro index other otherMember
    by_cases isHome : index = home coefficients cell.entry.1
    · subst isHome
      rw [Function.update_self] at otherMember
      rcases List.mem_append.mp otherMember with inBefore | later
      · apply holds.placed _ other
        rw [split]
        exact List.mem_append_left _ inBefore
      · rcases List.mem_cons.mp later with rfl | inAfter
        · rfl
        · apply holds.placed _ other
          rw [split]
          exact List.mem_append_right _ (List.mem_cons_of_mem _ inAfter)
    · rw [Function.update_of_ne isHome] at otherMember
      exact holds.placed index other otherMember
  · intro index
    by_cases isHome : index = home coefficients cell.entry.1
    · subst isHome
      rw [Function.update_self, List.pairwise_append, List.pairwise_cons]
      refine ⟨beforeDistinct, ⟨cellDistinct, afterDistinct⟩, ?_⟩
      intro low lowMember high highMember
      rcases List.mem_cons.mp highMember with rfl | inAfter
      · exact across low lowMember cell List.mem_cons_self
      · exact across low lowMember high (List.mem_cons_of_mem _ inAfter)
    · rw [Function.update_of_ne isHome]
      exact holds.distinct index

/-- A new entry, with a pointer to another new object. -/
theorem newEntry_ok (store : HtDram) (key : Key) (value : Value) :
    ∃ next, HtDram.newEntry key value store = .ok (store.heap.size + 1, next) ∧
      next.aux = store.aux ∧
      (∀ address ≤ store.heap.size, nextAt next.heap address = nextAt store.heap address) ∧
      entryAt next.heap (store.heap.size + 1) = some (key, value) ∧
      ∀ address ≤ store.heap.size, entryAt next.heap address = entryAt store.heap address := by
  obtain ⟨one, two, oneRan, twoRan, _, twoAux, twoSize, twoNexts, twoShown⟩ :=
    newNode_ok store key value
  obtain ⟨three, threeEq⟩ : ∃ three : HtDram,
      three = { two with heap := two.heap.push ListNode.unwritten } := ⟨_, rfl⟩
  have allocated : Prog.malloc ListNode.unwritten two = .ok (two.heap.size + 1, three) := by
    rw [threeEq]
    rfl
  have threeNexts : nextAt three.heap = Function.update (nextAt two.heap) (two.heap.size + 1) none := by
    rw [threeEq, nextAt_push]
  have threeShown : entryAt three.heap =
      Function.update (entryAt two.heap) (two.heap.size + 1) none := by
    rw [threeEq, entryAt_push]
  have entryThree : entryAt three.heap (store.heap.size + 1) = some (key, value) := by
    rw [threeShown, Function.update_of_ne (by omega), twoShown, Function.update_self]
  obtain ⟨node, live, _⟩ := exists_entry entryThree
  obtain ⟨next, ran, kept, nexts, shown⟩ := setNext_ok live (two.heap.size + 1)
  refine ⟨next, ?_, ?_, ?_, ?_, ?_⟩
  · rw [HtDram.newEntry, bind_ok oneRan, bind_ok twoRan, bind_ok allocated, bind_ok ran]
    rfl
  · rw [kept.aux, threeEq, twoAux]
  · intro address old
    rw [nexts, Function.update_of_ne (by omega), threeNexts, Function.update_of_ne (by omega),
      twoNexts, Function.update_of_ne (by omega)]
  · rw [shown, entryThree]
  · intro address old
    rw [shown, threeShown, Function.update_of_ne (by omega), twoShown,
      Function.update_of_ne (by omega)]

/-- A new entry `fresh` at the front of the chain of a key that is not stored. -/
theorem Holds.push (holds : Holds coefficients bucket store chains) {first fresh : Ptr}
    (linked : Linked (nextAt store.heap) first (labels (chains (home coefficients key))))
    (missing : ∀ cell ∈ chains (home coefficients key), cell.entry.1 ≠ key) {value : Value}
    {after : HtDram} (notNull : fresh ≠ null)
    (table : after.aux = some ⟨coefficients, bucket.set (home coefficients key) fresh⟩)
    (next : nextAt after.heap fresh = some first)
    (entry : entryAt after.heap fresh = some (key, value))
    (oldNext : ∀ address ≤ store.heap.size, nextAt after.heap address = nextAt store.heap address)
    (oldEntry : ∀ address ≤ store.heap.size, entryAt after.heap address = entryAt store.heap address) :
    Holds coefficients (bucket.set (home coefficients key) fresh) after
      (Function.update chains (home coefficients key)
        (⟨fresh, (key, value)⟩ :: chains (home coefficients key))) := by
  obtain ⟨atHome, atHomeFound, _⟩ := holds.linked _ (home_lt coefficients key)
  have inside : home coefficients key < bucket.length :=
    (List.getElem?_eq_some_iff.mp atHomeFound).1
  -- the old cells do not change
  have oldLinked : ∀ {pointer index : Nat},
      Linked (nextAt store.heap) pointer (labels (chains index)) →
      Linked (nextAt after.heap) pointer (labels (chains index)) := by
    intro pointer index linked
    apply linked.congr
    intro address member
    obtain ⟨cell, cellMember, rfl⟩ := List.mem_map.mp member
    exact oldNext cell.label (holds.label_bounds cellMember).2
  have oldShown : ∀ index, ∀ cell ∈ chains index,
      entryAt after.heap cell.label = some cell.entry := by
    intro index cell member
    rw [oldEntry cell.label (holds.label_bounds member).2]
    exact holds.shown index cell member
  constructor
  · exact table
  · intro index indexInside
    by_cases isHome : index = home coefficients key
    · subst isHome
      refine ⟨fresh, ?_, ?_⟩
      · rw [List.getElem?_set_self]
        exact inside
      · rw [Function.update_self]
        exact ⟨rfl, notNull, first, next, oldLinked linked⟩
    · obtain ⟨pointer, found, indexLinked⟩ := holds.linked index indexInside
      refine ⟨pointer, ?_, ?_⟩
      · rw [List.getElem?_set_ne (Ne.symm isHome), found]
      · rw [Function.update_of_ne isHome]
        exact oldLinked indexLinked
  · intro index cell member
    by_cases isHome : index = home coefficients key
    · subst isHome
      rw [Function.update_self] at member
      rcases List.mem_cons.mp member with rfl | inChain
      · exact entry
      · exact oldShown _ cell inChain
    · rw [Function.update_of_ne isHome] at member
      exact oldShown index cell member
  · intro index cell member
    by_cases isHome : index = home coefficients key
    · subst isHome
      rw [Function.update_self] at member
      rcases List.mem_cons.mp member with rfl | inChain
      · rfl
      · exact holds.placed _ cell inChain
    · rw [Function.update_of_ne isHome] at member
      exact holds.placed index cell member
  · intro index
    by_cases isHome : index = home coefficients key
    · subst isHome
      rw [Function.update_self]
      exact List.pairwise_cons.mpr
        ⟨fun cell member => (missing cell member).symm, holds.distinct _⟩
    · rw [Function.update_of_ne isHome]
      exact holds.distinct index

theorem Holds.setBucket_ok (holds : Holds coefficients bucket store chains) (key : Key) (entry : Ptr)
    (other : HtDram) :
    HtDram.setBucket { coefficients := coefficients, bucket := bucket }
        (HtDram.hashFunction coefficients key) entry other =
      .ok ((), { other with
        aux := some ⟨coefficients, bucket.set (home coefficients key) entry⟩ }) := by
  obtain ⟨atHome, atHomeFound, _⟩ := holds.linked _ (home_lt coefficients key)
  have inside : (HtDram.hashFunction coefficients key).toNat < bucket.length :=
    (List.getElem?_eq_some_iff.mp atHomeFound).1
  rw [HtDram.setBucket, if_pos inside]
  rfl

/-- A key that is not stored gets a new entry at the front of its chain. -/
theorem push_ok (holds : Holds coefficients bucket store chains) {first : Nat}
    (linked : Linked (nextAt store.heap) first (labels (chains (home coefficients key))))
    (missing : ∀ cell ∈ chains (home coefficients key), cell.entry.1 ≠ key) (value : Value) :
    ∃ middle next bucket' after,
      HtDram.newEntry key value store = .ok (store.heap.size + 1, middle) ∧
      setNext first (store.heap.size + 1) middle = .ok ((), next) ∧
      HtDram.setBucket { coefficients := coefficients, bucket := bucket }
        (HtDram.hashFunction coefficients key) (store.heap.size + 1) next = .ok ((), after) ∧
      Holds coefficients bucket' after
        (Function.update chains (home coefficients key)
          (⟨store.heap.size + 1, (key, value)⟩ :: chains (home coefficients key))) := by
  obtain ⟨middle, allocated, middleAux, middleNexts, middleHere, middleShown⟩ :=
    newEntry_ok store key value
  obtain ⟨node, live, _⟩ := exists_entry middleHere
  obtain ⟨next, ran, kept, nexts, shown⟩ := setNext_ok live first
  refine ⟨middle, next, bucket.set (home coefficients key) (store.heap.size + 1), _, allocated, ran,
    holds.setBucket_ok key (store.heap.size + 1) next, ?_⟩
  apply holds.push linked missing (Nat.succ_ne_zero _) rfl
  · rw [nexts, Function.update_self]
  · rw [shown, middleHere]
  · intro address old
    rw [nexts, Function.update_of_ne (by omega), middleNexts address old]
  · intro address old
    rw [shown, middleShown address old]

/-- The value of a key in the chain of its bucket. -/
def lookupIn (coefficients : HashCoefficients) (chains : Nat → List Cell) (key : Key) :
    Option Value :=
  (entries (chains (home coefficients key))).lookup key

/-- A new value changes what its key reads and nothing else. -/
theorem lookupIn_update {before rest : List Cell} {cell : Cell}
    (split : chains (home coefficients cell.entry.1) = before ++ cell :: rest)
    (different : ∀ other ∈ before, other.entry.1 ≠ cell.entry.1) (value : Value) (other : Key) :
    lookupIn coefficients (Function.update chains (home coefficients cell.entry.1)
        (before ++ { cell with entry := (cell.entry.1, value) } :: rest)) other =
      if other = cell.entry.1 then some value else lookupIn coefficients chains other := by
  rw [lookupIn, lookupIn]
  by_cases isHome : home coefficients other = home coefficients cell.entry.1
  · rw [isHome, Function.update_self, split]
    exact lookup_entries_update value different other
  · rw [Function.update_of_ne isHome, if_neg]
    rintro rfl
    exact isHome rfl

/-- A new entry changes what its key reads and nothing else. -/
theorem lookupIn_push (coefficients : HashCoefficients) (chains : Nat → List Cell) (fresh : Ptr)
    (key : Key) (value : Value) (other : Key) :
    lookupIn coefficients (Function.update chains (home coefficients key)
        (⟨fresh, (key, value)⟩ :: chains (home coefficients key))) other =
      if other = key then some value else lookupIn coefficients chains other := by
  rw [lookupIn, lookupIn]
  by_cases isHome : home coefficients other = home coefficients key
  · rw [isHome, Function.update_self, entries, List.map_cons, lookup_cons]
    rfl
  · rw [Function.update_of_ne isHome, if_neg]
    rintro rfl
    exact isHome rfl

/-- `insert` changes what its key reads and nothing else. -/
theorem insert_ok (holds : Holds coefficients bucket store chains) (key : Key) (value : Value) :
    ∃ after bucket' chains', HtDram.insert key value store = .ok (1, after) ∧
      Holds coefficients bucket' after chains' ∧
      ∀ other, lookupIn coefficients chains' other =
        if other = key then some value else lookupIn coefficients chains other := by
  obtain ⟨first, atBucket, linked⟩ := holds.bucketAt_ok key
  rw [HtDram.insert, bind_ok holds.check_ok, bind_ok (Prog.lift_ok atBucket store),
    bind_ok (Prog.heapSize_ok store)]
  rcases holds.findNode_ok key linked with
    ⟨before, cell, rest, split, different, rfl, found⟩ | ⟨different, missing⟩
  · obtain ⟨after, ran, afterHolds⟩ := update_ok holds split value
    refine ⟨after, bucket, _, ?_, afterHolds, ?_⟩
    · have notNull : cell.label ≠ null := by
        apply Nat.ne_of_gt
        have member : cell ∈ chains (home coefficients cell.entry.1) := by
          rw [split]
          exact List.mem_append_right _ List.mem_cons_self
        exact (holds.label_bounds member).1
      rw [bind_ok found, if_pos notNull, bind_ok ran]
      rfl
    · exact lookupIn_update split different value
  · obtain ⟨middle, next, bucket', after, allocated, ran, stored, afterHolds⟩ :=
      push_ok holds linked different value
    refine ⟨after, bucket', _, ?_, afterHolds, ?_⟩
    · rw [bind_ok missing, if_neg (fun notNull => notNull rfl), bind_ok allocated,
        bind_ok (Prog.lift_ok atBucket middle), bind_ok ran, bind_ok stored]
      rfl
    · exact lookupIn_push coefficients chains _ key value

end Inserting

end StoredsBench.Hashmap
