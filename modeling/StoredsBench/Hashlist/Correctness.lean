/-
Module: StoredsBench.Hashlist.Correctness
Layer: Correctness
Purpose: The list and the index of `HlDram` hold the same nodes.  The list runs through the keys in the
  order of their first inserts up to `tail`, but nothing ends it there.
Trusted boundary: none
Main exports: Agrees, hlDram_agrees_iff
-/
import StoredsBench.Hashlist.Dram
import StoredsBench.Hashlist.Refinement
import Mathlib.Data.List.Nodup

namespace StoredsBench.HlDram

open Lib Lists Linkedlist Hashmap Hashlist

/-- The keys of the pairs in the order of their first inserts. -/
def firstInserted (pairs : List (Key × Value)) : List Key := (pairs.map Prod.fst).eraseDups

/-- All entries of the index, as pairs of a key and a node. -/
def indexEntries (table : HlTable) : List (Key × Ptr) :=
  table.bucket.flatten.map fun entry => (entry.key, entry.ll_p)

/-- The list from `head` visits every inserted key once, in the order of the first inserts, and ends
with `NULL` at `tail`.  The entries of the index point to the nodes of their keys, and every node has
exactly one. -/
def Agrees (memory : Store ListNode (ListSide HlTable)) (pairs : List (Key × Value)) : Prop :=
  ∃ cells, Linked (nextAt memory.heap) memory.root (labels cells) ∧
    memory.aux.tail = (labels cells).getLastD null ∧
    (∀ cell ∈ cells, entryAt memory.heap cell.label = some cell.entry) ∧
    keys cells = firstInserted pairs ∧ (keys cells).Nodup ∧
    (∀ entry ∈ indexEntries memory.aux.index, ∃ cell ∈ cells, cell.entry.1 = entry.1 ∧
      cell.label = entry.2) ∧
    ∀ cell ∈ cells, ((indexEntries memory.aux.index).map Prod.snd).count cell.label = 1

/-- What every insert keeps.  Nodes are allocated in the order of the list. -/
structure Grown (garbage : Ptr → ListNode) (pairs : List (Key × Value)) (store : HlDram)
    (cells : List Cell) : Prop where
  holds : Holds (memory store) cells
  order : keys cells = firstInserted pairs
  size : store.heap.size = cells.length
  last : ∀ last ∈ cells.getLast?, last.label = cells.length ∧
    nextAt store.heap last.label = (garbage last.label).next
  entries : (indexEntries store.aux.side.index).Perm
    (cells.map fun cell => (cell.entry.1, cell.label))

/-- One more entry in a bucket is one more entry. -/
theorem flatten_set_perm {α : Type} {buckets : List (List α)} {index : Nat} {bucket : List α} (entry : α)
    (found : buckets[index]? = some bucket) :
    (buckets.set index (entry :: bucket)).flatten.Perm (entry :: buckets.flatten) := by
  induction buckets generalizing index with
  | nil => cases found
  | cons head rest inductionHypothesis =>
      cases index with
      | zero =>
          cases found
          exact List.Perm.refl _
      | succ index =>
          have behind := inductionHypothesis found
          exact (behind.append_left head).trans List.perm_middle

theorem firstInserted_append (pairs : List (Key × Value)) (key : Key) (value : Value) :
    firstInserted (pairs ++ [(key, value)]) =
      if key ∈ firstInserted pairs then firstInserted pairs else firstInserted pairs ++ [key] := by
  rw [firstInserted, List.map_append, List.eraseDups_append, firstInserted]
  by_cases member : key ∈ pairs.map Prod.fst
  · rw [if_pos (List.mem_eraseDups.mpr member)]
    simp [List.removeAll, member]
  · rw [if_neg (fun inside => member (List.mem_eraseDups.mp inside))]
    simp [List.removeAll, member, List.eraseDups_cons]

theorem nodup_firstInserted (pairs : List (Key × Value)) : (firstInserted pairs).Nodup := by
  induction pairs using List.reverseRecOn with
  | nil => exact List.nodup_nil
  | append_singleton past pair inductionHypothesis =>
      obtain ⟨key, value⟩ := pair
      rw [firstInserted_append]
      split
      · exact inductionHypothesis
      · rename_i missing
        exact List.nodup_append_comm.mp (List.nodup_cons.mpr ⟨missing, inductionHypothesis⟩)

section Runs

variable {garbage : Ptr → ListNode} {pairs : List (Key × Value)} {store : HlDram} {cells : List Cell}

theorem grown_init (garbage : Ptr → ListNode) (coefficients : HashCoefficients) :
    Grown garbage [] (init coefficients) [] where
  holds := init_holds coefficients
  order := rfl
  size := rfl
  last := fun last isLast => by cases isLast
  entries := by
    have empty : indexEntries (HlPmem.newTable coefficients) = [] := by
      simp [indexEntries, HlPmem.newTable]
    exact List.Perm.of_eq empty

/-- One insert. -/
theorem Grown.insert (grown : Grown garbage pairs store cells) (key : Key) (value : Value) :
    ∃ final others, HlDram.insert garbage key value store = .ok (1, final) ∧
      Grown garbage (pairs ++ [(key, value)]) final others := by
  obtain ⟨final, ran, holds⟩ := insert_ok (allocator garbage) grown.holds key value
  have order : keys (upserted key value (store.heap.size + 1) cells) =
      firstInserted (pairs ++ [(key, value)]) := by
    rw [keys_upserted, firstInserted_append, grown.order]
  cases found : cellOf key cells with
  | some cell =>
      obtain ⟨other, otherRan, _, sameAux, size, nexts⟩ :=
        insert_stored (allocator garbage) grown.holds.shows grown.holds.indexed found (mem_of_cellOf found)
          value
      rw [ran] at otherRan
      cases otherRan
      rw [upserted_found found] at holds order
      refine ⟨final, _, ran, holds, order, ?_, ?_, ?_⟩
      · rw [size, List.length_map]
        exact grown.size
      · intro last isLast
        rw [List.getLast?_map, Option.mem_def, Option.map_eq_some_iff] at isLast
        obtain ⟨old, wasLast, rfl⟩ := isLast
        rw [label_overwritten, List.length_map, nexts]
        exact grown.last old wasLast
      · have sameIndex : final.aux.side.index = store.aux.side.index :=
          congrArg ListSide.index sameAux
        rw [sameIndex, List.map_map]
        simpa [Function.comp_def] using grown.entries
  | none =>
      obtain ⟨other, entries, otherRan, here, _, index, size, next⟩ :=
        insert_new (allocator garbage) grown.holds.shows grown.holds.indexed found value
      rw [ran] at otherRan
      cases otherRan
      rw [upserted_missing found] at holds order
      refine ⟨final, _, ran, holds, order, ?_, ?_, ?_⟩
      · rw [size, grown.size, List.length_append]
        rfl
      · intro last isLast
        rw [List.getLast?_concat] at isLast
        cases isLast
        constructor
        · rw [List.length_append, grown.size]
          rfl
        · exact next
      · have sameIndex : final.aux.side.index =
            entered store.aux.side.index key (store.heap.size + 1) entries := index
        rw [sameIndex, indexEntries]
        have more := (flatten_set_perm ({ key := key, ll_p := store.heap.size + 1 } : HlEntry) here).map
          fun entry => (entry.key, entry.ll_p)
        refine more.trans ?_
        rw [List.map_cons, List.map_append]
        exact (grown.entries.cons _).trans (List.perm_append_singleton _ _).symm

/-- All inserts. -/
theorem Grown.insertEach {past : List (Key × Value)} (grown : Grown garbage past store cells)
    (pairs : List (Key × Value)) :
    ∃ final others, StoredsBench.insertEach (HlDram.insert garbage) pairs store = .ok ((), final) ∧
      Grown garbage (past ++ pairs) final others := by
  induction pairs generalizing past store cells with
  | nil => exact ⟨store, cells, rfl, by rwa [List.append_nil]⟩
  | cons pair rest inductionHypothesis =>
      obtain ⟨key, value⟩ := pair
      obtain ⟨next, between, ran, nextGrown⟩ := grown.insert key value
      obtain ⟨final, others, restRan, finalGrown⟩ := inductionHypothesis nextGrown
      refine ⟨final, others, ?_, by simpa using finalGrown⟩
      rw [StoredsBench.insertEach, bind_ok ran]
      exact restRan

/-! ### The end of the list -/

/-- The index and the nodes agree after every run. -/
theorem Grown.named (grown : Grown garbage pairs store cells) (cell : Cell) (member : cell ∈ cells) :
    ((indexEntries store.aux.side.index).map Prod.snd).count cell.label = 1 := by
  have sameNodes := grown.entries.map Prod.snd
  rw [List.map_map] at sameNodes
  rw [sameNodes.count_eq]
  exact List.count_eq_one_of_mem grown.holds.shows.labels_nodup (List.mem_map_of_mem member)

theorem Grown.points (grown : Grown garbage pairs store cells) (entry : Key × Ptr)
    (member : entry ∈ indexEntries store.aux.side.index) :
    ∃ cell ∈ cells, cell.entry.1 = entry.1 ∧ cell.label = entry.2 := by
  obtain ⟨cell, cellMember, rfl⟩ := List.mem_map.mp (grown.entries.mem_iff.mp member)
  exact ⟨cell, cellMember, rfl, rfl⟩

/-- The list is linked up to its last node; there it must find a null pointer. -/
theorem Grown.agrees_iff (grown : Grown garbage pairs store cells) :
    Agrees (memory store) pairs ↔ ∀ last ∈ cells.getLast?, (garbage last.label).next = some null := by
  rcases grown.holds.shows with ⟨rfl, root, tail⟩ | ⟨front, last, rfl, holds⟩
  · constructor
    · intro _ last isLast
      cases isLast
    · intro _
      refine ⟨[], root, tail, ?_, grown.order, grown.holds.distinct, grown.points, grown.named⟩
      intro cell member
      cases member
  · have isLast : last ∈ (front ++ [last]).getLast? := by simp
    obtain ⟨_, unwritten⟩ := grown.last last isLast
    constructor
    · rintro ⟨others, linked, tail, _, order, _⟩ other isOther
      rw [List.getLast?_concat] at isOther
      cases isOther
      -- The last node of any such list is the one at the tail.
      rcases List.eq_nil_or_concat others with rfl | ⟨before, final, rfl⟩
      · rw [← grown.order] at order
        simp [keys] at order
      · rw [List.concat_eq_append, labels, List.map_append, List.map_singleton] at linked tail
        obtain ⟨_, _, ended⟩ := linked_append_singleton.mp linked
        have isLast : last.label = final.label := by
          have tailEq : (memory store).aux.tail = last.label := holds.tail
          rw [← tailEq, tail, List.getLastD_concat]
        rw [← unwritten, isLast]
        exact ended
    · intro ends
      have lastShown := holds.shown last (List.mem_append_right _ List.mem_cons_self)
      refine ⟨front ++ [last], ?_, ?_, holds.shown, grown.order, grown.holds.distinct, grown.points,
        grown.named⟩
      · rw [labels, List.map_append]
        refine linked_append_singleton.mpr ⟨holds.leads, ne_null_of_entry lastShown, ?_⟩
        exact unwritten.trans (ends last isLast)
      · rw [labels, List.map_append, List.map_singleton, List.getLastD_concat]
        exact holds.tail

/-- After any inserts the list and the index of an `HlDram` agree, if and only if there was no insert
or `malloc` happened to leave a null pointer in the `next` member of the newest node, which no insert
writes. -/
theorem hlDram_agrees_iff (garbage : Ptr → ListNode) (coefficients : HashCoefficients)
    (pairs : List (Key × Value)) :
    ∃ store, insertEach (HlDram.insert garbage) pairs (init coefficients) = .ok ((), store) ∧
      (Agrees (memory store) pairs ↔
        pairs = [] ∨ (garbage (firstInserted pairs).length).next = some null) := by
  obtain ⟨store, cells, ran, grown⟩ := (grown_init garbage coefficients).insertEach pairs
  rw [List.nil_append] at grown
  refine ⟨store, ran, grown.agrees_iff.trans ?_⟩
  have count : (firstInserted pairs).length = cells.length := by
    rw [← grown.order, keys, List.length_map]
  rw [count]
  rcases List.eq_nil_or_concat cells with rfl | ⟨front, last, rfl⟩
  · have noPairs : pairs = [] := by
      have order := grown.order
      cases pairs with
      | nil => rfl
      | cons pair rest => simp [keys, firstInserted, List.eraseDups_cons] at order
    exact ⟨fun _ => Or.inl noPairs, fun _ last isLast => by cases isLast⟩
  · rw [List.concat_eq_append] at grown count ⊢
    have isLast : last ∈ (front ++ [last]).getLast? := by simp
    obtain ⟨place, _⟩ := grown.last last isLast
    have somePairs : pairs ≠ [] := by
      rintro rfl
      simp [firstInserted] at count
    rw [← place]
    constructor
    · exact fun ends => Or.inr (ends last isLast)
    · rintro (none | ends) other isOther
      · exact absurd none somePairs
      · rw [List.getLast?_concat] at isOther
        cases isOther
        exact ends

/-- One insert into a table of one bucket. -/
theorem hlDram_list_unended : ∃ (coefficients : HashCoefficients) (value : Value) (store : HlDram),
    insertEach (HlDram.insert fun _ => ListNode.unwritten) [(1, value)] (init coefficients) =
      .ok ((), store) ∧ ¬ Agrees (memory store) [(1, value)] := by
  obtain ⟨store, cells, ran, grown⟩ :=
    (grown_init (fun _ => ListNode.unwritten) ⟨1, 0, 1, 1, by decide, by decide, by decide⟩).insertEach
      [(1, ⟨[97], by decide, by decide⟩)]
  refine ⟨_, _, store, ran, ?_⟩
  intro agrees
  have ends := grown.agrees_iff.mp agrees
  rcases List.eq_nil_or_concat cells with rfl | ⟨front, last, rfl⟩
  · have order := grown.order
    simp [keys, firstInserted, List.eraseDups_cons] at order
  · rw [List.concat_eq_append] at ends
    exact absurd (ends last (by simp)) (by simp [ListNode.unwritten])

end Runs

end StoredsBench.HlDram
