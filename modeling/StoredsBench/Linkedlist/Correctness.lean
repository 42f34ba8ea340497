/-
Module: StoredsBench.Linkedlist.Correctness
Layer: Correctness
Purpose: `LinkedlistDram` keeps all inserts in order, so that a read finds the first insert for a key.
  The last node has no `next` pointer, so that only reads of stored keys are safe.
Trusted boundary: none
Main exports: firstInsert, linkedlistDram_run
-/
import StoredsBench.Linkedlist.Dram
import StoredsBench.Lists.Refinement

namespace StoredsBench.LinkedlistDram

open Lib Lib.SortedAssoc Lists

/-- The pairs inserted by a history, in order. -/
def insertsOf (history : List Call) : List (Key × Value) :=
  history.filterMap fun call =>
    match call with
    | .insert key value => some (key, value)
    | .read _ => none

/-- The value of the first insert for `key` in a history, if there is one. -/
def firstInsert (key : Key) (history : List Call) : Option Value := (insertsOf history).lookup key

theorem insertsOf_append (past rest : List Call) :
    insertsOf (past ++ rest) = insertsOf past ++ insertsOf rest := List.filterMap_append

theorem mem_insertsOf {key : Key} {value : Value} {history : List Call} :
    (key, value) ∈ insertsOf history ↔ Call.insert key value ∈ history := by
  rw [insertsOf, List.mem_filterMap]
  constructor
  · rintro ⟨call, member, found⟩
    cases call with
    | read other => cases found
    | insert other otherValue =>
        cases found
        exact member
  · exact fun member => ⟨_, member, rfl⟩

/-- The nodes in order.  The pointer of the last one was never written. -/
structure Holds (store : LinkedlistDram) (front : List Cell) (last : Cell) : Prop where
  leads : Leads (nextAt store.heap) last.label store.root (labels front)
  shown : ∀ cell ∈ front ++ [last], entryAt store.heap cell.label = some cell.entry
  distinct : (labels (front ++ [last])).Nodup
  tail : store.aux = last.label

section Steps

variable {store : LinkedlistDram} {front : List Cell} {last : Cell}

theorem Holds.root_ne_null (holds : Holds store front last) : store.root ≠ null := by
  have leads := holds.leads
  cases front with
  | nil =>
      have isLast : store.root = last.label := leads
      rw [isLast]
      exact ne_null_of_entry (holds.shown last List.mem_cons_self)
  | cons first front =>
      obtain ⟨same, notNull, _⟩ := leads
      rw [same]
      exact notNull

theorem createNode_ok (store : LinkedlistDram) (key : Key) (value : Value) :
    ∃ after, createNode key value store = .ok (store.heap.size + 1, after) ∧
      after.root = store.root ∧ after.aux = store.aux ∧
      nextAt after.heap = Function.update (nextAt store.heap) (store.heap.size + 1) none ∧
      entryAt after.heap =
        Function.update (entryAt store.heap) (store.heap.size + 1) (some (key, value)) := by
  obtain ⟨middle, after, allocated, ran, root, aux, _, nexts, shown⟩ := newNode_ok store key value
  refine ⟨after, ?_, root, aux, nexts, shown⟩
  rw [createNode, bind_ok allocated, bind_ok ran]
  rfl

/-- The first insert makes the list.  The pointer of its node is not written. -/
theorem insert_first (key : Key) (value : Value) :
    ∃ after, insert key value init = .ok (1, after) ∧ Holds after [] ⟨1, (key, value)⟩ ∧
      nextAt after.heap 1 = none := by
  obtain ⟨middle, created, root, _, nexts, shown⟩ := createNode_ok init key value
  have empty : Prog.getRoot middle = .ok (null, middle) := by
    rw [Prog.getRoot_ok, root]
    rfl
  refine ⟨{ heap := middle.heap, root := 1, aux := 1 }, ?_, ?_, ?_⟩
  · rw [insert, bind_ok created, bind_ok empty, if_pos rfl]
    rfl
  · constructor
    · rfl
    · intro cell member
      obtain rfl := List.mem_singleton.mp member
      rw [shown]
      rfl
    · exact List.nodup_cons.mpr ⟨List.not_mem_nil, List.nodup_nil⟩
    · rfl
  · rw [nexts]
    rfl

/-- A fresh node behind the last one, which the tail is moved to. -/
theorem Holds.append (holds : Holds store front last) (after : LinkedlistDram) {fresh : Nat}
    {entry : Key × Value} (isFresh : ∀ cell ∈ front ++ [last], cell.label ≠ fresh)
    (root : after.root = store.root) (tail : after.aux = fresh)
    (nexts : nextAt after.heap last.label = some fresh)
    (sameNext : ∀ cell ∈ front, cell.label ≠ last.label →
      nextAt after.heap cell.label = nextAt store.heap cell.label)
    (shown : ∀ cell ∈ front ++ [last], entryAt after.heap cell.label = some cell.entry)
    (here : entryAt after.heap fresh = some entry) : Holds after (front ++ [last]) ⟨fresh, entry⟩ := by
  have distinct := holds.distinct
  rw [labels, List.map_append, List.map_singleton] at distinct
  constructor
  · rw [labels, List.map_append, root]
    refine leads_append.mpr ⟨last.label, ?_, ?_⟩
    · apply holds.leads.congr
      intro address member
      obtain ⟨cell, cellMember, rfl⟩ := List.mem_map.mp member
      apply sameNext cell cellMember
      exact (List.nodup_append.mp distinct).2.2 _ member last.label List.mem_cons_self
    · have lastShown := shown last (List.mem_append_right _ List.mem_cons_self)
      exact ⟨rfl, ne_null_of_entry lastShown, fresh, nexts, rfl⟩
  · intro cell member
    rcases List.mem_append.mp member with isOld | isNew
    · exact shown cell isOld
    · obtain rfl := List.mem_singleton.mp isNew
      exact here
  · rw [labels, List.map_append]
    refine List.nodup_append.mpr ⟨holds.distinct, ?_, ?_⟩
    · exact List.nodup_cons.mpr ⟨List.not_mem_nil, List.nodup_nil⟩
    · intro label member other otherMember
      obtain ⟨cell, cellMember, rfl⟩ := List.mem_map.mp member
      obtain rfl := List.mem_singleton.mp otherMember
      exact isFresh cell cellMember
  · exact tail

/-- Every later insert appends a node, whose pointer is not written. -/
theorem insert_ok (holds : Holds store front last) (key : Key) (value : Value) :
    ∃ after, insert key value store = .ok (1, after) ∧
      Holds after (front ++ [last]) ⟨store.heap.size + 1, (key, value)⟩ ∧
      nextAt after.heap (store.heap.size + 1) = none := by
  have old : ∀ cell ∈ front ++ [last], cell.label ≠ store.heap.size + 1 := by
    intro cell member
    have bounds := bounds_of_entry (holds.shown cell member)
    omega
  have lastMember : last ∈ front ++ [last] := List.mem_append_right _ List.mem_cons_self
  obtain ⟨middle, created, root, aux, middleNexts, middleShown⟩ := createNode_ok store key value
  have lastShown : entryAt middle.heap last.label = some last.entry := by
    rw [middleShown, Function.update_of_ne (old last lastMember)]
    exact holds.shown last lastMember
  obtain ⟨node, live, _⟩ := exists_entry lastShown
  obtain ⟨next, ran, kept, nexts, shown⟩ := setNext_ok live (store.heap.size + 1)
  have rooted : Prog.getRoot middle = .ok (store.root, middle) := by rw [Prog.getRoot_ok, root]
  have tailed : Prog.getAux middle = .ok (last.label, middle) := by
    rw [Prog.getAux_ok, aux, holds.tail]
  refine ⟨{ next with aux := store.heap.size + 1 }, ?_, ?_, ?_⟩
  · rw [insert, bind_ok created, bind_ok rooted, if_neg holds.root_ne_null, bind_ok tailed,
      bind_ok ran]
    rfl
  · apply holds.append { next with aux := store.heap.size + 1 } old (kept.root.trans root) rfl
    · exact (congrFun nexts last.label).trans (Function.update_self _ _ _)
    · intro cell member notLast
      exact (congrFun nexts cell.label).trans (by
        rw [Function.update_of_ne notLast, middleNexts,
          Function.update_of_ne (old cell (List.mem_append_left _ member))])
    · intro cell member
      exact (congrFun shown cell.label).trans (by
        rw [middleShown, Function.update_of_ne (old cell member), holds.shown cell member])
    · exact (congrFun shown _).trans (by rw [middleShown, Function.update_self])
  · have fresh := old last lastMember
    exact (congrFun nexts _).trans (by
      rw [Function.update_of_ne (Ne.symm fresh), middleNexts, Function.update_self])

theorem Holds.length_le (holds : Holds store front last) : (front ++ [last]).length ≤ store.heap.size := by
  have count : (labels (front ++ [last])).length ≤ store.heap.size := by
    apply Heap.length_le_size holds.distinct
    intro label member
    obtain ⟨cell, cellMember, rfl⟩ := List.mem_map.mp member
    exact bounds_of_entry (holds.shown cell cellMember)
  rwa [labels, List.length_map] at count

/-- The search for a stored key ends at its first node, after at most one iteration for each node. -/
theorem Holds.findNode_stored (holds : Holds store front last) {key : Key}
    (stored : ∃ cell ∈ front ++ [last], cell.entry.1 = key) :
    ∃ before cell after, front ++ [last] = before ++ cell :: after ∧
      (∀ other ∈ before, other.entry.1 ≠ key) ∧ cell.entry.1 = key ∧
      ∀ fuel, (front ++ [last]).length ≤ fuel →
        findNode key fuel store.root store = .ok (cell.label, store) := by
  rcases exists_first key (front ++ [last]) with
    ⟨before, cell, after, split, different, same⟩ | different
  · refine ⟨before, cell, after, split, different, same, ?_⟩
    intro fuel bound
    have beforeShown : ∀ other ∈ before, entryAt store.heap other.label = some other.entry := by
      intro other otherMember
      apply holds.shown
      rw [split]
      exact List.mem_append_left _ otherMember
    have here : entryAt store.heap cell.label = some cell.entry := by
      apply holds.shown
      rw [split]
      exact List.mem_append_right _ List.mem_cons_self
    have leads : Leads (nextAt store.heap) cell.label store.root (labels before) := by
      have labelSplit := congrArg labels split
      simp only [labels, List.map_append, List.map_cons, List.map_nil] at labelSplit
      exact holds.leads.reach labelSplit
    have enough : before.length < fuel := by
      rw [split, List.length_append, List.length_cons] at bound
      omega
    exact findNode_found leads beforeShown here different same enough
  · obtain ⟨cell, member, same⟩ := stored
    exact absurd same (different cell member)

theorem check_ok (rooted : store.root ≠ null) : check store = .ok ((), store) := by
  rw [check, bind_ok (Prog.getRoot_ok store), if_neg rooted]
  rfl

theorem read_eq (rooted : store.root ≠ null) (key : Key) :
    read key store = findNode key (store.heap.size + 1) store.root store := by
  rw [read, bind_ok (check_ok rooted), bind_ok (Prog.getRoot_ok store),
    bind_ok (Prog.heapSize_ok store)]

/-- A read of a stored key finds its first insert. -/
theorem read_ok (holds : Holds store front last) {key : Key}
    (stored : ∃ cell ∈ front ++ [last], cell.entry.1 = key) :
    backend.read key store = .ok ((entries (front ++ [last])).lookup key) := by
  obtain ⟨before, cell, after, split, different, same, search⟩ := holds.findNode_stored stored
  have member : cell ∈ front ++ [last] := by
    rw [split]
    exact List.mem_append_right _ List.mem_cons_self
  have found := search (store.heap.size + 1) (Nat.le_succ_of_le holds.length_le)
  have string := stringAt_ok (holds.shown cell member)
  simp only [backend, read_eq holds.root_ne_null, found, bind, Except.bind, string]
  rw [split, lookup_entries_first different same]

end Steps

/-- The list shows the inserts of a history, in order. -/
def Shows (store : LinkedlistDram) (history : List Call) : Prop :=
  (insertsOf history = [] ∧ store = init) ∨
    ∃ front last, Holds store front last ∧ entries (front ++ [last]) = insertsOf history

theorem insert_shows {store : LinkedlistDram} {past : List Call} (key : Key) (value : Value)
    (shown : Shows store past) :
    ∃ after, backend.insert key value store = .ok after ∧
      Shows after (past ++ [.insert key value]) := by
  rcases shown with ⟨empty, rfl⟩ | ⟨front, last, holds, shown⟩
  · obtain ⟨after, ran, afterHolds, _⟩ := insert_first key value
    refine ⟨after, ?_, Or.inr ⟨[], _, afterHolds, ?_⟩⟩
    · simp only [backend, ran]
      rfl
    · rw [insertsOf_append, empty]
      rfl
  · obtain ⟨after, ran, afterHolds, _⟩ := insert_ok holds key value
    refine ⟨after, ?_, Or.inr ⟨front ++ [last], _, afterHolds, ?_⟩⟩
    · simp only [backend, ran]
      rfl
    · rw [insertsOf_append, ← shown, entries, List.map_append]
      rfl

theorem read_shows {store : LinkedlistDram} {past : List Call} (key : Key)
    (shown : Shows store past) (stored : lastInsert key past ≠ none) :
    backend.read key store = .ok (firstInsert key past) := by
  have member : ∃ pair ∈ insertsOf past, pair.1 = key := by
    obtain ⟨value, callMember⟩ := exists_insert stored
    exact ⟨(key, value), mem_insertsOf.mpr callMember, rfl⟩
  rcases shown with ⟨empty, _⟩ | ⟨front, last, holds, shown⟩
  · rw [empty] at member
    obtain ⟨pair, pairMember, _⟩ := member
    cases pairMember
  · rw [← shown] at member
    obtain ⟨_, pairMember, same⟩ := member
    obtain ⟨cell, cellMember, rfl⟩ := List.mem_map.mp pairMember
    rw [firstInsert, ← shown]
    exact read_ok holds ⟨cell, cellMember, same⟩

/-- Every history whose reads ask for stored keys runs to its end, and each read returns the value of
the first insert for its key. -/
theorem run_ok {calls : List Call} (asks : AsksStored [] calls) :
    ∃ store, backend.run calls init = .ok (answersBy firstInsert [] calls, store) := by
  have keeps : ∀ {store : LinkedlistDram} {past : List Call} (key : Key), Shows store past →
      Shows store (past ++ [.read key]) := by
    intro store past key shown
    have same : insertsOf (past ++ [.read key]) = insertsOf past := by
      rw [insertsOf_append]
      exact List.append_nil _
    rwa [Shows, same]
  obtain ⟨store, ran, _⟩ :=
    run_answersBy insert_shows read_shows keeps asks (Or.inl ⟨rfl, rfl⟩ : Shows init [])
  exact ⟨store, ran⟩

/-- With at most one insert for every key the first one is the last one. -/
theorem firstInsert_eq_lastInsert {history : List Call}
    (once : ((insertsOf history).map Prod.fst).Nodup) (key : Key) :
    firstInsert key history = lastInsert key history := by
  induction history using List.reverseRecOn with
  | nil => rfl
  | append_singleton past call inductionHypothesis =>
      rw [firstInsert, insertsOf_append] at *
      rw [List.map_append] at once
      have earlier := inductionHypothesis (List.nodup_append.mp once).1
      cases call with
      | read other =>
          rw [lastInsert_read, ← earlier]
          exact congrArg _ (List.append_nil _)
      | insert other value =>
          rw [lastInsert_insert]
          by_cases same : other = key
          · subst same
            rw [if_pos rfl, lookup_append_of_forall_ne]
            · show [(other, value)].lookup other = some value
              rw [lookup_cons, if_pos rfl]
            · intro pair member
              exact (List.nodup_append.mp once).2.2 pair.1 (List.mem_map_of_mem member) other
                List.mem_cons_self
          · have behind : (insertsOf [.insert other value]).lookup key = none :=
              (lookup_cons key (other, value) []).trans (if_neg (Ne.symm same))
            rw [if_neg same, ← earlier, List.lookup_append, behind, Option.or_none]

end StoredsBench.LinkedlistDram
