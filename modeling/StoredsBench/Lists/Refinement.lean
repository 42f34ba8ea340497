/-
Module: StoredsBench.Lists.Refinement
Layer: Refinement
Purpose: What a heap of list nodes shows, how the writes change it, and where the search loop stops.
Trusted boundary: none
Main exports: Cell, nextAt, entryAt, findNode_skip, findNode_found, findNode_missing
-/
import StoredsBench.Lists.Node
import StoredsBench.Lib.LinkedList
import Mathlib.Logic.Function.Basic

namespace StoredsBench.Lists

open Lib Lib.SortedAssoc

variable {X : Type} {store : Store ListNode X} {address : Nat}

/-- A node with its address and its entry. -/
structure Cell where
  label : Nat
  entry : Key × Value

def labels (cells : List Cell) : List Nat := cells.map Cell.label

def entries (cells : List Cell) : List (Key × Value) := cells.map Cell.entry

def nextAt (heap : Heap ListNode) (address : Nat) : Option Nat :=
  (heap.get? address).bind ListNode.next

def ListNode.view (node : ListNode) : Option (Key × Value) :=
  node.key.bind fun key => node.value.string?.map fun value => (key, value)

def entryAt (heap : Heap ListNode) (address : Nat) : Option (Key × Value) :=
  (heap.get? address).bind ListNode.view

theorem exists_next {next : Nat} (found : nextAt store.heap address = some next) :
    ∃ node, store.heap.get? address = some node ∧ node.next = some next :=
  Option.bind_eq_some_iff.mp found

theorem exists_entry {entry : Key × Value} (found : entryAt store.heap address = some entry) :
    ∃ node, store.heap.get? address = some node ∧ node.key = some entry.1 ∧
      node.value.string? = some entry.2 := by
  obtain ⟨node, live, viewed⟩ := Option.bind_eq_some_iff.mp found
  obtain ⟨key, keyWritten, rest⟩ := Option.bind_eq_some_iff.mp viewed
  obtain ⟨value, valueRead, rfl⟩ := Option.map_eq_some_iff.mp rest
  exact ⟨node, live, keyWritten, valueRead⟩

theorem bounds_of_entry {entry : Key × Value} (found : entryAt store.heap address = some entry) :
    0 < address ∧ address ≤ store.heap.size := by
  obtain ⟨node, live, _⟩ := exists_entry found
  exact Heap.bounds_of_get? live

theorem ne_null_of_entry {entry : Key × Value} (found : entryAt store.heap address = some entry) :
    address ≠ null := Nat.ne_of_gt (bounds_of_entry found).1

/-- The addresses of cells determine them. -/
theorem cells_eq_of_labels {heap : Heap ListNode} {cells others : List Cell}
    (shown : ∀ cell ∈ cells, entryAt heap cell.label = some cell.entry)
    (otherShown : ∀ cell ∈ others, entryAt heap cell.label = some cell.entry)
    (same : labels cells = labels others) : cells = others := by
  induction cells generalizing others with
  | nil =>
      cases others with
      | nil => rfl
      | cons other rest => cases same
  | cons cell cells inductionHypothesis =>
      cases others with
      | nil => cases same
      | cons other rest =>
          obtain ⟨sameLabel, sameRest⟩ := List.cons.inj same
          have here := shown cell List.mem_cons_self
          rw [sameLabel, otherShown other List.mem_cons_self] at here
          obtain ⟨label, entry⟩ := cell
          obtain ⟨otherLabel, otherEntry⟩ := other
          obtain rfl : label = otherLabel := sameLabel
          obtain rfl : otherEntry = entry := Option.some.inj here
          rw [inductionHypothesis (fun _ member => shown _ (List.mem_cons_of_mem _ member))
            (fun _ member => otherShown _ (List.mem_cons_of_mem _ member)) sameRest]

theorem stringAt_ok {entry : Key × Value} (found : entryAt store.heap address = some entry) :
    stringAt store address = .ok (some entry.2) := by
  obtain ⟨node, live, _, valueRead⟩ := exists_entry found
  simp only [stringAt, if_neg (ne_null_of_entry found), live, valueRead]

/-! ### Writes -/

/-- What a write leaves alone. -/
structure Kept (before after : Store ListNode X) : Prop where
  root : after.root = before.root
  aux : after.aux = before.aux
  size : after.heap.size = before.heap.size

theorem setNext_ok {node : ListNode} (live : store.heap.get? address = some node) (next : Nat) :
    ∃ after, setNext next address store = .ok ((), after) ∧ Kept store after ∧
      nextAt after.heap = Function.update (nextAt store.heap) address (some next) ∧
      entryAt after.heap = entryAt store.heap := by
  refine ⟨_, Prog.modify_pure_ok _ live, ⟨rfl, rfl, Heap.size_set _ _ _⟩, ?_, ?_⟩
  · funext other
    rw [nextAt, Heap.get?_set live, Function.update_apply]
    split
    · rfl
    · rfl
  · funext other
    rw [entryAt, Heap.get?_set live, entryAt]
    split
    · rename_i same
      rw [same, live]
      rfl
    · rfl

theorem setValue_ok {entry : Key × Value} (found : entryAt store.heap address = some entry)
    (value : Value) :
    ∃ after, setValue value address store = .ok ((), after) ∧ Kept store after ∧
      nextAt after.heap = nextAt store.heap ∧
      entryAt after.heap = Function.update (entryAt store.heap) address (some (entry.1, value)) := by
  obtain ⟨node, live, keyWritten, _⟩ := exists_entry found
  refine ⟨_, Prog.modify_pure_ok _ live, ⟨rfl, rfl, Heap.size_set _ _ _⟩, ?_, ?_⟩
  · funext other
    rw [nextAt, Heap.get?_set live, nextAt]
    split
    · rename_i same
      rw [same, live]
      rfl
    · rfl
  · funext other
    rw [entryAt, Heap.get?_set live, Function.update_apply]
    split
    · rw [Option.bind_some, ListNode.view, keyWritten, Option.bind_some,
        CharArray.string?_copyString]
      rfl
    · rfl

/-- An allocated object shows nothing. -/
theorem nextAt_push (heap : Heap ListNode) :
    nextAt (heap.push ListNode.unwritten) =
      Function.update (nextAt heap) (heap.size + 1) none := by
  funext other
  rw [nextAt, Heap.get?_push, Function.update_apply]
  split <;> rfl

theorem entryAt_push (heap : Heap ListNode) :
    entryAt (heap.push ListNode.unwritten) =
      Function.update (entryAt heap) (heap.size + 1) none := by
  funext other
  rw [entryAt, Heap.get?_push, Function.update_apply]
  split <;> rfl

theorem setEntry_ok {node : ListNode} (live : store.heap.get? address = some node) (key : Key)
    (value : Value) :
    ∃ after, setEntry key value address store = .ok ((), after) ∧ Kept store after ∧
      nextAt after.heap = nextAt store.heap ∧
      entryAt after.heap = Function.update (entryAt store.heap) address (some (key, value)) := by
  refine ⟨_, Prog.modify_pure_ok _ live, ⟨rfl, rfl, Heap.size_set _ _ _⟩, ?_, ?_⟩
  · funext other
    rw [nextAt, Heap.get?_set live, nextAt]
    split
    · rename_i same
      rw [same, live]
      rfl
    · rfl
  · funext other
    rw [entryAt, Heap.get?_set live, Function.update_apply]
    split
    · rw [Option.bind_some, ListNode.view, CharArray.string?_copyString]
      rfl
    · rfl

/-- A new object with an entry and no pointer. -/
theorem newNode_ok (store : Store ListNode X) (key : Key) (value : Value) :
    ∃ middle after, Prog.malloc ListNode.unwritten store = .ok (store.heap.size + 1, middle) ∧
      setEntry key value (store.heap.size + 1) middle = .ok ((), after) ∧
      after.root = store.root ∧ after.aux = store.aux ∧
      after.heap.size = store.heap.size + 1 ∧
      nextAt after.heap = Function.update (nextAt store.heap) (store.heap.size + 1) none ∧
      entryAt after.heap =
        Function.update (entryAt store.heap) (store.heap.size + 1) (some (key, value)) := by
  obtain ⟨middle, middleEq⟩ : ∃ middle : Store ListNode X,
      middle = { store with heap := store.heap.push ListNode.unwritten } := ⟨_, rfl⟩
  have live : middle.heap.get? (store.heap.size + 1) = some ListNode.unwritten := by
    rw [middleEq, Heap.get?_push, if_pos rfl]
  obtain ⟨after, ran, kept, nexts, shown⟩ := setEntry_ok live key value
  refine ⟨middle, after, ?_, ran, ?_, ?_, ?_, ?_, ?_⟩
  · rw [middleEq]
    rfl
  · rw [kept.root, middleEq]
  · rw [kept.aux, middleEq]
  · rw [kept.size, middleEq, Heap.size_push]
  · rw [nexts, middleEq, nextAt_push]
  · rw [shown, middleEq, entryAt_push, Function.update_idem]

/-! ### The search loop -/

section Search

variable {key : Key} {first last fuel : Nat} {cells : List Cell}

/-- The loop passes nodes with other keys. -/
theorem findNode_skip (leads : Leads (nextAt store.heap) last first (labels cells))
    (shown : ∀ cell ∈ cells, entryAt store.heap cell.label = some cell.entry)
    (different : ∀ cell ∈ cells, cell.entry.1 ≠ key) :
    findNode key (fuel + cells.length) first store = findNode key fuel last store := by
  induction cells generalizing first with
  | nil =>
      obtain rfl : first = last := leads
      rfl
  | cons cell cells inductionHypothesis =>
      obtain ⟨rfl, notNull, following, followed, restLeads⟩ := leads
      obtain ⟨node, live, keyWritten, _⟩ := exists_entry (shown cell List.mem_cons_self)
      obtain ⟨same, sameLive, nextWritten⟩ := exists_next followed
      obtain rfl : same = node := Option.some.inj (sameLive.symm.trans live)
      have keyRead : written same.key = .ok cell.entry.1 := by rw [keyWritten]; rfl
      have nextRead : written same.next = .ok following := by rw [nextWritten]; rfl
      rw [List.length_cons, ← Nat.add_assoc, findNode, if_neg notNull, bind_ok (Prog.load_ok live),
        bind_ok (Prog.lift_ok keyRead store), if_neg (different cell List.mem_cons_self),
        bind_ok (Prog.lift_ok nextRead store)]
      exact inductionHypothesis restLeads
        (fun other member => shown other (List.mem_cons_of_mem _ member))
        fun other member => different other (List.mem_cons_of_mem _ member)

/-- The loop stops at a node that has the key. -/
theorem findNode_here {entry : Key × Value} (found : entryAt store.heap first = some entry)
    (same : entry.1 = key) : findNode key (fuel + 1) first store = .ok (first, store) := by
  obtain ⟨node, live, keyWritten, _⟩ := exists_entry found
  have keyRead : written node.key = .ok entry.1 := by
    rw [keyWritten]
    rfl
  rw [findNode, if_neg (ne_null_of_entry found), bind_ok (Prog.load_ok live),
    bind_ok (Prog.lift_ok keyRead store), if_pos same]
  rfl

/-- The first node with the key is found. -/
theorem findNode_found {cell : Cell}
    (leads : Leads (nextAt store.heap) cell.label first (labels cells))
    (shown : ∀ other ∈ cells, entryAt store.heap other.label = some other.entry)
    (here : entryAt store.heap cell.label = some cell.entry)
    (different : ∀ other ∈ cells, other.entry.1 ≠ key) (same : cell.entry.1 = key)
    (bound : cells.length < fuel) :
    findNode key fuel first store = .ok (cell.label, store) := by
  obtain ⟨rest, rfl⟩ : ∃ rest, fuel = rest + 1 + cells.length :=
    ⟨fuel - 1 - cells.length, by omega⟩
  rw [findNode_skip leads shown different, findNode_here here same]

/-- The end of a list without the key is reached. -/
theorem findNode_missing (linked : Linked (nextAt store.heap) first (labels cells))
    (shown : ∀ cell ∈ cells, entryAt store.heap cell.label = some cell.entry)
    (different : ∀ cell ∈ cells, cell.entry.1 ≠ key) (bound : cells.length < fuel) :
    findNode key fuel first store = .ok (null, store) := by
  obtain ⟨rest, rfl⟩ : ∃ rest, fuel = rest + 1 + cells.length :=
    ⟨fuel - 1 - cells.length, by omega⟩
  rw [findNode_skip linked shown different]
  rfl

/-- Behind a list without the key the loop reads the last pointer, which must have been written. -/
theorem findNode_unwritten {last : Cell}
    (leads : Leads (nextAt store.heap) last.label first (labels cells))
    (shown : ∀ cell ∈ cells ++ [last], entryAt store.heap cell.label = some cell.entry)
    (different : ∀ cell ∈ cells ++ [last], cell.entry.1 ≠ key)
    (unwritten : nextAt store.heap last.label = none) (found : Ptr) (after : Store ListNode X) :
    findNode key fuel first store ≠ .ok (found, after) := by
  induction cells generalizing first fuel with
  | nil =>
      obtain rfl : first = last.label := leads
      have here := shown last List.mem_cons_self
      obtain ⟨node, live, keyWritten, _⟩ := exists_entry here
      have nextMissing : node.next = none := by
        rw [nextAt, live] at unwritten
        exact unwritten
      cases fuel with
      | zero => exact fun ran => by cases ran
      | succ fuel =>
          have keyRead : written node.key = .ok last.entry.1 := by
            rw [keyWritten]
            rfl
          rw [findNode, if_neg (ne_null_of_entry here), bind_ok (Prog.load_ok live),
            bind_ok (Prog.lift_ok keyRead store), if_neg (different last List.mem_cons_self),
            nextMissing]
          exact fun ran => by cases ran
  | cons cell cells inductionHypothesis =>
      cases fuel with
      | zero => exact fun ran => by cases ran
      | succ fuel =>
          obtain ⟨sameFirst, notNull, following, followed, restLeads⟩ := leads
          have one : Leads (nextAt store.heap) following first (labels [cell]) :=
            ⟨sameFirst, notNull, following, followed, rfl⟩
          have skipped : findNode key (fuel + 1) first store = findNode key fuel following store := by
            apply findNode_skip one
            · intro other member
              obtain rfl := List.mem_singleton.mp member
              exact shown other List.mem_cons_self
            · intro other member
              obtain rfl := List.mem_singleton.mp member
              exact different other List.mem_cons_self
          rw [skipped]
          exact inductionHypothesis restLeads
            (fun other member => shown other (List.mem_cons_of_mem _ member))
            fun other member => different other (List.mem_cons_of_mem _ member)

/-- The loop reads the heap only. -/
theorem findNode_of_heap {Y : Type} (other : Store ListNode Y) (same : other.heap = store.heap)
    {found : Ptr} (ran : findNode key fuel first store = .ok (found, store)) :
    findNode key fuel first other = .ok (found, other) := by
  induction fuel generalizing first with
  | zero => cases ran
  | succ fuel inductionHypothesis =>
      rw [findNode] at ran ⊢
      split at ran
      · rename_i isNull
        cases ran
        rw [if_pos isNull]
        rfl
      · rename_i notNull
        rw [if_neg notNull]
        obtain ⟨node, loadedIn, loaded, afterLoad⟩ := bind_ok_inv ran
        cases live : store.heap.get? first with
        | none => simp [Prog.load, live] at loaded
        | some object =>
            rw [Prog.load_ok live] at loaded
            cases loaded
            rw [← same] at live
            rw [bind_ok (Prog.load_ok live)]
            obtain ⟨nodeKey, keyIn, keyRead, afterKey⟩ := bind_ok_inv afterLoad
            obtain ⟨keyWritten, rfl⟩ := Prog.lift_inv keyRead
            rw [bind_ok (Prog.lift_ok keyWritten other)]
            split at afterKey
            · rename_i isKey
              cases afterKey
              rw [if_pos isKey]
              rfl
            · rename_i different
              rw [if_neg different]
              obtain ⟨next, nextIn, nextRead, afterNext⟩ := bind_ok_inv afterKey
              obtain ⟨nextWritten, rfl⟩ := Prog.lift_inv nextRead
              rw [bind_ok (Prog.lift_ok nextWritten other)]
              exact inductionHypothesis afterNext

/-- What the loop returns is an object, or the null pointer. -/
theorem findNode_inv {found : Ptr} {after : Store ListNode X}
    (ran : findNode key fuel first store = .ok (found, after)) :
    after = store ∧ (found ≠ null → ∃ node, store.heap.get? found = some node) := by
  induction fuel generalizing first with
  | zero => cases ran
  | succ fuel inductionHypothesis =>
      rw [findNode] at ran
      split at ran
      · cases ran
        exact ⟨rfl, fun notNull => absurd rfl notNull⟩
      · obtain ⟨node, loadedIn, loaded, afterLoad⟩ := bind_ok_inv ran
        cases live : store.heap.get? first with
        | none => simp [Prog.load, live] at loaded
        | some object =>
            rw [Prog.load_ok live] at loaded
            cases loaded
            obtain ⟨nodeKey, keyIn, keyRead, afterKey⟩ := bind_ok_inv afterLoad
            obtain ⟨_, rfl⟩ := Prog.lift_inv keyRead
            split at afterKey
            · cases afterKey
              exact ⟨rfl, fun _ => ⟨_, live⟩⟩
            · obtain ⟨next, nextIn, nextRead, afterNext⟩ := bind_ok_inv afterKey
              obtain ⟨_, rfl⟩ := Prog.lift_inv nextRead
              exact inductionHypothesis afterNext

end Search

/-- Where the first cell with a key is, if there is one. -/
theorem exists_first (key : Key) (cells : List Cell) :
    (∃ before cell after, cells = before ++ cell :: after ∧
        (∀ other ∈ before, other.entry.1 ≠ key) ∧ cell.entry.1 = key) ∨
      ∀ cell ∈ cells, cell.entry.1 ≠ key := by
  induction cells with
  | nil => exact Or.inr fun cell member => by cases member
  | cons head cells inductionHypothesis =>
      by_cases same : head.entry.1 = key
      · exact Or.inl ⟨[], head, cells, rfl, by simp, same⟩
      · rcases inductionHypothesis with ⟨before, cell, after, rfl, different, found⟩ | different
        · exact Or.inl ⟨head :: before, cell, after, rfl,
            List.forall_mem_cons.mpr ⟨same, different⟩, found⟩
        · exact Or.inr (List.forall_mem_cons.mpr ⟨same, different⟩)

theorem lookup_entries_of_ne {key : Key} {cells : List Cell}
    (different : ∀ cell ∈ cells, cell.entry.1 ≠ key) : (entries cells).lookup key = none := by
  apply lookup_eq_none_of_forall_ne
  intro entry member
  obtain ⟨cell, cellMember, rfl⟩ := List.mem_map.mp member
  exact different cell cellMember

/-- The value of the first cell with a key. -/
theorem lookup_entries_first {key : Key} {before after : List Cell} {cell : Cell}
    (different : ∀ other ∈ before, other.entry.1 ≠ key) (same : cell.entry.1 = key) :
    (entries (before ++ cell :: after)).lookup key = some cell.entry.2 := by
  rw [entries, List.map_append, lookup_append_of_forall_ne, List.map_cons, lookup_cons,
    if_pos same.symm]
  intro entry member
  obtain ⟨other, otherMember, rfl⟩ := List.mem_map.mp member
  exact different other otherMember

/-- A new value for one cell changes what its key reads and nothing else. -/
theorem lookup_entries_update {before after : List Cell} {cell : Cell} (value : Value)
    (different : ∀ other ∈ before, other.entry.1 ≠ cell.entry.1) (key : Key) :
    (entries (before ++ { cell with entry := (cell.entry.1, value) } :: after)).lookup key =
      if key = cell.entry.1 then some value else (entries (before ++ cell :: after)).lookup key := by
  induction before with
  | nil =>
      simp only [entries, List.nil_append, List.map_cons, lookup_cons]
      split <;> rfl
  | cons head before inductionHypothesis =>
      have headDifferent := different head List.mem_cons_self
      simp only [List.cons_append]
      rw [entries, List.map_cons, lookup_cons, entries, List.map_cons, lookup_cons]
      by_cases isHead : key = head.entry.1
      · rw [if_pos isHead, if_pos isHead, if_neg (isHead ▸ headDifferent)]
      · rw [if_neg isHead, if_neg isHead]
        exact inductionHypothesis fun other member => different other (List.mem_cons_of_mem _ member)

end StoredsBench.Lists
