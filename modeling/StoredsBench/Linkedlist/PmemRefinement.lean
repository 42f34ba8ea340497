/-
Module: StoredsBench.Linkedlist.PmemRefinement
Layer: Refinement
Purpose: The list a pool shows, and how an append and an update change it.
Trusted boundary: none
Main exports: Shows, Shows.congr, appendNode_runsTo, update_shows
-/
import StoredsBench.Linkedlist.Pmem
import StoredsBench.Linkedlist.Correctness
import StoredsBench.Lists.PmemRefinement

namespace StoredsBench.Linkedlist

open Lib Lib.SortedAssoc Lists

variable {I : Type}

/-- The same list in volatile memory. -/
def asDram (store : Store ListNode (ListSide I)) : LinkedlistDram where
  heap := store.heap
  root := store.root
  aux := store.aux.tail

/-- The list that is linked from `head` to `tail`, exactly. -/
def Shows (store : Store ListNode (ListSide I)) (cells : List Cell) : Prop :=
  (cells = [] ∧ store.root = null ∧ store.aux.tail = null) ∨
    ∃ front last, cells = front ++ [last] ∧ LinkedlistDram.Holds (asDram store) front last

theorem rootApart : RootApart (readRoot (I := I)) := by
  intro store heap
  funext member
  cases member <;> rfl

section Reading

variable {store other : Store ListNode (ListSide I)}

theorem root_eq_of_read (same : readPool store = readPool other) : store.root = other.root := by
  have head := congrFun same (.root .head)
  simpa [readPool, readPlace, readObjects, readRoot] using head

theorem tail_eq_of_read (same : readPool store = readPool other) :
    store.aux.tail = other.aux.tail := by
  have tail := congrFun same (.root .tail)
  simpa [readPool, readPlace, readObjects, readRoot] using tail

/-- What the pool holds determines the list. -/
theorem Shows.congr {cells : List Cell} (shows : Shows store cells)
    (same : readPool other = readPool store) : Shows other cells := by
  rcases shows with ⟨empty, root, tail⟩ | ⟨front, last, split, holds⟩
  · refine Or.inl ⟨empty, ?_, ?_⟩
    · rw [root_eq_of_read same, root]
    · rw [tail_eq_of_read same, tail]
  · refine Or.inr ⟨front, last, split, ?_⟩
    constructor
    · have leads := holds.leads
      rw [asDram, root_eq_of_read same, nextAt_eq_of_read same]
      exact leads
    · intro cell member
      rw [asDram, entryAt_eq_of_read same]
      exact holds.shown cell member
    · exact holds.distinct
    · exact (tail_eq_of_read same).trans holds.tail

/-- The tail of a list is its last cell. -/
theorem Shows.tail {front : List Cell} {last : Cell} (shows : Shows store (front ++ [last])) :
    store.aux.tail = last.label := by
  rcases shows with ⟨empty, _⟩ | ⟨otherFront, otherLast, split, holds⟩
  · simp at empty
  · obtain ⟨_, lastEq⟩ := List.append_inj' split rfl
    rw [(List.cons.inj lastEq).1]
    exact holds.tail

/-- A pool shows one list only. -/
theorem Shows.unique {cells others : List Cell} (shows : Shows store cells)
    (otherShows : Shows store others) : cells = others := by
  rcases shows with ⟨rfl, root, _⟩ | ⟨front, last, rfl, holds⟩
  · rcases otherShows with ⟨rfl, _⟩ | ⟨_, _, _, otherHolds⟩
    · rfl
    · exact absurd root otherHolds.root_ne_null
  · rcases otherShows with ⟨_, root, _⟩ | ⟨otherFront, otherLast, rfl, otherHolds⟩
    · exact absurd root holds.root_ne_null
    · have sameLast : last.label = otherLast.label := holds.tail.symm.trans otherHolds.tail
      have apart : ∀ {front : List Cell} {last : Cell}, (labels (front ++ [last])).Nodup →
          last.label ∉ labels front := by
        intro front last distinct member
        rw [labels, List.map_append] at distinct
        exact (List.nodup_append.mp distinct).2.2 _ member _ List.mem_cons_self rfl
      have leads := otherHolds.leads
      rw [← sameLast] at leads
      have otherApart := apart otherHolds.distinct
      rw [← sameLast] at otherApart
      have sameFront := holds.leads.unique leads (apart holds.distinct) otherApart
      have sameLabels : labels (front ++ [last]) = labels (otherFront ++ [otherLast]) := by
        simp only [labels, List.map_append, List.map_cons, List.map_nil] at sameFront ⊢
        rw [sameFront, sameLast]
      exact cells_eq_of_labels holds.shown otherHolds.shown sameLabels

theorem Shows.labels_nodup {cells : List Cell} (shows : Shows store cells) : (labels cells).Nodup := by
  rcases shows with ⟨rfl, _⟩ | ⟨front, last, rfl, holds⟩
  · exact List.nodup_nil
  · exact holds.distinct

theorem Shows.shown {cells : List Cell} (shows : Shows store cells) (cell : Cell)
    (member : cell ∈ cells) : entryAt store.heap cell.label = some cell.entry := by
  rcases shows with ⟨rfl, _⟩ | ⟨front, last, rfl, holds⟩
  · cases member
  · exact holds.shown cell member

theorem Shows.root_ne_null {cells : List Cell} (shows : Shows store cells) (some : cells ≠ []) :
    store.root ≠ null := by
  rcases shows with ⟨empty, _⟩ | ⟨front, last, _, holds⟩
  · exact absurd empty some
  · exact holds.root_ne_null

end Reading

/-! ### Appending -/

section Appending

variable {store : Store ListNode (ListSide I)} {cells : List Cell}

theorem runsTo_getTail (store : Store ListNode (ListSide I)) :
    RunsTo (getTail : M I Ptr) store store.aux.tail store := by
  rintro started rfl
  exact ⟨started, rfl, rfl⟩

/-- An append runs to its end and enters one cell behind the others, whose pointer is what the
allocator left there. -/
theorem appendNode_runsTo (pool : ListPool RootMember) (shows : Shows store cells) (key : Key)
    (value : Value) :
    ∃ after, RunsTo (appendNode pool key value) store (store.heap.size + 1) after ∧
      Shows after (cells ++ [⟨store.heap.size + 1, (key, value)⟩]) ∧
      after.aux.index = store.aux.index ∧ after.heap.size = store.heap.size + 1 ∧
      nextAt after.heap (store.heap.size + 1) = (pool.garbage (store.heap.size + 1)).next := by
  have created := createNode_runsTo pool key value store
  have view := pool.view_newNode key value (store.heap.size + 1)
  rcases shows with ⟨rfl, root, _⟩ | ⟨front, last, rfl, holds⟩
  · refine ⟨Store.mk (store.heap.push (pool.newNode key value (store.heap.size + 1)))
      (store.heap.size + 1) ⟨store.heap.size + 1, store.aux.index⟩, ?_, ?_, rfl,
      Heap.size_push _ _, ?_⟩
    · apply pool.mode.runsTo_transaction
      apply created.bind
      apply (RunsTo.getRoot _).bind
      rw [if_pos root]
      apply RunsTo.bind
      · apply (pool.mode.runsTo_addRange _ _).bind
        apply (RunsTo.perform rfl).bind
        apply (RunsTo.perform rfl).bind
        exact pool.mode.runsTo_persist _ _
      · exact RunsTo.pure _ _
    · refine Or.inr ⟨[], _, rfl, ?_⟩
      constructor
      · rfl
      · intro cell member
        obtain rfl := List.mem_singleton.mp member
        show entryAt (store.heap.push _) (store.heap.size + 1) = _
        rw [entryAt_allocated, Function.update_self, view]
      · exact List.nodup_cons.mpr ⟨List.not_mem_nil, List.nodup_nil⟩
      · rfl
    · rw [nextAt_allocated, Function.update_self]
      rfl
  · have old : ∀ cell ∈ front ++ [last], cell.label ≠ store.heap.size + 1 := by
      intro cell member
      have bounds := bounds_of_entry (holds.shown cell member)
      have size : (asDram store).heap.size = store.heap.size := rfl
      omega
    have lastMember : last ∈ front ++ [last] := List.mem_append_right _ List.mem_cons_self
    have middleShown := entryAt_allocated store.heap
      (pool.newNode key value (store.heap.size + 1))
    have lastShown : entryAt (Store.mk (store.heap.push (pool.newNode key value
        (store.heap.size + 1))) store.root store.aux).heap last.label = some last.entry := by
      rw [middleShown, Function.update_of_ne (old last lastMember)]
      exact holds.shown last lastMember
    obtain ⟨node, live, _⟩ := exists_entry lastShown
    obtain ⟨next, ran, kept, nexts, shown⟩ := setNext_ok live (store.heap.size + 1)
    have nextLast : nextAt next.heap last.label = some (store.heap.size + 1) := by
      rw [nexts, Function.update_self]
    obtain ⟨lastNode, lastLive, nextWritten⟩ := exists_next nextLast
    have nextRead : written lastNode.next = .ok (store.heap.size + 1) := by
      rw [nextWritten]
      rfl
    refine ⟨{ next with aux := { next.aux with tail := store.heap.size + 1 } }, ?_, ?_, ?_, ?_, ?_⟩
    · apply pool.mode.runsTo_transaction
      apply created.bind
      apply (RunsTo.getRoot _).bind
      rw [if_neg (show store.root ≠ null from holds.root_ne_null)]
      apply RunsTo.bind
      · apply (runsTo_getTail _).bind
        rw [show store.aux.tail = last.label from holds.tail]
        apply (pool.mode.runsTo_addRange _ _).bind
        apply (RunsTo.perform ran).bind
        apply (RunsTo.load lastLive).bind
        apply (RunsTo.lift nextRead _).bind
        apply (RunsTo.perform rfl).bind
        exact pool.mode.runsTo_persist _ _
      · exact RunsTo.pure _ _
    · refine Or.inr ⟨front ++ [last], _, rfl, ?_⟩
      apply holds.append _ old kept.root rfl
      · exact nextLast
      · intro cell member notLast
        have different := old cell (List.mem_append_left _ member)
        exact (congrFun nexts cell.label).trans (by
          rw [Function.update_of_ne notLast, nextAt_allocated, Function.update_of_ne different]
          rfl)
      · intro cell member
        exact (congrFun shown cell.label).trans (by
          rw [middleShown, Function.update_of_ne (old cell member)]
          exact holds.shown cell member)
      · exact (congrFun shown _).trans (by rw [middleShown, Function.update_self, view])
    · exact (congrArg ListSide.index kept.aux :)
    · exact kept.size.trans (Heap.size_push _ _)
    · have fresh := old last lastMember
      exact (congrFun nexts _).trans (by
        rw [Function.update_of_ne (Ne.symm fresh), nextAt_allocated, Function.update_self]
        rfl)

end Appending

/-! ### The effects of an append -/

section Effects

variable {pool : ListPool RootMember} {key : Key} {value : Value} {started : PmemList I}

theorem storeHead_frames (node : Ptr) (before : Store ListNode (ListSide I)) (result : Unit)
    (after : Store ListNode (ListSide I)) (ran : Prog.setRoot node before = .ok (result, after))
    (place : ListPlace RootMember) :
    (Effect.store (memberBytes .head)).Frames place (readPool before place) (readPool after place) := by
  cases ran
  cases place with
  | root member =>
      cases member with
      | head => exact ⟨fun outside => by simp [memberBytes] at outside, by simp [readPool, readPlace, readObjects, readRoot]⟩
      | tail => exact ⟨fun _ => rfl, Iff.rfl⟩
  | node address field => exact ⟨fun _ => rfl, Iff.rfl⟩

theorem storeTail_frames (node : Ptr) (before : Store ListNode (ListSide I)) (result : Unit)
    (after : Store ListNode (ListSide I))
    (ran : (fun store : Store ListNode (ListSide I) => (Except.ok ((), { store with
      aux := { store.aux with tail := node } }) : Except Fault _)) before = .ok (result, after))
    (place : ListPlace RootMember) :
    (Effect.store (memberBytes .tail)).Frames place (readPool before place) (readPool after place) := by
  cases ran
  cases place with
  | root member =>
      cases member with
      | head => exact ⟨fun _ => rfl, Iff.rfl⟩
      | tail => exact ⟨fun outside => by simp [memberBytes] at outside, by simp [readPool, readPlace, readObjects, readRoot]⟩
  | node address field => exact ⟨fun _ => rfl, Iff.rfl⟩

/-- An append to an empty list. -/
def appendFirst (pool : ListPool RootMember) (key : Key) (value : Value) : M I Ptr :=
  pool.mode.transaction do
    let node ← pool.createNode key value
    linkFirst pool node
    return node

/-- An append to a list with nodes. -/
def appendBehind (pool : ListPool RootMember) (key : Key) (value : Value) : M I Ptr :=
  pool.mode.transaction do
    let node ← pool.createNode key value
    linkBehind pool node
    return node

theorem appendNode_eq_first (empty : (memory started).root = null) :
    appendNode pool key value started = appendFirst pool key value started := by
  apply pool.mode.transaction_congr
  intro store same
  obtain ⟨created, ran, createdEq⟩ := createNode_runsTo pool key value (memory started) store same
  have kept : (memory created).root = (memory started).root := by rw [createdEq]
  have root : created.root = null := kept.trans empty
  rw [bind_ok ran, bind_ok ran, bind_ok (Prog.getRoot_ok created), if_pos root]

theorem appendNode_eq_behind (some : (memory started).root ≠ null) :
    appendNode pool key value started = appendBehind pool key value started := by
  apply pool.mode.transaction_congr
  intro store same
  obtain ⟨created, ran, createdEq⟩ := createNode_runsTo pool key value (memory started) store same
  have kept : (memory created).root = (memory started).root := by rw [createdEq]
  have root : created.root ≠ null := fun isNull => some (kept.symm.trans isNull)
  rw [bind_ok ran, bind_ok ran, bind_ok (Prog.getRoot_ok created), if_neg root]

variable (allowed : Effect (ListPlace RootMember) → Store ListNode (ListSide I) → Prop)

theorem emits_linkFirst (stores : ∀ range memory, allowed (.store range) memory)
    (snapshots : pool.mode = .transactional → ∀ memory, allowed (.snapshot rootBytes) memory)
    (persists : pool.mode = .persistent → ∀ memory, allowed (.persist rootBytes) memory) (node : Ptr) :
    Emits (readPool (I := I)) pool.mode.inside allowed (linkFirst pool node) := by
  apply (Mode.emits_addRange snapshots).bind
  intro _
  apply (Emits.store (stores _) (storeHead_frames node)).bind
  intro _
  apply (Emits.store (stores _) (storeTail_frames node)).bind
  intro _
  exact Mode.emits_persist persists

theorem emits_linkBehind (stores : ∀ range memory, allowed (.store range) memory)
    (snapshots : pool.mode = .transactional →
      ∀ address memory, allowed (.snapshot (nodeBytes address)) memory)
    (persists : pool.mode = .persistent → ∀ memory, allowed (.persist (pool.rangeFrom .tail)) memory)
    (node : Ptr) : Emits (readPool (I := I)) pool.mode.inside allowed (linkBehind pool node) := by
  have getsTail : Emits (readPool (I := I)) pool.mode.inside allowed getTail := by
    apply EffectLogic.Holds.quiet
    · intro store final tail ran
      cases ran
      rfl
    · exact fun _ => trivial
  apply getsTail.bind
  intro tail
  apply (Mode.emits_addRange fun mode => snapshots mode tail).bind
  intro _
  apply (emits_storeNext rootApart stores).bind
  intro _
  apply (Emits.load tail).bind
  intro contents
  apply (Emits.lift _).bind
  intro next
  apply (Emits.store (stores _) (storeTail_frames next)).bind
  intro _
  exact Mode.emits_persist persists

theorem emits_appendFirst (stores : ∀ range memory, allowed (.store range) memory)
    (begins : ∀ memory, allowed .begin memory) (commits : ∀ memory, allowed .commit memory)
    (allocates : ∀ address memory, memory.heap.get? address = some (pool.garbage address) →
      allowed (pool.mode.allocation (nodeBytes address)) memory)
    (snapshots : pool.mode = .transactional → ∀ memory, allowed (.snapshot rootBytes) memory)
    (persists : pool.mode = .persistent → ∀ memory, allowed (.persist rootBytes) memory) :
    Emits (readPool (I := I)) false allowed (appendFirst pool key value) := by
  refine Mode.emits_transaction ?_ begins commits
  apply (emits_createNode rootApart stores allocates).bind
  intro node
  apply (emits_linkFirst allowed stores snapshots persists node).bind
  exact fun _ => Emits.pure node

theorem emits_appendBehind (stores : ∀ range memory, allowed (.store range) memory)
    (begins : ∀ memory, allowed .begin memory) (commits : ∀ memory, allowed .commit memory)
    (allocates : ∀ address memory, memory.heap.get? address = some (pool.garbage address) →
      allowed (pool.mode.allocation (nodeBytes address)) memory)
    (snapshots : pool.mode = .transactional →
      ∀ address memory, allowed (.snapshot (nodeBytes address)) memory)
    (persists : pool.mode = .persistent → ∀ memory, allowed (.persist (pool.rangeFrom .tail)) memory) :
    Emits (readPool (I := I)) false allowed (appendBehind pool key value) := by
  refine Mode.emits_transaction ?_ begins commits
  apply (emits_createNode rootApart stores allocates).bind
  intro node
  apply (emits_linkBehind allowed stores snapshots persists node).bind
  exact fun _ => Emits.pure node

theorem emits_appendNode (stores : ∀ range memory, allowed (.store range) memory)
    (begins : ∀ memory, allowed .begin memory) (commits : ∀ memory, allowed .commit memory)
    (allocates : ∀ address memory, memory.heap.get? address = some (pool.garbage address) →
      allowed (pool.mode.allocation (nodeBytes address)) memory)
    (snapshots : pool.mode = .transactional → ∀ range memory, allowed (.snapshot range) memory)
    (rootPersists : pool.mode = .persistent → ∀ memory, allowed (.persist rootBytes) memory)
    (tailPersists : pool.mode = .persistent →
      ∀ memory, allowed (.persist (pool.rangeFrom .tail)) memory) :
    Emits (readPool (I := I)) false allowed (appendNode pool key value) := by
  refine Mode.emits_transaction ?_ begins commits
  apply (emits_createNode rootApart stores allocates).bind
  intro node
  apply Emits.getRoot.bind
  intro head
  apply EffectLogic.Holds.branch
  · intro _
    apply (emits_linkFirst allowed stores (fun mode => snapshots mode _) rootPersists node).bind
    exact fun _ => Emits.pure node
  · intro _
    apply (emits_linkBehind allowed stores (fun mode _ => snapshots mode _) tailPersists node).bind
    exact fun _ => Emits.pure node

theorem logs_linkFirst (garbage : Ptr → ListNode) (behind : RootMember → ListPlace RootMember → Bool)
    (covered : ListPlace RootMember → Bool) (node : Ptr) :
    Logs (readPool (I := I)) covered (linkFirst (ListPool.tx garbage behind) node)
      fun _ _ => True := by
  have snapshotted : Logs (readPool (I := I)) covered (addRange rootBytes)
      fun _ more => more = fun place => covered place || rootBytes place := Logs.addRange rfl
  apply snapshotted.bind
  rintro _ _ rfl
  have headStored : Logs (readPool (I := I)) (fun place => covered place || rootBytes place)
      (storeHead node) fun _ more => more = fun place => covered place || rootBytes place := by
    apply Logs.store
    · intro place inside
      obtain rfl := eq_of_memberBytes inside
      simp [rootBytes, memberBytes]
    · exact storeHead_frames node
    · exact fun _ => rfl
  apply headStored.bind
  rintro _ _ rfl
  have tailStored : Logs (readPool (I := I)) (fun place => covered place || rootBytes place)
      (storeTail node) fun _ _ => True := by
    apply Logs.store
    · intro place inside
      obtain rfl := eq_of_memberBytes inside
      simp [rootBytes, memberBytes]
    · exact storeTail_frames node
    · exact fun _ => trivial
  apply tailStored.bind
  intro _ _ _
  exact EffectLogic.Holds.pure trivial

/-- The first append logs all its stores. -/
theorem logs_first (garbage : Ptr → ListNode) (behind : RootMember → ListPlace RootMember → Bool)
    (key : Key) (value : Value) :
    Logs (readPool (I := I)) (fun _ => false)
      (do
        let node ← (ListPool.tx garbage behind).createNode key value
        linkFirst (ListPool.tx garbage behind) node
        return node)
      fun _ _ => True := by
  apply (logs_createNode rootApart).bind
  rintro node _ rfl
  apply (logs_linkFirst garbage behind _ node).bind
  intro _ _ _
  exact EffectLogic.Holds.pure trivial

end Effects

/-! ### Overwriting a value -/

section Overwriting

variable {store after : Store ListNode (ListSide I)} {cells : List Cell}

/-- The cell with a new value, when it is the node at an address. -/
def overwritten (address : Ptr) (value : Value) (cell : Cell) : Cell :=
  if cell.label = address then { cell with entry := (cell.entry.1, value) } else cell

@[simp] theorem label_overwritten (address : Ptr) (value : Value) (cell : Cell) :
    (overwritten address value cell).label = cell.label := by
  unfold overwritten
  split
  · rfl
  · rfl

@[simp] theorem key_overwritten (address : Ptr) (value : Value) (cell : Cell) :
    (overwritten address value cell).entry.1 = cell.entry.1 := by
  unfold overwritten
  split
  · rfl
  · rfl

theorem labels_overwritten (address : Ptr) (value : Value) (cells : List Cell) :
    labels (cells.map (overwritten address value)) = labels cells := by
  simp [labels, Function.comp_def]

theorem keys_overwritten (address : Ptr) (value : Value) (cells : List Cell) :
    (cells.map (overwritten address value)).map (fun cell => cell.entry.1) =
      cells.map fun cell => cell.entry.1 := by
  simp [Function.comp_def]

theorem nextAt_setValue {X : Type} {store after : Store ListNode X} {address : Ptr} {value : Value}
    (ran : setValue value address store = .ok ((), after)) : nextAt after.heap = nextAt store.heap := by
  obtain ⟨node, changed, live, changedEq, rfl⟩ := Prog.modify_inv ran
  cases changedEq
  funext other
  rw [nextAt, Heap.get?_set live, nextAt]
  split
  · rename_i same
    rw [same, live]
    rfl
  · rfl

/-- Copying a value into any node changes the value of that cell, if it is one. -/
theorem holds_setValue {store after : LinkedlistDram} {front : List Cell} {last : Cell} {address : Ptr}
    {value : Value} (holds : LinkedlistDram.Holds store front last)
    (ran : setValue value address store = .ok ((), after)) :
    LinkedlistDram.Holds after (front.map (overwritten address value))
      (overwritten address value last) := by
  have nexts := nextAt_setValue ran
  obtain ⟨node, changed, live, changedEq, rfl⟩ := Prog.modify_inv ran
  cases changedEq
  constructor
  · rw [labels_overwritten, label_overwritten, nexts]
    exact holds.leads
  · intro cell member
    rw [← List.map_singleton, ← List.map_append] at member
    obtain ⟨old, oldMember, rfl⟩ := List.mem_map.mp member
    have here := holds.shown old oldMember
    rw [label_overwritten]
    unfold overwritten
    rw [entryAt, Heap.get?_set live]
    split
    · rename_i same
      rw [same] at here
      obtain ⟨found, foundLive, keyWritten, _⟩ := exists_entry here
      obtain rfl : found = node := Option.some.inj (foundLive.symm.trans live)
      simp [ListNode.view, keyWritten]
    · exact here
  · rw [← List.map_singleton, ← List.map_append, labels_overwritten]
    exact holds.distinct
  · exact holds.tail.trans (label_overwritten address value last).symm

theorem setValue_shows {address : Ptr} {value : Value} (shows : Shows store cells)
    (ran : setValue value address store = .ok ((), after)) :
    Shows after (cells.map (overwritten address value)) := by
  obtain ⟨node, changed, live, changedEq, rfl⟩ := Prog.modify_inv ran
  cases changedEq
  have liveDram : (asDram store).heap.get? address = some node := live
  rcases shows with ⟨rfl, root, tail⟩ | ⟨front, last, rfl, holds⟩
  · exact Or.inl ⟨rfl, root, tail⟩
  · refine Or.inr ⟨front.map (overwritten address value), overwritten address value last, ?_, ?_⟩
    · rw [List.map_append]
      rfl
    · exact holds_setValue holds (Prog.modify_pure_ok _ liveDram)

end Overwriting

end StoredsBench.Linkedlist
