/-
Module: StoredsBench.BPlusTreeMemOpt.Pmem
Layer: Correctness
Purpose: `BPPmem` and `BPPmemTx` over whole workloads.  `init` leaves an empty leaf, which no `BPlusTreeDram`
  has; from the first insert on there is a `BPlusTreeDram` beside the pool.
Trusted boundary: none
Main exports: BPPmem.Blank, BPPmem.Beside, BPPmem.Reached, BPPmem.init_blank, BPPmem.insert_blank,
  BPPmem.serve_reached
-/
import StoredsBench.BPlusTreeMemOpt.Correctness
import StoredsBench.BPlusTree.Destroy

namespace StoredsBench.BPPmem

open Lib Lib.Multiway Lib.SortedAssoc MemOpt BP
open BPlusTreeDram (Links kind chain)

variable {past : List RangeCall} {state : State} {pool : Pool Node Record}

/-- The root is an empty leaf, and there is no record. -/
structure Blank (state : State) : Prop where
  stands : Stands [] (memory state).aux (Trees.rootedStore Links.null) (memory state)
  ledger : Ledger [] [] (memory state).aux

/-- There is a `BPlusTreeDram` beside the pool, all nodes of which belong to its tree. -/
def Beside (past : List RangeCall) (state : State) : Prop :=
  ∃ entries store, Companions (insertionOrder RangeCall.inserted? past) entries store state ∧
    Trees.StoresWhole kind chain store

/-- The states behind `init` and these calls. -/
def Reached (past : List RangeCall) (state : State) : Prop :=
  (Blank state ∧ insertionOrder RangeCall.inserted? past = []) ∨ Beside past state

theorem init_blank (pool : Pool Node Record) :
    ∃ state, init pool newState = .ok ((), state) ∧ Blank state := by
  have runs : RunsTo (init pool) (memory newState) ()
      { heap := Heap.empty.push (BPDram.firstNode pool), root := 1, aux := Heap.empty } := by
    have created : RunsTo (createNode pool true) (memory newState) 1
        { heap := Heap.empty.push (BPDram.firstNode pool), root := null, aux := Heap.empty } :=
      RunsTo.perform rfl
    have stored : RunsTo (storeRoot 1 : M Unit)
        { heap := Heap.empty.push (BPDram.firstNode pool), root := null, aux := Heap.empty } ()
        { heap := Heap.empty.push (BPDram.firstNode pool), root := 1, aux := Heap.empty } :=
      RunsTo.perform rfl
    exact RunsTo.bind
      (Mode.runsTo_transaction _ (RunsTo.bind (Mode.runsTo_addRange _ _ _) (RunsTo.bind created stored)))
      (Mode.runsTo_persist _ _ _)
  obtain ⟨state, ran, left⟩ := runs newState rfl
  refine ⟨state, ran, ?_, ?_⟩
  · rw [left]
    exact ⟨Coupled.empty.push (blank_stands true _), rfl, rfl⟩
  · rw [left]
    exact Ledger.empty

/-- The first insert. -/
theorem insert_blank (blank : Blank state) (nothing : insertionOrder RangeCall.inserted? past = [])
    (key : Key) (value : Value) :
    ∃ final, insert pool key value state = .ok (1, final) ∧ Beside (past ++ [.insert key value]) final := by
  obtain ⟨next, ran, stores, -⟩ := Trees.insert_empty BPlusTreeDram.implements
    (show BPlusTreeDram.init.root = null from rfl) key value
  obtain ⟨first, firstRan, whole⟩ := Trees.StoresWhole.first BPlusTreeDram.implements
    (show BPlusTreeDram.init.root = null from rfl) (show BPlusTreeDram.init.heap.size = 0 from rfl) key value
  cases firstRan.symm.trans ran
  obtain ⟨final, inserted, companions, _⟩ := insert_new BPlusTreeDram.implements (keepsRecords pool)
    blank.stands blank.ledger (show (1 : Ptr) ≠ null from Nat.one_ne_zero)
    (Trees.search_rooted BPlusTreeDram.implements.searches key)
    ((Trees.insert_rooted BPlusTreeDram.implements key value).trans ran) rfl ⟨0, _, stores, rfl⟩
  have order : insertionOrder RangeCall.inserted? (past ++ [.insert key value]) = [] ++ [key] := by
    rw [insertionOrder_insert past rfl, nothing, if_neg List.not_mem_nil]
  rw [← order] at companions
  exact ⟨final, inserted, _, _, companions, whole⟩

/-- Every other insert. -/
theorem insert_beside (beside : Beside past state) (key : Key) (value : Value) :
    ∃ final, insert pool key value state = .ok (1, final) ∧ Beside (past ++ [.insert key value]) final := by
  obtain ⟨entries, store, companions, whole⟩ := beside
  obtain ⟨next, final, ran, inserted, grown, _⟩ := companions.insert BPlusTreeDram.implements
    (keepsRecords pool) key value
  obtain ⟨other, otherRan, wholeNext⟩ := whole.insert BPlusTreeDram.implements key value
  cases otherRan.symm.trans ran
  rw [← insertionOrder_insert past (show RangeCall.inserted? (.insert key value) = some key from rfl)]
    at grown
  exact ⟨final, inserted, _, _, grown, wholeNext⟩

/-! ### Reads and scans of an empty leaf -/

/-- The only node of a blank pool. -/
theorem Blank.root (blank : Blank state) :
    (memory state).root = 1 ∧ (memory state).heap.size = 1 ∧
      ∃ node, (memory state).heap.get? 1 = some node ∧ node.isLeaf = true ∧ node.nk = 0 ∧
        node.next = null ∧ node.previous = null := by
  obtain ⟨node, live, stands⟩ := blank.stands.heap.live (Trees.rootedStore_live Links.null)
  exact ⟨blank.stands.root, blank.stands.heap.size, node, live, stands.isLeaf, stands.nk, stands.next,
    stands.previous⟩

theorem read_blank (blank : Blank state) (key : Key) :
    ∃ final, searchFromRoot key (memory state) = .ok (none, final) := by
  obtain ⟨found, final, ran, missed, _⟩ := search_stands key _ _ blank.stands
    (Trees.search_rooted BPlusTreeDram.implements.searches key)
  obtain rfl : found = none := missed
  obtain ⟨root, size, _⟩ := blank.root
  refine ⟨final, ?_⟩
  rw [searchFromRoot, bind_ok (Prog.getRoot_ok _), bind_ok (Prog.heapSize_ok _), root, size, ran]

theorem scan_blank (blank : Blank state) (key : Key) (len : Int) :
    scanFromRoot key len (memory state) = .ok ([], memory state) := by
  obtain ⟨root, size, node, live, isLeaf, nk, next, _⟩ := blank.root
  have notNull : (1 : Ptr) ≠ null := Nat.one_ne_zero
  have descended : scanDescend 1 1 key (memory state) = .ok (1, memory state) := by
    rw [scanDescend, if_neg notNull, bind_ok (Prog.load_ok live), isLeaf, if_pos rfl]
    rfl
  have located : lowerIndexOf node key = .ok 0 := by
    rw [lowerIndexOf, nk]
    rfl
  have nothing : scanLeaf node len (node.nk - 0) 0 0 [] (memory state) =
      .ok (([], 0, false), memory state) := by
    rw [nk]
    rfl
  have walked : scanChain len 2 1 0 0 [] (memory state) = .ok ([], memory state) := by
    rw [scanChain, if_neg notNull, bind_ok (Prog.load_ok live), bind_ok nothing]
    dsimp only
    rw [next]
    split
    · rfl
    · rw [scanChain, if_pos rfl]
      rfl
  rw [scanFromRoot, bind_ok (Prog.getRoot_ok _), bind_ok (Prog.heapSize_ok _), root, size,
    bind_ok descended, if_neg notNull, bind_ok (Prog.load_ok live), bind_ok (Prog.lift_ok located _)]
  exact walked

/-! ### Whole workloads -/

/-- Calls that insert nothing leave everything as it is. -/
theorem Reached.idle (reached : Reached past state) {call : RangeCall}
    (idle : RangeCall.inserted? call = none) : Reached (past ++ [call]) state := by
  rw [Reached, Beside, insertionOrder_idle past idle]
  exact reached

theorem step_reached (reached : Reached past state) (call : RangeCall) :
    ∃ answer final, (rangeBackend pool).step call state = .ok (answer, final) ∧
      Reached (past ++ [call]) final := by
  cases call with
  | insert key value =>
      have inserted : ∃ final, insert pool key value state = .ok (1, final) ∧
          Beside (past ++ [.insert key value]) final := by
        rcases reached with ⟨blank, nothing⟩ | beside
        · exact insert_blank blank nothing key value
        · exact insert_beside beside key value
      obtain ⟨final, ran, beside⟩ := inserted
      refine ⟨.inserted, final, Backend.step_insert ?_, Or.inr beside⟩
      simp only [rangeBackend, ran]
      rfl
  | read key =>
      have answered : ∃ found after value, searchFromRoot key (memory state) = .ok (found, after) ∧
          stringAt after found = .ok value := by
        rcases reached with ⟨blank, _⟩ | ⟨entries, store, companions, _⟩
        · obtain ⟨after, ran⟩ := read_blank blank key
          exact ⟨none, after, none, ran, rfl⟩
        · obtain ⟨found, after, ran, denotes⟩ := searchFromRoot_reads pool companions key
          exact ⟨found, after, _, ran, denotes⟩
      obtain ⟨found, after, value, ran, denotes⟩ := answered
      refine ⟨.value value, state, Backend.step_read ?_, reached.idle rfl⟩
      simp only [rangeBackend, ran]
      exact denotes
  | scan key len =>
      have answered : ∃ found after, scanFromRoot key len (memory state) = .ok (found, after) := by
        rcases reached with ⟨blank, _⟩ | ⟨entries, store, companions, _⟩
        · exact ⟨_, _, scan_blank blank key len⟩
        · obtain ⟨found, after, _, ran⟩ := scanFromRoot_scans companions key len
          exact ⟨found, after, ran⟩
      obtain ⟨found, after, ran⟩ := answered
      refine ⟨.pairs found, state, RangeBackend.step_scan ?_, reached.idle rfl⟩
      simp only [rangeBackend, ran]
      rfl

theorem serve_reached_from : ∀ (calls : List RangeCall) {past : List RangeCall} {state : State},
    Reached past state →
    ∃ answers final, serve (rangeBackend pool).step calls state = .ok (answers, final) ∧
      Reached (past ++ calls) final
  | [], past, state, reached => ⟨[], state, rfl, by rwa [List.append_nil]⟩
  | call :: calls, past, state, reached => by
      obtain ⟨answer, next, ran, between⟩ := step_reached reached call
      obtain ⟨answers, final, restRan, ended⟩ := serve_reached_from calls between
      rw [List.append_assoc, List.singleton_append] at ended
      exact ⟨answer :: answers, final, serve_cons ran restRan, ended⟩

/-- Every workload is served from what `init` leaves. -/
theorem serve_reached (pool : Pool Node Record) (calls : List RangeCall) :
    ∃ opened answers state, init pool newState = .ok ((), opened) ∧
      serve (rangeBackend pool).step calls opened = .ok (answers, state) ∧ Reached calls state := by
  obtain ⟨opened, ran, blank⟩ := init_blank pool
  have start : Reached [] opened := Or.inl ⟨blank, rfl⟩
  obtain ⟨answers, state, served, reached⟩ := serve_reached_from calls start
  exact ⟨opened, answers, state, ran, served, reached⟩

end StoredsBench.BPPmem
