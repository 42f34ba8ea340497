/-
Module: StoredsBench.Linkedlist.Destroy
Layer: Correctness
Purpose: `destroy` of `linkedlist_dram.cc`, `linkedlist_pmem.cc` and `linkedlist_pmem_tx.cc`.  The DRAM
  classes free the last node first and then follow the list to it, the others free the whole list and
  then its last node again, so that only the empty list of a DRAM class is torn down.
Trusted boundary: none
Main exports: nextOf, freeNodes, LinkedlistDram.destroy, LinkedlistPmem.destroy, Terminated,
  nil_of_freeNodes, LinkedlistPmem.destroy_never
-/
import StoredsBench.Lib.Release
import StoredsBench.Linkedlist.Dram
import StoredsBench.Linkedlist.Pmem
import StoredsBench.Lists.Refinement

namespace StoredsBench

open Lib Lists

/-- `node->next`. -/
def Lists.nextOf (node : ListNode) : Except Fault Ptr := written node.next

theorem Lists.linkBy_nextOf (heap : Heap ListNode) : linkBy nextOf heap = nextAt heap := by
  funext address
  cases live : heap.get? address with
  | none => rw [linkBy, nextAt, live, Option.bind_none, Option.bind_none]
  | some node =>
      rw [linkBy, nextAt, live, Option.bind_some, Option.bind_some, nextOf]
      cases node.next with
      | none => rfl
      | some target => rfl

namespace Linkedlist

/-- `if (tail != NULL) free(tail);` and the loop of `destroy` behind it. -/
def freeNodes {N X : Type} (next : N → Except Fault Ptr) (tail : Ptr) : Prog N X Unit := do
  Prog.freeUnlessNull tail
  let head ← Prog.getRoot
  let bound ← Prog.heapSize
  Prog.freeChain Prog.setRoot next (bound + 1) head

end Linkedlist

open Linkedlist

/-- `destroy`. -/
def LinkedlistDram.destroy : LinkedlistDram.M Unit := do
  let tail ← Prog.getAux
  freeNodes nextOf tail

/-- `destroy`, without closing the pool.  The trail has no entries for freed objects. -/
def LinkedlistPmem.destroy (pool : ListPool RootMember) : Linkedlist.M Unit Unit := do
  LinkedlistPmem.check
  pool.mode.transaction do
    pool.mode.addRange rootBytes
    let head ← Prog.getRoot
    let bound ← Prog.heapSize
    Prog.freeChain storeHead nextOf (bound + 1) head
    let tail ← getTail
    Prog.freeUnlessNull tail
    storeHead null
    storeTail null

namespace Linkedlist

/-- The nodes of a list that ends with a null pointer, to the last of which `tail` points. -/
structure Terminated (next : Ptr → Option Ptr) (head tail : Ptr) (nodes : List Ptr) : Prop where
  linked : Linked next head nodes
  last : tail = nodes.getLastD null

section FreeNodes

variable {N X : Type} {next : N → Except Fault Ptr} {store : Store N X} {tail : Ptr} {nodes : List Ptr}

theorem Terminated.head_eq_null_iff {next : Ptr → Option Ptr} {head : Ptr}
    (terminated : Terminated next head tail nodes) : head = null ↔ nodes = [] := by
  cases nodes with
  | nil => exact iff_of_true terminated.linked rfl
  | cons node rest =>
      apply iff_of_false
      · rw [terminated.linked.eq_headD]
        exact terminated.linked.ne_null node List.mem_cons_self
      · exact List.cons_ne_nil node rest

/-- The tail is freed and then found again at the end of the list. -/
theorem freeNodes_dangling {front : List Ptr} {last : Ptr}
    (linked : Linked (linkBy next store.heap) store.root (front ++ [last])) :
    freeNodes next last store = .error .invalidPointer := by
  obtain ⟨leads, notNull, found⟩ := linked_append_singleton.mp linked
  obtain ⟨object, live, _⟩ := linkBy_eq_some.mp found
  have distinct := List.nodup_append.mp linked.nodup
  have freed : Prog.freeUnlessNull last store =
      .ok ((), { store with heap := store.heap.erase last }) := by
    rw [Prog.freeUnlessNull, if_neg notNull, Prog.free_ok live]
  rw [freeNodes, bind_ok freed, bind_ok (Prog.getRoot_ok _), bind_ok (Prog.heapSize_ok _)]
  apply freeChain_dangling
  · exact fun address before => ⟨_, rfl, rfl⟩
  · apply Leads.congr leads
    intro other member
    apply linkBy_erase live
    exact distinct.2.2 other member last List.mem_cons_self
  · exact distinct.1
  · rw [Heap.get?_erase live, if_pos rfl]
  · exact notNull
  · have bounded := linked.length_lt
    rw [List.length_append] at bounded
    rw [Heap.size_erase]
    exact Nat.lt_of_le_of_lt (Nat.le_add_right _ _) bounded

/-- A list with nodes is not torn down. -/
theorem nil_of_freeNodes (terminated : Terminated (linkBy next store.heap) store.root tail nodes)
    {after : Store N X} (ran : freeNodes next tail store = .ok ((), after)) : nodes = [] := by
  rcases List.eq_nil_or_concat nodes with empty | ⟨front, last, rfl⟩
  · exact empty
  · rw [List.concat_eq_append] at terminated
    have isLast : tail = last := by rw [terminated.last, List.getLastD_concat]
    rw [isLast, freeNodes_dangling terminated.linked] at ran
    cases ran

theorem freeNodes_nil (terminated : Terminated (linkBy next store.heap) store.root tail []) :
    freeNodes next tail store = .ok ((), store) := by
  have empty : store.root = null := terminated.linked
  have noTail : tail = null := terminated.last
  rw [freeNodes, Prog.freeUnlessNull, if_pos noTail, bind_ok (pure_ok () store),
    bind_ok (Prog.getRoot_ok _), bind_ok (Prog.heapSize_ok _), Prog.freeChain, if_pos empty]
  rfl

end FreeNodes

end Linkedlist

theorem LinkedlistDram.destroy_frees_iff {list : LinkedlistDram} {nodes : List Ptr}
    (terminated : Terminated (nextAt list.heap) list.root list.aux nodes) :
    Frees LinkedlistDram.destroy list nodes ↔ nodes = [] := by
  rw [← linkBy_nextOf] at terminated
  have same : LinkedlistDram.destroy list = freeNodes nextOf list.aux list := by
    rw [LinkedlistDram.destroy, bind_ok (Prog.getAux_ok list)]
  constructor
  · rintro ⟨after, ran, _⟩
    exact nil_of_freeNodes terminated (same.symm.trans ran)
  · rintro rfl
    exact ⟨list, same.trans (freeNodes_nil terminated), Released.nil _⟩

/-! ### The persistent lists -/

namespace LinkedlistPmem

variable {pool : ListPool RootMember} {list : LinkedlistPmem} {nodes : List Ptr}

theorem assigns_storeHead : Assigns (storeHead : Ptr → Linkedlist.M Unit Unit) := by
  intro address store
  exact ⟨_, perform_ok rfl, rfl⟩

/-- The loop frees the last node, and `root_p->tail` still names it. -/
theorem destroy_never (terminated : Terminated (nextAt list.heap) list.root list.aux.side.tail nodes)
    (freed : List Ptr) : ¬ Frees (destroy pool) list freed := by
  rintro ⟨after, ran, _⟩
  obtain ⟨_, checked, checkRan, inTransaction⟩ := bind_ok_inv ran
  have notEmpty : list.root ≠ null ∧ checked = list := by
    rw [check, bind_ok (Prog.getRoot_ok _)] at checkRan
    split at checkRan
    · cases checkRan
    · next notNull =>
        cases checkRan
        exact ⟨notNull, rfl⟩
  obtain ⟨notNull, rfl⟩ := notEmpty
  obtain ⟨started, _, startedMemory, bodyRan, _⟩ := Mode.transaction_ran inTransaction
  obtain ⟨_, covered, snapshotRan, loopRan⟩ := bind_ok_inv bodyRan
  have sameMemory : memory covered = memory checked :=
    ((pool.mode.runsTo_addRange rootBytes _).of_ok snapshotRan).2.trans startedMemory
  rw [bind_ok (Prog.getRoot_ok _), bind_ok (Prog.heapSize_ok _)] at loopRan
  obtain ⟨_, looped, freeRan, tailRan⟩ := bind_ok_inv loopRan
  have linked : Linked (linkBy nextOf covered.heap) covered.root nodes := by
    have sameHeap : covered.heap = checked.heap := congrArg (fun memory => memory.heap) sameMemory
    have sameRoot : covered.root = checked.root := congrArg (fun memory => memory.root) sameMemory
    rw [linkBy_nextOf, sameHeap, sameRoot]
    exact terminated.linked
  have sameTail : looped.aux.side.tail = checked.aux.side.tail := by
    have kept := freeChain_keeps (fun store => store.aux.side.tail) (by
      intro address before ended assignRan
      cases assignRan
      rfl) (fun before heap => rfl) freeRan
    exact kept.trans (congrArg (fun memory => memory.aux.tail) sameMemory)
  obtain ⟨ended, endedRan, released⟩ :=
    freeChain_ok assigns_storeHead linked linked.length_lt
  obtain rfl : ended = looped := (Prod.mk.inj (Except.ok.inj (endedRan.symm.trans freeRan))).2
  obtain ⟨front, last, rfl⟩ : ∃ front last, nodes = front ++ [last] := by
    rcases List.eq_nil_or_concat nodes with empty | ⟨front, last, isConcat⟩
    · exact absurd (terminated.head_eq_null_iff.mpr empty) notNull
    · exact ⟨front, last, isConcat.trans (List.concat_eq_append ..)⟩
  have isLast : ended.aux.side.tail = last := by
    rw [sameTail, terminated.last, List.getLastD_concat]
  have lastNotNull : last ≠ null := linked.ne_null last (List.mem_append_right _ List.mem_cons_self)
  have gone : ended.heap.get? last = none := by
    rw [released last, if_pos (List.mem_append_right _ List.mem_cons_self)]
  have tailed : getTail ended = .ok (last, ended) := by rw [getTail, isLast]
  rw [bind_ok tailed] at tailRan
  obtain ⟨_, _, again, _⟩ := bind_ok_inv tailRan
  rw [Prog.freeUnlessNull, if_neg lastNotNull, Prog.free, gone] at again
  cases again

end LinkedlistPmem

end StoredsBench
