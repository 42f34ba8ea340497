/-
Module: StoredsBench.Array.PmemRefinement
Layer: Refinement
Purpose: `ArrayPmem` and `ArrayPmemTx` answer the calls of a session as `ArrayDram` does that starts on
  the array which the allocator left at the beginning of the session.
Trusted boundary: none
Main exports: Shows, insert_follows, update_follows, serve_follows, init_runsTo, sessions_agree
-/
import StoredsBench.Array.Correctness
import StoredsBench.Array.Pmem

namespace StoredsBench.ArrayPmem

open Lib
open ArrayDram (offset stringOf)

theorem slotAt_offset (elements : Elements) (key : Key) :
    ∃ slot, elements.slots[offset key]? = some slot ∧
      elements.asArray.slotAt (offset key) = .ok slot := by
  have shown : ArrayDram.Shows elements.asArray [] := by
    constructor
    · exact elements.length_eq
    · intro _ _ found
      cases found
  exact ArrayDram.slotAt_ok shown key

/-- The root object points to this array. -/
def Shows (contents : Store Elements Unit) (elements : Elements) : Prop :=
  contents.heap.get? contents.root = some elements

/-- The present array with other contents. -/
def replace (contents : Store Elements Unit) (elements : Elements) : Store Elements Unit :=
  { contents with heap := contents.heap.set contents.root elements }

section Runs

variable {contents : Store Elements Unit} {elements : Elements} {key : Key} {value : Value}
  {slot : ValueSlot} {index : Nat}

theorem Shows.replace (shows : Shows contents elements) (changed : Elements) :
    Shows (replace contents changed) changed := by
  unfold Shows ArrayPmem.replace
  rw [Heap.get?_set shows, if_pos rfl]

theorem check_runsTo (shows : Shows contents elements) : RunsTo check contents () contents := by
  apply (RunsTo.getRoot contents).bind
  rw [if_neg (Heap.ne_null_of_get? shows)]
  exact RunsTo.pure () contents

theorem storeValue_runsTo (shows : Shows contents elements)
    (found : elements.asArray.slotAt index = .ok slot) :
    RunsTo (storeValue value contents.root index) contents ()
      (replace contents (elements.put index (slot.copyString value))) := by
  apply RunsTo.perform
  apply Prog.modify_ok shows
  rw [copyTo, found]
  rfl

/-- The stores of `insert`, and those of `update` behind the read. -/
theorem overwritten_runsTo (pool : ArrayPool) (shows : Shows contents elements)
    (found : elements.asArray.slotAt index = .ok slot) :
    RunsTo
      (do
        pool.mode.addRange (elementBytes contents.root index)
        storeValue value contents.root index
        pool.mode.persist (elementBytes contents.root index))
      contents () (replace contents (elements.put index (slot.copyString value))) := by
  apply (pool.mode.runsTo_addRange _ contents).bind
  apply (storeValue_runsTo shows found).bind
  exact pool.mode.runsTo_persist _ _

/-- The root object points to this array, and so many arrays were ever allocated. -/
structure Holds (count : Nat) (array : ArrayDram) (contents : Store Elements Unit) : Prop where
  size : contents.heap.size = count
  shown : ∃ elements, Shows contents elements ∧ elements.asArray = array

theorem holds_put (shows : Shows contents elements) (index : Nat) (slot : ValueSlot) :
    Holds contents.heap.size { array := elements.slots.set index slot }
      (replace contents (elements.put index slot)) where
  size := Heap.size_set _ _ _
  shown := ⟨elements.put index slot, shows.replace _, rfl⟩

theorem insert_runsTo (pool : ArrayPool) (shows : Shows contents elements)
    (found : elements.asArray.slotAt (offset key) = .ok slot) :
    RunsTo (insert pool key value) contents 1
      (replace contents (elements.put (offset key) (slot.copyString value))) := by
  apply (check_runsTo shows).bind
  apply RunsTo.bind
  · apply pool.mode.runsTo_transaction
    apply (RunsTo.getRoot contents).bind
    exact overwritten_runsTo pool shows found
  · exact RunsTo.pure 1 _

theorem insert_follows (pool : ArrayPool) (shows : Shows contents elements) (key : Key) (value : Value) :
    Follows (insert pool key value) contents (ArrayDram.insert key value elements.asArray)
      fun _ => Holds contents.heap.size := by
  obtain ⟨slot, _, found⟩ := slotAt_offset elements key
  rw [ArrayDram.insert, found]
  exact Follows.ok (insert_runsTo pool shows found) (holds_put shows _ _)

/-- Behind a slot without a terminator the copy of the old value leaves the buffer, in both classes. -/
theorem update_follows (pool : ArrayPool) (shows : Shows contents elements) (key : Key) (value : Value) :
    Follows (update pool key value) contents (ArrayDram.update key value elements.asArray)
      fun _ => Holds contents.heap.size := by
  obtain ⟨slot, _, found⟩ := slotAt_offset elements key
  have stores : Follows
      (pool.mode.transaction do
        let array ← Prog.getRoot
        let elements ← Prog.load array
        let slot ← Prog.lift (elements.asArray.slotAt (offset key))
        let _dummyRead ← Prog.lift (stringOf slot)
        pool.mode.addRange (elementBytes array (offset key))
        storeValue value array (offset key)
        pool.mode.persist (elementBytes array (offset key)))
      contents (ArrayDram.update key value elements.asArray)
      fun _ => Holds contents.heap.size := by
    apply pool.mode.follows_transaction
    apply Follows.behind (RunsTo.getRoot contents)
    apply Follows.behind (RunsTo.load shows)
    apply Follows.behind (RunsTo.lift found contents)
    rw [ArrayDram.update, found]
    apply (Follows.lift (stringOf slot) contents).bind
    rintro _ _ _ ⟨_, rfl⟩
    exact Follows.ok (overwritten_runsTo pool shows found) (holds_put shows _ _)
  apply Follows.behind (check_runsTo shows)
  rw [← bind_pure (ArrayDram.update key value elements.asArray)]
  apply stores.bind
  intro _ array after holds
  exact Follows.ok (RunsTo.pure 1 after) holds

theorem read_follows (shows : Shows contents elements) (key : Key) :
    Follows (read key) contents (ArrayDram.read key elements.asArray)
      fun slot result after => slot = result ∧ after = contents := by
  apply Follows.behind (check_runsTo shows)
  apply Follows.behind (RunsTo.getRoot contents)
  apply Follows.behind (RunsTo.load shows)
  exact Follows.lift _ contents

theorem scan_follows (shows : Shows contents elements) (key : Key) (len : Int) :
    Follows (scan key len) contents (ArrayDram.scan key len elements.asArray)
      fun pairs result after => pairs = result ∧ after = contents := by
  apply Follows.behind (check_runsTo shows)
  apply Follows.behind (RunsTo.getRoot contents)
  apply Follows.behind (RunsTo.load shows)
  exact Follows.lift _ contents

theorem serve_follows (pool : ArrayPool) (shows : Shows contents elements) (call : ArrayCall) :
    Follows (serve pool call) contents (ArrayDram.serve call elements.asArray)
      fun reply result after => reply = result.1 ∧ Holds contents.heap.size result.2 after := by
  have unchanged : Holds contents.heap.size elements.asArray contents := ⟨rfl, elements, shows, rfl⟩
  cases call with
  | insert key value =>
      apply (insert_follows pool shows key value).bind
      intro _ array after holds
      exact Follows.ok (RunsTo.pure ArrayReply.done after) ⟨rfl, holds⟩
  | update key value =>
      apply (update_follows pool shows key value).bind
      intro _ array after holds
      exact Follows.ok (RunsTo.pure ArrayReply.done after) ⟨rfl, holds⟩
  | read key =>
      apply (read_follows shows key).bind
      rintro slot _ _ ⟨rfl, rfl⟩
      exact Follows.ok (RunsTo.pure (ArrayReply.slot slot) _) ⟨rfl, unchanged⟩
  | scan key len =>
      apply (scan_follows shows key len).bind
      rintro pairs _ _ ⟨rfl, rfl⟩
      exact Follows.ok (RunsTo.pure (ArrayReply.pairs pairs) _) ⟨rfl, unchanged⟩

theorem serveAll_follows (pool : ArrayPool) (shows : Shows contents elements) (calls : List ArrayCall) :
    Follows (serveAll pool calls) contents (ArrayDram.serveAll calls elements.asArray)
      fun replies result after => replies = result ∧ after.heap.size = contents.heap.size := by
  induction calls generalizing contents elements with
  | nil => exact Follows.ok (RunsTo.pure [] contents) ⟨rfl, rfl⟩
  | cons call rest inductionHypothesis =>
      apply (serve_follows pool shows call).bind
      rintro reply ⟨_, array⟩ middle ⟨rfl, size, changed, middleShows, rfl⟩
      apply (inductionHypothesis middleShows).bind
      rintro replies _ after ⟨rfl, afterSize⟩
      exact Follows.ok (RunsTo.pure (reply :: replies) after) ⟨rfl, afterSize.trans size⟩

/-- `init` leaves the root object with the array that the allocator left at the next address. -/
theorem init_runsTo (pool : ArrayPool) (contents : Store Elements Unit) :
    ∃ final, RunsTo (init pool) contents 1 final ∧ final.heap.size = contents.heap.size + 1 ∧
      Shows final (pool.garbage (contents.heap.size + 1)) := by
  have shows : Shows
      { contents with
        heap := contents.heap.push (pool.garbage (contents.heap.size + 1))
        root := contents.heap.size + 1 } (pool.garbage (contents.heap.size + 1)) :=
    (Heap.get?_push _ _ _).trans (if_pos rfl)
  refine ⟨_, ?_, Heap.size_push _ _, shows⟩
  apply RunsTo.bind
  · apply pool.mode.runsTo_transaction
    apply (pool.mode.runsTo_addRange (memberBytes ()) contents).bind
    apply (pool.mode.allocate_runsTo pool.garbage contents).bind
    apply RunsTo.bind (RunsTo.perform rfl)
    exact pool.mode.runsTo_persist _ _
  · apply (check_runsTo shows).bind
    exact RunsTo.pure 1 _

theorem sessions_follow (pool : ArrayPool) (contents : Store Elements Unit)
    (past : List (List ArrayCall)) :
    Follows (sessions pool past) contents
      ((past.zipIdx (contents.heap.size + 1)).mapM fun session =>
        ArrayDram.serveAll session.1 (pool.garbage session.2).asArray)
      fun replies result _ => replies = result := by
  induction past generalizing contents with
  | nil => exact Follows.ok (RunsTo.pure [] contents) rfl
  | cons calls rest inductionHypothesis =>
      obtain ⟨opened, initRuns, size, shows⟩ := init_runsTo pool contents
      rw [List.zipIdx_cons, List.mapM_cons]
      apply Follows.behind initRuns
      apply (serveAll_follows pool shows calls).bind
      rintro replies _ middle ⟨rfl, middleSize⟩
      have others := inductionHypothesis middle
      rw [middleSize, size] at others
      apply others.bind
      rintro later _ after rfl
      exact Follows.ok (RunsTo.pure (replies :: later) after) rfl

end Runs

/-- Whatever was done before, the calls of a session are answered as `ArrayDram` answers them that starts
on the array which the allocator left at the beginning of the session, faults included.  So no session
sees what an earlier one stored. -/
theorem sessions_agree (pool : ArrayPool) (past : List (List ArrayCall)) :
    (sessions pool past newPool).map Prod.fst =
      (past.zipIdx 1).mapM fun session =>
        ArrayDram.serveAll session.1 (pool.garbage session.2).asArray := by
  have follows := sessions_follow pool (memory newPool) past
  exact follows.map_eq (fun _ _ _ same => same) rfl

end StoredsBench.ArrayPmem
