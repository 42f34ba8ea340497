/-
Module: StoredsBench.Trees.Updates
Layer: Correctness
Purpose: What a crash within an update leaves of the persistent trees in transactions.
  `update_if_found` takes a snapshot of as many bytes as the old value has, and copies the new value with
  its terminator; so a longer value is torn by a crash behind the call.
Trusted boundary: none
Main exports: update_atomic_iff, run_update_atomic_iff
-/
import StoredsBench.Trees.Transactions

namespace StoredsBench.Trees

open Lib Lib.Multiway Lib.SortedAssoc

variable {t : Nat} {X I : Type}

/-! ### The bytes of the slot -/

section Bytes

variable {store : Store (Node t X) Unit} {slot : SlotRef} {node : Node t X} {entry : Entry} {old value : Value}

/-- The memory behind a copy into the slot. -/
def copied (store : Store (Node t X) Unit) (slot : SlotRef) (node : Node t X) (entry : Entry) (value : Value) :
    Store (Node t X) Unit :=
  { store with heap := store.heap.set slot.node (withValue node slot.index entry value) }

theorem copied_live (live : store.heap.get? slot.node = some node) :
    (copied store slot node entry value).heap.get? slot.node =
      some (withValue node slot.index entry value) := by
  rw [copied, Heap.get?_set live, if_pos rfl]

theorem copied_written (written : node.entries.at? slot.index = some entry) (value : Value) :
    (withValue node slot.index entry value).entries.at? slot.index =
      some { entry with value := entry.value.copyString value } := by
  rw [withValue, CArray.at?_put _ (CArray.lt_of_at? written), if_pos rfl]

theorem readTree_slot (live : store.heap.get? slot.node = some node)
    (written : node.entries.at? slot.index = some entry) (offset : Nat) :
    readTree store (.node slot.node (.valueByte slot.index offset)) =
      some (.content (.byte (entry.value.bytes.getD offset none))) := by
  simp only [readTree, live, Option.map_some, Node.cell, written, Option.bind_some]

/-- A copy changes bytes of the slot only. -/
theorem readTree_copied (live : store.heap.get? slot.node = some node)
    (written : node.entries.at? slot.index = some entry) {place : Place}
    (elsewhere : ∀ offset, place = .node slot.node (.valueByte slot.index offset) →
      (entry.value.copyString value).bytes.getD offset none = entry.value.bytes.getD offset none) :
    readTree (copied store slot node entry value) place = readTree store place := by
  have inside := CArray.lt_of_at? written
  cases place with
  | node address field =>
      simp only [readTree, copied, Heap.get?_set live]
      by_cases here : address = slot.node
      · subst here
        rw [if_pos rfl, live, Option.map_some, Option.map_some]
        apply congrArg some
        cases field with
        | key index =>
            simp only [Node.cell, withValue, CArray.at?_put _ inside]
            split
            · rename_i same
              rw [same, written]
              rfl
            · rfl
        | valueByte index offset =>
            simp only [Node.cell, withValue, CArray.at?_put _ inside]
            split
            · rename_i same
              subst same
              rw [written, Option.bind_some, Option.bind_some]
              exact congrArg _ (congrArg _ (elsewhere offset rfl))
            · rfl
        | _ => rfl
      · rw [if_neg here]
  | _ => rfl

end Bytes

/-! ### Overwriting twice -/

section Again

variable {kind : Kind t I} {chain : LeafChain X} {store : Store (Node t X) Unit} {depth : Nat}
  {tree : PtrTree I depth} {slot : SlotRef} {node : Node t X} {entry : Entry} {key : Key} {old value : Value}

/-- Overwriting an item a second time leaves what the second time alone does. -/
def Kind.Resets (kind : Kind t I) : Prop :=
  ∀ first second item, kind.setItem second (kind.setItem first item) = kind.setItem second item

theorem writeAt_writeAt (resets : kind.Resets) (first second : Value) :
    ∀ {depth : Nat} (tree : PtrTree I depth),
      writeAt kind slot second (writeAt kind slot first tree) = writeAt kind slot second tree
  | 0, leaf => by
      simp only [writeAt, rewriteAt]
      split
      · rw [List.modify_modify_eq]
        rfl
      · rfl
  | depth + 1, inner => by
      simp only [writeAt, rewriteAt, List.map_map]
      congr 1
      · split
        · rw [List.modify_modify_eq]
          congr 1
          funext item
          exact resets first second item
        · rfl
      · apply List.map_congr_left
        intro child _
        exact writeAt_writeAt resets first second child

/-- The located slot after a copy. -/
theorem Located.copied (resets : kind.Resets) (located : Located kind store.heap tree key slot old)
    (live : store.heap.get? slot.node = some node) (written : node.entries.at? slot.index = some entry)
    (value : Value) :
    Located kind (copied store slot node entry value).heap (writeAt kind slot value tree) key slot value where
  stored := by
    exact ⟨withValue node slot.index entry value, { entry with value := entry.value.copyString value },
      copied_live live, copied_written written value, CharArray.string?_copyString _ _⟩
  member := by
    rw [writeAt, labels_rewriteAt]
    exact located.member
  focus := by
    obtain ⟨front, mark, back, _, stored, writes⟩ := located.focus
    refine ⟨front, setMark kind value mark, back, writes value, ?_, ?_⟩
    · cases mark with
      | inl item => exact kind.carries_set value item (key, old) stored
      | inr pair =>
          obtain rfl : pair = (key, old) := Option.some.inj stored
          rfl
    · intro other
      rw [writeAt_writeAt resets, writes other]
      cases mark with
      | inl item =>
          simp only [setMark, Sum.map_inl, resets value other item]
      | inr pair => rfl

/-- A copy into a located slot updates the map. -/
theorem Stores.copied (stores : Stores kind chain store tree)
    (located : Located kind store.heap tree key slot old)
    (live : store.heap.get? slot.node = some node) (written : node.entries.at? slot.index = some entry)
    (value : Value) :
    Stores kind chain (copied store slot node entry value) (writeAt kind slot value tree) ∧
      contents kind.scheme (writeAt kind slot value tree) = upsert key value (contents kind.scheme tree) := by
  obtain ⟨_, valid, contentsEq⟩ := located.contents_eq stores.valid value
  refine ⟨⟨?_, ⟨stores.holds.rep.writeAt value live written, ?_, ?_⟩, valid⟩, contentsEq⟩
  · rw [writeAt, label_rewriteAt]
    exact stores.root
  · rw [writeAt, labels_rewriteAt]
    exact stores.holds.nodup
  · have kept : (withValue node slot.index entry value).links = node.links := rfl
    rw [Trees.copied, linksAt_set live kept, writeAt, leafLabels_rewriteAt]
    exact stores.holds.chained

end Again

/-! ### What a memory holds for a key -/

section Lookups

variable {kind : Kind t I} {chain : LeafChain X} {store : Store (Node t X) Unit}
  {search : Nat → Ptr → Key → TreeProg t X (Option SlotRef)} {entries others : List (Key × Value)}

/-- A search finds what the map has for the key. -/
theorem HoldsEntries.lookup (holds : HoldsEntries kind chain entries store) (searches : SearchRefines kind search)
    (key : Key) :
    ∃ slot, search store.heap.size store.root key store = .ok (slot, store) ∧
      stringAt store slot = .ok (entries.lookup key) := by
  obtain ⟨depth, tree, low, searchTree⟩ := holds
  obtain ⟨slot, ran, answers⟩ := searches key
    (searchTree.holds.rep.depth_lt_size searchTree.holds.nodup searchTree.shape) searchTree.holds.rep
    searchTree.holds.nodup searchTree.shape searchTree.ordered
  refine ⟨slot, by rw [searchTree.root]; exact ran, ?_⟩
  cases slot with
  | none =>
      rw [← searchTree.entries, lookup_eq_none_of_forall_ne answers, stringAt]
  | some slot =>
      obtain ⟨old, located⟩ := answers
      obtain ⟨front, mark, back, traceEq, stored, _⟩ := located.focus
      have contentsEq : contents kind.scheme tree =
          entriesOf kind.scheme front ++ (key, old) :: entriesOf kind.scheme back := by
        rw [contents, traceEq, entriesOf_middle stored]
      have ascending := entriesOf_ascending kind.lawful searchTree.ordered
      rw [show entriesOf kind.scheme (trace tree) = contents kind.scheme tree from rfl, contentsEq,
        kind.entryKey_eq, List.pairwise_append] at ascending
      rw [← searchTree.entries, contentsEq, lookup_append_of_forall_ne _ fun entry member =>
        (ascending.2.2 entry member (key, old) List.mem_cons_self).ne, lookup_cons, if_pos rfl]
      exact located.stringAt_ok

/-- A memory holds one value for a key. -/
theorem HoldsEntries.lookup_unique (holds : HoldsEntries kind chain entries store)
    (also : HoldsEntries kind chain others store) (searches : SearchRefines kind search) (key : Key) :
    entries.lookup key = others.lookup key := by
  obtain ⟨slot, ran, reads⟩ := holds.lookup searches key
  obtain ⟨other, otherRan, otherReads⟩ := also.lookup searches key
  rw [ran] at otherRan
  cases otherRan
  rw [reads] at otherReads
  exact Except.ok.inj otherReads

end Lookups

/-! ### Updates -/

section Updates

variable {kind : Kind t I} {chain : LeafChain X} {pool : Pool (Node t X)} {store final : PmemTree t X}
  {depth : Nat} {tree : PtrTree I depth} {slot : SlotRef} {node : Node t X} {entry : Entry} {key : Key}
  {old value : Value}

/-- The bytes of which `update_if_found` takes a snapshot, and those it stores to. -/
def updateEffects (before after : Store (Node t X) Unit) (slot : SlotRef) (old value : Value) :
    List (Effect Place × Store (Node t X) Unit) :=
  [(.snapshot (valueBytes slot.node slot.index old.chars.length), before),
    (.store (valueBytes slot.node slot.index (value.chars.length + 1)), after)]

theorem overwrite_ran (transactional : pool.mode = .transactional) (idle : store.aux.running = false)
    (live : store.heap.get? slot.node = some node) (written : node.entries.at? slot.index = some entry)
    (read : entry.value.string? = some old) (value : Value) :
    ∃ final, pool.overwrite slot.node slot.index value store = .ok ((), final) ∧
      memory final = copied (memory store) slot node entry value ∧
      final.aux.trail = store.aux.trail ++ (.begin, memory store) ::
        (updateEffects (memory store) (memory final) slot old value ++ [(.commit, memory final)]) := by
  have changeRan : (do
      let entries ← copyValue node.entries slot.index value
      return { node with entries := entries } : Except Fault (Node t X)) =
        .ok (withValue node slot.index entry value) := by
    simp only [copyValue, CArray.get_ok written, bind, Except.bind, CArray.set_ok (CArray.lt_of_at? written)]
    rfl
  have startLive : (setRunning true (logged .begin store)).heap.get? slot.node = some node := live
  have modified : overwrite slot value
      (memory (logged (.snapshot (valueBytes slot.node slot.index old.chars.length))
        (setRunning true (logged .begin store)))) =
      .ok ((), copied (memory store) slot node entry value) := Prog.modify_ok live changeRan
  obtain ⟨last, lastEq⟩ : ∃ last, last =
      logged (.store (valueBytes slot.node slot.index (value.chars.length + 1)))
        (withMemory (logged (.snapshot (valueBytes slot.node slot.index old.chars.length))
          (setRunning true (logged .begin store))) (copied (memory store) slot node entry value)) := ⟨_, rfl⟩
  have stored : copyInto slot.node slot.index value
      (logged (.snapshot (valueBytes slot.node slot.index old.chars.length))
        (setRunning true (logged .begin store))) = .ok ((), last) := by
    rw [lastEq]
    exact perform_ok modified
  rw [Pool.overwrite, transactional]
  refine ⟨logged .commit (setRunning false last), transaction_outermost idle ?_, ?_, ?_⟩
  · rw [bind_ok (Prog.load_ok startLive), bind_ok (Prog.lift_ok (CArray.get_ok written) _), read]
    exact (bind_ok (record_ok _ _)).trans stored
  · rw [lastEq]
    rfl
  · simp [lastEq, updateEffects]

variable {contents : Store (Node t X) Unit}

theorem updateEffects_framed (live : contents.heap.get? slot.node = some node)
    (written : node.entries.at? slot.index = some entry) :
    Framed readTree contents
      (updateEffects contents (copied contents slot node entry value) slot old value)
      (copied contents slot node entry value) := by
  refine ⟨fun _ => rfl, ?_, rfl⟩
  intro place
  constructor
  · intro outside
    apply readTree_copied live written
    rintro offset rfl
    have behind : value.chars.length + 1 ≤ offset := by simpa [valueBytes] using outside
    simp only [List.getD_eq_getElem?_getD, entry.value.copyString_behind value behind]
  · cases place with
    | node address field =>
        simp only [readTree, copied, Heap.get?_set live]
        split
        · rename_i here
          simp [here, live]
        · exact Iff.rfl
    | _ => exact Iff.rfl

/-- A value that is not longer than the old one is written within the snapshot; where it is as long, the
terminator stays as it is. -/
theorem update_kept (live : contents.heap.get? slot.node = some node)
    (written : node.entries.at? slot.index = some entry) (read : entry.value.string? = some old)
    (short : value.chars.length ≤ old.chars.length) :
    FailureAtomic readTree contents [] ((.begin, contents) ::
        (updateEffects contents (copied contents slot node entry value) slot old value ++
          [(.commit, copied contents slot node entry value)]))
      (fun recovered => readTree recovered = readTree contents)
      (fun recovered => readTree recovered = readTree (copied contents slot node entry value)) := by
  apply failureAtomic_of_kept (updateEffects_framed live written)
  · simp [updateEffects, Effect.Inside]
  · intro place
    by_cases inside : valueBytes slot.node slot.index (value.chars.length + 1) place = true →
        valueBytes slot.node slot.index old.chars.length place = true
    · apply Or.inl
      simpa [updateEffects, LoggedAt, Effect.covers] using inside
    · apply Or.inr
      rw [Classical.not_imp] at inside
      obtain ⟨stored, unsaved⟩ := inside
      have uncovered : valueBytes slot.node slot.index old.chars.length place = false := by simpa using unsaved
      have same : readTree (copied contents slot node entry value) place = readTree contents place := by
        apply readTree_copied live written
        rintro offset rfl
        have before : offset < value.chars.length + 1 := by simpa [valueBytes] using stored
        have behind : old.chars.length ≤ offset := by simpa [valueBytes] using unsaved
        obtain rfl : offset = old.chars.length := by omega
        have lengths : value.chars.length = old.chars.length := by omega
        have terminator := readString_terminator (CharArray.string?_eq_some_iff.mp read)
        have copyTerminator := entry.value.copyString_terminator value
        rw [lengths] at copyTerminator
        rw [List.getD_eq_getElem?_getD, List.getD_eq_getElem?_getD, terminator, copyTerminator]
      simp [updateEffects, Effect.covers, uncovered, same]

/-- A crash behind a longer value may bring the old terminator back, which cuts the value off. -/
theorem update_torn (live : contents.heap.get? slot.node = some node)
    (written : node.entries.at? slot.index = some entry) (read : entry.value.string? = some old)
    (long : old.chars.length < value.chars.length) :
    Recovers readTree contents ((.begin, contents) ::
        (updateEffects contents (copied contents slot node entry value) slot old value ++
          [(.commit, copied contents slot node entry value)]))
      (copied (copied contents slot node entry value) slot (withValue node slot.index entry value)
        { entry with value := entry.value.copyString value } (value.take old.chars.length)) := by
  have copiedLive : (copied contents slot node entry value).heap.get? slot.node =
      some (withValue node slot.index entry value) := copied_live live
  have copiedWritten := copied_written written value
  have framed : Framed readTree contents ((.begin, contents) ::
      (updateEffects contents (copied contents slot node entry value) slot old value ++
        [(.commit, copied contents slot node entry value)])) (copied contents slot node entry value) :=
    ⟨fun _ => rfl, (updateEffects_framed live written).append ⟨fun _ => rfl, rfl⟩⟩
  have spares : ∀ step ∈ (.begin, contents) ::
      (updateEffects contents (copied contents slot node entry value) slot old value ++
        [(.commit, copied contents slot node entry value)]),
      step.1.Spares (.node slot.node (.valueByte slot.index old.chars.length)) := by
    simp [updateEffects, Effect.Spares, valueBytes]
  apply framed.recovers_taken_back (fun place => Shelf.idle_commit _ place _) spares
  · have length : (value.take old.chars.length).chars.length = old.chars.length := by
      simp [CString.take, Nat.le_of_lt long]
    have cut := (entry.value.copyString value).copyString_terminator (value.take old.chars.length)
    have terminator := readString_terminator (CharArray.string?_eq_some_iff.mp read)
    rw [length] at cut
    rw [readTree_slot live written, readTree_slot (copied_live copiedLive) (copied_written copiedWritten _)]
    simp only [List.getD_eq_getElem?_getD, cut, terminator]
  · intro place elsewhere
    apply readTree_copied copiedLive copiedWritten
    rintro offset rfl
    have different : offset ≠ old.chars.length := by
      rintro rfl
      exact elsewhere rfl
    simp only [List.getD_eq_getElem?_getD, entry.value.copyString_take value long different]

end Updates

section Calls

variable {kind : Kind t I} {chain : LeafChain X} {pool : Pool (Node t X)}
  {splitNode : Nat → Ptr → Ptr → TreeProg t X Unit}
  {search : Nat → Ptr → Key → TreeProg t X (Option SlotRef)}
  {updateIfFound : Nat → Ptr → Key → Value → TreeProg t X Bool} {blank : X}
  {splitThere : Nat → Ptr → Ptr → PmemTreeProg t X Unit}
  {updateThere : Nat → Ptr → Key → Value → PmemTreeProg t X Bool} {backend : Backend (PmemTree t X)}
  {store : PmemTree t X} {depth : Nat} {tree : PtrTree I depth} {key : Key} {old : Value}

/-- On durable memory an update is failure-atomic exactly when the new value is not longer than the old
one. -/
theorem update_atomic_iff (resets : kind.Resets)
    (pmemImplements : PmemImplements pool splitNode search splitThere updateThere)
    (searches : SearchRefines kind search) (transactional : pool.mode = .transactional)
    (idle : store.aux.running = false) (stores : Stores kind chain (memory store) tree)
    (stored : (contents kind.scheme tree).lookup key = some old) (value : Value) :
    ∃ final, pool.insert splitThere updateThere blank key value store = .ok (1, final) ∧
      (InsertAtomic kind chain store final (contents kind.scheme tree)
          (upsert key value (contents kind.scheme tree)) ↔
        value.chars.length ≤ old.chars.length) := by
  obtain ⟨found, searchRan, answers⟩ := searches key stores.depth_lt_size stores.holds.rep
    stores.holds.nodup stores.valid.shape stores.valid.ordered
  rw [← stores.root] at searchRan
  cases found with
  | none =>
      rw [lookup_eq_none_of_forall_ne answers] at stored
      cases stored
  | some slot =>
      obtain ⟨before, located⟩ := answers
      obtain rfl : before = old := by
        rw [(located.contents_eq stores.valid value).1] at stored
        exact Option.some.inj stored
      obtain ⟨node, entry, live, written, read⟩ := located.stored
      obtain ⟨final, overwriteRan, finalMemory, trail⟩ :=
        overwrite_ran transactional idle live written read value
      rw [finalMemory] at trail
      obtain ⟨copiedStores, copiedContents⟩ := stores.copied located live written value
      refine ⟨final, ?_, ?_⟩
      · have searched : onMemory (search store.heap.size store.root key) store = .ok (some slot, store) :=
          onMemory_ok searchRan
        have updated : updateThere store.heap.size store.root key value store = .ok (true, final) := by
          rw [pmemImplements.updates, bind_ok searched, Pool.overwriteFound, bind_ok overwriteRan]
          rfl
        rw [Pool.insert, bind_ok (Prog.getRoot_ok store), bind_ok (Prog.heapSize_ok store), bind_ok updated]
        rfl
      · constructor
        · rintro ⟨call, callTrail, atomic⟩
          rw [trail] at callTrail
          obtain rfl := List.append_cancel_left callTrail
          by_contra long
          have crash := update_torn live written read (Nat.lt_of_not_le long)
          have held := atomic.returned _ crash
          have again := located.copied resets live written value
          obtain ⟨tornStores, tornContents⟩ := copiedStores.copied again (copied_live live)
            (copied_written written value) (value.take before.chars.length)
          have torn := tornStores.holdsEntries
          have same := held.lookup_unique torn searches key
          rw [tornContents, copiedContents, lookup_upsert_self, lookup_upsert_self] at same
          have lengths := congrArg (fun string : Value => string.chars.length) (Option.some.inj same)
          simp only [CString.take, List.length_take] at lengths
          omega
        · intro short
          refine ⟨_, trail, (update_kept live written read short).mono ?_ ?_⟩
          · intro recovered same
            exact stores.holdsEntries.of_readTree same
          · intro recovered same
            rw [← copiedContents]
            exact copiedStores.holdsEntries.of_readTree same

/-- Whatever was inserted into a new pool, an update of a stored key is failure-atomic exactly when the new
value is not longer than the stored one. -/
theorem run_update_atomic_iff (implements : Implements kind chain splitNode search updateIfFound blank)
    (solid : kind.Solid) (resets : kind.Resets)
    (pmemImplements : PmemImplements pool splitNode search splitThere updateThere)
    (pmemServes : PmemServes pool search splitThere updateThere blank backend)
    (transactional : pool.mode = .transactional) (pairs : List (Key × Value))
    (stored : (upsertAll pairs []).lookup key = some old) (value : Value) :
    ∃ started store final, init pool blank newPool = .ok ((), started) ∧
      backend.insertAll pairs started = .ok store ∧ backend.insert key value store = .ok final ∧
      (InsertAtomic kind chain store final (upsertAll pairs []) (upsert key value (upsertAll pairs [])) ↔
        value.chars.length ≤ old.chars.length) := by
  have represents := pmemServes.represents implements pmemImplements solid
  obtain ⟨started, initRan, shows⟩ := init_shows pool kind chain blank
  obtain ⟨store, ran, storeShows⟩ := represents.insertAll_ok pairs shows
  have startedIdle := init_idle transactional (show newPool.aux.running = false from rfl) initRan
  have idle := insertAll_idle pmemImplements transactional pmemServes pairs startedIdle ran
  obtain ⟨mirrored, mirrors, ⟨heap, _, empty⟩ | ⟨depth, tree, stores, contentsEq⟩⟩ := storeShows
  · rw [empty] at stored
    cases stored
  · rw [← contentsEq] at stored
    obtain ⟨final, insertRan, iff⟩ := update_atomic_iff resets pmemImplements implements.searches
      transactional idle (stores.filled solid mirrors) stored value
    rw [contentsEq] at iff
    refine ⟨started, store, final, initRan, ran, ?_, iff⟩
    rw [pmemServes.insert, insertRan]
    rfl

end Calls

end StoredsBench.Trees
