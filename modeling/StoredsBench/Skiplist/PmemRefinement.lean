/-
Module: StoredsBench.Skiplist.PmemRefinement
Layer: Refinement
Purpose: The classes for persistent memory run as `SkiplistDram` does: from a memory that holds towers
  `insert` overwrites the entry of a tower, or it splices a new tower in as high as the coins say.
Trusted boundary: none
Main exports: Levels.congr, Inserted, overwrite_runsTo, insertNew_runsTo, insert_cases, insert_ok,
  levels_newPool, init_runsTo
-/
import StoredsBench.Skiplist.Correctness
import StoredsBench.Skiplist.Pmem
import StoredsBench.Lib.ArrayRelation

namespace StoredsBench.Skiplist

open Lib SkiplistPmem

variable {exact : Prop} {store other : SkiplistDram} {towers : List Tower}

/-! ### What places hold -/

/-- The members of a node determine it. -/
theorem SkNode.ext_content {node other : SkNode}
    (same : ∀ field, node.content field = other.content field) : node = other := by
  obtain ⟨⟨key, ⟨bytes, length⟩⟩, ⟨slots, size⟩⟩ := node
  obtain ⟨⟨otherKey, ⟨otherBytes, otherLength⟩⟩, ⟨otherSlots, otherSize⟩⟩ := other
  have keyEq : key = otherKey := Content.word.inj (same .key)
  have bytesEq : bytes = otherBytes := by
    apply List.ext_getElem (length.trans otherLength.symm)
    intro offset inside otherInside
    have byte := Content.byte.inj (same (.valueByte offset))
    simpa [List.getD_eq_getElem?_getD, inside, otherInside] using byte
  have slotsEq : slots = otherSlots := by
    apply List.ext_getElem (size.trans otherSize.symm)
    intro level inside otherInside
    have slot := Content.pointer.inj (same (.next level))
    simpa [CArray.at?, List.getElem?_eq_getElem inside, List.getElem?_eq_getElem otherInside]
      using slot
  subst keyEq bytesEq slotsEq
  rfl

theorem rootApart : RootApart readRoot := fun _ _ => rfl

theorem object_eq_of_read (same : readPool other = readPool store) (address : Ptr) :
    other.heap.get? address = store.heap.get? address := by
  have fields : Nonempty SkField := ⟨.key⟩
  exact get?_eq_of_read (fun same => SkNode.ext_content same) same address

theorem root_eq_of_read (same : readPool other = readPool store) : other.root = store.root := by
  have root := congrFun same (.root ())
  have pointers : some (Content.pointer (some other.root)) = some (.pointer (some store.root)) := root
  simpa using pointers

/-- Towers depend on the objects and the head only. -/
theorem Levels.congr (holds : Levels exact store towers) (root : other.root = store.root)
    (objects : ∀ address, other.heap.get? address = store.heap.get? address) :
    Levels exact other towers := by
  have links : ∀ index, linkAt other.heap index = linkAt store.heap index := by
    intro index
    funext address
    rw [linkAt, objects, linkAt]
  constructor
  · intro index inside
    rw [links, root]
    exact holds.linked index inside
  · intro tower member
    rw [entryAt, objects]
    exact holds.shown tower member
  · intro isExact tower member index
    rw [links]
    exact holds.written isExact tower member index
  · exact holds.tall
  · rw [root]
    exact holds.distinct
  · exact holds.sorted

theorem Levels.of_read (holds : Levels exact store towers) (same : readPool other = readPool store) :
    Levels exact other towers := holds.congr (root_eq_of_read same) (object_eq_of_read same)

/-! ### Code that only reads -/

theorem reading_walk (level : Nat) (key : Key) :
    ∀ fuel active current, Reading (SkiplistDram.walk level key fuel active current)
  | 0, _, _ => Reading.fault _
  | fuel + 1, active, current => by
      apply Reading.branch
      · exact fun _ => Reading.pure active
      · intro _
        apply (Reading.load current).bind
        intro contents
        apply (Reading.lift _).bind
        intro currentKey
        apply Reading.branch
        · intro _
          apply (Reading.lift _).bind
          exact fun next => reading_walk level key fuel current next
        · exact fun _ => Reading.pure active

theorem reading_findBelow (bound : Nat) (key : Key) :
    ∀ levels active path, Reading (SkiplistDram.findBelow bound key levels active path)
  | 0, _, path => Reading.pure path
  | level + 1, active, path => by
      apply (Reading.load active).bind
      intro contents
      apply (Reading.lift _).bind
      intro current
      apply (reading_walk level key bound active current).bind
      intro stopped
      apply (Reading.lift _).bind
      exact fun path => reading_findBelow bound key level stopped path

theorem reading_find (key : Key) : Reading (SkiplistDram.find key) := by
  apply Reading.getRoot.bind
  intro head
  apply Reading.heapSize.bind
  exact fun size => reading_findBelow _ key _ head _

theorem reading_nextOnPath (path : Path) (level : Nat) :
    Reading (SkiplistDram.nextOnPath path level) := by
  apply (Reading.lift _).bind
  intro node
  apply (Reading.load node).bind
  exact fun contents => Reading.lift _

theorem reading_hasKey (node : Ptr) (key : Key) : Reading (SkiplistDram.hasKey node key) := by
  apply Reading.branch
  · exact fun _ => Reading.pure false
  · intro _
    apply (Reading.load node).bind
    intro contents
    apply (Reading.lift _).bind
    exact fun nodeKey => Reading.pure _

/-- `rand()` changes nothing in the pool. -/
theorem rand_unseen (before : SkiplistDram) (outcome : Nat) (after : SkiplistDram)
    (ran : SkiplistDram.rand before = .ok (outcome, after)) : readPool before = readPool after := by
  cases ran
  rfl

/-! ### What the stores change -/

theorem key_kept (key : Key) (address : Ptr) (node changed : SkNode) (field : SkField)
    (changedEq : (.ok { node with entry := { node.entry with key := some key } } :
      Except Fault SkNode) = .ok changed)
    (outside : fieldBytes (R := Unit) address .key (.node address field) = false) :
    changed.content field = node.content field := by
  cases changedEq
  cases field with
  | key => simp [fieldBytes] at outside
  | valueByte offset => rfl
  | next level => rfl

theorem value_kept (string : Value) (address : Ptr) (node changed : SkNode) (field : SkField)
    (changedEq : (.ok { node with entry := { node.entry with
      value := node.entry.value.copyString string } } : Except Fault SkNode) = .ok changed)
    (outside : stringBytes address (string.chars.length + 1) (.node address field) = false) :
    changed.content field = node.content field := by
  cases changedEq
  cases field with
  | key => rfl
  | valueByte offset =>
      have behind : string.chars.length + 1 ≤ offset := by simpa [stringBytes] using outside
      simp only [SkNode.content, List.getD_eq_getElem?_getD,
        node.entry.value.copyString_behind string behind]
  | next level => rfl

theorem next_kept (level : Nat) (next address : Ptr) (node changed : SkNode) (field : SkField)
    (changedEq : SkNode.setNext level next node = .ok changed)
    (outside : fieldBytes (R := Unit) address (.next level) (.node address field) = false) :
    changed.content field = node.content field := by
  obtain ⟨array, setEq, made⟩ := except_bind_inv changedEq
  cases made
  cases field with
  | key => rfl
  | valueByte offset => rfl
  | next index =>
      have different : index ≠ level := by simpa [fieldBytes] using outside
      obtain ⟨inside, rfl⟩ := CArray.eq_put_of_set setEq
      exact congrArg Content.pointer ((CArray.at?_put _ inside _ index).trans (if_neg different))

end StoredsBench.Skiplist

namespace StoredsBench.SkiplistPmem

open Lib Lib.SortedAssoc Skiplist

variable {exact : Prop} {memory : SkiplistDram} {towers low rest : List Tower} {key : Key}
  {mode : Mode} {pool : SkPool}

/-! ### Runs -/

theorem linkIn_runsTo {newNode : Ptr} {path : Path} {level : Nat} {before after : SkiplistDram}
    (ran : SkiplistDram.linkIn newNode path level before = .ok ((), after)) :
    RunsTo (linkIn mode pool newNode path level) before () after := by
  obtain ⟨next, middle, nextRan, afterNext⟩ := bind_ok_inv ran
  obtain rfl := reading_nextOnPath path level nextRan
  obtain ⟨_, linked, newRan, afterNew⟩ := bind_ok_inv afterNext
  obtain ⟨previous, looked, lookup, previousRan⟩ := bind_ok_inv afterNew
  obtain ⟨found, rfl⟩ := Prog.lift_inv lookup
  apply (RunsTo.lift found _).bind
  apply (mode.runsTo_addRange _ _).bind
  apply (RunsTo.onMemory nextRan).bind
  apply (RunsTo.perform newRan).bind
  apply (RunsTo.perform previousRan).bind
  apply (mode.runsTo_persist _ _).bind
  exact mode.runsTo_persist _ _

theorem insertNodeFrom_runsTo {newNode : Ptr} {path : Path} {fuel level : Nat}
    {before after : SkiplistDram}
    (ran : SkiplistDram.insertNodeFrom newNode path fuel level before = .ok ((), after)) :
    RunsTo (insertNodeFrom mode pool newNode path fuel level) before () after := by
  induction fuel generalizing level before with
  | zero => cases ran
  | succ fuel inductionHypothesis =>
      obtain ⟨_, middle, linkRan, afterLink⟩ := bind_ok_inv ran
      apply (linkIn_runsTo linkRan).bind
      split at afterLink
      · rename_i more
        obtain ⟨outcome, drawn, drew, afterDraw⟩ := bind_ok_inv afterLink
        rw [if_pos more]
        apply (RunsTo.onMemory drew).bind
        split at afterDraw
        · rename_i even
          rw [if_pos even]
          exact inductionHypothesis afterDraw
        · rename_i odd
          rw [if_neg odd]
          cases afterDraw
          exact RunsTo.pure () _
      · rename_i last
        rw [if_neg last]
        cases afterLink
        exact RunsTo.pure () _

/-- The node `insert` makes at an address. -/
def newNode (pool : SkPool) (key : Key) (value : Value) (address : Ptr) : SkNode :=
  { pool.garbage address with
    entry :=
      { key := some key
        value := (pool.garbage address).entry.value.copyString value } }

theorem view_newNode (pool : SkPool) (key : Key) (value : Value) (address : Ptr) :
    (newNode pool key value address).view = some (key, value) := by
  simp [SkNode.view, newNode]

/-- The entry of a tower is overwritten. -/
theorem overwrite_runsTo (mode : Mode) {tower : Tower} (holds : Levels exact memory (low ++ tower :: rest))
    (value : Value) :
    ∃ after, RunsTo (overwrite mode value tower.label) memory () after ∧
      Levels exact after (low ++ { tower with entry := (tower.entry.1, value) } :: rest) := by
  obtain ⟨after, ran, afterHolds⟩ := overwrite_ok holds value
  refine ⟨after, ?_, afterHolds⟩
  apply RunsTo.bind
  · apply mode.runsTo_transaction
    apply (mode.runsTo_addRange _ _).bind
    exact RunsTo.perform ran
  · exact mode.runsTo_persist _ _

/-- A new tower is spliced in. -/
theorem insertNew_runsTo (mode : Mode) (pool : SkPool) {path : Path} (holds : Levels False memory (low ++ rest))
    (finds : Finds memory.root low path) (below : ∀ tower ∈ low, tower.entry.1 < key)
    (above : ∀ tower ∈ rest, key < tower.entry.1) (value : Value) :
    ∃ after, RunsTo (insertNew mode pool key value path) memory () after ∧
      Levels False after
        (low ++ ⟨memory.heap.size + 1, (key, value), drawnHeight 0 memory.aux⟩ :: rest) := by
  have grown := push_grown holds (view_newNode pool key value (memory.heap.size + 1))
    fun impossible => impossible.elim
  have short : (0 : Nat) < SKIPLIST_LEVELS_NUM := by decide
  obtain ⟨after, ran, _, afterGrown⟩ :=
    insertNodeFrom_ok grown finds short (Nat.le_add_left SKIPLIST_LEVELS_NUM 0)
  refine ⟨after, ?_, afterGrown.joins holds (drawnHeight_reaches memory.aux) below above⟩
  apply mode.runsTo_transaction
  apply (mode.allocate_runsTo pool.garbage memory).bind
  apply (RunsTo.perform (Prog.modify_allocated memory _ fun contents =>
    { contents with entry := { contents.entry with key := some key } })).bind
  apply (RunsTo.perform (Prog.modify_allocated memory _ fun contents =>
    { contents with
      entry := { contents.entry with value := contents.entry.value.copyString value } })).bind
  exact insertNodeFrom_runsTo ran

/-- What an insert makes of the towers: the entry of the key is overwritten, or a tower at the `fresh`
address is spliced in as high as the coins say. -/
inductive Inserted (outcomes : Outcomes) (fresh : Ptr) (key : Key) (value : Value) :
    List Tower → List Tower → Prop
  | updated (low rest : List Tower) (tower : Tower) (same : tower.entry.1 = key) :
      Inserted outcomes fresh key value (low ++ tower :: rest)
        (low ++ { tower with entry := (tower.entry.1, value) } :: rest)
  | spliced (low rest : List Tower) (missing : ∀ tower ∈ low ++ rest, tower.entry.1 ≠ key) :
      Inserted outcomes fresh key value (low ++ rest)
        (low ++ ⟨fresh, (key, value), drawnHeight 0 outcomes⟩ :: rest)

namespace Inserted

variable {outcomes : Outcomes} {fresh : Ptr} {value : Value} {towers' : List Tower}

/-- No entry moves. -/
theorem places_subset (inserted : Inserted outcomes fresh key value towers towers') :
    places towers ⊆ places towers' := by
  cases inserted with
  | updated low rest tower same =>
      rw [places_append, places_append]
      exact List.Subset.refl _
  | spliced low rest missing =>
      rw [places_append, places_append]
      exact ((List.sublist_cons_self _ _).append_left (places low)).subset

/-- The key is stored afterwards, and so are all others that were. -/
theorem stored_iff (inserted : Inserted outcomes fresh key value towers towers') (other : Key) :
    (∃ tower ∈ towers', tower.entry.1 = other) ↔
      (∃ tower ∈ towers, tower.entry.1 = other) ∨ other = key := by
  cases inserted with
  | updated low rest tower same =>
      subst same
      simp only [List.mem_append, List.mem_cons]
      grind
  | spliced low rest missing =>
      simp only [List.mem_append, List.mem_cons]
      grind

/-- A key that was not stored is at the fresh address. -/
theorem places_fresh (inserted : Inserted outcomes fresh key value towers towers')
    (missing : ∀ tower ∈ towers, tower.entry.1 ≠ key) : (fresh, key) ∈ places towers' := by
  cases inserted with
  | updated low rest tower same =>
      exact absurd same (missing tower (List.mem_append_right low List.mem_cons_self))
  | spliced low rest _ =>
      rw [places_append]
      exact List.mem_append_right _ List.mem_cons_self

end Inserted

/-- The two branches of `insert`. -/
theorem insert_cases (mode : Mode) (pool : SkPool) {store : SkiplistPmem}
    (holds : Levels False (Lib.memory store) towers) (key : Key) (value : Value) :
    (∃ low tower rest, towers = low ++ tower :: rest ∧ tower.entry.1 = key ∧
      insert mode pool key value store =
        (do overwrite mode value tower.label; return 1) store) ∨
    ∃ low rest path, towers = low ++ rest ∧ (∀ tower ∈ low, tower.entry.1 < key) ∧
      (∀ tower ∈ rest, key < tower.entry.1) ∧ Finds store.root low path ∧
      insert mode pool key value store =
        (do insertNew mode pool key value path; return 1) store := by
  obtain ⟨low, rest, path, rfl, below, found, finds, next, place⟩ := locate_ok holds key
  have started : insert mode pool key value store = (do
      let possibleFound ← onMemory (SkiplistDram.nextOnPath path SKIPLIST_BASE_LEVEL)
      let found ← onMemory (SkiplistDram.hasKey possibleFound key)
      if found then
        overwrite mode value possibleFound
        return 1
      else
        insertNew mode pool key value path
        return 1 : M Int) store := by
    rw [SkiplistPmem.insert, check, bind_ok (pure_ok () store), bind_ok (onMemory_reads found)]
  rw [started, bind_ok (onMemory_reads next)]
  rcases place with ⟨tower, higher, rfl, rfl, above, stored⟩ | ⟨above, missing⟩
  · refine Or.inl ⟨low, tower, higher, rfl, rfl, ?_⟩
    rw [labels, List.map_cons, List.headD_cons, bind_ok (onMemory_reads stored), if_pos rfl]
  · refine Or.inr ⟨low, rest, path, rfl, below, above, finds, ?_⟩
    rw [bind_ok (onMemory_reads missing), if_neg Bool.false_ne_true]

/-- `insert` upserts, whatever `rand()` returns. -/
theorem insert_ok (mode : Mode) (pool : SkPool) {store : SkiplistPmem}
    (holds : Levels False (Lib.memory store) towers) (key : Key) (value : Value) :
    ∃ final towers', insert mode pool key value store = .ok (1, final) ∧
      Levels False (Lib.memory final) towers' ∧
      Inserted store.aux.side (store.heap.size + 1) key value towers towers' := by
  rcases insert_cases mode pool holds key value with
    ⟨low, tower, rest, rfl, same, inserts⟩ | ⟨low, rest, path, rfl, below, above, finds, inserts⟩
  · obtain ⟨after, runs, afterHolds⟩ := overwrite_runsTo mode holds value
    obtain ⟨final, ran, finalEq⟩ := runs store rfl
    refine ⟨final, _, ?_, ?_, Inserted.updated low rest tower same⟩
    · rw [inserts, bind_ok ran]
      rfl
    · rw [finalEq]
      exact afterHolds
  · obtain ⟨after, runs, afterHolds⟩ :=
      insertNew_runsTo mode pool holds finds below above value
    obtain ⟨final, ran, finalEq⟩ := runs store rfl
    refine ⟨final, _, ?_, ?_, Inserted.spliced low rest ?_⟩
    · rw [inserts, bind_ok ran]
      rfl
    · rw [finalEq]
      exact afterHolds
    · intro tower member
      rcases List.mem_append.mp member with inLow | inRest
      · exact (below tower inLow).ne
      · exact (above tower inRest).ne'

/-- The memory of a new pool behind `init`. -/
def newPool (pool : SkPool) (outcomes : Outcomes) : SkiplistDram where
  heap := Heap.empty.push (pool.garbage 1)
  root := 1
  aux := outcomes

/-- A head with null pointers is an empty list. -/
theorem levels_head {memory : SkiplistDram}
    (cleared : ∀ index < SKIPLIST_LEVELS_NUM, linkAt memory.heap index memory.root = some null) :
    Levels False memory [] where
  linked := fun index inside => linkedAfter_nil.mpr (cleared index inside)
  shown := fun tower member => by cases member
  written := fun impossible => impossible.elim
  tall := fun tower member => by cases member
  distinct := List.nodup_cons.mpr ⟨List.not_mem_nil, List.nodup_nil⟩
  sorted := sorted_nil

/-- It has an empty list, when the first object is zeroed. -/
theorem levels_newPool {pool : SkPool} (zeroed : pool.Zeroed) (outcomes : Outcomes) :
    Levels False (newPool pool outcomes) [] := by
  apply levels_head
  intro index inside
  have live : (newPool pool outcomes).heap.get? 1 = some (pool.garbage 1) := rfl
  rw [linkAt, show (newPool pool outcomes).root = 1 from rfl, live, Option.bind_some,
    zeroed index inside]

/-- `init` makes a new object the head. -/
theorem init_runsTo_head (mode : Mode) (pool : SkPool) (before : SkiplistDram) :
    RunsTo (init mode pool) before 1
      { before with
        heap := before.heap.push (pool.garbage (before.heap.size + 1))
        root := before.heap.size + 1 } := by
  apply RunsTo.bind
  · apply mode.runsTo_transaction
    apply (mode.runsTo_addRange _ _).bind
    apply (mode.allocate_runsTo pool.garbage _).bind
    apply (RunsTo.perform rfl).bind
    exact mode.runsTo_persist _ _
  · exact (RunsTo.pure () _).bind (RunsTo.pure 1 _)

theorem init_runsTo (mode : Mode) (pool : SkPool) (outcomes : Outcomes) :
    RunsTo (init mode pool) (Lib.memory (blank outcomes)) 1 (newPool pool outcomes) :=
  init_runsTo_head mode pool (Lib.memory (blank outcomes))

end StoredsBench.SkiplistPmem
