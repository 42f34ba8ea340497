/-
Module: StoredsBench.Trees.Transactions
Layer: Correctness
Purpose: What a crash within an insert of a new key leaves of the persistent trees in transactions.
  `insert` takes no snapshot of the root node, so that it is failure-atomic as long as it leaves the
  root node alone: it does so below a new root, and when it goes down to a child with room.
Trusted boundary: none
Main exports: sparesRoot, SplitGrafts, BeginsGrafting, insert_atomic, run_atomic
-/
import StoredsBench.Trees.Recovery

namespace StoredsBench.Trees

open Lib Lib.Multiway Lib.SortedAssoc

variable {t : Nat} {X I : Type}

/-- Whether `insert` of a new key leaves the root node alone: the root is full, or the child on the way
to the key has room. -/
def sparesRoot (store : Store (Node t X) Unit) (key : Key) : Bool :=
  match store.heap.get? store.root with
  | none => false
  | some root =>
      if isNodeFull t root.nk then true
      else if root.isLeaf then false
      else
        match (do
          let index ← root.entries.scanDown (fun entry => decide (key < entry.key)) root.nk
          root.children.get index) with
        | .error _ => false
        | .ok child => (store.heap.get? child).any fun contents => !isNodeFull t contents.nk

/-! ### Inserts that log their stores -/

section Logging

variable {kind : Kind t I} {chain : LeafChain X} {pool : Pool (Node t X)} {links : X}
  {splitNode : Nat → Ptr → Ptr → PmemTreeProg t X Unit} {store final : PmemTree t X} {root : Node t X}
  {key : Key} {value : Value} {old new : List (Key × Value)}

theorem transaction_of {N α : Type} {pool : Pool N} (transactional : pool.mode = .transactional)
    (code : PmemProg N Unit Place α) : pool.mode.transaction code = transaction code := by
  rw [transactional]
  rfl

/-- One transaction that logs its stores is failure-atomic. -/
theorem InsertAtomic.of_logged
    (logged : LoggedIf readTree (fun contents => contents = memory final) True store final)
    (before : HoldsEntries kind chain old (memory store))
    (after : HoldsEntries kind chain new (memory final)) : InsertAtomic kind chain store final old new := by
  obtain ⟨call, trail, transactions⟩ := logged.effects
  have nothing : Transactions readTree (fun _ => True) True (memory store) [] (memory store) :=
    Transactions.nil (memory store)
  refine ⟨call, trail, ?_⟩
  apply (nothing.failureAtomic transactions ⟨trivial, trivial⟩ rfl).mono
  · intro recovered same
    exact before.of_readTree same
  · rintro recovered ⟨contents, rfl, same⟩
    exact after.of_readTree same

/-- What `insert_not_full` does in an inner node before it looks at the child. -/
theorem insertNotFull_below {fuel index : Nat} {address child : Ptr} {contents childContents : Node t X}
    {started : PmemTree t X} (live : started.heap.get? address = some contents)
    (inner : contents.isLeaf = false)
    (searched : contents.entries.scanDown (fun entry => decide (key < entry.key)) contents.nk = .ok index)
    (pointer : contents.children.get index = .ok child)
    (childLive : started.heap.get? child = some childContents) :
    pool.insertNotFull splitNode (fuel + 1) address key value started =
      (if isNodeFull t childContents.nk then do
        splitNode index address child
        let contents ← Prog.load address
        let separator ← Prog.lift (contents.entries.get index)
        let child ← Prog.lift
          (contents.children.get (if separator.key < key then index + 1 else index))
        pool.mode.transaction do
          pool.mode.addRange (wholeNode child)
          pool.insertNotFull splitNode fuel child key value
      else
        pool.mode.transaction do
          pool.mode.addRange (wholeNode child)
          pool.insertNotFull splitNode fuel child key value) started := by
  rw [Pool.insertNotFull, bind_ok (Prog.load_ok live), if_neg (by rw [inner]; exact Bool.false_ne_true),
    bind_ok (Prog.lift_ok searched started), bind_ok (Prog.lift_ok pointer started),
    bind_ok (Prog.load_ok childLive)]

/-- Below a full root everything is new or logged. -/
theorem insertNew_full (transactional : pool.mode = .transactional) (splits : SplitLogs splitNode)
    (idle : store.aux.running = false) (live : store.heap.get? store.root = some root)
    (full : isNodeFull t root.nk = true)
    (ran : pool.insertNew splitNode links store.heap.size store.root key value store = .ok ((), final)) :
    LoggedIf readTree (fun contents => contents = memory final) True store final := by
  rw [Pool.insertNew, bind_ok (Prog.load_ok live), if_pos full, transactional] at ran
  exact LoggedIf.transaction
    (logs_insertBelowNewRoot transactional splits links store.heap.size store.root key value) idle rfl ran rfl

/-- Where the child has room, the root is only read. -/
theorem insertNew_room (transactional : pool.mode = .transactional) (splits : SplitLogs splitNode)
    (idle : store.aux.running = false) (live : store.heap.get? store.root = some root)
    (room : isNodeFull t root.nk = false) (inner : root.isLeaf = false) {index : Nat} {child : Ptr}
    {childContents : Node t X}
    (searched : root.entries.scanDown (fun entry => decide (key < entry.key)) root.nk = .ok index)
    (pointer : root.children.get index = .ok child) (childLive : store.heap.get? child = some childContents)
    (childRoom : isNodeFull t childContents.nk = false)
    (ran : pool.insertNew splitNode links store.heap.size store.root key value store = .ok ((), final)) :
    LoggedIf readTree (fun contents => contents = memory final) True store final := by
  have allocated := (Heap.bounds_of_get? live).2
  have positive := (Heap.bounds_of_get? live).1
  obtain ⟨fuel, sizeEq⟩ : ∃ fuel, store.heap.size = fuel + 1 :=
    ⟨store.heap.size - 1, by omega⟩
  rw [Pool.insertNew, bind_ok (Prog.load_ok live), if_neg (by rw [room]; exact Bool.false_ne_true),
    sizeEq] at ran
  have logs : Logs readTree (fun _ => false) (do
      pool.mode.addRange pool.rootRange
      pool.mode.transaction do
        pool.mode.addRange (wholeNode child)
        pool.insertNotFull splitNode fuel child key value) fun _ _ => True := by
    apply (logs_range transactional _).bind
    intro _ _ _
    apply logs_nested transactional
    apply (logs_range transactional _).bind
    rintro _ more ⟨_, own⟩
    exact logs_insertNotFull transactional splits fuel key value own
  rw [transaction_of transactional] at ran
  refine LoggedIf.transaction logs idle ?_ ran rfl
  obtain ⟨snapshotted, snapshotRan, same⟩ :=
    Mode.quiet_addRange pool.mode pool.rootRange (setRunning true (logged .begin store))
  have nodes : snapshotted.heap = store.heap :=
    congrArg (fun contents : Store (Node t X) Unit => contents.heap) same
  rw [bind_ok snapshotRan, bind_ok snapshotRan, insertNotFull_below (by rwa [nodes]) inner searched pointer
    (by rwa [nodes]), if_neg (by rw [childRoom]; exact Bool.false_ne_true)]

end Logging

/-! ### Stores to a root without a snapshot -/

section Grafts

variable {pool : Pool (Node t X)}

/-- What the splits of the classes have in common: fill a new sibling, cut the child, and enter the
sibling into the parent. -/
def Pool.graftSibling (pool : Pool (Node t X)) (isLeaf : Bool) (links : X)
    (fill cut : Node t X → Except Fault (Node t X)) (source : Ptr → Ptr)
    (place : Node t X → CArray Entry (2 * t - 1) → Except Fault (CArray Entry (2 * t - 1)))
    (index : Nat) (parent child : Ptr) : PmemTreeProg t X Ptr := do
  let sibling ← pool.createNode isLeaf links
  pool.mode.addRange (wholeNode child)
  pool.mode.addRange (wholeNode sibling)
  storeNode sibling fill
  storeNode child cut
  let contents ← Prog.load (source sibling)
  storeNode parent (graft index sibling (place contents))
  return sibling

/-- The effects up to the store to the parent: the child is logged and the sibling is new, the parent is
not covered. -/
structure Grafted (store middle : Store (Node t X) Unit) (index : Nat) (parent : Ptr)
    (steps : List (Effect Place × Store (Node t X) Unit)) : Prop where
  framed : Framed readTree store steps middle
  inside : ∀ step ∈ steps, step.1.Inside
  logged : ∀ place, wholeNode parent place = false → LoggedAt place false steps
  uncovered : ∀ step ∈ steps, ∀ place, wholeNode parent place = true → step.1.covers place = false
  parent : ∃ node grown, store.heap.get? parent = some node ∧ middle.heap.get? parent = some grown ∧
    grown.isLeaf = node.isLeaf ∧ grown.nk = node.nk + 1 ∧
    grown.children.at? (index + 1) = some (store.heap.size + 1)

theorem graft_inv {index : Nat} {sibling : Ptr}
    {place : CArray Entry (2 * t - 1) → Except Fault (CArray Entry (2 * t - 1))} {parent grown : Node t X}
    (ran : graft index sibling place parent = .ok grown) :
    grown.isLeaf = parent.isLeaf ∧ grown.nk = parent.nk + 1 ∧
      grown.children.at? (index + 1) = some sibling := by
  obtain ⟨shifted, _, afterShift⟩ := except_bind_inv ran
  obtain ⟨children, childrenSet, afterSet⟩ := except_bind_inv afterShift
  obtain ⟨room, _, afterRoom⟩ := except_bind_inv afterSet
  obtain ⟨placed, _, done⟩ := except_bind_inv afterRoom
  cases done
  obtain ⟨inside, rfl⟩ := CArray.set_inv childrenSet
  refine ⟨rfl, rfl, ?_⟩
  rw [CArray.at?_put _ inside, if_pos rfl]

theorem storeNode_inv {address : Ptr} {change : Node t X → Except Fault (Node t X)}
    {before after : PmemTree t X} (ran : storeNode address change before = .ok ((), after)) :
    after.aux.running = before.aux.running ∧
      after.aux.trail = before.aux.trail ++ [(.store (wholeNode address), memory after)] ∧
      (∀ place, (Effect.store (wholeNode address)).Frames place (readTree (memory before) place)
        (readTree (memory after) place)) ∧
      ∃ node changed, before.heap.get? address = some node ∧ change node = .ok changed ∧
        after.heap = before.heap.set address changed ∧ after.root = before.root := by
  obtain ⟨changed, modified, rfl⟩ := perform_inv ran
  refine ⟨rfl, rfl, ?_, ?_⟩
  · apply modify_frames _ _ _ _ modified
    intro node changed field _ outside
    simp [wholeNode] at outside
  · obtain ⟨node, contents, live, changeRan, rfl⟩ := Prog.modify_inv modified
    exact ⟨node, contents, live, changeRan, rfl, rfl⟩

theorem createNode_inv {isLeaf : Bool} {links : X} {before after : PmemTree t X} {address : Ptr}
    (ran : pool.createNode isLeaf links before = .ok (address, after)) :
    address = before.heap.size + 1 ∧ after.aux.running = before.aux.running ∧
      after.aux.trail = before.aux.trail ++ [(.allocate (wholeNode address), memory after)] ∧
      (∀ place, (Effect.allocate (wholeNode address)).Frames place (readTree (memory before) place)
        (readTree (memory after) place)) ∧
      ∃ node, after.heap = before.heap.push node := by
  obtain ⟨changed, allocated, rfl⟩ := perform_inv ran
  have frames := malloc_frames (fun address =>
    { pool.garbage address with isLeaf := isLeaf, nk := 0, links := links }) _ _ _ allocated
  cases allocated
  exact ⟨rfl, rfl, rfl, frames, _, rfl⟩

theorem addRange_inv (transactional : pool.mode = .transactional) {range : Place → Bool}
    {before after : PmemTree t X} (ran : pool.mode.addRange range before = .ok ((), after)) :
    after = logged (.snapshot range) before := by
  rw [transactional] at ran
  cases ran
  rfl

theorem graftSibling_grafted (transactional : pool.mode = .transactional) {isLeaf : Bool} {links : X}
    {fill cut : Node t X → Except Fault (Node t X)} {source : Ptr → Ptr}
    {place : Node t X → CArray Entry (2 * t - 1) → Except Fault (CArray Entry (2 * t - 1))} {index : Nat}
    {parent child sibling : Ptr} {store final : PmemTree t X} {node : Node t X}
    (live : store.heap.get? parent = some node) (different : parent ≠ child)
    (ran : pool.graftSibling isLeaf links fill cut source place index parent child store =
      .ok (sibling, final)) :
    final.aux.running = store.aux.running ∧ ∃ steps, final.aux.trail = store.aux.trail ++ steps ∧
      Grafted (memory store) (memory final) index parent steps := by
  obtain ⟨address, created, createRan, ran⟩ := bind_ok_inv ran
  obtain ⟨_, childSaved, childRan, ran⟩ := bind_ok_inv ran
  obtain ⟨_, saved, savedRan, ran⟩ := bind_ok_inv ran
  obtain ⟨_, filled, fillRan, ran⟩ := bind_ok_inv ran
  obtain ⟨_, shortened, cutRan, ran⟩ := bind_ok_inv ran
  obtain ⟨contents, loaded, loadRan, ran⟩ := bind_ok_inv ran
  obtain ⟨_, grafted, graftRan, done⟩ := bind_ok_inv ran
  cases done
  obtain rfl : loaded = shortened := Reading.load _ loadRan
  obtain ⟨rfl, createRunning, createTrail, createFrames, fresh, pushed⟩ := createNode_inv createRan
  obtain rfl := addRange_inv transactional childRan
  obtain rfl := addRange_inv transactional savedRan
  obtain ⟨fillRunning, fillTrail, fillFrames, blank, full, siblingLive, _, fillHeap, _⟩ := storeNode_inv fillRan
  obtain ⟨cutRunning, cutTrail, cutFrames, old, short, childLive, _, cutHeap, _⟩ := storeNode_inv cutRan
  obtain ⟨graftRunning, graftTrail, graftFrames, before, grown, parentLive, graftOk, graftHeap, _⟩ :=
    storeNode_inv graftRan
  have parentOld := Heap.ne_fresh_of_get? live
  -- The parent is neither the sibling nor the child.
  obtain rfl : before = node := by
    have createdLive : created.heap.get? parent = some node := by
      rw [pushed, Heap.get?_push, if_neg parentOld, live]
    have filledLive : filled.heap.get? parent = some node := by
      rw [fillHeap, Heap.get?_set siblingLive, if_neg parentOld]
      exact createdLive
    rw [cutHeap, Heap.get?_set childLive, if_neg different, filledLive] at parentLive
    exact (Option.some.inj parentLive).symm
  have stillRunning : final.aux.running = store.aux.running := by
    rw [graftRunning, cutRunning, fillRunning, running_logged, running_logged, createRunning]
  refine ⟨stillRunning, [(.allocate (wholeNode (store.heap.size + 1)), memory created),
    (.snapshot (wholeNode child), memory created),
    (.snapshot (wholeNode (store.heap.size + 1)), memory created),
    (.store (wholeNode (store.heap.size + 1)), memory filled), (.store (wholeNode child), memory loaded),
    (.store (wholeNode parent), memory final)], ?_, ?_⟩
  · rw [graftTrail, cutTrail, fillTrail, trail_logged, trail_logged, createTrail]
    simp
  · constructor
    · exact ⟨createFrames, fun _ => rfl, fun _ => rfl, fillFrames, cutFrames, graftFrames, rfl⟩
    · simp [Effect.Inside]
    · intro place outside
      simp [LoggedAt, Effect.covers, outside]
      tauto
    · intro step member place here
      have isParent : ∀ address, wholeNode address place = true → address = parent := by
        intro address inside
        cases place with
        | node other field =>
            have first : other = parent := by simpa [wholeNode] using here
            have second : other = address := by simpa [wholeNode] using inside
            rw [← second, first]
        | _ => cases here
      have outsideChild : wholeNode child place = false :=
        Bool.eq_false_iff.mpr fun inside => different (isParent child inside).symm
      have outsideSibling : wholeNode (store.heap.size + 1) place = false :=
        Bool.eq_false_iff.mpr fun inside => parentOld (isParent _ inside).symm
      revert step
      simp [Effect.covers, outsideChild, outsideSibling]
    · refine ⟨before, grown, live, ?_, graft_inv graftOk⟩
      rw [show (memory final).heap = final.heap from rfl, graftHeap, Heap.get?_set parentLive, if_pos rfl]

/-- Every split begins so. -/
def SplitGrafts (splitNode : Nat → Ptr → Ptr → PmemTreeProg t X Unit) : Prop :=
  ∀ ⦃index : Nat⦄ ⦃parent child : Ptr⦄ ⦃store final : PmemTree t X⦄ ⦃node : Node t X⦄,
    store.heap.get? parent = some node → parent ≠ child →
    splitNode index parent child store = .ok ((), final) → store.aux.running = true →
    ∃ middle steps more, final.aux.trail = store.aux.trail ++ (steps ++ more) ∧
      Grafted (memory store) middle index parent steps

/-- Code that logs its stores only adds to the trail. -/
theorem grows_of_logs {α : Type} {covered : Place → Bool} {code : PmemTreeProg t X α}
    {post : α → (Place → Bool) → Prop} (logs : Logs readTree covered code post)
    {store final : PmemTree t X} {value : α} (running : store.aux.running = true)
    (ran : code store = .ok (value, final)) :
    final.aux.running = true ∧ ∃ more, final.aux.trail = store.aux.trail ++ more := by
  obtain ⟨steps, _, stillRunning, trail, _⟩ := logs running ran
  exact ⟨stillRunning, steps, trail⟩

/-- The run begins with what the splits have in common; behind it everything is covered. -/
def BeginsGrafting (pool : Pool (Node t X)) (index : Nat) (parent child : Ptr)
    (store final : PmemTree t X) : Prop :=
  ∃ isLeaf links fill cut source place, ∃ rest : Ptr → PmemTreeProg t X Unit,
    (pool.graftSibling isLeaf links fill cut source place index parent child >>= rest) store =
      .ok ((), final) ∧
    ∀ sibling, Logs readTree (fun _ => true) (rest sibling) fun _ _ => True

theorem SplitGrafts.of_graftSibling (transactional : pool.mode = .transactional)
    {splitNode : Nat → Ptr → Ptr → PmemTreeProg t X Unit}
    (begins : ∀ {index : Nat} {parent child : Ptr} {store final : PmemTree t X},
      splitNode index parent child store = .ok ((), final) →
      BeginsGrafting pool index parent child store final) :
    SplitGrafts splitNode := by
  intro index parent child store final node live different ran running
  obtain ⟨isLeaf, links, fill, cut, source, place, rest, begun, logs⟩ := begins ran
  obtain ⟨sibling, middle, graftRan, restRan⟩ := bind_ok_inv begun
  obtain ⟨sameRunning, steps, trail, grafted⟩ :=
    graftSibling_grafted transactional live different graftRan
  obtain ⟨_, more, restTrail⟩ := grows_of_logs (logs sibling) (sameRunning.trans running) restRan
  refine ⟨memory middle, steps, more, ?_, grafted⟩
  rw [restTrail, trail, List.append_assoc]

/-- A split that moves the middle entry up begins so. -/
theorem splitMiddle_begins (transactional : pool.mode = .transactional) {copyChildren : Bool} {links : X}
    {index : Nat} {parent child : Ptr} {store final : PmemTree t X}
    (ran : pool.splitMiddle copyChildren links index parent child store = .ok ((), final)) :
    BeginsGrafting pool index parent child store final := by
  obtain ⟨contents, loaded, loadRan, rest⟩ := bind_ok_inv ran
  obtain rfl := Reading.load _ loadRan
  refine ⟨contents.isLeaf, links, fun node => do
      let entries ← CArray.copyFrom contents.entries t (t - 1) node.entries
      let children ←
        if copyChildren then CArray.copyFrom contents.children t t node.children
        else pure node.children
      return { node with nk := t - 1, entries := entries, children := children },
    fun node => .ok { node with nk := t - 1 }, fun _ => child,
    fun contents entries => do
      let middle ← contents.entries.get (t - 1)
      entries.set index middle,
    fun sibling => do
      pool.mode.persist (wholeNode sibling)
      pool.mode.persist (wholeNode child)
      pool.mode.persist (wholeNode parent), ?_, ?_⟩
  · rw [← rest, Pool.graftSibling]
    simp only [bind_assoc, pure_bind]
  · intro sibling
    apply (logs_persist transactional _).bind
    rintro _ _ rfl
    apply (logs_persist transactional _).bind
    rintro _ _ rfl
    exact (logs_persist transactional _).weaken fun _ _ _ => trivial

end Grafts

section Failing

variable {kind : Kind t I} {chain : LeafChain X} {pool : Pool (Node t X)} {links : X}
  {splitNode : Nat → Ptr → Ptr → PmemTreeProg t X Unit} {store final : PmemTree t X} {root : Node t X}
  {key : Key} {value : Value} {old new : List (Key × Value)}

/-- The transaction of `insert` when the root is not full. -/
theorem insertNew_inv (transactional : pool.mode = .transactional) (idle : store.aux.running = false)
    (live : store.heap.get? store.root = some root) (room : isNodeFull t root.nk = false)
    (ran : pool.insertNew splitNode links store.heap.size store.root key value store = .ok ((), final)) :
    ∃ fuel started last, pool.insertNotFull splitNode (fuel + 1) store.root key value started =
        .ok ((), last) ∧
      memory started = memory store ∧ started.heap = store.heap ∧ started.aux.running = true ∧
      started.aux.trail = store.aux.trail ++
        [(.begin, memory store), (.snapshot pool.rootRange, memory store)] ∧
      memory final = memory last ∧ final.aux.trail = last.aux.trail ++ [(.commit, memory last)] := by
  obtain ⟨positive, allocated⟩ := Heap.bounds_of_get? live
  obtain ⟨fuel, sizeEq⟩ : ∃ fuel, store.heap.size = fuel + 1 := ⟨store.heap.size - 1, by omega⟩
  rw [Pool.insertNew, bind_ok (Prog.load_ok live), if_neg (by rw [room]; exact Bool.false_ne_true),
    transaction_of transactional, sizeEq] at ran
  obtain ⟨last, codeRan, rfl⟩ := transaction_inv idle ran
  obtain ⟨_, snapshotted, snapshotRan, insertRan⟩ := bind_ok_inv codeRan
  obtain rfl := addRange_inv transactional snapshotRan
  refine ⟨fuel, _, last, insertRan, rfl, rfl, rfl, ?_, rfl, rfl⟩
  rw [trail_logged, trail_setRunning, trail_logged, List.append_assoc]
  rfl

/-- A crash right behind the store to a root of which there is no snapshot. -/
theorem Grafted.torn {contents middle : Store (Node t X) Unit} {index : Nat} {range : Place → Bool}
    {steps : List (Effect Place × Store (Node t X) Unit)}
    (grafted : Grafted contents middle index contents.root steps)
    (live : contents.heap.get? contents.root = some root) (inner : root.isLeaf = false)
    (within : index ≤ root.nk) (apart : ∀ field, range (.node contents.root field) = false) :
    ∃ recovered, Recovers readTree contents
        ((.begin, contents) :: (.snapshot range, contents) :: steps) recovered ∧
      ∀ entries, ¬ HoldsEntries kind chain entries recovered := by
  obtain ⟨node, grown, nodeLive, grownLive, isLeaf, nk, pointer⟩ := grafted.parent
  rw [live] at nodeLive
  cases nodeLive
  have nodes : ∀ address, (contents.heap.set contents.root grown).get? address =
      if address = contents.root then some grown else contents.heap.get? address :=
    fun address => Heap.get?_set live grown address
  refine ⟨{ contents with heap := contents.heap.set contents.root grown }, ?_, ?_⟩
  · have framed : Framed readTree contents ((.snapshot range, contents) :: steps) middle :=
      ⟨fun _ => rfl, grafted.framed⟩
    apply recovers_torn (fun place => wholeNode contents.root place = true) framed
    · rw [List.forall_mem_cons]
      exact ⟨trivial, grafted.inside⟩
    · intro place outside
      constructor
      · intro other same
        cases same
      · apply (grafted.logged place (Bool.eq_false_iff.mpr outside)).mono
        intro covered
        cases covered
    · rw [List.forall_mem_cons]
      refine ⟨?_, grafted.uncovered⟩
      intro place here
      cases place with
      | node address field =>
          obtain rfl : address = contents.root := by simpa [wholeNode] using here
          exact apart field
      | _ => cases here
    · intro place outside
      cases place with
      | node address field =>
          have different : address ≠ contents.root := by simpa [wholeNode] using outside
          simp only [readTree, nodes, if_neg different]
      | _ => rfl
    · intro place here
      cases place with
      | node address field =>
          obtain rfl : address = contents.root := by simpa [wholeNode] using here
          simp only [readTree, nodes, if_pos, grownLive]
      | _ => cases here
  · intro entries
    have rootLive := (nodes contents.root).trans (if_pos rfl)
    apply not_holdsEntries_of_dangling rootLive (isLeaf.trans inner) _ pointer
    · rw [nodes, if_neg (Heap.ne_fresh_of_get? live).symm]
      cases found : contents.heap.get? (contents.heap.size + 1) with
      | none => rfl
      | some object => exact absurd rfl (Heap.ne_fresh_of_get? found)
    · rw [nk]
      exact Nat.succ_le_succ within

/-- What `insert_not_full` does behind a split logs its stores. -/
theorem logs_behindSplit (transactional : pool.mode = .transactional) (splits : SplitLogs splitNode)
    (fuel index : Nat) (address : Ptr) (key : Key) (value : Value) :
    Logs readTree (fun _ => true) (do
      let contents ← Prog.load address
      let separator ← Prog.lift (contents.entries.get index)
      let child ← Prog.lift (contents.children.get (if separator.key < key then index + 1 else index))
      pool.mode.transaction do
        pool.mode.addRange (wholeNode child)
        pool.insertNotFull splitNode fuel child key value) fun _ _ => True := by
  apply (EffectLogic.Holds.load address fun _ => rfl).bind
  rintro contents _ rfl
  apply (EffectLogic.Holds.lift _ fun _ => rfl).bind
  rintro separator _ rfl
  apply (EffectLogic.Holds.lift _ fun _ => rfl).bind
  rintro child _ rfl
  apply logs_nested transactional
  apply (logs_range transactional _).bind
  rintro _ more ⟨_, own⟩
  exact logs_insertNotFull transactional splits fuel key value own

/-- Where the child of the root is split, a crash between the store to the root and the commit leaves the
root with a pointer to a node that was taken back. -/
theorem insertNew_split (transactional : pool.mode = .transactional) (splits : SplitLogs splitNode)
    (grafts : SplitGrafts splitNode) (idle : store.aux.running = false)
    (apart : ∀ field, pool.behindRoot (.node store.root field) = false)
    (live : store.heap.get? store.root = some root) (room : isNodeFull t root.nk = false)
    (inner : root.isLeaf = false) {index : Nat} {child : Ptr} {childContents : Node t X}
    (searched : root.entries.scanDown (fun entry => decide (key < entry.key)) root.nk = .ok index)
    (within : index ≤ root.nk) (pointer : root.children.get index = .ok child)
    (childLive : store.heap.get? child = some childContents) (different : store.root ≠ child)
    (childFull : isNodeFull t childContents.nk = true)
    (ran : pool.insertNew splitNode links store.heap.size store.root key value store = .ok ((), final)) :
    ¬ InsertAtomic kind chain store final old new := by
  obtain ⟨fuel, started, last, insertRan, sameMemory, sameHeap, running, startTrail, _, lastTrail⟩ :=
    insertNew_inv transactional idle live room ran
  have startLive : started.heap.get? store.root = some root := by rw [sameHeap, live]
  rw [insertNotFull_below startLive inner searched pointer (by rw [sameHeap, childLive]), if_pos childFull]
    at insertRan
  obtain ⟨_, middle, splitRan, restRan⟩ := bind_ok_inv insertRan
  obtain ⟨torn, steps, more, splitTrail, grafted⟩ := grafts startLive different splitRan running
  obtain ⟨middleRunning, _⟩ :=
    grows_of_logs (splits (fun _ => true) index store.root child fun _ _ => rfl) running splitRan
  obtain ⟨_, rest, restTrail⟩ := grows_of_logs
    (logs_behindSplit transactional splits fuel index store.root key value) middleRunning restRan
  rw [sameMemory] at grafted
  rintro ⟨call, trail, atomic⟩
  obtain rfl : call = ((.begin, memory store) :: (.snapshot pool.rootRange, memory store) :: steps) ++
      (more ++ (rest ++ [(.commit, memory last)])) := by
    apply @List.append_cancel_left _ store.aux.trail
    rw [← trail, lastTrail, restTrail, splitTrail, startTrail]
    simp
  have uncovered : ∀ field, pool.rootRange (.node store.root field) = false := by
    intro field
    rw [Pool.rootRange, apart]
    rfl
  obtain ⟨recovered, crash, broken⟩ := grafted.torn live inner within uncovered
  have withinCall := atomic.within (steps.length + 2) recovered
  rw [List.nil_append, List.take_append_of_le_length (by simp), List.take_of_length_le (by simp)] at withinCall
  rcases withinCall crash with holds | holds
  · exact broken _ holds
  · exact broken _ holds

theorem insertIntoLeaf_inv {node changed : Node t X} (ran : insertIntoLeaf key value node = .ok changed) :
    changed.isLeaf = node.isLeaf ∧ changed.nk = node.nk + 1 := by
  obtain ⟨shifted, _, afterShift⟩ := except_bind_inv ran
  obtain ⟨keyed, _, afterKey⟩ := except_bind_inv afterShift
  obtain ⟨copied, _, done⟩ := except_bind_inv afterKey
  cases done
  exact ⟨rfl, rfl⟩

/-- A crash may take back a count that nothing protects or makes durable. -/
theorem recovers_count {before after : Store (Node t X) Unit} {address : Ptr} {changed : Node t X}
    {trail : List (Effect Place × Store (Node t X) Unit)} (framed : Framed readTree before trail after)
    (idle : ∀ place, (shelfAt readTree before trail place).Idle)
    (spares : ∀ step ∈ trail, step.1.Spares (.node address .nk))
    (live : before.heap.get? address = some root) (changedLive : after.heap.get? address = some changed) :
    Recovers readTree before trail
      { after with heap := after.heap.set address { changed with nk := root.nk } } := by
  have nodes : ∀ other, (after.heap.set address { changed with nk := root.nk }).get? other =
      if other = address then some { changed with nk := root.nk } else after.heap.get? other :=
    fun other => Heap.get?_set changedLive _ other
  apply framed.recovers_taken_back idle spares
  · simp only [readTree, nodes, if_pos, live]
    rfl
  · intro place elsewhere
    cases place with
    | node other field =>
        by_cases here : other = address
        · subst here
          simp only [readTree, nodes, if_pos, changedLive, Option.map_some]
          cases field with
          | nk => exact absurd rfl elsewhere
          | _ => rfl
        · simp only [readTree, nodes, if_neg here]
    | _ => rfl

/-- Behind an insert into a root that is a leaf, a crash may take the number of keys back. -/
theorem insertNew_leaf (transactional : pool.mode = .transactional) (idle : store.aux.running = false)
    (apart : ∀ field, pool.behindRoot (.node store.root field) = false)
    (live : store.heap.get? store.root = some root) (room : isNodeFull t root.nk = false)
    (isLeaf : root.isLeaf = true)
    (ran : pool.insertNew splitNode links store.heap.size store.root key value store = .ok ((), final))
    (after : HoldsEntries kind chain new (memory final)) : ¬ InsertAtomic kind chain store final old new := by
  obtain ⟨fuel, started, last, insertRan, sameMemory, sameHeap, _, startTrail, finalMemory, lastTrail⟩ :=
    insertNew_inv transactional idle live room ran
  have startLive : started.heap.get? store.root = some root := by rw [sameHeap, live]
  have startRoot : started.root = store.root :=
    congrArg (fun contents : Store (Node t X) Unit => contents.root) sameMemory
  rw [Pool.insertNotFull, bind_ok (Prog.load_ok startLive), if_pos isLeaf, transactional] at insertRan
  obtain ⟨_, stored, storeRan, done⟩ := bind_ok_inv insertRan
  cases done
  obtain ⟨_, storeTrail, frames, node, changed, nodeLive, changeRan, storeHeap, sameRoot⟩ :=
    storeNode_inv storeRan
  rw [startLive] at nodeLive
  cases nodeLive
  obtain ⟨sameLeaf, nk⟩ := insertIntoLeaf_inv changeRan
  have lastRoot : (memory last).root = store.root := sameRoot.trans startRoot
  have lastLive : (memory last).heap.get? store.root = some changed := by
    rw [show (memory last).heap = last.heap from rfl, storeHeap, Heap.get?_set startLive, if_pos rfl]
  rintro ⟨call, trail, atomic⟩
  have callEq : call = [(.begin, memory store), (.snapshot pool.rootRange, memory store),
      (.store (wholeNode store.root), memory last), (.commit, memory last)] := by
    apply @List.append_cancel_left _ store.aux.trail
    rw [← trail, lastTrail, storeTrail, startTrail]
    simp
  have framed : Framed readTree (memory store) call (memory last) := by
    rw [callEq, ← sameMemory]
    exact ⟨fun _ => rfl, fun _ => rfl, frames, fun _ => rfl, rfl⟩
  have idleBehind : ∀ place, (shelfAt readTree (memory store) call place).Idle := by
    rw [callEq]
    exact fun place => Shelf.idle_commit _ place _
  have spares : ∀ step ∈ call, step.1.Spares (.node (memory last).root .nk) := by
    rw [callEq, lastRoot]
    simp [Effect.Spares, Pool.rootRange, poolRoot, apart]
  rw [← lastRoot] at live lastLive
  have crash := recovers_count framed idleBehind spares live lastLive
  have recoveredLive := Heap.get?_set lastLive { changed with nk := root.nk } (memory last).root
  rw [if_pos rfl] at recoveredLive
  have shrunk := (atomic.returned _ crash).length_eq recoveredLive (sameLeaf.trans isLeaf)
  have grown := HoldsEntries.length_eq (finalMemory ▸ after) lastLive (sameLeaf.trans isLeaf)
  rw [grown, nk] at shrunk
  exact absurd shrunk (Nat.succ_ne_self _)

end Failing

/-! ### Inserts of new keys -/

section Calls

variable {kind : Kind t I} {chain : LeafChain X} {pool : Pool (Node t X)}
  {splitNode : Nat → Ptr → Ptr → TreeProg t X Unit}
  {search : Nat → Ptr → Key → TreeProg t X (Option SlotRef)}
  {splitThere : Nat → Ptr → Ptr → PmemTreeProg t X Unit}
  {updateThere : Nat → Ptr → Key → Value → PmemTreeProg t X Bool} {blank : X}
  {store final : PmemTree t X} {root : Node t X} {key : Key} {value : Value} {entries : List (Key × Value)}

theorem sparesRoot_full {contents : Store (Node t X) Unit}
    (live : contents.heap.get? contents.root = some root) (full : isNodeFull t root.nk = true) :
    sparesRoot contents key = true := by
  simp only [sparesRoot, live, full, if_true]

theorem sparesRoot_leaf {contents : Store (Node t X) Unit}
    (live : contents.heap.get? contents.root = some root) (room : isNodeFull t root.nk = false)
    (isLeaf : root.isLeaf = true) : sparesRoot contents key = false := by
  simp only [sparesRoot, live, room, isLeaf, if_true, Bool.false_eq_true, if_false]

theorem sparesRoot_inner {contents : Store (Node t X) Unit} {index : Nat} {child : Ptr}
    {childContents : Node t X} (live : contents.heap.get? contents.root = some root)
    (room : isNodeFull t root.nk = false) (inner : root.isLeaf = false)
    (searched : root.entries.scanDown (fun entry => decide (key < entry.key)) root.nk = .ok index)
    (pointer : root.children.get index = .ok child)
    (childLive : contents.heap.get? child = some childContents) :
    sparesRoot contents key = !isNodeFull t childContents.nk := by
  simp only [sparesRoot, live, room, inner, Bool.false_eq_true, if_false, except_bind_ok searched, pointer,
    childLive, Option.any_some]

/-- The insert of a new key searches in vain and then inserts. -/
theorem insert_new (pmemImplements : PmemImplements pool splitNode search splitThere updateThere)
    (searches : SearchRefines kind search) (holds : HoldsEntries kind chain entries (memory store))
    (absent : ∀ pair ∈ entries, pair.1 ≠ key) :
    pool.insert splitThere updateThere blank key value store =
      (do
        pool.insertNew splitThere blank store.heap.size store.root key value
        return 1) store := by
  obtain ⟨depth, tree, low, searchTree⟩ := holds
  obtain ⟨found, searchRan, answers⟩ := searches key
    (searchTree.holds.rep.depth_lt_size searchTree.holds.nodup searchTree.shape) searchTree.holds.rep
    searchTree.holds.nodup searchTree.shape searchTree.ordered
  have notFound : found = none := by
    cases found with
    | none => rfl
    | some slot =>
        obtain ⟨old, located⟩ := answers
        obtain ⟨front, mark, back, traceEq, stored, _⟩ := located.focus
        apply absurd rfl (absent (key, old) _)
        rw [← searchTree.entries, contents, traceEq, entriesOf_middle stored]
        exact List.mem_append_right _ List.mem_cons_self
  subst notFound
  rw [← searchTree.root] at searchRan
  have updateRan : updateThere store.heap.size store.root key value store = .ok (false, store) := by
    have searched : onMemory (search store.heap.size store.root key) store = .ok (none, store) :=
      onMemory_ok searchRan
    rw [pmemImplements.updates, bind_ok searched]
    rfl
  rw [Pool.insert, bind_ok (Prog.getRoot_ok store), bind_ok (Prog.heapSize_ok store), bind_ok updateRan]
  rfl

/-- A call leaves no transaction open. -/
theorem insert_idle (pmemImplements : PmemImplements pool splitNode search splitThere updateThere)
    (transactional : pool.mode = .transactional) (idle : store.aux.running = false) {result : Int}
    (ran : pool.insert splitThere updateThere blank key value store = .ok (result, final)) :
    final.aux.running = false := by
  have closes : ∀ {α : Type} {code : PmemTreeProg t X α} {value : α} {before after : PmemTree t X},
      before.aux.running = false → pool.mode.transaction code before = .ok (value, after) →
        after.aux.running = false := by
    intro α code value before after idle ran
    rw [transaction_of transactional] at ran
    obtain ⟨last, _, rfl⟩ := transaction_inv idle ran
    rfl
  obtain ⟨root, rooted, rootRan, afterRoot⟩ := bind_ok_inv ran
  cases rootRan
  obtain ⟨bound, sized, sizeRan, afterSize⟩ := bind_ok_inv afterRoot
  cases sizeRan
  obtain ⟨updated, middle, updateRan, afterUpdate⟩ := bind_ok_inv afterSize
  have middleIdle : middle.aux.running = false := by
    rw [pmemImplements.updates] at updateRan
    obtain ⟨found, searched, searchRan, overwriteRan⟩ := bind_ok_inv updateRan
    obtain ⟨changed, _, rfl⟩ := onMemory_inv searchRan
    cases found with
    | none =>
        cases overwriteRan
        exact idle
    | some slot =>
        obtain ⟨_, overwritten, slotRan, done⟩ := bind_ok_inv overwriteRan
        cases done
        rw [Pool.overwrite, transactional] at slotRan
        have stillIdle : (withMemory store changed).aux.running = false := idle
        obtain ⟨last, _, rfl⟩ := transaction_inv stillIdle slotRan
        rfl
  cases updated with
  | true =>
      cases afterUpdate
      exact middleIdle
  | false =>
      obtain ⟨_, inserted, insertRan, done⟩ := bind_ok_inv afterUpdate
      cases done
      obtain ⟨contents, loaded, loadRan, branch⟩ := bind_ok_inv insertRan
      obtain rfl := Reading.load _ loadRan
      split at branch
      · exact closes middleIdle branch
      · exact closes middleIdle branch

/-- An insert of a new key on durable memory is failure-atomic as long as it leaves the root node alone;
where it does not, it is failure-atomic only if the bytes behind the pool's root object happen to be those
of the root node. -/
theorem insert_atomic (pmemImplements : PmemImplements pool splitNode search splitThere updateThere)
    (searches : SearchRefines kind search) (transactional : pool.mode = .transactional)
    (splits : SplitLogs splitThere) (grafts : SplitGrafts splitThere) (idle : store.aux.running = false)
    (before : HoldsEntries kind chain entries (memory store)) (absent : ∀ pair ∈ entries, pair.1 ≠ key)
    {result : Int} {new : List (Key × Value)}
    (ran : pool.insert splitThere updateThere blank key value store = .ok (result, final))
    (after : HoldsEntries kind chain new (memory final)) :
    (sparesRoot (memory store) key = true → InsertAtomic kind chain store final entries new) ∧
    (sparesRoot (memory store) key = false → (∀ field, pool.behindRoot (.node store.root field) = false) →
      ¬ InsertAtomic kind chain store final entries new) := by
  rw [insert_new pmemImplements searches before absent] at ran
  obtain ⟨_, inserted, insertRan, done⟩ := bind_ok_inv ran
  cases done
  obtain ⟨root, liveHere⟩ := before.rooted
  have live : store.heap.get? store.root = some root := liveHere
  cases full : isNodeFull t root.nk with
  | true =>
      constructor
      · intro _
        exact InsertAtomic.of_logged (insertNew_full transactional splits idle live full insertRan) before after
      · rw [sparesRoot_full liveHere full]
        intro spared
        cases spared
  | false =>
      cases isLeaf : root.isLeaf with
      | true =>
          rw [sparesRoot_leaf liveHere full isLeaf]
          constructor
          · intro spared
            cases spared
          · intro _ apart
            exact insertNew_leaf transactional idle apart live full isLeaf insertRan after
      | false =>
          obtain ⟨index, child, childContents, searched, within, pointer, childLive, different⟩ :=
            before.way liveHere isLeaf key
          rw [sparesRoot_inner liveHere full isLeaf searched pointer childLive]
          constructor
          · intro spared
            have childRoom : isNodeFull t childContents.nk = false := by simpa using spared
            exact InsertAtomic.of_logged (insertNew_room transactional splits idle live full isLeaf searched
              pointer childLive childRoom insertRan) before after
          · intro split apart
            have childFull : isNodeFull t childContents.nk = true := by simpa using split
            exact insertNew_split transactional splits grafts idle apart live full isLeaf searched within
              pointer childLive different childFull insertRan

end Calls

section Runs

variable {kind : Kind t I} {chain : LeafChain X} {pool : Pool (Node t X)}
  {splitNode : Nat → Ptr → Ptr → TreeProg t X Unit}
  {search : Nat → Ptr → Key → TreeProg t X (Option SlotRef)}
  {updateIfFound : Nat → Ptr → Key → Value → TreeProg t X Bool} {blank : X}
  {splitThere : Nat → Ptr → Ptr → PmemTreeProg t X Unit}
  {updateThere : Nat → Ptr → Key → Value → PmemTreeProg t X Bool} {backend : Backend (PmemTree t X)}

theorem init_idle (transactional : pool.mode = .transactional) {store started : PmemTree t X}
    (idle : store.aux.running = false) (ran : init pool blank store = .ok ((), started)) :
    started.aux.running = false := by
  rw [init, transactional] at ran
  obtain ⟨_, created, createRan, done⟩ := bind_ok_inv ran
  cases done
  obtain ⟨last, _, rfl⟩ := transaction_inv idle createRan
  rfl

theorem mem_upsertAll {pairs entries : List (Key × Value)} {entry : Key × Value}
    (member : entry ∈ upsertAll pairs entries) : entry ∈ pairs ∨ entry ∈ entries := by
  induction pairs generalizing entries with
  | nil => exact Or.inr member
  | cons pair pairs inductionHypothesis =>
      rcases inductionHypothesis member with inserted | before
      · exact Or.inl (List.mem_cons_of_mem _ inserted)
      · rcases mem_upsert before with rfl | old
        · exact Or.inl List.mem_cons_self
        · exact Or.inr old

theorem insertAll_idle (pmemImplements : PmemImplements pool splitNode search splitThere updateThere)
    (transactional : pool.mode = .transactional)
    (pmemServes : PmemServes pool search splitThere updateThere blank backend)
    (pairs : List (Key × Value)) {store final : PmemTree t X} (idle : store.aux.running = false)
    (ran : backend.insertAll pairs store = .ok final) : final.aux.running = false := by
  induction pairs generalizing store with
  | nil =>
      cases ran
      exact idle
  | cons pair pairs inductionHypothesis =>
      rw [Backend.insertAll, List.foldlM_cons] at ran
      obtain ⟨next, first, rest⟩ := except_bind_inv ran
      apply inductionHypothesis _ rest
      rw [pmemServes.insert] at first
      cases inserted : pool.insert splitThere updateThere blank pair.1 pair.2 store with
      | error fault =>
          rw [inserted] at first
          cases first
      | ok done =>
          rw [inserted] at first
          cases first
          exact insert_idle pmemImplements transactional idle inserted

/-- Whatever was inserted into a new pool, the next insert of a new key meets the condition or not. -/
theorem run_atomic (implements : Implements kind chain splitNode search updateIfFound blank)
    (solid : kind.Solid)
    (pmemImplements : PmemImplements pool splitNode search splitThere updateThere)
    (pmemServes : PmemServes pool search splitThere updateThere blank backend)
    (transactional : pool.mode = .transactional) (splits : SplitLogs splitThere)
    (grafts : SplitGrafts splitThere) (pairs : List (Key × Value)) (key : Key) (value : Value)
    (absent : key ∉ pairs.map Prod.fst) :
    ∃ started store final, init pool blank newPool = .ok ((), started) ∧
      backend.insertAll pairs started = .ok store ∧ backend.insert key value store = .ok final ∧
      (sparesRoot (memory store) key = true → InsertAtomic kind chain store final (upsertAll pairs [])
        (upsert key value (upsertAll pairs []))) ∧
      (sparesRoot (memory store) key = false →
        (∀ field, pool.behindRoot (.node store.root field) = false) →
        ¬ InsertAtomic kind chain store final (upsertAll pairs [])
          (upsert key value (upsertAll pairs []))) := by
  have represents := pmemServes.represents implements pmemImplements solid
  obtain ⟨started, initRan, shows⟩ := init_shows pool kind chain blank
  obtain ⟨store, ran, storeShows⟩ := represents.insertAll_ok pairs shows
  obtain ⟨final, insertRan, finalShows⟩ := represents.insert key value storeShows
  refine ⟨started, store, final, initRan, ran, insertRan, ?_⟩
  have startedIdle := init_idle transactional (show newPool.aux.running = false from rfl) initRan
  have idle := insertAll_idle pmemImplements transactional pmemServes pairs startedIdle ran
  have before := storeShows.holdsEntries solid implements.single
  have after := finalShows.holdsEntries solid implements.single
  have new : ∀ pair ∈ upsertAll pairs [], pair.1 ≠ key := by
    rintro pair member rfl
    rcases mem_upsertAll member with inserted | old
    · exact absent (List.mem_map_of_mem inserted)
    · cases old
  rw [pmemServes.insert] at insertRan
  cases inserted : pool.insert splitThere updateThere blank key value store with
  | error fault =>
      rw [inserted] at insertRan
      cases insertRan
  | ok done =>
      rw [inserted] at insertRan
      cases insertRan
      exact insert_atomic pmemImplements implements.searches transactional splits grafts idle before new
        inserted after

end Runs

end StoredsBench.Trees
