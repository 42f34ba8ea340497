/-
Module: StoredsBench.Trees.PmemMap
Layer: Refinement
Purpose: Whole operations of the persistent trees.  A pool that mirrors a DRAM store shows the same
  tree at the same addresses, with the same chain pointers; `insert` keeps it that way, and
  `init` leaves a pool that mirrors a tree with an empty leaf, where the first insert does what it
  does to a DRAM tree without a root.
Trusted boundary: none
Main exports: Stores.filled, PmemImplements, insert_mirrors, insert_rooted, Twins.insert, Twins.first
-/
import StoredsBench.Trees.Filled
import StoredsBench.Trees.Map

namespace StoredsBench.Trees

open Lib Lib.Multiway Lib.SortedAssoc

variable {t : Nat} {X I : Type}

/-! ### The tree a mirroring memory shows -/

theorem viewEntry_filled {entry other : Entry} {pair : Key × Value} (same : EntryFilled entry other)
    (viewed : viewEntry entry = some pair) : viewEntry other = some pair := by
  obtain ⟨value, read, rfl⟩ := Option.map_eq_some_iff.mp viewed
  rw [viewEntry, same.value.string? read, Option.map_some, same.key]

/-- What an entry of an inner node shows does not depend on unwritten bytes. -/
def Kind.Solid (kind : Kind t I) : Prop :=
  ∀ {entry other : Entry} {item : I}, EntryFilled entry other → kind.viewItem entry = some item →
    kind.viewItem other = some item

section Showing

variable {kind : Kind t I} {heap other : Heap (Node t X)} {store mirror : Store (Node t X) Unit}

theorem linksAt_filled (coupled : Coupled NodeFilled heap other) {address : Nat} {links : X}
    (found : linksAt heap address = some links) : linksAt other address = some links := by
  obtain ⟨node, live, rfl⟩ := Option.map_eq_some_iff.mp found
  obtain ⟨there, liveThere, filled⟩ := coupled.live live
  rw [linksAt, liveThere, Option.map_some, filled.links]

theorem ShowsAt.filled (solid : kind.Solid) (coupled : Coupled NodeFilled heap other) :
    ∀ {depth : Nat} {tree : PtrTree I depth}, ShowsAt kind heap tree → ShowsAt kind other tree
  | depth, tree, ⟨body, found, shows⟩ => by
      obtain ⟨node, live, rfl⟩ := Option.map_eq_some_iff.mp found
      obtain ⟨there, liveThere, filled⟩ := coupled.live live
      refine ⟨there.body, by rw [bodyAt, liveThere, Option.map_some], ?_⟩
      cases depth with
      | zero =>
          obtain ⟨isLeaf, nk, shown⟩ := shows
          exact ⟨filled.isLeaf.trans isLeaf, filled.nk.trans nk,
            filled.entries.showsPrefix shown fun _ _ _ same viewed => viewEntry_filled same viewed⟩
      | succ depth =>
          obtain ⟨isLeaf, nk, shown, children⟩ := shows
          refine ⟨filled.isLeaf.trans isLeaf, filled.nk.trans nk,
            filled.entries.showsPrefix shown fun _ _ _ same viewed => solid same viewed,
            filled.children.showsPrefix children ?_⟩
          rintro child _ item rfl viewed
          exact viewed

theorem Rep.filled (solid : kind.Solid) (coupled : Coupled NodeFilled heap other) :
    ∀ {depth : Nat} {tree : PtrTree I depth}, Rep kind heap tree → Rep kind other tree
  | 0, _, rep => ShowsAt.filled solid coupled rep
  | _ + 1, _, rep =>
      ⟨ShowsAt.filled solid coupled rep.1, fun child member =>
        Rep.filled solid coupled (rep.2 child member)⟩

/-- A mirror of a store with a valid tree has the same tree. -/
theorem Stores.filled {chain : LeafChain X} (solid : kind.Solid) (mirrors : Mirrors store mirror)
    {depth : Nat} {tree : PtrTree I depth} (stores : Stores kind chain store tree) :
    Stores kind chain mirror tree where
  root := mirrors.root.trans stores.root
  holds :=
    { rep := stores.holds.rep.filled solid mirrors.heap
      nodup := stores.holds.nodup
      chained := chain.stable (fun _ _ found => linksAt_filled mirrors.heap found)
        stores.holds.chained }
  valid := stores.valid

end Showing

/-! ### Operations -/

/-- A search does the same on a mirror. -/
def SearchMirrors (search : Nat → Ptr → Key → TreeProg t X (Option SlotRef)) : Prop :=
  ∀ fuel current key, Simulates Mirrors (search fuel current key) (search fuel current key)
    fun slot other store memory => other = slot ∧ Mirrors store memory

/-- The functions of a class over a pool do what those of the DRAM class do. -/
structure PmemImplements (pool : Pool (Node t X)) (splitNode : Nat → Ptr → Ptr → TreeProg t X Unit)
    (search : Nat → Ptr → Key → TreeProg t X (Option SlotRef))
    (splitThere : Nat → Ptr → Ptr → PmemTreeProg t X Unit)
    (updateThere : Nat → Ptr → Key → Value → PmemTreeProg t X Bool) : Prop where
  splits : SplitMirrors splitNode splitThere
  searches : SearchMirrors search
  updates : ∀ fuel current key value, updateThere fuel current key value =
    onMemory (search fuel current key) >>= pool.overwriteFound value

section Overwriting

variable (pool : Pool (Node t X)) (slot : SlotRef) (value : Value)

theorem copyInto_mirrors : Simulates (Unlogged Mirrors) (overwrite slot value)
    (copyInto slot.node slot.index value : PmemTreeProg t X Unit) fun _ _ => Unlogged Mirrors := by
  refine Simulates.perform (Simulates.modify slot.node ?_)
  intro node there same changed ran
  obtain ⟨entries, copyRan, ran⟩ := except_bind_inv ran
  cases ran
  obtain ⟨entriesThere, copyRanThere, sameEntries⟩ := copyValue_filled same.entries copyRan
  rw [except_bind_ok copyRanThere]
  exact ⟨_, rfl, same.isLeaf, same.nk, same.links, sameEntries, same.children⟩

/-- The slot holds a string. -/
def HoldsString (store : Store (Node t X) Unit) : Prop :=
  ∃ node entry old, store.heap.get? slot.node = some node ∧
    node.entries.at? slot.index = some entry ∧ entry.value.string? = some old

theorem overwrite_mirrors :
    Simulates (Unlogged fun (store memory : Store (Node t X) Unit) =>
        HoldsString slot store ∧ Mirrors store memory)
      (overwrite slot value) (pool.overwrite slot.node slot.index value)
      fun _ _ => Unlogged Mirrors := by
  have plain : Simulates (Unlogged fun (store memory : Store (Node t X) Unit) =>
        HoldsString slot store ∧ Mirrors store memory)
      (overwrite slot value) (do
        copyInto slot.node slot.index value
        pool.mode.persist (valueBytes slot.node slot.index (value.chars.length + 1)))
      fun _ _ => Unlogged Mirrors := by
    intro store memory relates
    exact Simulates.quiet_last (copyInto_mirrors slot value)
      (Mode.quiet_persist pool.mode (valueBytes slot.node slot.index (value.chars.length + 1))) relates.2
  rw [Pool.overwrite]
  generalize pool.mode = mode at plain ⊢
  cases mode with
  | volatile => exact plain
  | persistent => exact plain
  | transactional =>
      refine Simulates.transaction ?_
      refine Simulates.after (fun contents => Unlogged fun store memory =>
        (∃ entry old, contents.entries.at? slot.index = some entry ∧ entry.value.string? = some old) ∧
          Mirrors store memory) ?_ fun contents => Simulates.assume fun ⟨entry, old, written, read⟩ => ?_
      · rintro store memory ⟨⟨node, entry, old, live, written, read⟩, mirrors⟩
        obtain ⟨there, liveThere, filled⟩ := mirrors.heap.live live
        obtain ⟨other, writtenThere, same⟩ := filled.entries.written written
        exact ⟨there, memory, Prog.load_ok liveThere, ⟨other, old, writtenThere, same.value.string? read⟩,
          mirrors⟩
      · refine Simulates.after (fun found => Unlogged fun store memory =>
          found = entry ∧ Mirrors store memory) ?_ fun found => Simulates.assume ?_
        · intro store memory mirrors
          exact ⟨entry, memory, Prog.lift_ok (CArray.get_ok written) memory, rfl, mirrors⟩
        · rintro rfl
          rw [read]
          exact Simulates.quiet_first (Quiet.record _) (copyInto_mirrors slot value)

end Overwriting

section Inserting

variable {kind : Kind t I} {chain : LeafChain X} {pool : Pool (Node t X)}
  {splitNode : Nat → Ptr → Ptr → TreeProg t X Unit}
  {search : Nat → Ptr → Key → TreeProg t X (Option SlotRef)}
  {updateIfFound : Nat → Ptr → Key → Value → TreeProg t X Bool} {blank : X}
  {splitThere : Nat → Ptr → Ptr → PmemTreeProg t X Unit}
  {updateThere : Nat → Ptr → Key → Value → PmemTreeProg t X Bool}
  {store next : Store (Node t X) Unit} {pmem : PmemTree t X}

/-- A search in a tree reads only slots that hold strings. -/
theorem search_holds (searches : SearchRefines kind search) {depth low : Nat} {tree : PtrTree I depth}
    (root : store.root = label tree) (rep : Rep kind store.heap tree) (nodup : (labels tree).Nodup)
    (shape : Shape kind.scheme low tree) (ordered : Ordered kind.scheme (trace tree)) (key : Key) :
    ∃ found, search store.heap.size store.root key store = .ok (found, store) ∧
      Answers kind store.heap tree key found ∧
      ∀ slot, found = some slot → HoldsString slot store := by
  obtain ⟨found, ran, answers⟩ :=
    searches key (rep.depth_lt_size nodup shape) rep nodup shape ordered
  rw [← root] at ran
  refine ⟨found, ran, answers, ?_⟩
  rintro slot rfl
  obtain ⟨old, located⟩ := answers
  obtain ⟨node, entry, live, written, read⟩ := located.stored
  exact ⟨node, entry, old, live, written, read⟩

/-- An update where the search succeeds. -/
theorem update_mirrors (pmemImplements : PmemImplements pool splitNode search splitThere updateThere)
    (updates : ∀ fuel current key value,
      updateIfFound fuel current key value = search fuel current key >>= overwriteFound value)
    (mirrors : Mirrors store (memory pmem)) {key : Key} {value : Value} {found : Option SlotRef}
    {fuel : Nat} {current : Ptr} (searchRan : search fuel current key store = .ok (found, store))
    (holds : ∀ slot, found = some slot → HoldsString slot store) {updated : Bool}
    (ran : updateIfFound fuel current key value store = .ok (updated, next)) :
    ∃ final, updateThere fuel current key value pmem = .ok (updated, final) ∧
      Mirrors next (memory final) := by
  obtain ⟨slot, after, searchThere, same, stillMirrors⟩ :=
    pmemImplements.searches _ _ _ mirrors searchRan
  subst same
  rw [updates, bind_ok searchRan] at ran
  rw [pmemImplements.updates, bind_ok (onMemory_ok searchThere)]
  have relates : Mirrors store (memory (withMemory pmem after)) := stillMirrors
  cases slot with
  | none =>
      cases ran
      exact ⟨_, rfl, relates⟩
  | some slot =>
      obtain ⟨_, middle, overwritten, rest⟩ := bind_ok_inv ran
      cases rest
      obtain ⟨_, final, overwrittenThere, finalMirrors⟩ := overwrite_mirrors pool slot value
        ⟨holds slot rfl, relates⟩ overwritten
      refine ⟨final, ?_, finalMirrors⟩
      rw [Pool.overwriteFound, bind_ok overwrittenThere]
      rfl

/-- `insert` into a pool that mirrors a store with a root, where the search succeeds. -/
theorem insert_mirrors (pmemImplements : PmemImplements pool splitNode search splitThere updateThere)
    (updates : ∀ fuel current key value,
      updateIfFound fuel current key value = search fuel current key >>= overwriteFound value)
    (rooted : store.root ≠ null) (mirrors : Mirrors store (memory pmem)) {key : Key} {value : Value}
    {found : Option SlotRef}
    (searchRan : search store.heap.size store.root key store = .ok (found, store))
    (holds : ∀ slot, found = some slot → HoldsString slot store) {result : Int}
    (ran : insert splitNode updateIfFound blank key value store = .ok (result, next)) :
    ∃ final, pool.insert splitThere updateThere blank key value pmem = .ok (1, final) ∧
      Mirrors next (memory final) := by
  rw [insert_of_root rooted] at ran
  obtain ⟨updated, middle, updateRan, ran⟩ := bind_ok_inv ran
  obtain ⟨between, updateThereRan, stillMirrors⟩ :=
    update_mirrors pmemImplements updates mirrors searchRan holds updateRan
  have sameRoot : pmem.root = store.root := mirrors.root
  have sameSize : pmem.heap.size = store.heap.size := mirrors.heap.size
  rw [Pool.insert, bind_ok (Prog.getRoot_ok pmem), bind_ok (Prog.heapSize_ok pmem), sameRoot, sameSize,
    bind_ok updateThereRan]
  cases updated with
  | true =>
      cases ran
      exact ⟨between, rfl, stillMirrors⟩
  | false =>
      obtain ⟨_, final, insertRan, _, finalMirrors⟩ :=
        insertNew_mirrors pool pmemImplements.splits blank store.heap.size store.root key value
          stillMirrors ran
      refine ⟨final, ?_, finalMirrors⟩
      simp only [Bool.false_eq_true, if_false]
      rw [bind_ok insertRan]
      rfl

end Inserting

/-! ### The first insert -/

section Starting

variable {kind : Kind t I} {chain : LeafChain X} {pool : Pool (Node t X)}
  {splitNode : Nat → Ptr → Ptr → TreeProg t X Unit}
  {search : Nat → Ptr → Key → TreeProg t X (Option SlotRef)}
  {updateIfFound : Nat → Ptr → Key → Value → TreeProg t X Bool} {blank : X}
  {splitThere : Nat → Ptr → Ptr → PmemTreeProg t X Unit}
  {updateThere : Nat → Ptr → Key → Value → PmemTreeProg t X Bool}

/-- A DRAM tree without a root. -/
def newStore : Store (Node t X) Unit where
  heap := Heap.empty
  root := null
  aux := ()

/-- A leaf no slot of which is written. -/
def blankLeaf (t : Nat) (blank : X) : Node t X where
  isLeaf := true
  nk := 0
  entries := CArray.unwritten _ _
  children := CArray.unwritten _ _
  links := blank

/-- A DRAM tree whose root is an empty leaf, as the classes for persistent memory start. -/
def rootedStore (blank : X) : Store (Node t X) Unit where
  heap := Heap.empty.push (blankLeaf t blank)
  root := 1
  aux := ()

theorem rootedStore_live (blank : X) :
    (rootedStore blank : Store (Node t X) Unit).heap.get? 1 = some (blankLeaf t blank) := rfl

/-- A tree whose root is a new empty leaf behind these nodes. -/
def leafStore (heap : Heap (Node t X)) (blank : X) : Store (Node t X) Unit where
  heap := heap.push (blankLeaf t blank)
  root := heap.size + 1
  aux := ()

theorem leafStore_live (heap : Heap (Node t X)) (blank : X) :
    (leafStore heap blank).heap.get? (heap.size + 1) = some (blankLeaf t blank) := by
  rw [leafStore, Heap.get?_push, if_pos rfl]

theorem leafStore_size (heap : Heap (Node t X)) (blank : X) :
    (leafStore heap blank).heap.size = heap.size + 1 := Heap.size_push _ _

/-- `init` makes an empty leaf the root, whatever the pool holds. -/
theorem init_leaf (pool : Pool (Node t X)) (blank : X) {store : Store (Node t X) Unit}
    {pmem : PmemTree t X} (start : Mirrors store (memory pmem)) :
    ∃ started, init pool blank pmem = .ok ((), started) ∧
      Mirrors (leafStore store.heap blank) (memory started) := by
  have simulates : Simulates (Unlogged Mirrors) (do
      let root ← createNode true blank
      Prog.setRoot root : TreeProg t X Unit) (init pool blank) fun _ _ => Unlogged Mirrors := by
    apply Simulates.quiet_last _ (Mode.quiet_persist _ _)
    apply Mode.simulates_transaction
    apply Simulates.quiet_first (Mode.quiet_addRange _ _)
    apply Simulates.bind (createNode_mirrors pool _ _)
    intro root other
    apply Simulates.assume
    rintro rfl
    exact (Simulates.setRoot _).perform
  have unlogged : Unlogged Mirrors store pmem := start
  obtain ⟨_, started, ran, mirrors⟩ :=
    simulates unlogged (show _ = Except.ok ((), leafStore store.heap blank) from rfl)
  exact ⟨started, ran, mirrors⟩

theorem newPool_mirrors : Mirrors (newStore : Store (Node t X) Unit) (memory (newPool : PmemTree t X)) :=
  ⟨⟨rfl, fun live => by simp [newStore] at live⟩, rfl, trivial⟩

/-- `init` leaves a pool with an empty leaf. -/
theorem init_mirrors (pool : Pool (Node t X)) (blank : X) :
    ∃ started, init pool blank newPool = .ok ((), started) ∧
      Mirrors (rootedStore blank) (memory started) := init_leaf pool blank newPool_mirrors

/-- The search in an empty leaf. -/
theorem search_leaf (searches : SearchRefines kind search) (heap : Heap (Node t X)) (key : Key) :
    search (heap.size + 1) (heap.size + 1) key (leafStore heap blank) =
      .ok (none, leafStore heap blank) := by
  have shown : ShowsAt kind (leafStore heap blank).heap (mkLeaf (heap.size + 1) [] : PtrTree I 0) := by
    refine ⟨(blankLeaf t blank).body, ?_, rfl, rfl, CArray.Prefix.nil⟩
    exact congrArg (Option.map Node.body) (leafStore_live heap blank)
  have distinct : (labels (mkLeaf (heap.size + 1) [] : PtrTree I 0)).Nodup := by simp [labels]
  have shape : Shape kind.scheme 0 (mkLeaf (heap.size + 1) [] : PtrTree I 0) :=
    ⟨Nat.le_refl 0, Nat.zero_le _⟩
  obtain ⟨found, ran, answers, _⟩ := search_holds searches
    (show (leafStore heap blank).root = label (mkLeaf (heap.size + 1) [] : PtrTree I 0) from rfl)
    (show Rep kind (leafStore heap blank).heap (mkLeaf (heap.size + 1) [] : PtrTree I 0) from shown)
    distinct shape List.Pairwise.nil key
  rw [leafStore_size] at ran
  cases found with
  | none => exact ran
  | some slot =>
      obtain ⟨old, located⟩ := answers
      obtain ⟨front, mark, back, split, _⟩ := located.focus
      simp [trace] at split

/-- The search in a blank root. -/
theorem search_rooted (searches : SearchRefines kind search) (key : Key) :
    search 1 1 key (rootedStore blank) = .ok (none, (rootedStore blank : Store (Node t X) Unit)) :=
  search_leaf searches Heap.empty key

/-- The leaf case of an insert into a blank leaf. -/
theorem insertIntoLeaf_blank {key : Key} {value : Value} {keyed placed : CArray Entry (2 * t - 1)}
    (keySet : setKey (CArray.unwritten Entry (2 * t - 1)) 0 key = .ok keyed)
    (copied : copyValue keyed 0 value = .ok placed) :
    insertIntoLeaf key value (blankLeaf t blank) =
      .ok { blankLeaf t blank with entries := placed, nk := 1 } := by
  have unmoved : CArray.shiftUpWhile (fun entry : Entry => decide (key < entry.key)) 0
      (CArray.unwritten Entry (2 * t - 1)) = .ok (0, CArray.unwritten _ _) := rfl
  simp only [insertIntoLeaf, blankLeaf, unmoved, keySet, copied, bind, Except.bind]
  rfl

/-- A DRAM tree whose only node is a leaf with these entries. -/
def oneLeafStore (blank : X) (placed : CArray Entry (2 * t - 1)) : Store (Node t X) Unit where
  heap := Heap.empty.push { blankLeaf t blank with entries := placed, nk := 1 }
  root := 1
  aux := ()

/-- What the first insert of the DRAM class leaves, behind whatever nodes there are. -/
theorem insert_unrooted (heap : Heap (Node t X)) {key : Key} {value : Value}
    {keyed placed : CArray Entry (2 * t - 1)}
    (keySet : setKey (CArray.unwritten Entry (2 * t - 1)) 0 key = .ok keyed)
    (copied : copyValue keyed 0 value = .ok placed) :
    insert splitNode updateIfFound blank key value { heap := heap, root := null, aux := () } =
      .ok (1, { heap := heap.push { blankLeaf t blank with entries := placed, nk := 1 }
                root := heap.size + 1
                aux := () }) := by
  rw [insert, bind_ok (Prog.getRoot_ok _), if_pos rfl, createNode, bind_ok (Prog.malloc_ok _ _),
    bind_ok (show Prog.setRoot (heap.size + 1) _ = .ok ((), leafStore heap blank) from rfl),
    bind_ok (Prog.modify_ok (leafStore_live heap blank) (show _ = Except.ok
      { blankLeaf t blank with entries := placed, nk := 1 } by
        simp only [blankLeaf, keySet, copied, bind, Except.bind]
        rfl))]
  simp only [leafStore, Heap.push_set]
  rfl

/-- What the first insert of the DRAM class leaves. -/
theorem insert_newStore {key : Key} {value : Value} {keyed placed : CArray Entry (2 * t - 1)}
    (keySet : setKey (CArray.unwritten Entry (2 * t - 1)) 0 key = .ok keyed)
    (copied : copyValue keyed 0 value = .ok placed) :
    insert splitNode updateIfFound blank key value newStore = .ok (1, oneLeafStore blank placed) :=
  insert_unrooted Heap.empty keySet copied

/-- An insert below an empty leaf does what the first insert of the DRAM class does. -/
theorem insert_leaf (implements : Implements kind chain splitNode search updateIfFound blank)
    (heap : Heap (Node t X)) (key : Key) (value : Value) :
    insert splitNode updateIfFound blank key value (leafStore heap blank) =
      insert splitNode updateIfFound blank key value { heap := heap, root := null, aux := () } := by
  obtain ⟨keyed, placed, entry, keySet, copied, _⟩ :=
    place_ok (CArray.unwritten Entry (2 * t - 1)) (show 0 < 2 * t - 1 by
      have := kind.degree
      omega) key value
  have searched : updateIfFound (heap.size + 1) (heap.size + 1) key value (leafStore heap blank) =
      .ok (false, leafStore heap blank) := by
    rw [implements.updates, bind_ok (search_leaf implements.searches heap key)]
    rfl
  have notFull : isNodeFull t (blankLeaf t blank).nk = false := by
    have := kind.degree
    simp only [isNodeFull, blankLeaf, beq_eq_false_iff_ne]
    omega
  have inserted : insertNotFull splitNode (heap.size + 1) (heap.size + 1) key value (leafStore heap blank) =
      .ok ((), { heap := heap.push { blankLeaf t blank with entries := placed, nk := 1 }
                 root := heap.size + 1
                 aux := () }) := by
    rw [insertNotFull, bind_ok (Prog.load_ok (leafStore_live heap blank)),
      if_pos (show (blankLeaf t blank).isLeaf = true from rfl),
      Prog.modify_ok (leafStore_live heap blank) (insertIntoLeaf_blank keySet copied)]
    simp only [leafStore, Heap.push_set]
  rw [insert_unrooted heap keySet copied, insert, bind_ok (Prog.getRoot_ok _),
    show (leafStore heap blank).root = heap.size + 1 from rfl,
    if_neg (show heap.size + 1 ≠ null from Nat.succ_ne_zero _),
    bind_ok (Prog.heapSize_ok _), leafStore_size, bind_ok searched]
  simp only [Bool.false_eq_true, if_false]
  rw [bind_ok (Prog.load_ok (leafStore_live heap blank)), notFull]
  simp only [Bool.false_eq_true, if_false]
  rw [bind_ok inserted]
  rfl

/-- An insert below a blank root does what the first insert of the DRAM class does. -/
theorem insert_rooted (implements : Implements kind chain splitNode search updateIfFound blank)
    (key : Key) (value : Value) :
    insert splitNode updateIfFound blank key value (rootedStore blank) =
      insert splitNode updateIfFound blank key value newStore :=
  insert_leaf implements Heap.empty key value

end Starting

/-! ### Whole workloads -/

/-- The backend inserts with the `insert` of the pool's class and reads with a search from the root. -/
structure PmemServes (pool : Pool (Node t X)) (search : Nat → Ptr → Key → TreeProg t X (Option SlotRef))
    (splitThere : Nat → Ptr → Ptr → PmemTreeProg t X Unit)
    (updateThere : Nat → Ptr → Key → Value → PmemTreeProg t X Bool) (blank : X)
    (backend : Backend (PmemTree t X)) : Prop where
  insert : ∀ key value pmem, backend.insert key value pmem =
    (pool.insert splitThere updateThere blank key value pmem).map Prod.snd
  read : ∀ key pmem, backend.read key pmem =
    (onMemory (search pmem.heap.size pmem.root key) pmem).bind fun found =>
      stringAt (memory found.2) found.1

/-- A DRAM tree and a pool that mirrors it. -/
def Twins (kind : Kind t I) (chain : LeafChain X) (store : Store (Node t X) Unit)
    (pmem : PmemTree t X) : Prop :=
  Mirrors store (memory pmem) ∧ ∃ entries, ShowsMap kind chain store entries

section Workloads

variable {kind : Kind t I} {chain : LeafChain X} {pool : Pool (Node t X)}
  {splitNode : Nat → Ptr → Ptr → TreeProg t X Unit}
  {search : Nat → Ptr → Key → TreeProg t X (Option SlotRef)}
  {updateIfFound : Nat → Ptr → Key → Value → TreeProg t X Bool} {blank : X}
  {splitThere : Nat → Ptr → Ptr → PmemTreeProg t X Unit}
  {updateThere : Nat → Ptr → Key → Value → PmemTreeProg t X Bool}
  {backend : Backend (Store (Node t X) Unit)} {backendThere : Backend (PmemTree t X)}
  {store : Store (Node t X) Unit} {pmem : PmemTree t X}

theorem Twins.insert (implements : Implements kind chain splitNode search updateIfFound blank)
    (pmemImplements : PmemImplements pool splitNode search splitThere updateThere)
    (serves : Serves splitNode search updateIfFound blank backend)
    (pmemServes : PmemServes pool search splitThere updateThere blank backendThere)
    (twins : Twins kind chain store pmem) (key : Key) (value : Value) :
    ∃ next final, backend.insert key value store = .ok next ∧
      backendThere.insert key value pmem = .ok final ∧ Twins kind chain next final := by
  obtain ⟨mirrors, entries, shows⟩ := twins
  obtain ⟨next, ran, nextShows⟩ := insert_refines implements shows key value
  obtain ⟨depth, tree, stores, _⟩ := shows
  obtain ⟨found, searchRan, _, holds⟩ := search_holds implements.searches stores.root stores.holds.rep
    stores.holds.nodup stores.valid.shape stores.valid.ordered key
  obtain ⟨final, ranThere, finalMirrors⟩ := insert_mirrors pmemImplements implements.updates
    stores.root_ne_null mirrors searchRan holds ran
  refine ⟨next, final, ?_, ?_, finalMirrors, _, nextShows⟩
  · rw [serves.insert, ran]
    rfl
  · rw [pmemServes.insert, ranThere]
    rfl

theorem Twins.read (implements : Implements kind chain splitNode search updateIfFound blank)
    (solid : kind.Solid) (serves : Serves splitNode search updateIfFound blank backend)
    (pmemServes : PmemServes pool search splitThere updateThere blank backendThere)
    (twins : Twins kind chain store pmem) (key : Key) :
    ∃ found, backend.read key store = .ok found ∧ backendThere.read key pmem = .ok found := by
  obtain ⟨mirrors, _, depth, tree, stores, _⟩ := twins
  have storesThere := stores.filled solid mirrors
  obtain ⟨slot, ran, denotes⟩ := search_lookup implements.searches stores key
  obtain ⟨slotThere, ranThere, denotesThere⟩ := search_lookup implements.searches storesThere key
  refine ⟨(contents kind.scheme tree).lookup key, ?_, ?_⟩
  · rw [serves.read key store stores.root_ne_null, ran]
    exact denotes
  · have searched : onMemory (search pmem.heap.size pmem.root key) pmem = _ := onMemory_ok ranThere
    rw [pmemServes.read, searched]
    exact denotesThere

/-- The first insert into a DRAM tree without a root and into a pool after `init`. -/
theorem Twins.first (implements : Implements kind chain splitNode search updateIfFound blank)
    (pmemImplements : PmemImplements pool splitNode search splitThere updateThere)
    (serves : Serves splitNode search updateIfFound blank backend)
    (pmemServes : PmemServes pool search splitThere updateThere blank backendThere)
    (key : Key) (value : Value) :
    ∃ started next final, init pool blank newPool = .ok ((), started) ∧
      backend.insert key value newStore = .ok next ∧
      backendThere.insert key value started = .ok final ∧ Twins kind chain next final := by
  obtain ⟨started, initRan, mirrors⟩ := init_mirrors pool blank
  obtain ⟨next, ran, stores, -⟩ := insert_empty implements (show newStore.root = null from rfl) key value
  have rooted : (rootedStore blank : Store (Node t X) Unit).root ≠ null := Nat.one_ne_zero
  obtain ⟨final, ranThere, finalMirrors⟩ := insert_mirrors pmemImplements implements.updates rooted
    mirrors (search_rooted implements.searches key) (fun slot some => by cases some)
    ((insert_rooted implements key value).trans ran)
  refine ⟨started, next, final, initRan, ?_, ?_, finalMirrors, _, 0, _, stores, rfl⟩
  · rw [serves.insert, ran]
    rfl
  · rw [pmemServes.insert, ranThere]
    rfl

/-- The entries a pool shows; an empty leaf shows none. -/
def ShowsEntries (kind : Kind t I) (chain : LeafChain X) (blank : X) (pmem : PmemTree t X)
    (entries : List (Key × Value)) : Prop :=
  ∃ store, Mirrors store (memory pmem) ∧
    ((∃ heap, store = leafStore heap blank ∧ entries = []) ∨ ShowsMap kind chain store entries)

/-- The persistent trees are finite maps from `init` on. -/
theorem PmemServes.represents (implements : Implements kind chain splitNode search updateIfFound blank)
    (pmemImplements : PmemImplements pool splitNode search splitThere updateThere) (solid : kind.Solid)
    (pmemServes : PmemServes pool search splitThere updateThere blank backendThere) :
    Represents backendThere (ShowsEntries kind chain blank) where
  insert := by
    rintro pmem entries key value ⟨store, mirrors, leaf | shows⟩
    · obtain ⟨heap, rfl, rfl⟩ := leaf
      obtain ⟨next, ran, stores, -⟩ := insert_empty implements
        (show (Store.mk heap null () : Store (Node t X) Unit).root = null from rfl) key value
      have searched : search (leafStore heap blank).heap.size (leafStore heap blank).root key
          (leafStore heap blank) = .ok (none, leafStore heap blank) := by
        rw [leafStore_size]
        exact search_leaf implements.searches heap key
      obtain ⟨final, ranThere, finalMirrors⟩ := insert_mirrors pmemImplements implements.updates
        (show (leafStore heap blank).root ≠ null from Nat.succ_ne_zero _) mirrors searched
        (fun slot some => by cases some) ((insert_leaf implements heap key value).trans ran)
      refine ⟨final, ?_, next, finalMirrors, Or.inr ⟨0, _, stores, rfl⟩⟩
      rw [pmemServes.insert, ranThere]
      rfl
    · obtain ⟨next, ran, nextShows⟩ := insert_refines implements shows key value
      obtain ⟨depth, tree, stores, _⟩ := shows
      obtain ⟨found, searchRan, _, holds⟩ := search_holds implements.searches stores.root stores.holds.rep
        stores.holds.nodup stores.valid.shape stores.valid.ordered key
      obtain ⟨final, ranThere, finalMirrors⟩ := insert_mirrors pmemImplements implements.updates
        stores.root_ne_null mirrors searchRan holds ran
      refine ⟨final, ?_, next, finalMirrors, Or.inr nextShows⟩
      rw [pmemServes.insert, ranThere]
      rfl
  read := by
    rintro pmem entries key ⟨store, mirrors, leaf | shows⟩
    · obtain ⟨heap, rfl, rfl⟩ := leaf
      obtain ⟨found, after, ranThere, same, _⟩ := pmemImplements.searches _ _ _ mirrors
        (search_leaf implements.searches heap key)
      subst same
      have sameRoot : pmem.root = heap.size + 1 := mirrors.root
      have sameSize : pmem.heap.size = heap.size + 1 := mirrors.heap.size.trans (leafStore_size heap blank)
      have searched : onMemory (search pmem.heap.size pmem.root key) pmem =
          .ok (none, withMemory pmem after) := by
        rw [sameRoot, sameSize]
        exact onMemory_ok ranThere
      rw [pmemServes.read, searched]
      rfl
    · obtain ⟨depth, tree, stores, rfl⟩ := shows
      obtain ⟨slot, ranThere, denotes⟩ := search_lookup implements.searches (stores.filled solid mirrors) key
      have searched : onMemory (search pmem.heap.size pmem.root key) pmem = _ := onMemory_ok ranThere
      rw [pmemServes.read, searched]
      exact denotes

/-- After `init` a pool shows nothing, whatever it held. -/
theorem ShowsEntries.init (pool : Pool (Node t X)) {entries : List (Key × Value)}
    (shows : ShowsEntries kind chain blank pmem entries) :
    ∃ started, Trees.init pool blank pmem = .ok ((), started) ∧ ShowsEntries kind chain blank started [] := by
  obtain ⟨store, mirrors, _⟩ := shows
  obtain ⟨started, ran, leaf⟩ := init_leaf pool blank mirrors
  exact ⟨started, ran, _, leaf, Or.inl ⟨store.heap, rfl, rfl⟩⟩

theorem init_shows (pool : Pool (Node t X)) (kind : Kind t I) (chain : LeafChain X) (blank : X) :
    ∃ started, Trees.init pool blank newPool = .ok ((), started) ∧
      ShowsEntries kind chain blank started [] := by
  obtain ⟨started, ran, leaf⟩ := init_mirrors pool blank
  exact ⟨started, ran, _, leaf, Or.inl ⟨Heap.empty, rfl, rfl⟩⟩

end Workloads

end StoredsBench.Trees
