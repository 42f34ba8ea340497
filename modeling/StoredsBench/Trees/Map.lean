/-
Module: StoredsBench.Trees.Map
Layer: Refinement
Purpose: `insert` and `read` of the tree classes on whole stores.  An empty store has no root; every
  other one holds a valid tree, and its contents are the map the class implements.
Trusted boundary: none
Main exports: Stores, ShowsMap, Implements, insert_refines, search_lookup, Serves,
  Implements.represents
-/
import StoredsBench.Trees.Splitting
import StoredsBench.Trees.Lookup

namespace StoredsBench.Trees

open Lib Lib.Multiway Lib.SortedAssoc

variable {t : Nat} {X I : Type}

/-- The store holds a valid tree at its root. -/
structure Stores (kind : Kind t I) (chain : LeafChain X) (store : Store (Node t X) Unit)
    {depth : Nat} (tree : PtrTree I depth) : Prop where
  root : store.root = label tree
  holds : Holds kind chain store [] [] tree
  valid : Valid kind.scheme tree

/-- The entries a store with a root stands for. -/
def ShowsMap (kind : Kind t I) (chain : LeafChain X) (store : Store (Node t X) Unit)
    (entries : List (Key × Value)) : Prop :=
  ∃ (depth : Nat) (tree : PtrTree I depth), Stores kind chain store tree ∧
    contents kind.scheme tree = entries

/-- The functions of a class do what they must do on trees. -/
structure Implements (kind : Kind t I) (chain : LeafChain X)
    (splitNode : Nat → Ptr → Ptr → TreeProg t X Unit)
    (search : Nat → Ptr → Key → TreeProg t X (Option SlotRef))
    (updateIfFound : Nat → Ptr → Key → Value → TreeProg t X Bool) (blank : X) : Prop where
  splits : SplitRefines kind chain splitNode
  searches : SearchRefines kind search
  updates : ∀ fuel current key value,
    updateIfFound fuel current key value = search fuel current key >>= overwriteFound value
  single : ∀ (links : Nat → Option X) (address : Nat), links address = some blank →
    chain.holds links [address]

section Operations

variable {kind : Kind t I} {chain : LeafChain X} {store : Store (Node t X) Unit} {depth : Nat}
  {tree : PtrTree I depth}

theorem Stores.root_ne_null (stores : Stores kind chain store tree) : store.root ≠ null := by
  rw [stores.root]
  obtain ⟨node, live, _⟩ := stores.holds.rep.root
  exact Heap.ne_null_of_get? live

theorem Stores.depth_lt_size (stores : Stores kind chain store tree) : depth < store.heap.size :=
  stores.holds.rep.depth_lt_size stores.holds.nodup stores.valid.shape

variable {splitNode : Nat → Ptr → Ptr → TreeProg t X Unit}
  {search : Nat → Ptr → Key → TreeProg t X (Option SlotRef)}
  {updateIfFound : Nat → Ptr → Key → Value → TreeProg t X Bool} {blank : X}

/-- The first insert creates a root with one entry. -/
theorem insert_empty (implements : Implements kind chain splitNode search updateIfFound blank)
    (empty : store.root = null) (key : Key) (value : Value) :
    ∃ next, insert splitNode updateIfFound blank key value store = .ok (1, next) ∧
      Stores kind chain next (mkLeaf (store.heap.size + 1) [(key, value)] : PtrTree I 0) ∧
      next.heap.size = store.heap.size + 1 := by
  have degree := kind.degree
  obtain ⟨keyed, placed, entry, keySet, copied, viewed, placedAt⟩ :=
    place_ok (CArray.unwritten Entry (2 * t - 1)) (show 0 < 2 * t - 1 by omega) key value
  obtain ⟨root, rootEq⟩ : ∃ root : Node t X, root =
      { isLeaf := true, nk := 1, entries := placed, children := CArray.unwritten _ _,
        links := blank } := ⟨_, rfl⟩
  have pushed : ∀ node : Node t X,
      (store.heap.push node).get? (store.heap.size + 1) = some node :=
    fun node => by rw [Heap.get?_push, if_pos rfl]
  refine ⟨{ store with heap := store.heap.push root, root := store.heap.size + 1 }, ?_, ⟨rfl,
    ⟨⟨root.body, ?_, ?_⟩, ?_, ?_⟩, ?_⟩, Heap.size_push _ _⟩
  · rw [insert, bind_ok (Prog.getRoot_ok store), if_pos empty,
      createNode, bind_ok (Prog.malloc_ok _ store),
      bind_ok (show Prog.setRoot (store.heap.size + 1) _ = .ok ((), _) from rfl),
      bind_ok (Prog.modify_ok (pushed _) (show _ = Except.ok root by
        simp only [keySet, copied, rootEq, bind, Except.bind]
        rfl))]
    simp only [Heap.push_set]
    rfl
  · show Option.map Node.body ((store.heap.push root).get? (store.heap.size + 1)) = _
    rw [pushed]
    rfl
  · subst rootEq
    refine ⟨rfl, rfl, fun index item found => ?_⟩
    have first : index = 0 ∧ item = (key, value) := by
      cases index with
      | zero => exact ⟨rfl, (Option.some.inj found).symm⟩
      | succ index => simp at found
    obtain ⟨rfl, rfl⟩ := first
    refine ⟨entry, ?_, viewed⟩
    show placed.at? 0 = _
    rw [placedAt, CArray.at?_put _ (by omega), if_pos rfl]
  · simp [labels]
  · refine implements.single _ _ ?_
    show Option.map Node.links ((store.heap.push root).get? (store.heap.size + 1)) = _
    rw [pushed, rootEq]
    rfl
  · refine valid_singleton _ _ ?_
    rw [kind.maxKeys_eq]
    omega

/-- The node a full root becomes the only child of. -/
def raisedRoot (t : Nat) (blank : X) (child : Nat) : Node t X where
  isLeaf := false
  nk := 0
  entries := CArray.unwritten _ _
  children := (CArray.unwritten _ _).put 0 child
  links := blank

/-- A new root above the tree, which has no key yet. -/
theorem Holds.raise {front back : List Nat} (holds : Holds kind chain store front back tree)
    (blank : X) :
    Holds kind chain { store with heap := store.heap.push (raisedRoot t blank (label tree)) }
      front back (mkNode (store.heap.size + 1) [] [tree]) where
  rep := by
    have degree := kind.degree
    refine ⟨⟨(raisedRoot t blank (label tree)).body, ?_, rfl, rfl, CArray.Prefix.nil, ?_⟩, ?_⟩
    · show Option.map Node.body ((store.heap.push _).get? (store.heap.size + 1)) = _
      rw [Heap.get?_push, if_pos rfl, Option.map_some]
    · intro index item found
      have first : index = 0 ∧ item = label tree := by
        cases index with
        | zero => exact ⟨rfl, (Option.some.inj found).symm⟩
        | succ index => simp at found
      obtain ⟨rfl, rfl⟩ := first
      refine ⟨label tree, ?_, rfl⟩
      show ((CArray.unwritten Ptr (2 * t)).put 0 (label tree)).at? 0 = _
      rw [CArray.at?_put _ (by omega), if_pos rfl]
    · intro child member
      rw [List.mem_singleton.mp member]
      exact holds.rep.congr fun address inTree =>
        bodyAt_push _ _ (holds.rep.bounds address inTree).2
  nodup := by
    have new : store.heap.size + 1 ∉ labels tree := fun member => by
      have := (holds.rep.bounds _ member).2
      omega
    simpa [labels] using ⟨new, holds.nodup⟩
  chained := by
    have sameLeaves : leafLabels (mkNode (I := I) (store.heap.size + 1) [] [tree]) =
        leafLabels tree := by
      rw [leafLabels_node]
      simp
    rw [sameLeaves]
    exact chain.stable (fun _ _ found => linksAt_push _ found) holds.chained

/-- Inserting below a root with room. -/
theorem insert_room (implements : Implements kind chain splitNode search updateIfFound blank)
    (stores : Stores kind chain store tree) (key : Key) (value : Value)
    (room : width tree < kind.scheme.maxKeys) :
    ∃ fresh next, insertNotFull splitNode store.heap.size (label tree) key value store =
        .ok ((), next) ∧ next.root = store.root ∧
      Holds kind chain next [] [] (Multiway.insertNotFull kind.scheme fresh (key, value) tree) ∧
      next.heap.size + (labels tree).length = store.heap.size +
        (labels (Multiway.insertNotFull kind.scheme fresh (key, value) tree)).length := by
  obtain ⟨fresh, next, ran, holds, step⟩ :=
    insertNotFull_refines implements.splits key value stores.depth_lt_size stores.holds
      stores.valid.shape room
  exact ⟨fresh, next, ran, step.root, holds, step.allocated⟩

/-- Inserting below a full root: the code of `insert` is one step of `insert_not_full` at a new
root whose only child is the old one. -/
theorem insert_full (implements : Implements kind chain splitNode search updateIfFound blank)
    (stores : Stores kind chain store tree) (key : Key) (value : Value)
    (full : width tree = kind.scheme.maxKeys) :
    ∃ fresh next, (do
        splitNode 0 (store.heap.size + 1) (label tree)
        let newContents ← Prog.load (store.heap.size + 1)
        let separator ← Prog.lift (newContents.entries.get 0)
        let child ← Prog.lift
          (newContents.children.get (if separator.key < key then 1 else 0))
        insertNotFull splitNode store.heap.size child key value : TreeProg t X Unit)
          { store with heap := store.heap.push (raisedRoot t blank (label tree)) } =
        .ok ((), next) ∧
      Holds kind chain next [] [] (Multiway.insertNotFull kind.scheme fresh (key, value)
        (mkNode (store.heap.size + 1) [] [tree])) ∧
      next.heap.size + (labels tree).length = store.heap.size +
        (labels (Multiway.insertNotFull kind.scheme fresh (key, value)
          (mkNode (store.heap.size + 1) [] [tree]))).length := by
  have raised := stores.holds.raise blank
  have degree := kind.lawful.degree
  have maxKeys := kind.lawful.maxKeys_eq
  have raisedShape : Shape kind.scheme 0 (mkNode (store.heap.size + 1) [] [tree]) :=
    ⟨⟨Nat.le_refl 0, Nat.zero_le _⟩, rfl, fun child member => by
      rw [List.mem_singleton.mp member]
      exact stores.valid.shape.of_full full (by omega)⟩
  have chosen : ([] : List I).length = upperIndex kind.scheme.itemKey key ([] ++ []) := rfl
  have step := insertNotFull_step splitNode store.heap.size key value
    (show Rep kind _ (mkNode _ ([] ++ []) ([] ++ tree :: [])) from raised.rep) rfl chosen
  rw [if_pos full] at step
  obtain ⟨fresh, next, ran, holds, grown⟩ :=
    insertNotFull_refines implements.splits key value
      (Nat.succ_lt_succ stores.depth_lt_size) raised raisedShape
      (show 0 < kind.scheme.maxKeys by omega)
  refine ⟨fresh, next, step.symm.trans ran, holds, ?_⟩
  have allocated := grown.allocated
  have raisedLabels : (labels (mkNode (I := I) (store.heap.size + 1) [] [tree])).length =
      (labels tree).length + 1 := by simp [labels]
  rw [raisedLabels, Heap.size_push] at allocated
  omega

/-- Behind an insert the store holds a tree with the entries, which has as many nodes more as were
allocated. -/
def Becomes (kind : Kind t I) (chain : LeafChain X) (store next : Store (Node t X) Unit)
    (tree : PtrTree I depth) (entries : List (Key × Value)) : Prop :=
  ∃ (height : Nat) (grown : PtrTree I height), Stores kind chain next grown ∧
    contents kind.scheme grown = entries ∧
    next.heap.size + (labels tree).length = store.heap.size + (labels grown).length

/-- A store that holds the tree after an insertion shows the map with the new entry. -/
theorem Stores.inserted (stores : Stores kind chain store tree) {key : Key} (value : Value)
    (absent : ∀ entry ∈ contents kind.scheme tree, entry.1 ≠ key) (fresh : Nat → Nat)
    {next : Store (Node t X) Unit}
    (root : next.root = label (insertRoot kind.scheme fresh (key, value) tree).2)
    (holds : Holds kind chain next [] [] (insertRoot kind.scheme fresh (key, value) tree).2)
    (allocated : next.heap.size + (labels tree).length =
      store.heap.size + (labels (insertRoot kind.scheme fresh (key, value) tree).2).length) :
    Becomes kind chain store next tree (upsert key value (contents kind.scheme tree)) := by
  obtain ⟨valid, front, back, grownEq, oldEq, below, above⟩ :=
    insertRoot_valid kind.lawful fresh (key, value) stores.valid
      (by rw [kind.entryKey_eq]; exact absent)
  rw [kind.entryKey_eq] at below above
  refine ⟨_, _, ⟨root, holds, valid⟩, ?_, allocated⟩
  rw [grownEq, oldEq, upsert_insert value below above]

/-- The part of `insert` that follows an unsuccessful update, below a full root. -/
theorem insert_raises (implements : Implements kind chain splitNode search updateIfFound blank)
    (stores : Stores kind chain store tree) {key : Key} (value : Value)
    (absent : ∀ entry ∈ contents kind.scheme tree, entry.1 ≠ key)
    (full : width tree = kind.scheme.maxKeys) :
    ∃ next, (do
        let newRoot ← createNode false blank
        Prog.modify newRoot fun node => do
          let children ← node.children.set 0 (label tree)
          return { node with children := children }
        splitNode 0 newRoot (label tree)
        let newContents ← Prog.load newRoot
        let separator ← Prog.lift (newContents.entries.get 0)
        let child ← Prog.lift (newContents.children.get (if separator.key < key then 1 else 0))
        insertNotFull splitNode store.heap.size child key value
        Prog.setRoot newRoot
        return 1 : TreeProg t X Int) store = .ok (1, next) ∧
      Becomes kind chain store next tree (upsert key value (contents kind.scheme tree)) := by
  obtain ⟨fresh, next, grown, holds, allocated⟩ := insert_full implements stores key value full
  have resultEq : insertRoot kind.scheme (supply (depth + 1) (store.heap.size + 1) fresh)
        (key, value) tree =
      ⟨depth + 1, Multiway.insertNotFull kind.scheme
        (supply (depth + 1) (store.heap.size + 1) fresh) (key, value)
        (mkNode (store.heap.size + 1) [] [tree])⟩ := by
    rw [insertRoot, if_pos full, supply_self]
  obtain ⟨_, _, splitRan, grown⟩ := bind_ok_inv grown
  obtain ⟨_, _, loadRan, grown⟩ := bind_ok_inv grown
  obtain ⟨_, _, separatorRan, grown⟩ := bind_ok_inv grown
  obtain ⟨_, _, childRan, insertRan⟩ := bind_ok_inv grown
  have pushed : ∀ node : Node t X,
      (store.heap.push node).get? (store.heap.size + 1) = some node :=
    fun node => by rw [Heap.get?_push, if_pos rfl]
  have degree := kind.degree
  rw [createNode, bind_ok (Prog.malloc_ok _ store),
    bind_ok (Prog.modify_ok (pushed _) (show _ = Except.ok (raisedRoot t blank (label tree)) by
      simp only [CArray.set_ok (show 0 < 2 * t by omega), bind, Except.bind]
      rfl))]
  simp only [Heap.push_set]
  rw [bind_ok splitRan, bind_ok loadRan, bind_ok separatorRan, bind_ok childRan, bind_ok insertRan,
    bind_ok (show Prog.setRoot (store.heap.size + 1) next = .ok ((), _) from rfl)]
  refine ⟨{ next with root := store.heap.size + 1 }, rfl, stores.inserted value absent
    (supply (depth + 1) (store.heap.size + 1) fresh) ?_ ?_ ?_⟩
  · rw [resultEq]
    simp only [label_insertNotFull]
    rfl
  · rw [resultEq]
    simp only [insertNotFull_supply]
    exact ⟨holds.rep, holds.nodup, holds.chained⟩
  · rw [resultEq]
    simp only [insertNotFull_supply]
    exact allocated

/-- Every insert into a store with a root is the insert of the map, and allocates nothing but nodes of the
tree. -/
theorem insert_becomes (implements : Implements kind chain splitNode search updateIfFound blank)
    (stores : Stores kind chain store tree) (key : Key) (value : Value) :
    ∃ next, insert splitNode updateIfFound blank key value store = .ok (1, next) ∧
      Becomes kind chain store next tree (upsert key value (contents kind.scheme tree)) := by
  rw [insert, bind_ok (Prog.getRoot_ok store),
    if_neg stores.root_ne_null,
    bind_ok (Prog.heapSize_ok store),
    implements.updates, stores.root]
  rcases update_refines implements.searches stores.depth_lt_size stores.holds stores.valid key value
    with ⟨next, changed, ran, sameRoot, sameLabel, holds, valid, contentsEq, sameSize, sameLabels⟩ |
      ⟨ran, absent⟩
  · rw [bind_ok ran]
    refine ⟨next, rfl, depth, changed, ⟨?_, holds, valid⟩, contentsEq, ?_⟩
    · rw [sameRoot, sameLabel, stores.root]
    · rw [sameSize, sameLabels]
  · rw [bind_ok ran]
    obtain ⟨rootNode, rootLive, rootShows⟩ := stores.holds.rep.root
    have rootFull := isNodeFull_eq kind rootShows
    rw [Node.body_nk] at rootFull
    simp only [Bool.false_eq_true, if_false]
    rw [bind_ok (Prog.load_ok rootLive), rootFull]
    by_cases full : width tree = kind.scheme.maxKeys
    · simp only [full, decide_true, if_true]
      exact insert_raises implements stores value absent full
    · obtain ⟨fresh, next, grown, sameRoot, holds, allocated⟩ :=
        insert_room implements stores key value (lt_of_le_of_ne stores.valid.shape.width_le full)
      have resultEq : insertRoot kind.scheme fresh (key, value) tree =
          ⟨depth, Multiway.insertNotFull kind.scheme fresh (key, value) tree⟩ := if_neg full
      simp only [full, decide_false, Bool.false_eq_true, if_false]
      rw [bind_ok grown]
      refine ⟨next, rfl, stores.inserted value absent fresh ?_ ?_ ?_⟩
      · rw [resultEq, sameRoot, stores.root]
        exact (label_insertNotFull fresh (key, value) tree).symm
      · rw [resultEq]
        exact holds
      · rw [resultEq]
        exact allocated

/-- Every insert into a store with a root is the insert of the map. -/
theorem insert_refines (implements : Implements kind chain splitNode search updateIfFound blank)
    {entries : List (Key × Value)} (shows : ShowsMap kind chain store entries) (key : Key)
    (value : Value) :
    ∃ next, insert splitNode updateIfFound blank key value store = .ok (1, next) ∧
      ShowsMap kind chain next (upsert key value entries) := by
  obtain ⟨depth, tree, stores, rfl⟩ := shows
  obtain ⟨next, ran, height, grown, grownStores, contentsEq, _⟩ :=
    insert_becomes implements stores key value
  exact ⟨next, ran, height, grown, grownStores, contentsEq⟩

/-- A search from the root finds the value of the map. -/
theorem search_lookup (searches : SearchRefines kind search) (stores : Stores kind chain store tree)
    (key : Key) :
    ∃ slot, search store.heap.size store.root key store = .ok (slot, store) ∧
      stringAt store slot = .ok ((contents kind.scheme tree).lookup key) := by
  obtain ⟨slot, ran, answers⟩ := searches key stores.depth_lt_size stores.holds.rep
    stores.holds.nodup stores.valid.shape stores.valid.ordered
  refine ⟨slot, by rw [stores.root]; exact ran, ?_⟩
  cases slot with
  | none => rw [lookup_eq_none_of_forall_ne answers, stringAt]
  | some slot =>
      obtain ⟨old, located⟩ := answers
      rw [(located.contents_eq stores.valid old).1]
      exact located.stringAt_ok

/-! ### Whole histories -/

/-- The backend inserts with `insert` and reads with a search from the root. -/
structure Serves (splitNode : Nat → Ptr → Ptr → TreeProg t X Unit)
    (search : Nat → Ptr → Key → TreeProg t X (Option SlotRef))
    (updateIfFound : Nat → Ptr → Key → Value → TreeProg t X Bool) (blank : X)
    (backend : Backend (Store (Node t X) Unit)) : Prop where
  insert : ∀ key value store, backend.insert key value store =
    (Trees.insert splitNode updateIfFound blank key value store).map Prod.snd
  read : ∀ key store, store.root ≠ null → backend.read key store =
    (search store.heap.size store.root key store).bind fun found => stringAt found.2 found.1

variable {backend : Backend (Store (Node t X) Unit)}

theorem Implements.represents
    (implements : Implements kind chain splitNode search updateIfFound blank)
    (serves : Serves splitNode search updateIfFound blank backend) :
    Represents backend (ShowsMap kind chain) where
  insert := by
    intro store entries key value shows
    obtain ⟨next, ran, nextShows⟩ := insert_refines implements shows key value
    exact ⟨next, by rw [serves.insert, ran]; rfl, nextShows⟩
  read := by
    intro store entries key shows
    obtain ⟨depth, tree, stores, rfl⟩ := shows
    obtain ⟨slot, ran, denotes⟩ := search_lookup implements.searches stores key
    rw [serves.read key store stores.root_ne_null, ran]
    exact denotes

theorem Implements.insert_first
    (implements : Implements kind chain splitNode search updateIfFound blank)
    (serves : Serves splitNode search updateIfFound blank backend) (empty : store.root = null)
    (key : Key) (value : Value) :
    ∃ next, backend.insert key value store = .ok next ∧ ShowsMap kind chain next [(key, value)] := by
  obtain ⟨next, ran, stores, -⟩ := insert_empty implements empty key value
  exact ⟨next, by rw [serves.insert, ran]; rfl, 0, _, stores, entriesOf_entries _⟩

end Operations

end StoredsBench.Trees
