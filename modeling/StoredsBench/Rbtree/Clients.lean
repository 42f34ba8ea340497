/-
Module: StoredsBench.Rbtree.Clients
Layer: Correctness
Purpose: `RbtreeDramConcurrentMLock` of `storeds/rbtree/rbtree_dram_concurrent_mlock.cc`: `RbtreeDram`
  with a lock around every call.  Rotations and recolourings rewrite links and colours only, so the
  node of a key, and with it the slot of its value, stays where it is.
Trusted boundary: human-reviewed spec for `shared`
Main exports: RbtreeDramConcurrentMLock.shared, RbtreeDramConcurrentMLock.keepsPointers
-/
import StoredsBench.Clients
import StoredsBench.Lib.Frame
import StoredsBench.Rbtree.Correctness

namespace StoredsBench

open Lib Lib.RedBlack Lib.RedBlack.Tree Lib.SortedAssoc Rbtree

namespace Rbtree

variable {X : Type}

/-- What a write for a key leaves alone: the keys of all nodes, and the values of other keys. -/
def othersView (key : Key) (node : RbNode) : Key × Option ValueSlot :=
  (node.key, if node.key = key then none else some node.value)

theorem othersView_withChild (key : Key) (side : Side) (address : Ptr) (node : RbNode) :
    othersView key (node.withChild side address) = othersView key node := by
  cases side <;> rfl

section Framing

variable {key : Key} {rebalance : Side → Ptr → Ptr → Ptr → RbProg X Ptr}

theorem frames_setChild (side : Side) (child address : Ptr) :
    Frames (othersView key)
      (Prog.modify address fun node => .ok (node.withChild side child) : RbProg X Unit) := by
  apply Frames.modify
  intro node changed ran
  cases ran
  exact othersView_withChild key side child node

theorem frames_setParent (parent address : Ptr) :
    Frames (othersView key)
      (Prog.modify address fun node => .ok { node with parent := parent } : RbProg X Unit) := by
  apply Frames.modify
  intro node changed ran
  cases ran
  rfl

theorem frames_setColor (color : Color) (address : Ptr) :
    Frames (othersView key) (setColor color address : RbProg X Unit) := by
  apply Frames.modify
  intro node changed ran
  cases ran
  rfl

theorem frames_createNewNode (stored : Key) (value : Value) :
    Frames (othersView key) (createNewNode stored value : RbProg X Ptr) := Frames.malloc _

theorem frames_reparent (child parent : Ptr) :
    Frames (othersView key) (reparent child parent : RbProg X Unit) := by
  apply Frames.branch
  · exact fun _ => frames_setParent parent child
  · exact fun _ => Frames.pure ()

theorem frames_replaceChild (parent old new : Ptr) :
    Frames (othersView key) (replaceChild parent old new : RbProg X Unit) := by
  apply Frames.branch
  · exact fun _ => Frames.setRoot new
  · intro _
    apply Frames.bind (Frames.load parent)
    intro contents
    apply Frames.branch
    · exact fun _ => frames_setChild .left new parent
    · exact fun _ => frames_setChild .right new parent

theorem frames_rotate (side : Side) (ptr : Ptr) :
    Frames (othersView key) (rotate side ptr : RbProg X Unit) := by
  apply Frames.bind (Frames.load ptr)
  intro contents
  apply Frames.bind (Frames.load _)
  intro promoted
  apply Frames.bind (frames_setChild side.other _ ptr)
  intro _
  apply Frames.bind (frames_reparent _ ptr)
  intro _
  apply Frames.bind (Frames.load ptr)
  intro contents
  apply Frames.bind (frames_setParent contents.parent _)
  intro _
  apply Frames.bind (frames_replaceChild contents.parent ptr _)
  intro _
  apply Frames.bind (frames_setChild side ptr _)
  intro _
  exact frames_setParent _ ptr

theorem frames_attach (side : Side) (current : Ptr) (stored : Key) (value : Value) :
    Frames (othersView key) (attach side current stored value : RbProg X Ptr) := by
  apply Frames.bind (frames_createNewNode stored value)
  intro newNode
  apply Frames.bind (frames_setChild side newNode current)
  intro _
  apply Frames.bind (frames_setParent current newNode)
  intro _
  exact Frames.pure newNode

/-- Only the value of the key itself is overwritten. -/
theorem frames_overwrite {node : RbNode} {current : Ptr} (value : Value) {store after : Store RbNode X}
    {result : Unit} (live : store.heap.get? current = some node) (same : key = node.key)
    (ran : (Prog.modify current fun node => .ok { node with value := node.value.copyString value } :
      RbProg X Unit) store = .ok (result, after)) :
    ∀ ⦃address : Nat⦄ ⦃object : RbNode⦄, store.heap.get? address = some object →
      ∃ changed, after.heap.get? address = some changed ∧
        othersView key changed = othersView key object := by
  rw [Prog.modify_pure_ok _ live] at ran
  cases ran
  intro address object there
  rw [Heap.get?_set live]
  by_cases here : address = current
  · rw [if_pos here]
    rw [here, live, Option.some.injEq] at there
    subst there
    refine ⟨_, rfl, ?_⟩
    simp only [othersView, if_pos same.symm]
  · rw [if_neg here]
    exact ⟨object, there, rfl⟩

theorem frames_bstUpsert (value : Value) : ∀ (fuel : Nat) (current : Ptr),
    Frames (othersView key) (bstUpsert fuel current key value : RbProg X Ptr)
  | 0, _ => Frames.fault _
  | fuel + 1, current => by
      apply Frames.branch
      · exact fun _ => Frames.fault _
      · intro _ store after result ran address object there
        obtain ⟨contents, middle, loaded, ran⟩ := bind_ok_inv ran
        cases live : store.heap.get? current with
        | none => simp [Prog.load, live] at loaded
        | some node =>
            rw [Prog.load_ok live] at loaded
            cases loaded
            by_cases same : key = contents.key
            · rw [if_pos same] at ran
              obtain ⟨_, written, overwrote, ran⟩ := bind_ok_inv ran
              cases ran
              exact frames_overwrite value live same overwrote there
            · rw [if_neg same] at ran
              have descends : Frames (othersView key)
                  (if contents.child (if key < contents.key then Side.left else Side.right) = null then
                    attach (if key < contents.key then Side.left else Side.right) current key value
                  else bstUpsert fuel
                    (contents.child (if key < contents.key then Side.left else Side.right)) key value :
                    RbProg X Ptr) := by
                apply Frames.branch
                · exact fun _ => frames_attach _ current key value
                · exact fun _ => frames_bstUpsert value fuel _
              exact descends ran there

theorem frames_fixLoop (rebalances : ∀ side current parent grandparent,
      Frames (othersView key) (rebalance side current parent grandparent)) :
    ∀ (fuel : Nat) (current : Ptr),
      Frames (othersView key) (fixLoop rebalance fuel current : RbProg X Unit)
  | 0, _ => Frames.fault _
  | fuel + 1, current => by
      apply Frames.bind Frames.getRoot
      intro root
      apply Frames.branch
      · exact fun _ => Frames.pure ()
      · intro _
        apply Frames.bind (Frames.load current)
        intro contents
        apply Frames.branch
        · exact fun _ => Frames.pure ()
        · intro _
          apply Frames.bind (Frames.load contents.parent)
          intro parentContents
          apply Frames.branch
          · intro _
            apply Frames.bind (Frames.load parentContents.parent)
            intro grandparentContents
            apply Frames.bind (rebalances _ current contents.parent parentContents.parent)
            intro next
            exact frames_fixLoop rebalances fuel next
          · exact fun _ => Frames.pure ()

theorem frames_fixViolation (rebalances : ∀ side current parent grandparent,
      Frames (othersView key) (rebalance side current parent grandparent)) (current : Ptr) :
    Frames (othersView key) (fixViolation rebalance current : RbProg X Unit) := by
  apply Frames.bind Frames.heapSize
  intro bound
  apply Frames.bind (frames_fixLoop rebalances (bound + 1) current)
  intro _
  apply Frames.bind Frames.getRoot
  intro root
  exact frames_setColor .black root

/-- `insert` leaves all keys and the values of the other keys where they are. -/
theorem frames_insert (rebalances : ∀ side current parent grandparent,
      Frames (othersView key) (rebalance side current parent grandparent)) (value : Value) :
    Frames (othersView key) (insert rebalance key value : RbProg X Int) := by
  apply Frames.bind Frames.getRoot
  intro root
  apply Frames.branch
  · intro _
    apply Frames.bind (frames_createNewNode key value)
    intro root
    apply Frames.bind (Frames.setRoot root)
    intro _
    apply Frames.bind (frames_fixViolation rebalances root)
    intro _
    exact Frames.pure 1
  · intro _
    apply Frames.bind Frames.heapSize
    intro bound
    apply Frames.bind (frames_bstUpsert value bound root)
    intro newNode
    apply Frames.branch
    · exact fun _ => Frames.pure 1
    · intro _
      apply Frames.bind (frames_fixViolation rebalances newNode)
      intro _
      exact Frames.pure 1

end Framing

/-- Where each key of a tree is. -/
def places (tree : PtrTree) : List (Nat × Key) := tree.inorder.map fun pair => (pair.1, pair.2.1)

theorem places_grow {tree : PtrTree} (sorted : Sorted tree.entries) (pair : Key × Value) :
    places tree ⊆ places (grow tree pair) := by
  obtain ⟨front, back, _, _, ⟨old, new⟩ | ⟨label, value, old, new⟩⟩ :=
    inorder_upsert sorted (tree.labels.length + 1) pair.1 pair.2
  · rw [places, places, grow, old, new]
    exact (((List.sublist_cons_self _ back).append_left front).map _).subset
  · rw [places, places, grow, old, new, List.map_append, List.map_append, List.map_cons, List.map_cons]
    exact List.Subset.refl _

/-- A key has one place. -/
theorem places_unique {tree : PtrTree} (sorted : Sorted tree.entries) {first second : Nat} {key : Key}
    (firstPlace : (first, key) ∈ places tree) (secondPlace : (second, key) ∈ places tree) :
    first = second := by
  have distinct : (tree.inorder.map fun pair => pair.2.1).Nodup := by
    have ascending : (tree.entries.map Prod.fst).Nodup :=
      List.Pairwise.map _ (fun _ _ below => ne_of_lt below) sorted
    rwa [entries, List.map_map] at ascending
  exact label_unique distinct firstPlace secondPlace

/-- The node at the place of a key shows it. -/
theorem Rep.at_place {views : Nat → Option Shown} {tree : PtrTree} {parent : Nat}
    (rep : Rep views parent tree) {address : Nat} {key : Key} (place : (address, key) ∈ places tree) :
    ∃ shown, views address = some shown ∧ shown.entry.1 = key := by
  induction tree generalizing parent with
  | leaf => cases place
  | node color label entry left right leftFound rightFound =>
      obtain ⟨here, leftRep, rightRep⟩ := rep
      rw [places, inorder, List.map_append, List.map_cons] at place
      rcases List.mem_append.mp place with inLeft | place
      · exact leftFound leftRep inLeft
      · rcases List.mem_cons.mp place with same | inRight
        · cases same
          exact ⟨_, here, rfl⟩
        · exact rightFound rightRep inRight

end Rbtree

namespace RbtreeDramConcurrentMLock

/-- `RbtreeDramConcurrentMLock`: the calls of `RbtreeDram`, each in a critical section. -/
def shared : SharedBackend RbtreeDram where
  insert := fun key value state => (RbtreeDram.insert key value state).map Prod.snd
  update := fun key value state => (RbtreeDram.update key value state).map Prod.snd
  read := fun key state => (RbtreeDram.read key none state).map Prod.fst
  slot := fun state address => (state.heap.get? address).map RbNode.value

theorem frames_rebalance (key : Key) (side : Side) (current parent grandparent : Ptr) :
    Frames (othersView key) (RbtreeDram.rebalance side current parent grandparent) := by
  have isRed_frames : ∀ address, Frames (othersView key) (isRed address : RbtreeDram.M Bool) := by
    intro address
    apply Frames.branch
    · exact fun _ => Frames.pure false
    · exact fun _ => Frames.bind (Frames.load address) fun contents => Frames.pure _
  apply Frames.bind (Frames.load grandparent)
  intro grandparentContents
  apply Frames.bind (isRed_frames _)
  intro redUncle
  apply Frames.branch
  · intro _
    apply Frames.bind
    · apply Frames.bind (frames_setColor .red grandparent)
      intro _
      apply Frames.bind (frames_setColor .black parent)
      intro _
      exact frames_setColor .black _
    · intro _
      exact Frames.pure grandparent
  · intro _
    apply Frames.bind
    · apply Frames.bind (Frames.load parent)
      intro parentContents
      apply Frames.branch
      · intro _
        apply Frames.bind (frames_rotate side parent)
        intro _
        apply Frames.bind (Frames.load parent)
        intro contents
        exact Frames.pure contents.parent
      · exact fun _ => Frames.pure parent
    · intro parent
      apply Frames.bind (frames_rotate side.other grandparent)
      intro _
      apply Frames.bind
      · apply Frames.bind (Frames.load parent)
        intro parentContents
        apply Frames.bind (Frames.load grandparent)
        intro grandparentContents
        apply Frames.bind (frames_setColor _ parent)
        intro _
        exact frames_setColor _ grandparent
      · intro _
        exact Frames.pure parent

/-- The store holds a tree with a root, and the places are those of its nodes. -/
def Placed (store : RbtreeDram) (places : List (Ptr × Key)) : Prop :=
  ∃ tree, Stores store tree ∧ tree ≠ .leaf ∧ places = Rbtree.places tree

theorem root_ne_null {store : RbtreeDram} {tree : PtrTree} (stores : Stores store tree)
    (nonempty : tree ≠ .leaf) : store.root ≠ null := by
  have rooted : store.root = rootLabel tree := stores.holds.root
  rw [rooted]
  exact fun isNull => nonempty ((rootLabel_eq_null stores.holds.rep).mp isNull)

theorem read_place {store : RbtreeDram} {tree : PtrTree} (stores : Stores store tree)
    (nonempty : tree ≠ .leaf) (key : Key) :
    (∃ address, shared.read key store = .ok (some address) ∧ (address, key) ∈ Rbtree.places tree) ∨
      (shared.read key store = .ok none ∧ tree.entries.lookup key = none) := by
  have bound : tree.height < store.heap.size + 1 := by
    rw [stores.size]
    exact Nat.lt_succ_of_le (height_le_length tree)
  have rooted : store.root = rootLabel tree := stores.holds.root
  have readEq := RbtreeDram.read_eq key none (root_ne_null stores nonempty)
  rw [rooted] at readEq
  simp only [shared, readEq]
  rcases lookup_ok key none stores.holds.rep stores.sorted bound with
    ⟨label, shown, ran, _, member, _⟩ | ⟨ran, missing⟩
  · refine Or.inl ⟨label, by rw [ran]; rfl, ?_⟩
    exact List.mem_map.mpr ⟨_, member, rfl⟩
  · exact Or.inr ⟨by rw [ran]; rfl, missing⟩

/-- Nodes stay with their keys. -/
theorem keepsPointers : KeepsPointers shared Placed where
  unique := by
    rintro store _ first second key ⟨tree, stores, _, rfl⟩ firstPlace secondPlace
    exact places_unique stores.sorted firstPlace secondPlace
  read := by
    rintro store _ ⟨tree, stores, nonempty, rfl⟩ key
    exact (read_place stores nonempty key).imp_right And.left
  complete := by
    rintro store _ address key ⟨tree, stores, nonempty, rfl⟩ place ran
    rcases read_place stores nonempty key with ⟨found, foundRan, _⟩ | ⟨_, missing⟩
    · rw [ran] at foundRan
      cases foundRan
    · obtain ⟨pair, member, same⟩ := List.mem_map.mp place
      cases same
      have stored : (pair.2.1, pair.2.2) ∈ tree.entries := List.mem_map.mpr ⟨pair, member, rfl⟩
      rw [lookup_of_mem stores.sorted stored] at missing
      cases missing
  insert := by
    rintro store _ ⟨tree, stores, nonempty, rfl⟩ key value
    obtain ⟨next, ran, _, nextStores⟩ :=
      insert_refines RbtreeDram.serves.rebalances stores key value
    have ran : RbtreeDram.insert key value store = .ok (1, next) := ran
    refine ⟨next, _, ?_, ⟨_, nextStores, ?_, rfl⟩, places_grow stores.sorted (key, value), ?_⟩
    · simp only [shared, ran]
      rfl
    · intro empty
      have entriesEq := entries_grow stores.sorted (key, value)
      rw [empty] at entriesEq
      exact upsert_ne_nil key value tree.entries entriesEq.symm
    · intro address other place different
      obtain ⟨shown, viewed, keyEq⟩ := stores.holds.rep.at_place place
      obtain ⟨node, live, nodeViewed⟩ := exists_live viewed
      have nodeKey : node.key = other := (views_of_view nodeViewed).key.trans keyEq
      obtain ⟨changed, changedLive, same⟩ := frames_insert (frames_rebalance key) value ran live
      have unlike : node.key ≠ key := by rwa [nodeKey]
      simp only [othersView, if_neg unlike, Prod.mk.injEq] at same
      rw [same.1, if_neg unlike] at same
      simp only [shared, live, changedLive, Option.map_some]
      exact same.2
  update := by
    rintro store _ ⟨tree, stores, nonempty, _⟩ key value
    have checked : RbtreeDram.check store = .ok ((), store) := by
      rw [RbtreeDram.check, bind_ok (Prog.getRoot_ok store), if_neg (root_ne_null stores nonempty)]
      rfl
    simp only [shared, RbtreeDram.update]
    rw [bind_ok checked]

/-- The first insert. -/
theorem insert_first (key : Key) (value : Value) :
    ∃ next places, shared.insert key value RbtreeDram.init = .ok next ∧ Placed next places := by
  obtain ⟨next, ran, _, stores⟩ :=
    insert_refines RbtreeDram.serves.rebalances (stores_empty ()) key value
  have ran : RbtreeDram.insert key value RbtreeDram.init = .ok (1, next) := ran
  refine ⟨next, _, ?_, _, stores, ?_, rfl⟩
  · simp only [shared, ran]
    rfl
  · intro empty
    have entriesEq :=
      entries_grow (show Sorted (entries (.leaf : PtrTree)) from sorted_nil) (key, value)
    rw [empty] at entriesEq
    exact upsert_ne_nil key value [] entriesEq.symm

end RbtreeDramConcurrentMLock

end StoredsBench
