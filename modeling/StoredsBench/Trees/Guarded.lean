/-
Module: StoredsBench.Trees.Guarded
Layer: Refinement
Purpose: `split_node` is only called with a full child and a parent that has room.  `guarded` is a
  `split_node` that faults on any other call; `insert` runs the same with it, so no call violates
  the condition.
Trusted boundary: none
Main exports: guarded, insert_guarded
-/
import StoredsBench.Trees.Map

namespace StoredsBench.Lib.Prog

variable {N X α β : Type}

/-- Whatever `first` returns, `second` returns too. -/
def Within (first second : Prog N X α) : Prop :=
  ∀ store result, first store = .ok result → second store = .ok result

theorem Within.refl (program : Prog N X α) : Within program program := fun _ _ ran => ran

theorem Within.bind {first second : Prog N X α} {rest others : α → Prog N X β}
    (within : Within first second) (restWithin : ∀ value, Within (rest value) (others value)) :
    Within (first >>= rest) (second >>= others) := by
  intro store result ran
  obtain ⟨value, after, firstRan, restRan⟩ := bind_ok_inv ran
  rw [bind_ok (within store _ firstRan)]
  exact restWithin value after result restRan

theorem Within.ite {condition : Prop} [Decidable condition] {first second other : Prog N X α}
    {another : Prog N X α} (whenTrue : Within first second) (whenFalse : Within other another) :
    Within (if condition then first else other) (if condition then second else another) := by
  split
  · exact whenTrue
  · exact whenFalse

end StoredsBench.Lib.Prog

namespace StoredsBench.Trees

open Lib Lib.Multiway Lib.SortedAssoc Lib.Prog

variable {t : Nat} {X I : Type}

/-- `split_node`, provided the parent has room and the child is full. -/
def guarded (splitNode : Nat → Ptr → Ptr → TreeProg t X Unit) (index : Nat) (parent child : Ptr) :
    TreeProg t X Unit := do
  let parentContents ← Prog.load parent
  let childContents ← Prog.load child
  if parentContents.nk < 2 * t - 1 ∧ childContents.nk = 2 * t - 1 then splitNode index parent child
  else Prog.fault .assertion

theorem guarded_within (splitNode : Nat → Ptr → Ptr → TreeProg t X Unit) (index : Nat)
    (parent child : Ptr) : Within (guarded splitNode index parent child)
      (splitNode index parent child) := by
  intro store result ran
  obtain ⟨parentContents, _, parentRan, ran⟩ := bind_ok_inv ran
  obtain ⟨childContents, middle, childRan, ran⟩ := bind_ok_inv ran
  -- Loading leaves the store alone.
  have loaded : ∀ {address : Ptr} {before after : Store (Node t X) Unit} {node : Node t X},
      Prog.load address before = .ok (node, after) → after = before := by
    intro address before after node loadRan
    unfold Prog.load at loadRan
    split at loadRan <;> cases loadRan
    rfl
  rw [loaded childRan, loaded parentRan] at ran
  split at ran
  · exact ran
  · cases ran

theorem insertNotFull_within {first second : Nat → Ptr → Ptr → TreeProg t X Unit}
    (within : ∀ index parent child, Within (first index parent child) (second index parent child))
    (key : Key) (value : Value) : ∀ (fuel : Nat) (node : Ptr),
      Within (insertNotFull first fuel node key value) (insertNotFull second fuel node key value)
  | 0, _ => Within.refl _
  | fuel + 1, node => by
      have deeper := insertNotFull_within within key value fuel
      refine Within.bind (Within.refl _) fun contents => Within.ite (Within.refl _) ?_
      refine Within.bind (Within.refl _) fun index => Within.bind (Within.refl _) fun child => ?_
      refine Within.bind (Within.refl _) fun childContents => Within.ite ?_ (deeper child)
      refine Within.bind (within index node child) fun _ => Within.bind (Within.refl _) fun contents => ?_
      exact Within.bind (Within.refl _) fun separator => Within.bind (Within.refl _) deeper

theorem insert_within {first second : Nat → Ptr → Ptr → TreeProg t X Unit}
    (within : ∀ index parent child, Within (first index parent child) (second index parent child))
    (updateIfFound : Nat → Ptr → Key → Value → TreeProg t X Bool) (blank : X) (key : Key)
    (value : Value) :
    Within (insert first updateIfFound blank key value)
      (insert second updateIfFound blank key value) := by
  have deeper := insertNotFull_within within key value
  refine Within.bind (Within.refl _) fun root => Within.ite (Within.refl _) ?_
  refine Within.bind (Within.refl _) fun depthBound => Within.bind (Within.refl _) fun isUpdated => ?_
  refine Within.ite (Within.refl _) (Within.bind (Within.refl _) fun rootContents => Within.ite ?_ ?_)
  · refine Within.bind (Within.refl _) fun newRoot => Within.bind (Within.refl _) fun _ => ?_
    refine Within.bind (within 0 newRoot root) fun _ => Within.bind (Within.refl _) fun contents => ?_
    refine Within.bind (Within.refl _) fun separator => Within.bind (Within.refl _) fun child => ?_
    exact Within.bind (deeper depthBound child) fun _ => Within.refl _
  · exact Within.bind (deeper depthBound root) fun _ => Within.refl _

variable {kind : Kind t I} {chain : LeafChain X}

theorem guarded_refines {splitNode : Nat → Ptr → Ptr → TreeProg t X Unit}
    (splits : SplitRefines kind chain splitNode) : SplitRefines kind chain (guarded splitNode) := by
  intro depth low name store front back before after left right child lower upper separator holds
    leftAligned rightAligned room shape full splitEq
  obtain ⟨parentNode, parentLive, parentShows⟩ := holds.rep.root
  have parentLive : store.heap.get? name = some parentNode := parentLive
  obtain ⟨childNode, childLive, childShows⟩ := (holds.rep.2 child (by simp)).root
  have parentRoom : parentNode.nk < 2 * t - 1 := by
    have nk : parentNode.nk = (before ++ after).length := parentShows.2.1
    rw [nk, ← kind.maxKeys_eq]
    exact room
  have childFull : childNode.nk = 2 * t - 1 := by
    have nk : childNode.nk = width child := childShows.nk
    rw [nk, full, kind.maxKeys_eq]
  rw [guarded, bind_ok (Prog.load_ok parentLive), bind_ok (Prog.load_ok childLive),
    if_pos ⟨parentRoom, childFull⟩]
  exact splits holds leftAligned rightAligned room shape full splitEq

section Guarding

variable {splitNode : Nat → Ptr → Ptr → TreeProg t X Unit}
  {search : Nat → Ptr → Key → TreeProg t X (Option SlotRef)}
  {updateIfFound : Nat → Ptr → Key → Value → TreeProg t X Bool} {blank : X}
  {store : Store (Node t X) Unit}

theorem Implements.guarded
    (implements : Implements kind chain splitNode search updateIfFound blank) :
    Implements kind chain (guarded splitNode) search updateIfFound blank :=
  { implements with splits := guarded_refines implements.splits }

/-- Every insert into a store with a root runs the same when `split_node` is guarded. -/
theorem insert_guarded (implements : Implements kind chain splitNode search updateIfFound blank)
    {entries : List (Key × Value)} (shows : ShowsMap kind chain store entries) (key : Key)
    (value : Value) :
    ∃ next, insert (Trees.guarded splitNode) updateIfFound blank key value store = .ok (1, next) ∧
      insert splitNode updateIfFound blank key value store = .ok (1, next) := by
  obtain ⟨next, ran, _⟩ := insert_refines implements.guarded shows key value
  exact ⟨next, ran, insert_within (guarded_within splitNode) updateIfFound blank key value store _ ran⟩

/-- So does the first insert. -/
theorem insert_empty_guarded
    (implements : Implements kind chain splitNode search updateIfFound blank)
    (empty : store.root = null) (key : Key) (value : Value) :
    ∃ next, insert (Trees.guarded splitNode) updateIfFound blank key value store = .ok (1, next) ∧
      insert splitNode updateIfFound blank key value store = .ok (1, next) := by
  obtain ⟨next, ran, _⟩ := insert_empty implements.guarded empty key value
  exact ⟨next, ran, insert_within (guarded_within splitNode) updateIfFound blank key value store _ ran⟩

end Guarding

end StoredsBench.Trees
