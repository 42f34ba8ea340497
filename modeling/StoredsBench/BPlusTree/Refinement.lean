/-
Module: StoredsBench.BPlusTree.Refinement
Layer: Refinement
Purpose: `split_node`, `search` and `update_if_found` of `BPlusTreeDram` do on the heap what a B+-tree
  of minimum degree 9 does, and a leaf split keeps the leaves doubly linked in order.
Trusted boundary: none
Main exports: BPlusTreeDram.kind, BPlusTreeDram.chain, BPlusTreeDram.implements
-/
import StoredsBench.BPlusTree.Dram
import StoredsBench.Lib.LinkedList
import StoredsBench.Lib.Multiway.Schemes
import StoredsBench.Trees.Map

namespace StoredsBench.BPlusTreeDram

open Lib Lib.Multiway Trees

/-- Inner nodes store keys; the values of their entries mean nothing. -/
def kind : Kind BPLUSTREE_MIN_DEGREE Key where
  scheme := bplus BPLUSTREE_MIN_DEGREE Prod.fst
  viewItem := fun entry => some entry.key
  minDegree_eq := rfl
  lawful := bplus_lawful Prod.fst (by decide)
  entryKey_eq := rfl
  viewItem_key := fun _ _ viewed => Option.some.inj viewed
  setItem := fun _ item => item
  viewItem_copy := fun _ _ _ viewed => viewed
  itemKey_set := fun _ _ => rfl
  carries_set := fun _ _ _ stored => by cases stored

def nextOf (links : Nat → Option Links) (address : Nat) : Option Nat :=
  (links address).map Links.next

def previousOf (links : Nat → Option Links) (address : Nat) : Option Nat :=
  (links address).map Links.previous

/-- The leaves are pairwise distinct and doubly linked from left to right. -/
def chain : LeafChain Links where
  holds := fun links leaves => leaves.Nodup ∧ Chain (nextOf links) (previousOf links) null leaves
  stable := by
    intro links after leaves kept holds
    have same : ∀ address ∈ leaves, after address = links address := by
      intro address member
      obtain ⟨other, found⟩ := holds.2.exists_previous address member
      obtain ⟨value, linked, _⟩ := Option.map_eq_some_iff.mp found
      rw [linked]
      exact kept address value linked
    exact ⟨holds.1, holds.2.congr (fun address member => by rw [nextOf, same address member, nextOf])
      fun address member => by rw [previousOf, same address member, previousOf]⟩

/-! ### Linking a new leaf in -/

theorem exists_live {heap : Heap (Node BPLUSTREE_MIN_DEGREE Links)} {address : Nat} {links : Links}
    (found : linksAt heap address = some links) :
    ∃ node, heap.get? address = some node ∧ node.links = links :=
  Option.map_eq_some_iff.mp found

/-- Changing the chain pointers of one node changes nothing else. -/
theorem relink_ok (change : Links → Links) {store : BPlusTreeDram} {address : Nat} {links : Links}
    (found : linksAt store.heap address = some links) :
    ∃ next, Prog.modify address (fun node => .ok { node with links := change node.links }) store =
        .ok ((), next) ∧ next.root = store.root ∧ next.heap.size = store.heap.size ∧
      (∀ other, bodyAt next.heap other = bodyAt store.heap other) ∧
      ∀ other, linksAt next.heap other =
        if other = address then some (change links) else linksAt store.heap other := by
  obtain ⟨node, live, rfl⟩ := exists_live found
  refine ⟨_, Prog.modify_pure_ok _ live, rfl, Heap.size_set _ _ _, fun other => ?_, fun other => ?_⟩
  · simp only [bodyAt_set live]
    split
    · rename_i same
      rw [same, bodyAt, live]
      rfl
    · rfl
  · simp only [linksAt, Heap.get?_set live]
    split <;> rfl

/-- The last two writes, once the sibling and the leaf behind it point to each other. -/
theorem linkChild_ok (blank : Links) {store : BPlusTreeDram} {child sibling : Nat}
    {front back : List Nat} {links : Nat → Option Links}
    (holds : chain.holds links (front ++ child :: back)) (new : sibling ∉ front ++ child :: back)
    (linked : ∀ other, linksAt store.heap other =
      if other = sibling then some { blank with next := back.headD null }
      else if back.head? = some other then
        (links other).map fun old => { old with previous := sibling }
      else links other) :
    ∃ next, (do
        Prog.modify child fun node =>
          .ok { node with links := { node.links with next := sibling } }
        Prog.modify sibling fun node =>
          .ok { node with links := { node.links with previous := child } } : M Unit) store =
        .ok ((), next) ∧ next.root = store.root ∧ next.heap.size = store.heap.size ∧
      (∀ other, bodyAt next.heap other = bodyAt store.heap other) ∧
      chain.holds (linksAt next.heap) (front ++ child :: sibling :: back) := by
  obtain ⟨nodup, chained⟩ := holds
  obtain ⟨_, childBack, apart⟩ := List.nodup_append.mp nodup
  have childNotBehind : child ∉ back := (List.nodup_cons.mp childBack).1
  have different : child ≠ sibling := fun same => new (by simp [same])
  have notHead : back.head? ≠ some child := fun head => childNotBehind (List.mem_of_head? head)
  obtain ⟨childLinks, childFound, _⟩ := Option.map_eq_some_iff.mp chained.next_of_split
  obtain ⟨first, firstRan, firstRoot, firstSize, firstBody, firstLinks⟩ :=
    relink_ok (fun old => { old with next := sibling })
      ((linked child).trans (by rw [if_neg different, if_neg notHead, childFound]))
  obtain ⟨next, ran, root, size, body, nextLinks⟩ :=
    relink_ok (fun old => { old with previous := child })
      ((firstLinks sibling).trans (by
        rw [if_neg different.symm, linked, if_pos rfl]))
  refine ⟨next, by rw [bind_ok firstRan, ran], root.trans firstRoot, size.trans firstSize,
    fun other => (body other).trans (firstBody other), ?_, ?_⟩
  · have moved : (front ++ [child] ++ sibling :: back).Perm _ := List.perm_middle
    refine List.Perm.nodup_iff (by simpa using moved) |>.mpr (List.nodup_cons.mpr ⟨?_, nodup⟩)
    simpa using new
  have outside : ∀ other ∈ front ++ child :: back, other ≠ sibling := fun other member same =>
    new (same ▸ member)
  refine Chain.insertAfter ?_ ?_ ?_ ?_ chained ?_ ?_
  · simp [nextOf, nextLinks, firstLinks, different]
  · simp [nextOf, nextLinks]
  · simp [previousOf, nextLinks]
  · intro head headEq
    have headMember : head ∈ back := List.mem_of_head? headEq
    have notSibling := outside head (by simp [headMember])
    have notChild : head ≠ child := fun same => childNotBehind (same ▸ headMember)
    obtain ⟨other, found⟩ := chained.exists_previous head (by simp [headMember])
    obtain ⟨headLinks, headFound, _⟩ := Option.map_eq_some_iff.mp found
    simp [previousOf, nextLinks, firstLinks, linked, notSibling, notChild, headEq, headFound]
  · intro other member
    have notSibling := outside other (by
      simp only [List.mem_append, List.mem_cons] at member ⊢
      tauto)
    have notChild : other ≠ child := by
      rintro rfl
      rcases List.mem_append.mp member with inFront | inBack
      · exact apart other inFront other (by simp) rfl
      · exact childNotBehind inBack
    simp only [nextOf, nextLinks, firstLinks, linked, if_neg notSibling, if_neg notChild]
    split
    · cases links other <;> rfl
    · rfl
  · intro other member
    have inList : other ∈ front ++ child :: back := by
      simp only [List.mem_append, List.mem_cons] at member ⊢
      exact member.imp_right fun rest => rest.imp_right List.mem_of_mem_tail
    have notSibling := outside other inList
    have notHeadHere : back.head? ≠ some other := by
      intro headEq
      cases back with
      | nil => cases headEq
      | cons head rest =>
          obtain rfl : head = other := Option.some.inj headEq
          simp only [List.tail_cons, List.mem_append, List.mem_cons] at member
          rcases member with inFront | rfl | inRest
          · exact apart head inFront head (by simp) rfl
          · exact childNotBehind (by simp)
          · exact (List.nodup_cons.mp (List.nodup_cons.mp childBack).2).1 inRest
    by_cases isChild : other = child
    · simp [previousOf, nextLinks, firstLinks, isChild, different, childFound]
    · simp [previousOf, nextLinks, firstLinks, linked, notSibling, isChild, notHeadHere]

/-- `linkSibling` links the sibling in behind the child. -/
theorem linkSibling_ok {store : BPlusTreeDram} {child sibling : Nat} {blank : Links}
    {front back : List Nat} (holds : chain.holds (linksAt store.heap) (front ++ child :: back))
    (new : sibling ∉ front ++ child :: back)
    (siblingLinks : linksAt store.heap sibling = some blank) :
    ∃ next, linkSibling child sibling store = .ok ((), next) ∧ next.root = store.root ∧
      next.heap.size = store.heap.size ∧
      (∀ other, bodyAt next.heap other = bodyAt store.heap other) ∧
      chain.holds (linksAt next.heap) (front ++ child :: sibling :: back) := by
  obtain ⟨childLinks, childFound, childNext⟩ := Option.map_eq_some_iff.mp holds.2.next_of_split
  obtain ⟨childNode, childLive, rfl⟩ := exists_live childFound
  obtain ⟨first, firstRan, firstRoot, firstSize, firstBody, firstLinks⟩ :=
    relink_ok (fun old => { old with next := childNode.links.next }) siblingLinks
  simp only [childNext] at firstLinks
  obtain ⟨siblingNode, siblingLive, siblingNodeLinks⟩ :=
    exists_live ((firstLinks sibling).trans (if_pos rfl))
  have siblingNext : siblingNode.links.next = back.headD null := by
    rw [siblingNodeLinks]
  rw [linkSibling, bind_ok (Prog.load_ok childLive), bind_ok firstRan,
    bind_ok (Prog.load_ok siblingLive), siblingNext]
  cases back with
  | nil =>
      obtain ⟨next, ran, root, size, body, linked⟩ :=
        linkChild_ok blank holds new fun other => (firstLinks other).trans (by simp)
      refine ⟨next, ?_, root.trans firstRoot, size.trans firstSize,
        fun other => (body other).trans (firstBody other), linked⟩
      rw [if_neg (fun different => different rfl)]
      exact ran
  | cons head rest =>
      obtain ⟨other, found⟩ := holds.2.exists_previous head (by simp)
      obtain ⟨headLinks, headFound, _⟩ := Option.map_eq_some_iff.mp found
      obtain ⟨headNode, headLive, _⟩ := exists_live headFound
      have notSibling : head ≠ sibling := fun same => new (by simp [same])
      obtain ⟨second, secondRan, secondRoot, secondSize, secondBody, secondLinks⟩ :=
        relink_ok (fun old => { old with previous := sibling })
          ((firstLinks head).trans ((if_neg notSibling).trans headFound))
      obtain ⟨next, ran, root, size, body, linked⟩ :=
        linkChild_ok blank holds new fun other => (secondLinks other).trans (by
          by_cases isHead : other = head
          · simp [isHead, notSibling, headFound]
          · by_cases isSibling : other = sibling
            · simp [isSibling, notSibling.symm, firstLinks]
            · simp [isHead, isSibling, firstLinks, Ne.symm isHead])
      refine ⟨next, ?_, root.trans (secondRoot.trans firstRoot),
        size.trans (secondSize.trans firstSize), fun other =>
        (body other).trans ((secondBody other).trans (firstBody other)), linked⟩
      rw [if_pos (show (head :: rest).headD null ≠ null from Heap.ne_null_of_get? headLive)]
      show (Prog.modify head _ >>= _) first = _
      rw [bind_ok secondRan]
      exact ran

/-! ### Splitting a leaf -/

/-- `setKey` puts an entry with that key into the slot. -/
theorem setKey_ok {capacity : Nat} (entries : CArray Entry capacity) {index : Nat}
    (inside : index < capacity) (key : Key) :
    ∃ entry, setKey entries index key = .ok (entries.put index entry) ∧ entry.key = key := by
  unfold setKey
  cases entries.at? index with
  | none => exact ⟨_, CArray.set_ok inside _ _, rfl⟩
  | some entry => exact ⟨_, CArray.set_ok inside _ _, rfl⟩

/-- `splitLeafNode` up to the linking runs when its loops do. -/
theorem splitLeafNode_ok {index child parent : Nat} {store : BPlusTreeDram}
    {childNode parentNode grown : Node BPLUSTREE_MIN_DEGREE Links}
    {entries : CArray Entry (2 * BPLUSTREE_MIN_DEGREE - 1)} {first : Entry}
    (childLive : store.heap.get? child = some childNode)
    (parentLive : store.heap.get? parent = some parentNode) (different : parent ≠ child)
    (entriesRan : CArray.copyFrom childNode.entries (BPLUSTREE_MIN_DEGREE - 1) BPLUSTREE_MIN_DEGREE
      (CArray.unwritten _ _) = .ok entries)
    (firstRead : entries.get 0 = .ok first)
    (graftRan : graft index (store.heap.size + 1) (fun slots => setKey slots index first.key)
      parentNode = .ok grown) :
    splitLeafNode index parent child store =
      linkSibling child (store.heap.size + 1)
        { store with
          heap := regraft store.heap child parent
            { childNode with
              nk := BPLUSTREE_MIN_DEGREE, entries := entries, children := CArray.unwritten _ _,
              links := Links.null }
            { childNode with nk := BPLUSTREE_MIN_DEGREE - 1 } grown } := by
  have childOld := Heap.ne_fresh_of_get? childLive
  have parentOld := Heap.ne_fresh_of_get? parentLive
  have pushed : ∀ node : Node BPLUSTREE_MIN_DEGREE Links,
      (store.heap.push node).get? (store.heap.size + 1) = some node :=
    fun node => by rw [Heap.get?_push, if_pos rfl]
  have childKept : ∀ node : Node BPLUSTREE_MIN_DEGREE Links,
      (store.heap.push node).get? child = some childNode :=
    fun node => by rw [Heap.get?_push, if_neg childOld, childLive]
  have siblingKept : ∀ node cut : Node BPLUSTREE_MIN_DEGREE Links,
      ((store.heap.push node).set child cut).get? (store.heap.size + 1) = some node :=
    fun node cut => by rw [Heap.get?_set (childKept node), if_neg childOld.symm, pushed]
  have parentKept : ∀ node cut : Node BPLUSTREE_MIN_DEGREE Links,
      ((store.heap.push node).set child cut).get? parent = some parentNode :=
    fun node cut => by
      rw [Heap.get?_set (childKept node), if_neg different, Heap.get?_push, if_neg parentOld,
        parentLive]
  rw [splitLeafNode, bind_ok (Prog.load_ok childLive), createNode,
    bind_ok (Prog.malloc_ok _ store),
    bind_ok (Prog.modify_ok (pushed _) (show _ = Except.ok { childNode with
      nk := BPLUSTREE_MIN_DEGREE, entries := entries, children := CArray.unwritten _ _,
      links := Links.null } by
      simp only [entriesRan, bind, Except.bind]
      rfl))]
  simp only [Heap.push_set]
  rw [bind_ok (Prog.modify_pure_ok _ (childKept _)), bind_ok (Prog.load_ok (siblingKept _ _)),
    bind_ok (Prog.modify_ok (parentKept _ _) (by
      simp only [firstRead, bind, Except.bind]
      exact graftRan))]
  rfl

/-- The leaf case of `split_node` does to the heap what `split` does to the tree, and links the new
leaf in behind the old one. -/
theorem splitLeafNode_refines {store : BPlusTreeDram} {front back : List Nat} {name : Nat}
    {before after : List Key} {left right : List (PtrTree Key 0)} {child lower upper : PtrTree Key 0}
    {separator : Key}
    (holds : Holds kind chain store front back
      (mkNode name (before ++ after) (left ++ child :: right)))
    (leftAligned : left.length = before.length) (rightAligned : right.length = after.length)
    (room : (before ++ after).length < kind.scheme.maxKeys)
    (full : width child = kind.scheme.maxKeys)
    (splitEq : split kind.scheme (store.heap.size + 1) child = some (lower, separator, upper)) :
    ∃ next, splitLeafNode before.length name (label child) store = .ok ((), next) ∧
      Holds kind chain next front back
        (mkNode name (before ++ separator :: after) (left ++ lower :: upper :: right)) ∧
      Step store next (mkNode name (before ++ after) (left ++ child :: right))
        (mkNode name (before ++ separator :: after) (left ++ lower :: upper :: right)) := by
  obtain ⟨lowerLabel, upperLabel, _⟩ := split_labels splitEq
  have leafLabelsEq := split_leafLabels splitEq
  have splitCopy := splitEq
  have entriesFull : child.entries.length = 2 * BPLUSTREE_MIN_DEGREE - 1 := by
    rw [← kind.maxKeys_eq]
    exact full
  obtain ⟨first, rest, dropped, whole, restLength⟩ := exists_middle kind.degree entriesFull
  have cutEq : kind.scheme.splitLeaf child.entries =
      some (child.entries.take (BPLUSTREE_MIN_DEGREE - 1), first.1, first :: rest) := by
    simp only [kind, bplus, dropped]
  simp only [split, cutEq, Option.map_some, Option.some.injEq, Prod.mk.injEq] at splitEq
  obtain ⟨lowerEq, rfl, upperEq⟩ := splitEq
  obtain ⟨parentNode, parentLive, parentShows⟩ := holds.rep.root
  have parentLive : store.heap.get? name = some parentNode := parentLive
  obtain ⟨childNode, childLive, isLeaf, nk, shown⟩ := (holds.rep.2 child (by simp)).root
  have different := holds.parent_ne_child
  obtain ⟨copied, entriesRan, copiedShown⟩ :=
    CArray.copyFrom_prefix shown (CArray.unwritten Entry (2 * BPLUSTREE_MIN_DEGREE - 1))
      (show BPLUSTREE_MIN_DEGREE - 1 + BPLUSTREE_MIN_DEGREE ≤ _ by
        rw [entriesFull]
        decide)
  rw [dropped, List.take_of_length_le (by rw [List.length_cons, restLength]; decide)] at copiedShown
  obtain ⟨firstEntry, firstWritten, firstViewed⟩ := copiedShown 0 first rfl
  have capacity : before.length < 2 * BPLUSTREE_MIN_DEGREE - 1 := by
    rw [← kind.maxKeys_eq]
    simp only [List.length_append] at room
    omega
  obtain ⟨grown, graftRan, grownLinks, grownShows⟩ :
      ∃ grown, graft before.length (label upper)
          (fun slots => setKey slots before.length firstEntry.key) parentNode = .ok grown ∧
        grown.links = parentNode.links ∧ Shows kind grown.body
          (mkNode name (before ++ first.1 :: after) (left ++ lower :: upper :: right)) := by
    refine graft_ok kind _ parentShows leftAligned rightAligned room lowerLabel fun slots => ?_
    obtain ⟨entry, ran, entryKey⟩ := setKey_ok slots capacity firstEntry.key
    refine ⟨entry, ran, ?_⟩
    show some entry.key = some first.1
    rw [entryKey, viewEntry_key firstViewed]
  rw [upperLabel] at graftRan
  have started := splitLeafNode_ok childLive parentLive different entriesRan
    (CArray.get_ok firstWritten) graftRan
  obtain ⟨sibling, siblingEq⟩ : ∃ sibling : Node BPLUSTREE_MIN_DEGREE Links, sibling =
      { childNode with
        nk := BPLUSTREE_MIN_DEGREE, entries := copied, children := CArray.unwritten _ _,
        links := Links.null } := ⟨_, rfl⟩
  rw [← siblingEq] at started
  have found := get?_regraft sibling { childNode with nk := BPLUSTREE_MIN_DEGREE - 1 } grown
    childLive parentLive
  -- The chain as seen from the leaf that was split.
  have listEq : front ++ (leafLabels (mkNode name (before ++ after) (left ++ child :: right)) ++ back) =
      (front ++ left.flatMap leafLabels) ++ label child :: (right.flatMap leafLabels ++ back) := by
    rw [leafLabels_mkNode]
    simp [leafLabels, leaves, label]
  have chained := chain.stable (fun address value old =>
    linksAt_regraft sibling { childNode with nk := BPLUSTREE_MIN_DEGREE - 1 } grown childLive
      parentLive rfl grownLinks old) holds.chained
  rw [listEq] at chained
  have new : store.heap.size + 1 ∉
      (front ++ left.flatMap leafLabels) ++ label child :: (right.flatMap leafLabels ++ back) := by
    intro member
    have linked := holds.chained
    rw [listEq] at linked
    obtain ⟨other, previous⟩ := linked.2.exists_previous _ member
    obtain ⟨links, linksFound, _⟩ := Option.map_eq_some_iff.mp previous
    obtain ⟨node, live, _⟩ := exists_live linksFound
    exact Heap.ne_fresh_of_get? live rfl
  have siblingLinks : linksAt (regraft store.heap (label child) name sibling
      { childNode with nk := BPLUSTREE_MIN_DEGREE - 1 } grown) (store.heap.size + 1) =
        some Links.null := by
    rw [linksAt, found, if_neg (Heap.ne_fresh_of_get? parentLive).symm,
      if_neg (Heap.ne_fresh_of_get? childLive).symm, if_pos rfl, siblingEq]
    rfl
  obtain ⟨middle, middleEq⟩ : ∃ middle : BPlusTreeDram, middle = { store with
      heap := regraft store.heap (label child) name sibling
        { childNode with nk := BPLUSTREE_MIN_DEGREE - 1 } grown } := ⟨_, rfl⟩
  have middleHeap : middle.heap = regraft store.heap (label child) name sibling
      { childNode with nk := BPLUSTREE_MIN_DEGREE - 1 } grown := by rw [middleEq]
  have middleRoot : middle.root = store.root := by rw [middleEq]
  rw [← middleEq] at started
  rw [← middleHeap] at found chained siblingLinks
  obtain ⟨next, linkRan, root, size, body, linked⟩ := linkSibling_ok chained new siblingLinks
  have bodies : ∀ address, bodyAt next.heap address = Option.map Node.body
      (if address = name then some grown
        else if address = label child then some { childNode with nk := BPLUSTREE_MIN_DEGREE - 1 }
        else if address = store.heap.size + 1 then some sibling
        else store.heap.get? address) :=
    fun address => (body address).trans (congrArg (Option.map Node.body) (found address))
  refine ⟨next, started.trans linkRan, holds.split splitCopy (root.trans middleRoot)
    (size.trans (by rw [middleHeap, size_regraft])) ⟨grown.body, ?_, grownShows⟩
    ⟨{ childNode with nk := BPLUSTREE_MIN_DEGREE - 1 }.body, ?_, ?_⟩
    ⟨sibling.body, ?_, ?_⟩ ?_ ?_⟩
  · rw [bodies]
    simp [label]
  · rw [bodies, lowerLabel, if_neg different.symm, if_pos rfl]
    rfl
  · subst lowerEq
    refine ⟨isLeaf, ?_, shown.take _⟩
    show BPLUSTREE_MIN_DEGREE - 1 = (child.entries.take (BPLUSTREE_MIN_DEGREE - 1)).length
    rw [List.length_take, entriesFull]
    decide
  · rw [bodies, upperLabel, if_neg (Heap.ne_fresh_of_get? parentLive).symm,
      if_neg (Heap.ne_fresh_of_get? childLive).symm, if_pos rfl]
    rfl
  · subst siblingEq upperEq
    refine ⟨isLeaf, ?_, copiedShown⟩
    show BPLUSTREE_MIN_DEGREE = (first :: rest).length
    rw [List.length_cons, restLength]
    decide
  · intro address bound notParent notChild
    rw [bodies, if_neg notParent, if_neg notChild, if_neg (Nat.ne_of_lt (Nat.lt_succ_of_le bound))]
    rfl
  · have leaves : front ++ (leafLabels (mkNode name (before ++ first.1 :: after)
          (left ++ lower :: upper :: right)) ++ back) =
        (front ++ left.flatMap leafLabels) ++ label child :: (store.heap.size + 1) ::
          (right.flatMap leafLabels ++ back) := by
      rw [leafLabels_mkNode, List.flatMap_cons, ← List.append_assoc (leafLabels lower), leafLabelsEq,
        if_pos rfl]
      simp [leafLabels, Multiway.leaves, label]
    rw [leaves]
    exact linked

/-- `split_node` does to the heap what `split` does to the tree. -/
theorem splitNode_refines : SplitRefines kind chain splitNode := by
  intro depth low name store front back before after left right child lower upper separator holds
    leftAligned rightAligned room shape full splitEq
  obtain ⟨childNode, childLive, childShows⟩ := (holds.rep.2 child (by simp)).root
  have isLeaf : childNode.isLeaf = decide (depth = 0) := childShows.isLeaf
  rw [splitNode, bind_ok (Prog.load_ok childLive), isLeaf]
  cases depth with
  | zero => exact splitLeafNode_refines holds leftAligned rightAligned room full splitEq
  | succ depth =>
      refine splitMiddle_refines true Links.null holds leftAligned rightAligned room splitEq
        (fun node shows => cutsMiddle_inner shows shape full splitEq) fun heap kept => ?_
      have sameLeaves : leafLabels (mkNode name (before ++ separator :: after)
          (left ++ lower :: upper :: right)) =
            leafLabels (mkNode name (before ++ after) (left ++ child :: right)) := by
        rw [leafLabels_mkNode, leafLabels_mkNode, List.flatMap_cons,
          ← List.append_assoc (leafLabels lower), split_leafLabels splitEq,
          if_neg (Nat.succ_ne_zero depth)]
      rw [sameLeaves]
      exact chain.stable kept holds.chained

/-! ### Searching -/

/-- The child a lookup descends into: right of a separator that equals the key. -/
theorem descend_right {node : Node BPLUSTREE_MIN_DEGREE Links} {depth low : Nat}
    {tree : PtrTree Key (depth + 1)} (shows : Shows kind node.body tree)
    (shape : Shape kind.scheme low tree) (ordered : Ordered kind.scheme (trace tree)) (key : Key) :
    ∃ index found before after, lowerIndexOf node key = .ok index ∧
      keyMatches node index key = .ok found ∧ tree.items = before ++ after ∧
      before.length = (if found then index + 1 else index) ∧
      (∀ item ∈ before, position kind.scheme (.inl item) < toLex (key, true)) ∧
      ∀ item ∈ after, toLex (key, true) < position kind.scheme (.inl item) := by
  obtain ⟨before, after, found, itemsEq, scanned, tested, below, cases⟩ :=
    shows.probe shape ordered key
  rcases cases with ⟨rfl, hit, rest, rfl, hitKey, above⟩ | ⟨rfl, above⟩
  · have hitBelow : position kind.scheme (.inl hit) < toLex (key, true) := by
      rw [position, hitKey]
      exact Prod.Lex.toLex_lt_toLex.mpr (Or.inr ⟨rfl, Bool.false_lt_true⟩)
    refine ⟨before.length, true, before ++ [hit], rest, scanned, tested, by simp [itemsEq],
      by simp, fun item member => ?_, fun item member => lt_position_item (above item member)⟩
    rcases List.mem_append.mp member with early | here
    · exact position_item_lt (below item early)
    · rw [List.mem_singleton.mp here]
      exact hitBelow
  · exact ⟨before.length, false, before, after, scanned, tested, itemsEq, rfl,
      fun item member => position_item_lt (below item member),
      fun item member => lt_position_item (above item member)⟩

/-- `search` finds the entry of the key in the leaf that stores it. -/
theorem search_ok (key : Key) : ∀ {depth fuel low : Nat} {tree : PtrTree Key depth}
    {store : BPlusTreeDram}, depth < fuel → Rep kind store.heap tree → (labels tree).Nodup →
    Shape kind.scheme low tree → Ordered kind.scheme (trace tree) →
    ∃ result, search fuel (label tree) key store = .ok (result, store) ∧
      Answers kind store.heap tree key result
  | 0, fuel + 1, low, leaf, store, _, rep, nodup, shape, ordered => by
      obtain ⟨node, live, shows⟩ := rep.root
      have isLeaf : node.isLeaf = true := shows.1
      obtain ⟨index, found, scanned, tested, answers⟩ := Answers.leaf live shows ordered
      refine ⟨_, ?_, answers⟩
      rw [search, bind_ok (Prog.load_ok live), bind_ok (Prog.lift_ok scanned store),
        bind_ok (Prog.lift_ok tested store), isLeaf]
      cases found <;> rfl
  | depth + 1, fuel + 1, low, tree, store, bound, rep, nodup, shape, ordered => by
      obtain ⟨node, live, shows⟩ := rep.root
      have isLeaf : node.isLeaf = false := shows.1
      obtain ⟨index, found, before, after, scanned, tested, itemsEq, chosen, below, above⟩ :=
        descend_right shows shape ordered key
      obtain ⟨left, child, right, childrenEq, leftAligned, rightAligned⟩ := shape.child_at itemsEq
      obtain ⟨name, items, children⟩ := tree
      simp only at itemsEq childrenEq
      subst itemsEq childrenEq
      have childMember : child ∈ left ++ child :: right := by simp
      obtain ⟨result, ran, answers⟩ :=
        search_ok key (by omega : depth < fuel) (rep.2 child childMember) (nodup_child nodup)
          (shape.2.2 child childMember) (ordered_child leftAligned ordered)
      refine ⟨result, ?_, answers.lift nodup ordered leftAligned rightAligned below above⟩
      rw [search, bind_ok (Prog.load_ok live), bind_ok (Prog.lift_ok scanned store),
        bind_ok (Prog.lift_ok tested store), isLeaf]
      simp only [Bool.false_eq_true, if_false]
      rw [bind_ok (Prog.lift_ok (child_pointer shows (leftAligned.trans chosen)) store), ran]

/-- `update_if_found` descends exactly as `search` does and overwrites what it finds. -/
theorem updateIfFound_eq (key : Key) (value : Value) : ∀ (fuel : Nat) (current : Ptr),
    updateIfFound fuel current key value = search fuel current key >>= overwriteFound value
  | 0, _ => rfl
  | fuel + 1, current => by
      rw [updateIfFound, search, bind_assoc]
      refine bind_congr fun contents => ?_
      rw [bind_assoc]
      refine bind_congr fun index => ?_
      rw [bind_assoc]
      refine bind_congr fun found => ?_
      split
      · cases found <;> rfl
      · rw [bind_assoc]
        exact bind_congr fun child => updateIfFound_eq key value fuel child

theorem implements : Implements kind chain splitNode search updateIfFound Links.null where
  splits := splitNode_refines
  searches := fun key bound rep nodup shape ordered => search_ok key bound rep nodup shape ordered
  updates := fun fuel current key value => updateIfFound_eq key value fuel current
  single := fun links address found =>
    ⟨by simp, by simp [previousOf, found, Links.null],
      by simp [nextOf, found, Links.null], trivial⟩

end StoredsBench.BPlusTreeDram
