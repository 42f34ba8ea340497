/-
Module: StoredsBench.BPlusTree.Scan
Layer: Refinement
Purpose: The range scan.  Its descent keeps left of a separator that equals the key, so that every
  entry left of the leaf it reaches is below the key and every entry right of it is not; the walk
  along the chain pointers then reads the leaves in order.
Trusted boundary: none
Main exports: scanLeaf_ok, scanChain_ok, scanDescend_ok, scan_ok, scan_total
-/
import StoredsBench.BPlusTree.Refinement

namespace StoredsBench.BPlusTreeDram

open Lib Lib.Multiway Lib.SortedAssoc Trees

/-- A leaf of a shown tree. -/
abbrev PtrLeaf := Leaf Nat (Key × Value)

/-- The entries of consecutive leaves. -/
def entriesOfLeaves (leaves : List PtrLeaf) : List (Key × Value) := leaves.flatMap Leaf.entries

theorem entriesOfLeaves_cons (leaf : PtrLeaf) (leaves : List PtrLeaf) :
    entriesOfLeaves (leaf :: leaves) = leaf.entries ++ entriesOfLeaves leaves :=
  List.flatMap_cons

/-! ### One leaf -/

/-- The inner loop appends entries until the leaf or the requested length is used up. -/
theorem scanLeaf_ok {entries : CArray Entry (2 * BPLUSTREE_MIN_DEGREE - 1)}
    {items : List (Key × Value)} (shown : CArray.Prefix viewEntry entries items) (len : Int) :
    ∀ (remaining index : Nat) (count : Int) (result : List (Key × Value)),
      index + remaining = items.length → count < len →
      scanLeaf entries len remaining index count result =
        .ok (result ++ (items.drop index).take (len - count).toNat,
          count + ((items.drop index).take (len - count).toNat).length,
          decide ((len - count).toNat ≤ remaining))
  | 0, index, count, result, bound, room => by
      have empty : items.drop index = [] := List.drop_eq_nil_of_le (by omega)
      have unreached : ¬ (len - count).toNat ≤ 0 := by omega
      simp [scanLeaf, empty, unreached]
  | remaining + 1, index, count, result, bound, room => by
      have inside : index < items.length := by omega
      obtain ⟨entry, written, viewed⟩ := shown index items[index] (List.getElem?_eq_getElem inside)
      obtain ⟨value, read, pairEq⟩ := Option.map_eq_some_iff.mp viewed
      obtain ⟨wanted, wantedEq⟩ : ∃ wanted, (len - count).toNat = wanted + 1 :=
        ⟨(len - count).toNat - 1, by omega⟩
      have taken : (items.drop index).take (len - count).toNat =
          items[index] :: (items.drop (index + 1)).take wanted := by
        rw [List.drop_eq_getElem_cons inside, wantedEq, List.take_succ_cons]
      rw [scanLeaf]
      simp only [CArray.get_ok written, bind, Except.bind, read, pairEq]
      by_cases last : count + 1 = len
      · have none : wanted = 0 := by omega
        rw [if_pos last, taken, none]
        simp [wantedEq, none]
      · have rest := scanLeaf_ok shown len remaining (index + 1) (count + 1)
          (result ++ [items[index]]) (by omega) (by omega)
        have wantedNext : (len - (count + 1)).toNat = wanted := by omega
        rw [wantedNext] at rest
        rw [if_neg last, rest, taken, wantedEq]
        simp only [List.append_assoc, List.singleton_append, List.length_cons,
          Nat.add_le_add_iff_right, Except.ok.injEq, Prod.mk.injEq, true_and, and_true]
        push_cast
        omega

/-! ### The chain of leaves -/

/-- A leaf of a shown tree is shown itself. -/
theorem rep_leaf {heap : Heap (Node BPLUSTREE_MIN_DEGREE Links)} :
    ∀ {depth : Nat} {tree : PtrTree Key depth}, Rep kind heap tree →
      ∀ leaf ∈ leaves tree, Rep kind heap (mkLeaf leaf.label leaf.entries : PtrTree Key 0)
  | 0, tree, rep, leaf, member => by
      rw [List.mem_singleton.mp member]
      exact rep
  | depth + 1, tree, rep, leaf, member => by
      obtain ⟨child, childMember, inChild⟩ := List.mem_flatMap.mp member
      exact rep_leaf (rep.2 child childMember) leaf inChild

/-- The walk through the chain pointers, started at `index` in the first of the remaining leaves. -/
theorem scanChain_ok {store : BPlusTreeDram} (len : Int) :
    ∀ (remaining : List PtrLeaf) (fuel index origin : Nat) (count : Int)
      (result : List (Key × Value)),
      (∀ leaf ∈ remaining, Rep kind store.heap (mkLeaf leaf.label leaf.entries : PtrTree Key 0)) →
      Chain (nextOf (linksAt store.heap)) (previousOf (linksAt store.heap)) origin
        (remaining.map Leaf.label) →
      remaining.length < fuel → (∀ leaf ∈ remaining.head?, index ≤ leaf.entries.length) →
      count < len →
      scanChain len fuel ((remaining.map Leaf.label).headD null) index count result store =
        .ok (result ++ ((entriesOfLeaves remaining).drop index).take (len - count).toNat, store)
  | [], fuel + 1, index, origin, count, result, _, _, _, _, _ => by
      simp [scanChain, entriesOfLeaves]
      rfl
  | leaf :: remaining, fuel + 1, index, origin, count, result, shown, linked, bound, inside, room => by
      obtain ⟨node, live, isLeaf, nk, entries⟩ := (shown leaf (by simp)).root
      have live : store.heap.get? leaf.label = some node := live
      have nk : node.nk = leaf.entries.length := nk
      have entries : CArray.Prefix viewEntry node.entries leaf.entries := entries
      have indexInside : index ≤ leaf.entries.length := inside leaf (by simp)
      obtain ⟨_, forward, restLinked⟩ := linked
      have next : node.links.next = (remaining.map Leaf.label).headD null := by
        simpa [nextOf, linksAt, live] using forward
      have scanned := scanLeaf_ok entries len (node.nk - index) index count result
        (by simp only [nk]; omega) room
      have whole : (entriesOfLeaves (leaf :: remaining)).drop index =
          leaf.entries.drop index ++ entriesOfLeaves remaining := by
        rw [entriesOfLeaves_cons, List.drop_append_of_le_length indexInside]
      have restLength : (leaf.entries.drop index).length = node.nk - index := by
        rw [List.length_drop, nk]
      have current : ((leaf :: remaining).map Leaf.label).headD null = leaf.label := rfl
      rw [current, scanChain, if_neg (Heap.ne_null_of_get? live), bind_ok (Prog.load_ok live),
        bind_ok (Prog.lift_ok scanned store), whole]
      by_cases reached : (len - count).toNat ≤ node.nk - index
      · have within : (len - count).toNat ≤ (leaf.entries.drop index).length := by
          rw [restLength]
          exact reached
        rw [List.take_append_of_le_length within]
        simp only [reached, decide_true, Bool.true_or, if_true]
        rfl
      · have all : (leaf.entries.drop index).take (len - count).toNat = leaf.entries.drop index :=
          List.take_of_length_le (by rw [restLength]; omega)
        have unfinished : ¬ count + (node.nk - index : Nat) = len := by omega
        have rest := scanChain_ok len remaining fuel 0 leaf.label (count + (node.nk - index : Nat))
          (result ++ leaf.entries.drop index)
          (fun other member => shown other (List.mem_cons_of_mem leaf member)) restLinked
          (by simpa using bound) (fun _ _ => Nat.zero_le _) (by omega)
        have wanted : (len - (count + (node.nk - index : Nat))).toNat =
            (len - count).toNat - (leaf.entries.drop index).length := by
          rw [restLength]
          omega
        rw [List.take_append, all, ← wanted]
        simp only [restLength, reached, unfinished, decide_false, Bool.or_false,
          Bool.false_eq_true, if_false, next]
        simpa using rest

/-! ### Any requested length -/

theorem scanLeaf_total {entries : CArray Entry (2 * BPLUSTREE_MIN_DEGREE - 1)}
    {items : List (Key × Value)} (shown : CArray.Prefix viewEntry entries items) (len : Int) :
    ∀ (remaining index : Nat) (count : Int) (result : List (Key × Value)),
      index + remaining ≤ items.length →
      ∃ outcome, scanLeaf entries len remaining index count result = .ok outcome
  | 0, _, count, result, _ => ⟨(result, count, false), rfl⟩
  | remaining + 1, index, count, result, bound => by
      have inside : index < items.length := by omega
      obtain ⟨entry, written, viewed⟩ := shown index items[index] (List.getElem?_eq_getElem inside)
      obtain ⟨value, read, pairEq⟩ := Option.map_eq_some_iff.mp viewed
      rw [scanLeaf]
      simp only [CArray.get_ok written, bind, Except.bind, read]
      by_cases last : count + 1 = len
      · rw [if_pos last]
        exact ⟨_, rfl⟩
      · rw [if_neg last]
        exact scanLeaf_total shown len remaining _ _ _ (by omega)

theorem scanChain_total {store : BPlusTreeDram} (len : Int) :
    ∀ (remaining : List PtrLeaf) (fuel index origin : Nat) (count : Int)
      (result : List (Key × Value)),
      (∀ leaf ∈ remaining, Rep kind store.heap (mkLeaf leaf.label leaf.entries : PtrTree Key 0)) →
      Chain (nextOf (linksAt store.heap)) (previousOf (linksAt store.heap)) origin
        (remaining.map Leaf.label) →
      remaining.length < fuel → (∀ leaf ∈ remaining.head?, index ≤ leaf.entries.length) →
      ∃ found, scanChain len fuel ((remaining.map Leaf.label).headD null) index count result store =
        .ok (found, store)
  | [], fuel + 1, index, origin, count, result, _, _, _, _ => ⟨result, by simp [scanChain]; rfl⟩
  | leaf :: remaining, fuel + 1, index, origin, count, result, shown, linked, bound, inside => by
      obtain ⟨node, live, isLeaf, nk, entries⟩ := (shown leaf (by simp)).root
      have live : store.heap.get? leaf.label = some node := live
      have nk : node.nk = leaf.entries.length := nk
      have entries : CArray.Prefix viewEntry node.entries leaf.entries := entries
      have indexInside : index ≤ leaf.entries.length := inside leaf (by simp)
      obtain ⟨_, forward, restLinked⟩ := linked
      have next : node.links.next = (remaining.map Leaf.label).headD null := by
        simpa [nextOf, linksAt, live] using forward
      obtain ⟨⟨found, total, reached⟩, scanned⟩ := scanLeaf_total entries len (node.nk - index) index
        count result (by omega)
      have current : ((leaf :: remaining).map Leaf.label).headD null = leaf.label := rfl
      rw [current, scanChain, if_neg (Heap.ne_null_of_get? live), bind_ok (Prog.load_ok live),
        bind_ok (Prog.lift_ok scanned store)]
      by_cases stops : (reached || decide (total = len)) = true
      · dsimp only
        rw [if_pos stops]
        exact ⟨found, rfl⟩
      · dsimp only
        rw [if_neg stops, next]
        exact scanChain_total len remaining fuel 0 leaf.label total found
          (fun other member => shown other (List.mem_cons_of_mem leaf member)) restLinked
          (by simpa using bound) fun _ _ => Nat.zero_le _

/-! ### The descent -/

/-- An entry of a leaf stands in the trace of every tree the leaf belongs to. -/
theorem exists_mark_of_mem_leaves {depth low : Nat} {tree : PtrTree Key depth}
    (shape : Shape kind.scheme low tree) {entry : Key × Value}
    (member : entry ∈ entriesOfLeaves (leaves tree)) :
    ∃ mark ∈ trace tree, markKey kind.scheme mark = entry.1 := by
  have inContents : entry ∈ contents kind.scheme tree := by
    rw [show contents kind.scheme tree = _ from contents_bplus shape]
    exact member
  obtain ⟨mark, inTrace, _, sameKey⟩ := exists_mark_of_mem_entriesOf kind.lawful inContents
  exact ⟨mark, inTrace, sameKey⟩

/-- The descent reaches the leaf that holds the first key not below `key`, or the last key below
it. -/
theorem scanDescend_ok (key : Key) : ∀ {depth fuel low : Nat} {tree : PtrTree Key depth}
    {store : BPlusTreeDram}, depth < fuel → Rep kind store.heap tree → Shape kind.scheme low tree →
    Ordered kind.scheme (trace tree) →
    ∃ front leaf back, leaves tree = front ++ leaf :: back ∧
      scanDescend fuel (label tree) key store = .ok (leaf.label, store) ∧
      (∀ entry ∈ entriesOfLeaves front, entry.1 < key) ∧
      ∀ entry ∈ entriesOfLeaves back, key ≤ entry.1
  | 0, fuel + 1, low, leaf, store, _, rep, shape, ordered => by
      obtain ⟨node, live, isLeaf, _⟩ := rep.root
      have isLeaf : node.isLeaf = true := isLeaf
      refine ⟨[], leaf, [], rfl, ?_, by simp [entriesOfLeaves], by simp [entriesOfLeaves]⟩
      rw [scanDescend, if_neg (Heap.ne_null_of_get? live), bind_ok (Prog.load_ok live), isLeaf]
      rfl
  | depth + 1, fuel + 1, low, tree, store, bound, rep, shape, ordered => by
      obtain ⟨node, live, shows⟩ := rep.root
      have isLeaf : node.isLeaf = false := shows.1
      obtain ⟨before, after, found, itemsEq, scanned, _, below, cases⟩ := shows.probe shape ordered key
      have above : ∀ item ∈ after, key ≤ kind.scheme.itemKey item := by
        rcases cases with ⟨_, hit, rest, rfl, hitKey, restAbove⟩ | ⟨_, afterAbove⟩
        · intro item member
          rcases List.mem_cons.mp member with rfl | later
          · exact hitKey.ge
          · exact (restAbove item later).le
        · exact fun item member => (afterAbove item member).le
      obtain ⟨left, child, right, childrenEq, leftAligned, rightAligned⟩ := shape.child_at itemsEq
      obtain ⟨name, items, children⟩ := tree
      simp only at itemsEq childrenEq
      subst itemsEq childrenEq
      have childMember : child ∈ left ++ child :: right := by simp
      have view : trace (mkNode name (before ++ after) (left ++ child :: right)) = _ :=
        trace_mkNode name after child right leftAligned
      have wholeOrdered := ordered
      rw [view] at wholeOrdered
      obtain ⟨frontOrdered, restOrdered, _⟩ := ordered_append.mp wholeOrdered
      obtain ⟨_, backOrdered, _⟩ := ordered_append.mp restOrdered
      obtain ⟨front, leaf, back, leavesEq, ran, frontBelow, backAbove⟩ :=
        scanDescend_ok key (by omega : depth < fuel) (rep.2 child childMember)
          (shape.2.2 child childMember) (ordered_child leftAligned ordered)
      refine ⟨left.flatMap leaves ++ front, leaf, back ++ right.flatMap leaves, ?_, ?_, ?_, ?_⟩
      · simp [leaves, leavesEq]
      · rw [scanDescend, if_neg (Heap.ne_null_of_get? live), bind_ok (Prog.load_ok live), isLeaf]
        simp only [Bool.false_eq_true, if_false]
        rw [bind_ok (Prog.lift_ok scanned store),
          bind_ok (Prog.lift_ok (child_pointer shows leftAligned) store), ran]
      · intro entry member
        rw [entriesOfLeaves, List.flatMap_append, List.mem_append] at member
        rcases member with inLeft | inFront
        · rw [List.flatMap_assoc, List.mem_flatMap] at inLeft
          obtain ⟨other, otherMember, inOther⟩ := inLeft
          obtain ⟨mark, inTrace, sameKey⟩ :=
            exists_mark_of_mem_leaves (shape.2.2 other (by simp [otherMember])) inOther
          have outside : mark ∈ closed (before.map Sum.inl) (left.map trace) :=
            mem_closed (by simpa using leftAligned) _ (List.mem_map_of_mem otherMember) inTrace
          rw [← sameKey]
          exact markKey_lt_of_position_lt (closed_below (by simpa using leftAligned) frontOrdered
            (fun item itemMember => Prod.Lex.toLex_lt_toLex.mpr (Or.inl (below item itemMember)))
            mark outside)
        · exact frontBelow entry inFront
      · intro entry member
        rw [entriesOfLeaves, List.flatMap_append, List.mem_append] at member
        rcases member with inBack | inRight
        · exact backAbove entry inBack
        · rw [List.flatMap_assoc, List.mem_flatMap] at inRight
          obtain ⟨other, otherMember, inOther⟩ := inRight
          obtain ⟨mark, inTrace, sameKey⟩ :=
            exists_mark_of_mem_leaves (shape.2.2 other (by simp [otherMember])) inOther
          have outside : mark ∈ opened (after.map Sum.inl) (right.map trace) :=
            mem_opened (by simpa using rightAligned) _ (List.mem_map_of_mem otherMember) inTrace
          rw [← sameKey]
          exact opened_ge (by simpa using rightAligned) backOrdered above mark outside

/-! ### The whole scan -/

theorem check_ok {store : BPlusTreeDram} (rooted : store.root ≠ null) :
    check store = .ok ((), store) := by
  rw [check, bind_ok (Prog.getRoot_ok store), if_neg rooted]
  rfl

/-- A scan is a walk from the leaf its descent reaches. -/
theorem scan_start {store : BPlusTreeDram} {depth : Nat} {tree : PtrTree Key depth}
    (stores : Stores kind chain store tree) (key : Key) :
    ∃ front leaf back origin, leaves tree = front ++ leaf :: back ∧
      (∀ entry ∈ entriesOfLeaves front, entry.1 < key) ∧
      (∀ entry ∈ entriesOfLeaves back, key ≤ entry.1) ∧
      (∀ other ∈ leaf :: back,
        Rep kind store.heap (mkLeaf other.label other.entries : PtrTree Key 0)) ∧
      Chain (nextOf (linksAt store.heap)) (previousOf (linksAt store.heap)) origin
        ((leaf :: back).map Leaf.label) ∧
      (leaf :: back).length < store.heap.size + 1 ∧
      scanDescend store.heap.size store.root key store = .ok (leaf.label, store) ∧
      (∃ node, store.heap.get? leaf.label = some node ∧
        lowerIndexOf node key = .ok (lowerIndex Prod.fst key leaf.entries)) ∧
      ∀ len, scan key len store = scanChain len (store.heap.size + 1) leaf.label
        (lowerIndex Prod.fst key leaf.entries) 0 [] store := by
  obtain ⟨front, leaf, back, leavesEq, descended, frontBelow, backAbove⟩ :=
    scanDescend_ok key stores.depth_lt_size stores.holds.rep stores.valid.shape stores.valid.ordered
  have shown : ∀ other ∈ leaf :: back,
      Rep kind store.heap (mkLeaf other.label other.entries : PtrTree Key 0) :=
    fun other member => rep_leaf stores.holds.rep other (leavesEq ▸ List.mem_append_right front member)
  obtain ⟨node, live, isLeaf, nk, entries⟩ := (shown leaf (by simp)).root
  have live : store.heap.get? leaf.label = some node := live
  have nk : node.nk = leaf.entries.length := nk
  have located : lowerIndexOf node key = .ok (lowerIndex Prod.fst key leaf.entries) := by
    rw [lowerIndexOf, nk, lowerIndex]
    exact CArray.scanUp_ok entries fun entry pair viewed => by rw [viewEntry_key viewed]
  -- The leaf labels are the chain, and there are not more of them than objects.
  have labelsEq : leafLabels tree = front.map Leaf.label ++ (leaf :: back).map Leaf.label := by
    rw [leafLabels, leavesEq, List.map_append]
  obtain ⟨nodup, linked⟩ := stores.holds.chained
  simp only [List.nil_append, List.append_nil] at nodup linked
  rw [labelsEq] at linked
  obtain ⟨origin, linked⟩ := linked.behind
  have few : (leaf :: back).length < store.heap.size + 1 := by
    have inTree := (nodup.subperm fun name member => leafLabels_subset tree name member).length_le
    have inHeap := stores.holds.rep.length_labels_le stores.holds.nodup
    rw [labelsEq, List.length_append, List.length_map, List.length_map] at inTree
    omega
  rw [← stores.root] at descended
  refine ⟨front, leaf, back, origin, leavesEq, frontBelow, backAbove, shown, linked, few, descended,
    ⟨node, live, located⟩, ?_⟩
  intro len
  rw [scan, bind_ok (check_ok stores.root_ne_null),
    bind_ok (Prog.getRoot_ok store),
    bind_ok (Prog.heapSize_ok store),
    bind_ok descended, if_neg (Heap.ne_null_of_get? live), bind_ok (Prog.load_ok live),
    bind_ok (Prog.lift_ok located store)]

/-- `scan` delivers the stored entries from the first key that is not below `key` on, as many as
were asked for or as there are. -/
theorem scan_ok {store : BPlusTreeDram} {depth : Nat} {tree : PtrTree Key depth}
    (stores : Stores kind chain store tree) (key : Key) {len : Int} (positive : 1 ≤ len) :
    scan key len store = .ok ((fromKey key (contents kind.scheme tree)).take len.toNat, store) := by
  obtain ⟨front, leaf, back, origin, leavesEq, frontBelow, backAbove, shown, linked, few, _, _,
    started⟩ := scan_start stores key
  have walked := scanChain_ok len (leaf :: back) (store.heap.size + 1)
    (lowerIndex Prod.fst key leaf.entries) origin 0 [] shown linked few
    (fun first isFirst => by
      rw [← Option.some.inj isFirst]
      exact lowerIndex_le Prod.fst key leaf.entries) (by omega)
  have remaining : fromKey key (contents kind.scheme tree) =
      (entriesOfLeaves (leaf :: back)).drop (lowerIndex Prod.fst key leaf.entries) := by
    have contentsEq : contents kind.scheme tree =
        entriesOfLeaves front ++ (leaf.entries ++ entriesOfLeaves back) := by
      rw [show contents kind.scheme tree = _ from contents_bplus stores.valid.shape, leavesEq]
      simp [entriesOfLeaves]
    rw [contentsEq, fromKey_append_of_lt _ frontBelow, fromKey_append_of_ge _ backAbove,
      entriesOfLeaves_cons,
      List.drop_append_of_le_length (lowerIndex_le Prod.fst key leaf.entries), drop_lowerIndex]
    rfl
  rw [started, remaining]
  simpa using walked

/-- Whatever length is asked for, `scan` runs to its end. -/
theorem scan_total {store : BPlusTreeDram} {depth : Nat} {tree : PtrTree Key depth}
    (stores : Stores kind chain store tree) (key : Key) (len : Int) :
    ∃ found, scan key len store = .ok (found, store) := by
  obtain ⟨front, leaf, back, origin, _, _, _, shown, linked, few, _, _, started⟩ :=
    scan_start stores key
  obtain ⟨found, walked⟩ := scanChain_total len (leaf :: back) (store.heap.size + 1)
    (lowerIndex Prod.fst key leaf.entries) origin 0 [] shown linked few
    (fun first isFirst => by
      rw [← Option.some.inj isFirst]
      exact lowerIndex_le Prod.fst key leaf.entries)
  exact ⟨found, (started len).trans walked⟩

end StoredsBench.BPlusTreeDram
