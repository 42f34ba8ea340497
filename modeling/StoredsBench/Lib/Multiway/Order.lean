/-
Module: StoredsBench.Lib.Multiway.Order
Layer: Lib
Purpose: Insertion keeps the trace of a multiway tree ordered and adds exactly one entry to its
  contents.  `Recut` is what splitting a child does to the trace below a node, `Grows` what a whole
  insertion does; both survive being placed between smaller and larger marks, which is the
  induction step for an inner node.
Trusted boundary: none
Main exports: entriesOf, Recut, Grows, insertNotFull_grows, insertRoot_grows, Anchored
-/
import StoredsBench.Lib.Multiway.Insert

namespace StoredsBench.Lib.Multiway

variable {K L I E : Type} [LinearOrder K] {scheme : Scheme K I E}

/-- Every separator has the key of some entry. -/
def Anchored (scheme : Scheme K I E) (marks : List (I ⊕ E)) : Prop :=
  ∀ item, Sum.inl item ∈ marks →
    ∃ entry ∈ entriesOf scheme marks, scheme.entryKey entry = scheme.itemKey item

/-- No separator and no entry has the key. -/
def Absent (scheme : Scheme K I E) (key : K) (marks : List (I ⊕ E)) : Prop :=
  ∀ mark ∈ marks, markKey scheme mark ≠ key

/-- An entry of the contents stands somewhere in the trace. -/
theorem exists_mark_of_mem_entriesOf (lawful : Lawful scheme) {entry : E} {marks : List (I ⊕ E)}
    (member : entry ∈ entriesOf scheme marks) :
    ∃ mark ∈ marks, position scheme mark = position scheme (.inr entry) ∧
      markKey scheme mark = scheme.entryKey entry := by
  obtain ⟨mark, markMember, selected⟩ := List.mem_filterMap.mp member
  cases mark with
  | inl item =>
      obtain ⟨sameKey, stored⟩ := lawful.carries item entry selected
      exact ⟨.inl item, markMember, by simp [position, sameKey, stored], sameKey.symm⟩
  | inr other =>
      have same : other = entry := by simpa using selected
      exact ⟨.inr other, markMember, by rw [same], by rw [same]; rfl⟩

/-- An ordered trace has ascending contents. -/
theorem entriesOf_ascending (lawful : Lawful scheme) {marks : List (I ⊕ E)}
    (ordered : Ordered scheme marks) :
    (entriesOf scheme marks).Pairwise fun a b => scheme.entryKey a < scheme.entryKey b := by
  induction marks with
  | nil => exact List.Pairwise.nil
  | cons mark marks inductionHypothesis =>
      obtain ⟨markBelow, rest⟩ := ordered_cons.mp ordered
      have tail := inductionHypothesis rest
      have below : ∀ entry : E, position scheme mark = position scheme (.inr entry) →
          ∀ other ∈ entriesOf scheme marks, scheme.entryKey entry < scheme.entryKey other := by
        intro entry same other member
        obtain ⟨otherMark, otherMember, otherPosition, _⟩ :=
          exists_mark_of_mem_entriesOf lawful member
        have strict := markBelow otherMark otherMember
        rw [same, otherPosition] at strict
        exact position_entry_lt_iff.mp strict
      cases mark with
      | inr entry =>
          rw [entriesOf_entry_cons]
          exact List.pairwise_cons.mpr ⟨below entry rfl, tail⟩
      | inl item =>
          rw [entriesOf_separator_cons]
          cases carried : scheme.carries item with
          | none => simpa using tail
          | some entry =>
              obtain ⟨sameKey, stored⟩ := lawful.carries item entry carried
              exact List.pairwise_cons.mpr
                ⟨below entry (by simp [position, sameKey, stored]), tail⟩

/-! ### Marks on one side of a child -/

/-- If the separators before a child are below `bound`, so is everything before the child. -/
theorem closed_below {bound : K ×ₗ Bool} : ∀ {before : List I} {left : List (List (I ⊕ E))},
    left.length = before.length → Ordered scheme (closed (before.map Sum.inl) left) →
    (∀ item ∈ before, position scheme (.inl item) < bound) →
    ∀ mark ∈ closed (before.map Sum.inl) left, position scheme mark < bound
  | [], left, _, _, _, mark, member => by simp at member
  | item :: before, [], aligned, _, _, _, _ => by simp at aligned
  | item :: before, child :: left, aligned, ordered, separatorsBelow, mark, member => by
      rw [List.map_cons, closed_cons] at ordered member
      obtain ⟨_, restOrdered, across⟩ := ordered_append.mp ordered
      have itemBelow := separatorsBelow item (by simp)
      rcases List.mem_append.mp member with inChild | rest
      · exact (across mark inChild (.inl item) (by simp)).trans itemBelow
      · rcases List.mem_cons.mp rest with here | later
        · rw [here]; exact itemBelow
        · exact closed_below (by simpa using aligned) (ordered_cons.mp restOrdered).2
            (fun other otherMember => separatorsBelow other (List.mem_cons_of_mem item otherMember))
            mark later

/-- If the separators behind a child are above `bound`, so is everything behind the child. -/
theorem opened_above {bound : K ×ₗ Bool} : ∀ {after : List I} {right : List (List (I ⊕ E))},
    right.length = after.length → Ordered scheme (opened (after.map Sum.inl) right) →
    (∀ item ∈ after, bound < position scheme (.inl item)) →
    ∀ mark ∈ opened (after.map Sum.inl) right, bound < position scheme mark
  | [], right, _, _, _, mark, member => by simp at member
  | item :: after, [], aligned, _, _, _, _ => by simp at aligned
  | item :: after, child :: right, aligned, ordered, separatorsAbove, mark, member => by
      rw [List.map_cons, opened_cons, List.cons_append] at ordered member
      obtain ⟨itemBelow, restOrdered⟩ := ordered_cons.mp ordered
      have itemAbove := separatorsAbove item (by simp)
      rcases List.mem_cons.mp member with here | rest
      · rw [here]; exact itemAbove
      · rcases List.mem_append.mp rest with inChild | later
        · exact itemAbove.trans (itemBelow mark rest)
        · exact opened_above (by simpa using aligned) (ordered_append.mp restOrdered).2.1
            (fun other otherMember => separatorsAbove other (List.mem_cons_of_mem item otherMember))
            mark later

/-- If the separators behind a child are at least `key`, so is everything behind the child. -/
theorem opened_ge {key : K} {after : List I} {right : List (List (I ⊕ E))}
    (aligned : right.length = after.length)
    (ordered : Ordered scheme (opened (after.map Sum.inl) right))
    (separatorsAbove : ∀ item ∈ after, key ≤ scheme.itemKey item) :
    ∀ mark ∈ opened (after.map Sum.inl) right, key ≤ markKey scheme mark := by
  intro mark member
  cases after with
  | nil => simp at member
  | cons item after =>
      cases right with
      | nil => simp at aligned
      | cons child right =>
          have itemAbove : key ≤ scheme.itemKey item := separatorsAbove item (by simp)
          rw [List.map_cons, opened_cons, List.cons_append] at ordered member
          rcases List.mem_cons.mp member with rfl | later
          · exact itemAbove
          · exact itemAbove.trans
              (markKey_le_of_position_lt ((ordered_cons.mp ordered).1 mark later))

/-- The separators of a node with an ordered trace ascend. -/
theorem separators_ascending {before after : List I} {left right : List (List (I ⊕ E))}
    {child : List (I ⊕ E)} (leftAligned : left.length = (before.map (Sum.inl : I → I ⊕ E)).length)
    (rightAligned : right.length = (after.map (Sum.inl : I → I ⊕ E)).length)
    (ordered : Ordered scheme
      (closed (before.map Sum.inl) left ++ (child ++ opened (after.map Sum.inl) right))) :
    (before ++ after).Pairwise fun a b => scheme.itemKey a < scheme.itemKey b := by
  have separators : Ordered scheme ((before ++ after).map Sum.inl) := by
    rw [List.map_append]
    exact ordered.sublist ((sublist_closed leftAligned).append
      ((sublist_opened rightAligned).trans (List.sublist_append_right child _)))
  refine (List.pairwise_map.mp separators).imp fun below => ?_
  rcases Prod.Lex.toLex_lt_toLex.mp below with strict | tied
  · exact strict
  · exact absurd tied.2 (lt_irrefl _)

theorem Shape.items_ascending {low depth : Nat} {node : Tree L I E (depth + 1)}
    (shape : Shape scheme low node) (ordered : Ordered scheme (trace node)) :
    node.items.Pairwise fun a b => scheme.itemKey a < scheme.itemKey b := by
  obtain ⟨left, child, right, childrenEq, leftAligned, rightAligned⟩ :=
    shape.child_at (List.nil_append node.items).symm
  obtain ⟨label, items, children⟩ := node
  simp only at childrenEq rightAligned
  subst childrenEq
  have view : trace (mkNode label items (left ++ child :: right)) = _ :=
    trace_mkNode label items child right leftAligned
  rw [view] at ordered
  exact separators_ascending (by simpa using leftAligned) (by simpa using rightAligned) ordered

theorem ordered_child {depth : Nat} {name : L} {before after : List I}
    {left right : List (Tree L I E depth)} {child : Tree L I E depth}
    (aligned : left.length = before.length)
    (ordered : Ordered scheme (trace (mkNode name (before ++ after) (left ++ child :: right)))) :
    Ordered scheme (trace child) := by
  rw [trace_mkNode name after child right aligned] at ordered
  exact (ordered_append.mp (ordered_append.mp ordered).2.1).1

theorem Shape.ordered_of_mem {low depth : Nat} {node : Tree L I E (depth + 1)}
    (shape : Shape scheme low node) (ordered : Ordered scheme (trace node))
    {child : Tree L I E depth} (member : child ∈ node.children) : Ordered scheme (trace child) := by
  obtain ⟨left, right, childrenEq⟩ := List.append_of_mem member
  obtain ⟨name, items, children⟩ := node
  simp only at childrenEq
  subst childrenEq
  have arity : (left ++ child :: right).length = items.length + 1 := shape.2.1
  rw [List.length_append, List.length_cons] at arity
  rw [← List.take_append_drop left.length items] at ordered
  exact ordered_child (by rw [List.length_take]; omega) ordered

/-- A separator of an inner node stands between the two children next to it. -/
theorem Shape.between {low depth : Nat} {node : Tree L I E (depth + 1)}
    (shape : Shape scheme low node) (ordered : Ordered scheme (trace node)) {index : Nat} {item : I}
    (found : node.items[index]? = some item) :
    (∀ child, node.children[index]? = some child →
        ∀ mark ∈ trace child, position scheme mark < position scheme (.inl item)) ∧
      ∀ child, node.children[index + 1]? = some child →
        ∀ mark ∈ trace child, position scheme (.inl item) < position scheme mark := by
  obtain ⟨before, after, itemsEq, rfl⟩ : ∃ before after, node.items = before ++ item :: after ∧
      before.length = index := by
    obtain ⟨inside, rfl⟩ := List.getElem?_eq_some_iff.mp found
    exact ⟨node.items.take index, node.items.drop (index + 1), by simp, by simp; omega⟩
  obtain ⟨left, child, others, childrenEq, aligned, othersLength⟩ := shape.child_at itemsEq
  obtain ⟨next, right, rfl⟩ : ∃ next right, others = next :: right :=
    List.exists_cons_of_length_eq_add_one othersLength
  obtain ⟨name, items, children⟩ := node
  simp only at itemsEq childrenEq
  subst itemsEq childrenEq
  have view : trace (mkNode name (before ++ item :: after) (left ++ child :: next :: right)) = _ :=
    trace_around name item after child next right aligned
  rw [view] at ordered
  obtain ⟨_, restOrdered, frontBelow⟩ := ordered_append.mp ordered
  have itemBelow := (ordered_cons.mp restOrdered).1
  rw [← aligned]
  constructor
  · intro other otherAt mark member
    obtain rfl : child = other := by simpa using otherAt
    exact frontBelow mark (List.mem_append_right _ member) _ List.mem_cons_self
  · intro other otherAt mark member
    obtain rfl : next = other := by simpa using otherAt
    exact itemBelow mark (List.mem_append_left _ member)

/-! ### Splitting does not disturb the trace -/

/-- The marks `after` hold the same entries as `before`, in order and within the same bounds. -/
structure Recut (scheme : Scheme K I E) (before after : List (I ⊕ E)) : Prop where
  entries_eq : entriesOf scheme after = entriesOf scheme before
  ordered : Ordered scheme after
  above : ∀ bound, (∀ mark ∈ before, bound < position scheme mark) →
    ∀ mark ∈ after, bound < position scheme mark
  below : ∀ bound, (∀ mark ∈ before, position scheme mark < bound) →
    ∀ mark ∈ after, position scheme mark < bound
  keys : ∀ mark ∈ after, ∃ old ∈ before, markKey scheme old = markKey scheme mark
  anchored : ∀ item, .inl item ∈ after → .inl item ∈ before ∨
    ∃ entry ∈ entriesOf scheme before, scheme.entryKey entry = scheme.itemKey item

namespace Recut

theorem refl {marks : List (I ⊕ E)} (ordered : Ordered scheme marks) : Recut scheme marks marks where
  entries_eq := rfl
  ordered := ordered
  above := fun _ bounds => bounds
  below := fun _ bounds => bounds
  keys := fun mark member => ⟨mark, member, rfl⟩
  anchored := fun _ member => Or.inl member

/-- A recut part leaves its surroundings alone. -/
theorem context {front back before after : List (I ⊕ E)}
    (ordered : Ordered scheme (front ++ (before ++ back))) (cut : Recut scheme before after) :
    Recut scheme (front ++ (before ++ back)) (front ++ (after ++ back)) := by
  obtain ⟨frontOrdered, restOrdered, frontBelow⟩ := ordered_append.mp ordered
  obtain ⟨_, backOrdered, beforeBelow⟩ := ordered_append.mp restOrdered
  have afterBelow : ∀ low ∈ after, ∀ high ∈ back, position scheme low < position scheme high :=
    fun low lowMember high highMember =>
      cut.below _ (fun mark member => beforeBelow mark member high highMember) low lowMember
  refine ⟨by simp [cut.entries_eq], ?_, ?_, ?_, ?_, ?_⟩
  · refine ordered_append.mpr
      ⟨frontOrdered, ordered_append.mpr ⟨cut.ordered, backOrdered, afterBelow⟩, ?_⟩
    intro low lowMember high highMember
    rcases List.mem_append.mp highMember with inAfter | inBack
    · exact cut.above _
        (fun mark member => frontBelow low lowMember mark (List.mem_append_left _ member))
        high inAfter
    · exact frontBelow low lowMember high (List.mem_append_right _ inBack)
  · intro bound bounds mark member
    simp only [List.mem_append] at member
    rcases member with inFront | inAfter | inBack
    · exact bounds mark (by simp [inFront])
    · exact cut.above bound (fun old oldMember => bounds old (by simp [oldMember])) mark inAfter
    · exact bounds mark (by simp [inBack])
  · intro bound bounds mark member
    simp only [List.mem_append] at member
    rcases member with inFront | inAfter | inBack
    · exact bounds mark (by simp [inFront])
    · exact cut.below bound (fun old oldMember => bounds old (by simp [oldMember])) mark inAfter
    · exact bounds mark (by simp [inBack])
  · intro mark member
    simp only [List.mem_append] at member
    rcases member with inFront | inAfter | inBack
    · exact ⟨mark, by simp [inFront], rfl⟩
    · obtain ⟨old, oldMember, same⟩ := cut.keys mark inAfter
      exact ⟨old, by simp [oldMember], same⟩
    · exact ⟨mark, by simp [inBack], rfl⟩
  · intro item member
    simp only [List.mem_append] at member
    rcases member with inFront | inAfter | inBack
    · exact Or.inl (by simp [inFront])
    · rcases cut.anchored item inAfter with old | ⟨entry, entryMember, same⟩
      · exact Or.inl (by simp [old])
      · exact Or.inr ⟨entry, by simp [entryMember], same⟩
    · exact Or.inl (by simp [inBack])

theorem absent {before after : List (I ⊕ E)} (cut : Recut scheme before after) {key : K}
    (fresh : Absent scheme key before) : Absent scheme key after := by
  intro mark member
  obtain ⟨old, oldMember, same⟩ := cut.keys mark member
  rw [← same]
  exact fresh old oldMember

end Recut

/-- A cut leaf shows the same trace with the separator added. -/
theorem LeafCut.recut {entries low high : List E} {separator : I} (degree : 2 ≤ scheme.minDegree)
    (cut : LeafCut scheme entries low separator high)
    (ordered : Ordered scheme (entries.map Sum.inr)) :
    Recut scheme (entries.map Sum.inr)
      (low.map Sum.inr ++ Sum.inl separator :: high.map Sum.inr) := by
  have cutOrdered := cut.ordered ordered
  obtain ⟨_, rightOrdered, across⟩ := ordered_append.mp cutOrdered
  have lowMember : ∀ entry ∈ low, entry ∈ entries := fun entry member => by
    rw [← cut.contents_eq]; simp [member]
  have highMember : ∀ entry ∈ high, entry ∈ entries := fun entry member => by
    rw [← cut.contents_eq]; simp [member]
  obtain ⟨lowest, lowestMember⟩ : ∃ entry, entry ∈ low :=
    List.exists_mem_of_length_pos (by have := cut.low_length; omega)
  obtain ⟨highest, highestMember⟩ : ∃ entry, entry ∈ high :=
    List.exists_mem_of_length_pos (by have := cut.high_length_ge; omega)
  have lowBelow : position scheme (.inr lowest) < position scheme (.inl separator) :=
    across _ (List.mem_map_of_mem lowestMember) _ (by simp)
  have highAbove : position scheme (.inl separator) < position scheme (.inr highest) :=
    (ordered_cons.mp rightOrdered).1 _ (List.mem_map_of_mem highestMember)
  have split : ∀ mark, mark ∈ low.map Sum.inr ++ Sum.inl separator :: high.map Sum.inr →
      (∃ entry ∈ entries, mark = .inr entry) ∨ mark = .inl separator := by
    intro mark member
    rcases List.mem_append.mp member with inLow | rest
    · obtain ⟨entry, entryMember, rfl⟩ := List.mem_map.mp inLow
      exact Or.inl ⟨entry, lowMember entry entryMember, rfl⟩
    · rcases List.mem_cons.mp rest with here | inHigh
      · exact Or.inr here
      · obtain ⟨entry, entryMember, rfl⟩ := List.mem_map.mp inHigh
        exact Or.inl ⟨entry, highMember entry entryMember, rfl⟩
  refine ⟨?_, cutOrdered, ?_, ?_, ?_, ?_⟩
  · simpa using cut.contents_eq
  · intro bound bounds mark member
    rcases split mark member with ⟨entry, entryMember, rfl⟩ | rfl
    · exact bounds _ (List.mem_map_of_mem entryMember)
    · exact (bounds _ (List.mem_map_of_mem (lowMember lowest lowestMember))).trans lowBelow
  · intro bound bounds mark member
    rcases split mark member with ⟨entry, entryMember, rfl⟩ | rfl
    · exact bounds _ (List.mem_map_of_mem entryMember)
    · exact highAbove.trans (bounds _ (List.mem_map_of_mem (highMember highest highestMember)))
  · intro mark member
    rcases split mark member with ⟨entry, entryMember, rfl⟩ | rfl
    · exact ⟨.inr entry, List.mem_map_of_mem entryMember, rfl⟩
    · obtain ⟨entry, entryMember, same⟩ := cut.key_mem
      exact ⟨.inr entry, List.mem_map_of_mem entryMember, same⟩
  · intro item member
    rcases split _ member with ⟨entry, _, impossible⟩ | here
    · cases impossible
    · cases here
      exact Or.inr (by simpa using cut.key_mem)

/-- Splitting a full node shows the same trace, up to the copied key of a leaf split. -/
theorem split_recut (lawful : Lawful scheme) (fresh : L) {low depth : Nat}
    {tree lower upper : Tree L I E depth} {separator : I} (shape : Shape scheme low tree)
    (full : width tree = scheme.maxKeys)
    (splitEq : split scheme fresh tree = some (lower, separator, upper))
    (ordered : Ordered scheme (trace tree)) :
    Recut scheme (trace tree) (trace lower ++ Sum.inl separator :: trace upper) := by
  cases depth with
  | zero =>
      obtain ⟨lowEntries, cutSeparator, highEntries, cutEq, cut⟩ := lawful.cuts tree.entries full
      simp only [split, cutEq, Option.map_some, Option.some.injEq, Prod.mk.injEq] at splitEq
      obtain ⟨rfl, rfl, rfl⟩ := splitEq
      exact cut.recut lawful.degree ordered
  | succ depth =>
      obtain ⟨label, items, children⟩ := tree
      obtain ⟨_, arity, _⟩ := shape
      have childrenLength : children.length = items.length + 1 := arity
      have itemsFull : items.length = scheme.maxKeys := full
      have degree := lawful.degree
      have maxKeys := lawful.maxKeys_eq
      simp only [split] at splitEq
      split at splitEq
      · cases splitEq
      · rename_i middle high dropEq
        simp only [Option.some.injEq, Prod.mk.injEq] at splitEq
        obtain ⟨rfl, rfl, rfl⟩ := splitEq
        -- Name the middle child pair around the separator that goes up.
        obtain ⟨last, lastEq⟩ : ∃ last, children.take scheme.minDegree =
            children.take (scheme.minDegree - 1) ++ [last] := by
          refine ⟨children.get ⟨scheme.minDegree - 1, by omega⟩, ?_⟩
          conv_lhs => rw [show scheme.minDegree = scheme.minDegree - 1 + 1 by omega]
          exact List.take_succ_eq_append_getElem (by omega)
        have itemsEq : items = items.take (scheme.minDegree - 1) ++ middle :: high := by
          rw [← dropEq, List.take_append_drop]
        have childrenEq : children = children.take (scheme.minDegree - 1) ++
            last :: children.drop scheme.minDegree := by
          conv_lhs => rw [← List.take_append_drop scheme.minDegree children, lastEq]
          simp
        have leftLength : ((children.take (scheme.minDegree - 1)).map trace).length =
            ((items.take (scheme.minDegree - 1)).map (Sum.inl : I → I ⊕ E)).length := by
          simp only [List.length_map, List.length_take]
          omega
        obtain ⟨next, upperRest, upperEq⟩ :
            ∃ next rest, children.drop scheme.minDegree = next :: rest := by
          cases dropped : children.drop scheme.minDegree with
          | nil =>
              have := congrArg List.length dropped
              simp only [List.length_drop, List.length_nil] at this
              omega
          | cons next rest => exact ⟨next, rest, rfl⟩
        have same : trace (mkNode label items children) =
            trace (mkNode label (items.take (scheme.minDegree - 1)) (children.take scheme.minDegree)) ++
              Sum.inl middle :: trace (mkNode fresh high (children.drop scheme.minDegree)) := by
          have lowerTrace := interleave_append [] (trace last) [] leftLength
          rw [List.append_nil] at lowerTrace
          simp only [trace]
          conv_lhs => rw [itemsEq, childrenEq]
          rw [lastEq, List.map_append, List.map_append, List.map_append, List.map_cons, List.map_cons,
            List.map_cons, List.map_nil, interleave_append _ _ _ leftLength, lowerTrace, upperEq,
            List.map_cons, opened_cons, interleave]
          simp [opened]
        rw [← same]
        exact Recut.refl ordered

/-! ### Insertion adds one entry -/

/-- The marks `after` are those of `before` with `entry` spliced in, and possibly new copies of
keys as separators. -/
structure Grows (scheme : Scheme K I E) (entry : E) (before after : List (I ⊕ E)) : Prop where
  splice : ∃ front back, after = front ++ Sum.inr entry :: back ∧
    entriesOf scheme (front ++ back) = entriesOf scheme before
  ordered : Ordered scheme after
  above : ∀ bound, (∀ mark ∈ before, bound < position scheme mark) →
    bound < position scheme (.inr entry) → ∀ mark ∈ after, bound < position scheme mark
  below : ∀ bound, (∀ mark ∈ before, position scheme mark < bound) →
    position scheme (.inr entry) < bound → ∀ mark ∈ after, position scheme mark < bound
  anchored : ∀ item, .inl item ∈ after → .inl item ∈ before ∨
    ∃ old ∈ entriesOf scheme before, scheme.entryKey old = scheme.itemKey item

namespace Grows

variable {entry : E}

/-- Growing a part grows the whole when the entry fits between the surroundings. -/
theorem context {before after : List (I ⊕ E)} (grows : Grows scheme entry before after)
    (front back : List (I ⊕ E)) (ordered : Ordered scheme (front ++ (before ++ back)))
    (frontBelow : ∀ mark ∈ front, position scheme mark < position scheme (.inr entry))
    (backAbove : ∀ mark ∈ back, position scheme (.inr entry) < position scheme mark) :
    Grows scheme entry (front ++ (before ++ back)) (front ++ (after ++ back)) := by
  obtain ⟨frontOrdered, restOrdered, frontLow⟩ := ordered_append.mp ordered
  obtain ⟨_, backOrdered, backHigh⟩ := ordered_append.mp restOrdered
  obtain ⟨first, second, afterEq, entriesEq⟩ := grows.splice
  refine ⟨⟨front ++ first, second ++ back, by simp [afterEq], ?_⟩, ?_, ?_, ?_, ?_⟩
  · simp only [entriesOf_append] at entriesEq ⊢
    rw [← entriesEq]
    simp
  · refine ordered_append.mpr
      ⟨frontOrdered, ordered_append.mpr ⟨grows.ordered, backOrdered, ?_⟩, ?_⟩
    · intro low lowMember high highMember
      exact grows.below _ (fun mark member => backHigh mark member high highMember)
        (backAbove high highMember) low lowMember
    · intro low lowMember high highMember
      rcases List.mem_append.mp highMember with inAfter | inBack
      · exact grows.above _
          (fun mark member => frontLow low lowMember mark (List.mem_append_left _ member))
          (frontBelow low lowMember) high inAfter
      · exact frontLow low lowMember high (List.mem_append_right _ inBack)
  · intro bound bounds entryBound mark member
    simp only [List.mem_append] at member
    rcases member with inFront | inAfter | inBack
    · exact bounds mark (by simp [inFront])
    · exact grows.above bound (fun old oldMember => bounds old (by simp [oldMember])) entryBound
        mark inAfter
    · exact bounds mark (by simp [inBack])
  · intro bound bounds entryBound mark member
    simp only [List.mem_append] at member
    rcases member with inFront | inAfter | inBack
    · exact bounds mark (by simp [inFront])
    · exact grows.below bound (fun old oldMember => bounds old (by simp [oldMember])) entryBound
        mark inAfter
    · exact bounds mark (by simp [inBack])
  · intro item member
    simp only [List.mem_append] at member
    rcases member with inFront | inAfter | inBack
    · exact Or.inl (by simp [inFront])
    · rcases grows.anchored item inAfter with old | ⟨old, oldMember, same⟩
      · exact Or.inl (by simp [old])
      · exact Or.inr ⟨old, by simp [oldMember], same⟩
    · exact Or.inl (by simp [inBack])

theorem of_recut {first second third : List (I ⊕ E)} (cut : Recut scheme first second)
    (grows : Grows scheme entry second third) : Grows scheme entry first third := by
  obtain ⟨front, back, thirdEq, entriesEq⟩ := grows.splice
  refine ⟨⟨front, back, thirdEq, entriesEq.trans cut.entries_eq⟩, grows.ordered, ?_, ?_, ?_⟩
  · exact fun bound bounds => grows.above bound (cut.above bound bounds)
  · exact fun bound bounds => grows.below bound (cut.below bound bounds)
  · intro item member
    rcases grows.anchored item member with old | ⟨old, oldMember, same⟩
    · exact cut.anchored item old
    · exact Or.inr ⟨old, cut.entries_eq ▸ oldMember, same⟩

/-- The contents after an insertion, as a splice at the ordered position of the entry. -/
theorem contents_splice (lawful : Lawful scheme) {before after : List (I ⊕ E)}
    (grows : Grows scheme entry before after) :
    ∃ front back, entriesOf scheme after = front ++ entry :: back ∧
      entriesOf scheme before = front ++ back ∧
      (∀ low ∈ front, scheme.entryKey low < scheme.entryKey entry) ∧
      (∀ high ∈ back, scheme.entryKey entry < scheme.entryKey high) := by
  obtain ⟨front, back, afterEq, entriesEq⟩ := grows.splice
  have ascending := entriesOf_ascending lawful grows.ordered
  rw [afterEq, entriesOf_append, entriesOf_entry_cons, List.pairwise_append] at ascending
  refine ⟨entriesOf scheme front, entriesOf scheme back, by simp [afterEq], ?_, ?_, ?_⟩
  · rw [← entriesEq, entriesOf_append]
  · exact fun low member => ascending.2.2 low member entry (by simp)
  · exact fun high member => (List.pairwise_cons.mp ascending.2.1).1 high member

theorem keeps_anchored {before after : List (I ⊕ E)} (grows : Grows scheme entry before after)
    (anchored : Anchored scheme before) : Anchored scheme after := by
  intro item member
  obtain ⟨front, back, afterEq, entriesEq⟩ := grows.splice
  have kept : ∀ old ∈ entriesOf scheme before, old ∈ entriesOf scheme after := by
    intro old oldMember
    rw [← entriesEq, entriesOf_append, List.mem_append] at oldMember
    rw [afterEq, entriesOf_append, entriesOf_entry_cons, List.mem_append, List.mem_cons]
    rcases oldMember with inFront | inBack
    · exact Or.inl inFront
    · exact Or.inr (Or.inr inBack)
  rcases grows.anchored item member with old | ⟨old, oldMember, same⟩
  · obtain ⟨entry, entryMember, same⟩ := anchored item old
    exact ⟨entry, kept entry entryMember, same⟩
  · exact ⟨old, kept old oldMember, same⟩

end Grows

/-- Inserting into a leaf splices the entry in at its position. -/
theorem leaf_grows (fresh : Nat → L) (entry : E) (leaf : Tree L I E 0)
    (ordered : Ordered scheme (trace leaf))
    (absent : Absent scheme (scheme.entryKey entry) (trace leaf)) :
    Grows scheme entry (trace leaf) (trace (insertNotFull scheme fresh entry leaf)) := by
  obtain ⟨label, entries⟩ := leaf
  have ascending : entries.Pairwise fun a b => scheme.entryKey a < scheme.entryKey b :=
    (List.pairwise_map.mp ordered).imp fun below => position_entry_lt_iff.mp below
  have frontBelow : ∀ low ∈ entries.take (upperIndex scheme.entryKey (scheme.entryKey entry) entries),
      scheme.entryKey low < scheme.entryKey entry := fun low member =>
    lt_of_le_of_ne (le_of_mem_take_upperIndex _ _ _ ascending member)
      (absent (.inr low) (List.mem_map_of_mem (List.mem_of_mem_take member)))
  have backAbove : ∀ high ∈ entries.drop (upperIndex scheme.entryKey (scheme.entryKey entry) entries),
      scheme.entryKey entry < scheme.entryKey high := fun high member =>
    lt_of_mem_drop_upperIndex _ _ _ member
  have single : Grows scheme entry [] [Sum.inr entry] :=
    ⟨⟨[], [], rfl, rfl⟩, List.pairwise_singleton _ _,
      fun bound _ entryBound mark member => by rw [List.mem_singleton.mp member]; exact entryBound,
      fun bound _ entryBound mark member => by rw [List.mem_singleton.mp member]; exact entryBound,
      fun item member => by simp at member⟩
  have split : trace (mkLeaf (I := I) label entries) =
      (entries.take (upperIndex scheme.entryKey (scheme.entryKey entry) entries)).map Sum.inr ++
        ([] ++ (entries.drop
          (upperIndex scheme.entryKey (scheme.entryKey entry) entries)).map Sum.inr) := by
    rw [List.nil_append, ← List.map_append, List.take_append_drop]
    rfl
  rw [split] at ordered ⊢
  have grown := single.context _ _ ordered
    (fun mark member => by
      obtain ⟨low, lowMember, rfl⟩ := List.mem_map.mp member
      exact position_entry_lt_iff.mpr (frontBelow low lowMember))
    (fun mark member => by
      obtain ⟨high, highMember, rfl⟩ := List.mem_map.mp member
      exact position_entry_lt_iff.mpr (backAbove high highMember))
  simpa [insertNotFull, trace] using grown

/-- Insertion below a node that has room adds the entry to its trace. -/
theorem insertNotFull_grows (lawful : Lawful scheme) (fresh : Nat → L) (entry : E) :
    ∀ {depth low : Nat} {tree : Tree L I E depth}, Shape scheme low tree →
      width tree < scheme.maxKeys → Ordered scheme (trace tree) →
      Absent scheme (scheme.entryKey entry) (trace tree) →
      Grows scheme entry (trace tree) (trace (insertNotFull scheme fresh entry tree))
  | 0, _, leaf, _, _, ordered, absent => leaf_grows fresh entry leaf ordered absent
  | depth + 1, low, node, shape, room, ordered, absent => by
      obtain ⟨before, after, left, child, right, itemsEq, childrenEq, aligned, _, aboveKey, belowKey,
        cases⟩ := insertNotFull_cases lawful fresh entry shape
      obtain ⟨label, items, children⟩ := node
      simp only at itemsEq childrenEq belowKey
      subst itemsEq childrenEq
      obtain ⟨_, arity, childShapes⟩ := shape
      have childShape := childShapes child (by simp)
      have rightLength : right.length = after.length := by
        have lengths : (left ++ child :: right).length = (before ++ after).length + 1 := arity
        simp only [List.length_append, List.length_cons] at lengths
        omega
      have leftAligned : (left.map trace).length = (before.map (Sum.inl : I → I ⊕ E)).length := by
        simpa using aligned
      have rightAligned : (right.map trace).length = after.length := by simpa using rightLength
      -- The trace of the node as seen from the chosen child.
      have traceEq : trace (mkNode label (before ++ after) (left ++ child :: right)) =
          closed (before.map Sum.inl) (left.map trace) ++
            (trace child ++ opened (after.map Sum.inl) (right.map trace)) :=
        trace_mkNode label after child right aligned
      rw [traceEq] at ordered absent ⊢
      obtain ⟨frontOrdered, restOrdered, _⟩ := ordered_append.mp ordered
      obtain ⟨childOrdered, backOrdered, _⟩ := ordered_append.mp restOrdered
      have ascending : (before ++ after).Pairwise fun a b => scheme.itemKey a < scheme.itemKey b :=
        separators_ascending leftAligned (by simpa using rightLength) ordered
      have frontBelow : ∀ mark ∈ closed (before.map Sum.inl) (left.map trace),
          position scheme mark < position scheme (.inr entry) :=
        closed_below (by simpa using aligned) frontOrdered fun item member =>
          position_lt_of_markKey_lt (lt_of_le_of_ne (belowKey ascending item member)
            (absent (.inl item) (List.mem_append_left _
              ((sublist_closed leftAligned).subset (List.mem_map_of_mem member)))))
      have backAbove : ∀ mark ∈ opened (after.map Sum.inl) (right.map trace),
          position scheme (.inr entry) < position scheme mark :=
        opened_above rightAligned backOrdered fun item member =>
          position_lt_of_markKey_lt (aboveKey item member)
      have childAbsent : Absent scheme (scheme.entryKey entry) (trace child) := fun mark member =>
        absent mark (List.mem_append_right _ (List.mem_append_left _ member))
      rcases cases with ⟨childRoom, resultEq⟩ | ⟨full, lower, separator, upper, splitEq, halves⟩
      · have grown := insertNotFull_grows lawful fresh entry childShape childRoom childOrdered
          childAbsent
        rw [resultEq]
        simp only [trace, List.map_append, List.map_cons]
        rw [interleave_append _ _ _ leftAligned]
        exact grown.context _ _ ordered frontBelow backAbove
      · obtain ⟨_, _, _, splitEq', lowerShape, upperShape, lowerRoom, upperRoom⟩ :=
          split_full lawful (fresh depth) childShape full
        rw [splitEq] at splitEq'
        cases splitEq'
        have cut := split_recut lawful (fresh depth) childShape full splitEq childOrdered
        have cutContext := cut.context ordered
        have cutOrdered := cutContext.ordered
        have cutAbsent := cut.absent childAbsent
        obtain ⟨lowerOrdered, separatorUpper, lowerBelow⟩ := ordered_append.mp cut.ordered
        obtain ⟨separatorBelow, upperOrdered⟩ := ordered_cons.mp separatorUpper
        have separatorAbsent : scheme.itemKey separator ≠ scheme.entryKey entry :=
          cutAbsent (.inl separator) (by simp)
        have halvesTrace : ∀ first second : Tree L I E depth,
            trace (mkNode label (before ++ separator :: after) (left ++ first :: second :: right)) =
            closed (before.map Sum.inl) (left.map trace) ++
              ((trace first ++ Sum.inl separator :: trace second) ++
                opened (after.map Sum.inl) (right.map trace)) := by
          intro first second
          simp only [trace, List.map_append, List.map_cons]
          rw [interleave_append _ _ _ leftAligned, opened_cons]
          simp
        rcases halves with ⟨goesRight, resultEq⟩ | ⟨goesLeft, resultEq⟩
        · rw [resultEq, halvesTrace]
          have grown := insertNotFull_grows lawful fresh entry upperShape upperRoom upperOrdered
            fun mark member => cutAbsent mark (by simp [member])
          have separatorLow : position scheme (.inl separator) < position scheme (.inr entry) :=
            position_lt_of_markKey_lt goesRight
          have grownHalf := grown.context (trace lower ++ [Sum.inl separator]) []
            (by simpa using cut.ordered)
            (fun mark member => by
              rcases List.mem_append.mp member with inLower | here
              · exact (lowerBelow mark inLower _ (by simp)).trans separatorLow
              · rw [List.mem_singleton.mp here]; exact separatorLow)
            (fun mark member => by simp at member)
          simp only [List.append_nil, List.append_assoc, List.singleton_append] at grownHalf
          exact (grownHalf.context _ _ cutOrdered frontBelow backAbove).of_recut cutContext
        · rw [resultEq, halvesTrace]
          have grown := insertNotFull_grows lawful fresh entry lowerShape lowerRoom lowerOrdered
            fun mark member => cutAbsent mark (by simp [member])
          have separatorHigh : position scheme (.inr entry) < position scheme (.inl separator) :=
            position_lt_of_markKey_lt (lt_of_le_of_ne (not_lt.mp goesLeft) separatorAbsent.symm)
          have grownHalf := grown.context [] (Sum.inl separator :: trace upper)
            (by simpa using cut.ordered)
            (fun mark member => by simp at member)
            (fun mark member => by
              rcases List.mem_cons.mp member with here | inUpper
              · rw [here]; exact separatorHigh
              · exact separatorHigh.trans (separatorBelow mark inUpper))
          simp only [List.nil_append] at grownHalf
          exact (grownHalf.context _ _ cutOrdered frontBelow backAbove).of_recut cutContext

end StoredsBench.Lib.Multiway
