/-
Module: StoredsBench.Lib.SortedAssoc
Layer: Lib
Purpose: Association lists in strictly ascending key order, the abstract ordered map every
  ordered index refines. `upsert` is the abstract insert-or-update, `List.lookup` the abstract
  read and `fromKey` the abstract range start. The lemmas localise each operation to the middle
  of `before ++ middle ++ after` when the outer parts lie strictly on one side of the key, which
  is how a descent through a search structure is justified.
Trusted boundary: none
Main exports: Sorted, upsert, fromKey, lookup_upsert, sorted_upsert, sorted_ext, upsert_append,
  lookup_append, fromKey_append
-/
import Mathlib.Order.Lattice
import Mathlib.Order.Defs.LinearOrder
import Mathlib.Data.List.Basic
import Mathlib.Tactic.Common

namespace StoredsBench.Lib.SortedAssoc

variable {K V : Type} [LinearOrder K]

/-- Keys strictly ascending, hence pairwise distinct. -/
def Sorted (entries : List (K × V)) : Prop :=
  entries.Pairwise fun first second => first.1 < second.1

/-- Insert `key`, or overwrite its value when it is present. -/
def upsert (key : K) (value : V) : List (K × V) → List (K × V)
  | [] => [(key, value)]
  | entry :: rest =>
      if entry.1 < key then entry :: upsert key value rest
      else if entry.1 = key then (key, value) :: rest
      else (key, value) :: entry :: rest

/-- The entries from the first key that is not below `key`. -/
def fromKey (key : K) (entries : List (K × V)) : List (K × V) :=
  entries.dropWhile fun entry => entry.1 < key

@[simp] theorem sorted_nil : Sorted ([] : List (K × V)) := List.Pairwise.nil

@[simp] theorem sorted_cons {entry : K × V} {rest : List (K × V)} :
    Sorted (entry :: rest) ↔ (∀ other ∈ rest, entry.1 < other.1) ∧ Sorted rest :=
  List.pairwise_cons

theorem sorted_append {before after : List (K × V)} :
    Sorted (before ++ after) ↔
      Sorted before ∧ Sorted after ∧ ∀ low ∈ before, ∀ high ∈ after, low.1 < high.1 :=
  List.pairwise_append

/-- Only the keys matter for the order. -/
theorem sorted_replace {before after : List (K × V)} {entry : K × V} (value : V)
    (sorted : Sorted (before ++ entry :: after)) : Sorted (before ++ (entry.1, value) :: after) := by
  obtain ⟨beforeSorted, restSorted, across⟩ := sorted_append.mp sorted
  obtain ⟨above, afterSorted⟩ := sorted_cons.mp restSorted
  refine sorted_append.mpr ⟨beforeSorted, sorted_cons.mpr ⟨above, afterSorted⟩, ?_⟩
  intro low lowMember high highMember
  rcases List.mem_cons.mp highMember with rfl | inAfter
  · exact across low lowMember entry List.mem_cons_self
  · exact across low lowMember high (List.mem_cons_of_mem entry inAfter)

theorem lookup_cons (key : K) (entry : K × V) (rest : List (K × V)) :
    (entry :: rest).lookup key = if key = entry.1 then some entry.2 else rest.lookup key := by
  by_cases same : key = entry.1
  · rw [if_pos same, same]
    exact List.lookup_cons_self
  · have skip : (key == entry.1) = false := beq_false_of_ne same
    rw [if_neg same]
    show (match key == entry.1 with | true => some entry.2 | false => rest.lookup key) = _
    rw [skip]

/-! ### Reading after an upsert -/

theorem lookup_upsert_self (key : K) (value : V) (entries : List (K × V)) :
    (upsert key value entries).lookup key = some value := by
  induction entries with
  | nil => simp [upsert]
  | cons entry rest inductionHypothesis =>
      by_cases below : entry.1 < key
      · simp [upsert, below, lookup_cons, below.ne', inductionHypothesis]
      · by_cases same : entry.1 = key <;> simp [upsert, below, same]

theorem lookup_upsert_of_ne {key other : K} (different : other ≠ key) (value : V)
    (entries : List (K × V)) :
    (upsert key value entries).lookup other = entries.lookup other := by
  induction entries with
  | nil => simp [upsert, lookup_cons, different]
  | cons entry rest inductionHypothesis =>
      by_cases below : entry.1 < key
      · simp [upsert, below, lookup_cons, inductionHypothesis]
      · by_cases same : entry.1 = key
        · simp [upsert, same, lookup_cons, different]
        · simp [upsert, below, same, lookup_cons, different]

theorem lookup_upsert (key other : K) (value : V) (entries : List (K × V)) :
    (upsert key value entries).lookup other =
      if other = key then some value else entries.lookup other := by
  by_cases same : other = key
  · subst same
    simp [lookup_upsert_self]
  · simp [same, lookup_upsert_of_ne same]

/-! ### Keys of an upsert -/

theorem mem_upsert {key : K} {value : V} {entries : List (K × V)} {entry : K × V}
    (member : entry ∈ upsert key value entries) : entry = (key, value) ∨ entry ∈ entries := by
  induction entries with
  | nil => simpa [upsert] using member
  | cons head rest inductionHypothesis =>
      rw [upsert] at member
      split at member
      · rcases List.mem_cons.mp member with here | later
        · exact Or.inr (by simp [here])
        · rcases inductionHypothesis later with new | old
          · exact Or.inl new
          · exact Or.inr (List.mem_cons_of_mem head old)
      · split at member
        · rcases List.mem_cons.mp member with here | later
          · exact Or.inl here
          · exact Or.inr (List.mem_cons_of_mem head later)
        · rcases List.mem_cons.mp member with here | later
          · exact Or.inl here
          · exact Or.inr later

theorem sorted_upsert {key : K} {value : V} {entries : List (K × V)} (sorted : Sorted entries) :
    Sorted (upsert key value entries) := by
  induction entries with
  | nil => simp [upsert]
  | cons head rest inductionHypothesis =>
      obtain ⟨headBelow, restSorted⟩ := sorted_cons.mp sorted
      rw [upsert]
      split
      · rename_i below
        refine sorted_cons.mpr ⟨?_, inductionHypothesis restSorted⟩
        intro other member
        rcases mem_upsert member with new | old
        · rw [new]; exact below
        · exact headBelow other old
      · rename_i notBelow
        split
        · rename_i same
          exact sorted_cons.mpr ⟨fun other member => same ▸ headBelow other member, restSorted⟩
        · rename_i different
          have above : key < head.1 := lt_of_le_of_ne (not_lt.mp notBelow) (Ne.symm different)
          refine sorted_cons.mpr ⟨?_, sorted⟩
          intro other member
          rcases List.mem_cons.mp member with here | later
          · rw [here]; exact above
          · exact above.trans (headBelow other later)

theorem upsert_ne_nil (key : K) (value : V) (entries : List (K × V)) :
    upsert key value entries ≠ [] := by
  cases entries with
  | nil => simp [upsert]
  | cons head rest => rw [upsert]; split <;> [simp; (split <;> simp)]

/-! ### Localising an operation between strictly smaller and strictly larger keys -/

theorem upsert_append_of_lt {key : K} (value : V) {before : List (K × V)} (after : List (K × V))
    (below : ∀ entry ∈ before, entry.1 < key) :
    upsert key value (before ++ after) = before ++ upsert key value after := by
  induction before with
  | nil => rfl
  | cons head rest inductionHypothesis =>
      simp only [List.cons_append, upsert, below head (by simp), if_true]
      rw [inductionHypothesis fun entry member => below entry (List.mem_cons_of_mem head member)]

theorem upsert_of_forall_gt {key : K} (value : V) {after : List (K × V)}
    (above : ∀ entry ∈ after, key < entry.1) :
    upsert key value after = (key, value) :: after := by
  cases after with
  | nil => rfl
  | cons head rest =>
      have headAbove := above head (by simp)
      simp [upsert, headAbove.not_gt, headAbove.ne']

/-- A key absent from the list is spliced in at its ordered position. -/
theorem upsert_insert {key : K} (value : V) {before after : List (K × V)}
    (below : ∀ entry ∈ before, entry.1 < key) (above : ∀ entry ∈ after, key < entry.1) :
    upsert key value (before ++ after) = before ++ (key, value) :: after := by
  rw [upsert_append_of_lt value after below, upsert_of_forall_gt value above]

/-- A key present in the list keeps its position and changes its value. -/
theorem upsert_update {key : K} (old value : V) {before after : List (K × V)}
    (below : ∀ entry ∈ before, entry.1 < key) :
    upsert key value (before ++ (key, old) :: after) = before ++ (key, value) :: after := by
  rw [upsert_append_of_lt value _ below]
  simp [upsert]

theorem lookup_eq_none_of_forall_ne {key : K} {entries : List (K × V)}
    (different : ∀ entry ∈ entries, entry.1 ≠ key) : entries.lookup key = none := by
  induction entries with
  | nil => rfl
  | cons head rest inductionHypothesis =>
      rw [lookup_cons, if_neg (different head (by simp)).symm]
      exact inductionHypothesis fun entry member =>
        different entry (List.mem_cons_of_mem head member)

theorem lookup_append_of_forall_ne {key : K} {before : List (K × V)} (after : List (K × V))
    (different : ∀ entry ∈ before, entry.1 ≠ key) :
    (before ++ after).lookup key = after.lookup key := by
  induction before with
  | nil => rfl
  | cons head rest inductionHypothesis =>
      rw [List.cons_append, lookup_cons, if_neg (different head (by simp)).symm]
      exact inductionHypothesis fun entry member =>
        different entry (List.mem_cons_of_mem head member)

/-- Only the middle part can hold the key. -/
theorem lookup_middle {key : K} {before middle after : List (K × V)}
    (below : ∀ entry ∈ before, entry.1 < key) (above : ∀ entry ∈ after, key < entry.1) :
    (before ++ (middle ++ after)).lookup key = middle.lookup key := by
  rw [lookup_append_of_forall_ne _ fun entry member => (below entry member).ne]
  have afterNone : after.lookup key = none :=
    lookup_eq_none_of_forall_ne fun entry member => (above entry member).ne'
  induction middle with
  | nil => simpa using afterNone
  | cons head rest inductionHypothesis =>
      rw [List.cons_append, lookup_cons, lookup_cons, inductionHypothesis]

/-- The entry found by `lookup` is in the list. -/
theorem mem_of_lookup_eq_some {key : K} {value : V} {entries : List (K × V)}
    (found : entries.lookup key = some value) : (key, value) ∈ entries := by
  induction entries with
  | nil => simp at found
  | cons head rest inductionHypothesis =>
      rw [lookup_cons] at found
      by_cases same : key = head.1
      · rw [if_pos same, Option.some.injEq] at found
        simp [same, ← found]
      · rw [if_neg same] at found
        exact List.mem_cons_of_mem head (inductionHypothesis found)

/-- In a sorted list every entry is the one found for its key. -/
theorem lookup_of_mem {key : K} {value : V} {entries : List (K × V)} (sorted : Sorted entries)
    (member : (key, value) ∈ entries) : entries.lookup key = some value := by
  obtain ⟨before, after, rfl⟩ := List.append_of_mem member
  have below := (sorted_append.mp sorted).2.2
  rw [lookup_append_of_forall_ne _ fun entry earlier =>
    (below entry earlier (key, value) List.mem_cons_self).ne, lookup_cons, if_pos rfl]

/-- A sorted list is determined by what it holds for every key. -/
theorem sorted_ext {first second : List (K × V)} (firstSorted : Sorted first)
    (secondSorted : Sorted second) (same : ∀ key, first.lookup key = second.lookup key) :
    first = second := by
  have distinct : ∀ {entries : List (K × V)}, Sorted entries → entries.Nodup := fun sorted =>
    sorted.imp fun below same => below.ne (congrArg Prod.fst same)
  have alike : first.Perm second := by
    rw [List.perm_ext_iff_of_nodup (distinct firstSorted) (distinct secondSorted)]
    rintro ⟨key, value⟩
    constructor
    · intro member
      exact mem_of_lookup_eq_some ((same key).symm.trans (lookup_of_mem firstSorted member))
    · intro member
      exact mem_of_lookup_eq_some ((same key).trans (lookup_of_mem secondSorted member))
  apply alike.eq_of_pairwise _ firstSorted secondSorted
  intro one other _ _ below above
  exact absurd (below.trans above) (lt_irrefl _)

theorem fromKey_append_of_lt {key : K} {before : List (K × V)} (after : List (K × V))
    (below : ∀ entry ∈ before, entry.1 < key) :
    fromKey key (before ++ after) = fromKey key after := by
  unfold fromKey
  exact List.dropWhile_append_of_pos fun entry member => by simpa using below entry member

theorem fromKey_of_forall_ge {key : K} {after : List (K × V)}
    (above : ∀ entry ∈ after, key ≤ entry.1) : fromKey key after = after := by
  cases after with
  | nil => rfl
  | cons head rest => simp [fromKey, not_lt.mpr (above head (by simp))]

theorem fromKey_append_of_ge {key : K} (before : List (K × V)) {after : List (K × V)}
    (above : ∀ entry ∈ after, key ≤ entry.1) :
    fromKey key (before ++ after) = fromKey key before ++ after := by
  induction before with
  | nil => exact fromKey_of_forall_ge above
  | cons head rest inductionHypothesis =>
      unfold fromKey at inductionHypothesis ⊢
      rw [List.cons_append, List.dropWhile_cons, List.dropWhile_cons]
      split
      · exact inductionHypothesis
      · rfl

/-- In a sorted list the entries from a key on are those with a key that is not below it. -/
theorem fromKey_eq_filter {key : K} {entries : List (K × V)} (sorted : Sorted entries) :
    fromKey key entries = entries.filter fun entry => key ≤ entry.1 := by
  induction entries with
  | nil => rfl
  | cons head rest inductionHypothesis =>
      obtain ⟨headBelow, restSorted⟩ := sorted_cons.mp sorted
      unfold fromKey at inductionHypothesis ⊢
      rw [List.dropWhile_cons, List.filter_cons]
      by_cases below : head.1 < key
      · simp only [below, decide_true, if_true, not_le.mpr below, decide_false,
          Bool.false_eq_true, if_false]
        exact inductionHypothesis restSorted
      · have kept : rest.filter (fun entry => decide (key ≤ entry.1)) = rest :=
          List.filter_eq_self.mpr fun entry member =>
            decide_eq_true ((not_lt.mp below).trans (headBelow entry member).le)
        simp [below, not_lt.mp below, kept]

end StoredsBench.Lib.SortedAssoc
