/-
Module: StoredsBench.Lib.Slices
Layer: Lib
Purpose: The half-open slices that a list of widths cuts off a line one after another, from zero on.
  Every point below the sum of the widths is in exactly one of them.
Trusted boundary: none
Main exports: offset, InSlice, InSlice.bound, InSlice.unique, exists_slice, InSlice.in_range
-/
import Mathlib.Algebra.Order.BigOperators.Group.List
import Mathlib.Algebra.Order.Group.Basic
import Mathlib.Algebra.Order.Sub.Basic

namespace StoredsBench.Lib

variable {Length : Type*} [AddCommGroup Length]

/-- Where the slice with this number starts. -/
def offset (widths : List Length) (number : Nat) : Length := (widths.take number).sum

@[simp] theorem offset_zero (widths : List Length) : offset widths 0 = 0 := rfl

@[simp] theorem offset_cons_succ (width : Length) (widths : List Length) (number : Nat) :
    offset (width :: widths) (number + 1) = width + offset widths number := by
  simp only [offset, List.take_succ_cons, List.sum_cons]

variable [LinearOrder Length]

/-- The point is in the slice with this number. -/
def InSlice (widths : List Length) (number : Nat) (point : Length) : Prop :=
  offset widths number ≤ point ∧ point < offset widths (number + 1)

theorem inSlice_cons_zero {width : Length} {widths : List Length} {point : Length} :
    InSlice (width :: widths) 0 point ↔ 0 ≤ point ∧ point < width := by
  simp only [InSlice, offset_zero, offset_cons_succ, add_zero]

/-- A slice has a number of the list. -/
theorem InSlice.bound {widths : List Length} {number : Nat} {point : Length}
    (inside : InSlice widths number point) : number < widths.length := by
  by_contra beyond
  have behind : widths.length ≤ number := Nat.le_of_not_lt beyond
  have ended : offset widths number = offset widths (number + 1) := by
    simp only [offset, List.take_of_length_le behind, List.take_of_length_le (Nat.le_succ_of_le behind)]
  exact absurd (lt_of_le_of_lt inside.1 inside.2) (by simp only [ended, lt_self_iff_false, not_false_iff])

variable [IsOrderedAddMonoid Length]

theorem inSlice_cons_succ {width : Length} {widths : List Length} {number : Nat} {point : Length} :
    InSlice (width :: widths) (number + 1) point ↔ InSlice widths number (point - width) := by
  simp only [InSlice, offset_cons_succ, le_sub_iff_add_le', sub_lt_iff_lt_add']

theorem offset_nonneg {widths : List Length} (nonneg : ∀ width ∈ widths, 0 ≤ width) (number : Nat) :
    0 ≤ offset widths number := by
  apply List.sum_nonneg
  intro width member
  exact nonneg width (List.mem_of_mem_take member)

/-- Slices do not overlap. -/
theorem InSlice.unique {widths : List Length} (nonneg : ∀ width ∈ widths, 0 ≤ width)
    {first second : Nat} {point : Length} (one : InSlice widths first point)
    (other : InSlice widths second point) : first = second := by
  induction widths generalizing first second point with
  | nil => exact absurd one.bound (Nat.not_lt_zero first)
  | cons width widths inductionHypothesis =>
      have rest : ∀ later ∈ widths, 0 ≤ later := fun later member =>
        nonneg later (List.mem_cons_of_mem width member)
      -- What is in the first slice is below its width, what is in a later one is not.
      have apart : ∀ {number}, InSlice (width :: widths) 0 point →
          ¬ InSlice (width :: widths) (number + 1) point := by
        intro number here there
        have above := (offset_nonneg rest number).trans (inSlice_cons_succ.mp there).1
        exact absurd (inSlice_cons_zero.mp here).2 (not_lt.mpr (sub_nonneg.mp above))
      cases first with
      | zero =>
          cases second with
          | zero => rfl
          | succ second => exact absurd other (apart one)
      | succ first =>
          cases second with
          | zero => exact absurd one (apart other)
          | succ second =>
              have same := inductionHypothesis rest (inSlice_cons_succ.mp one) (inSlice_cons_succ.mp other)
              rw [same]

/-- The slices leave no gap. -/
theorem exists_slice {widths : List Length} {point : Length} (above : 0 ≤ point)
    (below : point < widths.sum) : ∃ number, InSlice widths number point := by
  induction widths generalizing point with
  | nil => exact absurd below (not_lt.mpr above)
  | cons width widths inductionHypothesis =>
      rcases lt_or_ge point width with inside | beyond
      · exact ⟨0, inSlice_cons_zero.mpr ⟨above, inside⟩⟩
      · have shorter : point - width < widths.sum := by
          rw [List.sum_cons] at below
          exact sub_lt_iff_lt_add'.mpr below
        obtain ⟨number, slice⟩ := inductionHypothesis (sub_nonneg.mpr beyond) shorter
        exact ⟨number + 1, inSlice_cons_succ.mpr slice⟩

/-- A slice is a part of the line from zero to the sum. -/
theorem InSlice.in_range {widths : List Length} (nonneg : ∀ width ∈ widths, 0 ≤ width) {number : Nat}
    {point : Length} (inside : InSlice widths number point) : 0 ≤ point ∧ point < widths.sum := by
  constructor
  · exact (offset_nonneg nonneg number).trans inside.1
  · have split := List.sum_take_add_sum_drop widths (number + 1)
    have rest : 0 ≤ (widths.drop (number + 1)).sum := by
      apply List.sum_nonneg
      intro width member
      exact nonneg width (List.mem_of_mem_drop member)
    calc
      point < offset widths (number + 1) := inside.2
      _ ≤ offset widths (number + 1) + (widths.drop (number + 1)).sum := le_add_of_nonneg_right rest
      _ = widths.sum := split

end StoredsBench.Lib
