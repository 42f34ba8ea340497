/-
Module: StoredsBench.Core.ZipfianCorrectness
Layer: Correctness
Purpose: Which values a `ZipfianGenerator` returns, and what its constants are after it has grown.  Its
  first two branches leave the base out, and `Eta` goes on using the number of items of the constructor.
Trusted boundary: none
Main exports: zipfian_in_range_iff, zipfian_grows_iff
-/
import StoredsBench.Core.Zipfian

namespace StoredsBench.Core

/-! ### Zeta -/

section Zeta

variable {theta : ℝ}

theorem zeta_self (num : Nat) (theta lastZeta : ℝ) : zeta num num theta lastZeta = lastZeta := by
  rw [zeta, Nat.sub_self]
  rfl

/-- Adding the terms in two parts. -/
theorem zeta_zeta {first middle last : Nat} (below : first ≤ middle) (above : middle ≤ last)
    (theta lastZeta : ℝ) :
    zeta middle last theta (zeta first middle theta lastZeta) = zeta first last theta lastZeta := by
  have whole : List.range' (first + 1) (last - first) =
      List.range' (first + 1) (middle - first) ++ List.range' (middle + 1) (last - middle) := by
    have start : middle + 1 = first + 1 + 1 * (middle - first) := by omega
    have count : last - first = middle - first + (last - middle) := by omega
    rw [start, count, List.range'_append]
  rw [zeta, zeta, zeta, whole, List.foldl_append]

theorem zeta_succ (num : Nat) (theta lastZeta : ℝ) :
    zeta num (num + 1) theta lastZeta = lastZeta + 1 / ((num + 1 : Nat) : ℝ) ^ theta := by
  rw [zeta, Nat.add_sub_cancel_left]
  rfl

theorem zeta_two (theta : ℝ) : zeta 0 2 theta 0 = 1 + 0.5 ^ theta := by
  rw [← zeta_zeta (Nat.zero_le 1) (Nat.le_succ 1), zeta_succ, zeta_succ]
  have half : (0.5 : ℝ) = 2⁻¹ := by norm_num
  rw [half, Real.inv_rpow (by norm_num)]
  norm_num

theorem lt_zeta {first last : Nat} (below : first < last) (theta lastZeta : ℝ) :
    lastZeta < zeta first last theta lastZeta := by
  induction last with
  | zero => exact absurd below (Nat.not_lt_zero _)
  | succ last inductionHypothesis =>
      have term : 0 < 1 / ((last + 1 : Nat) : ℝ) ^ theta := by positivity
      rw [← zeta_zeta (Nat.le_of_lt_succ below) (Nat.le_succ last), zeta_succ]
      rcases Nat.lt_or_eq_of_le (Nat.le_of_lt_succ below) with earlier | same
      · linarith [inductionHypothesis earlier]
      · rw [same, zeta_self]
        linarith

theorem zeta_two_lt {num : Nat} (three : 3 ≤ num) (theta : ℝ) : zeta 0 2 theta 0 < zeta 0 num theta 0 := by
  rw [← zeta_zeta (Nat.zero_le 2) (Nat.le_of_succ_le three)]
  exact lt_zeta three theta _

theorem zeta_two_pos (theta : ℝ) : 0 < zeta 0 2 theta 0 := lt_zeta (by omega) theta 0

end Zeta

/-! ### The third branch -/

section Quantile

variable {theta eta u items : ℝ}

/-- What `Next` raises to the power `alpha`. -/
theorem quantile_eq (eta u : ℝ) : eta * u - eta + 1 = 1 - eta * (1 - u) := by ring

theorem power_root {number : ℝ} (nonneg : 0 ≤ number) (below : theta < 1) :
    (number ^ (1 - theta)) ^ (1 / (1 - theta)) = number := by
  rw [← Real.rpow_mul nonneg, mul_one_div_cancel (sub_pos.mpr below).ne', Real.rpow_one]

variable {zetaN : ℝ}

theorem denominator_pos (grown : zeta 0 2 theta 0 < zetaN) : 0 < 1 - zeta 0 2 theta 0 / zetaN := by
  have positive := (zeta_two_pos theta).trans grown
  rw [sub_pos, div_lt_one positive]
  exact grown

theorem fraction_lt_one (below : theta < 1) (many : 2 < items) : (2 / items) ^ (1 - theta) < 1 := by
  apply Real.rpow_lt_one
  · positivity
  · rw [div_lt_one (by linarith)]
    exact many
  · exact sub_pos.mpr below

theorem etaFor_pos (below : theta < 1) (many : 2 < items) (grown : zeta 0 2 theta 0 < zetaN) :
    0 < etaFor theta items zetaN :=
  div_pos (sub_pos.mpr (fraction_lt_one below many)) (denominator_pos grown)

/-- A draw of the third branch. -/
theorem rest_le (grown : zeta 0 2 theta 0 < zetaN) (third : 1 + 0.5 ^ theta ≤ u * zetaN) :
    1 - u ≤ 1 - zeta 0 2 theta 0 / zetaN := by
  have positive := (zeta_two_pos theta).trans grown
  rw [← zeta_two] at third
  have share : zeta 0 2 theta 0 / zetaN ≤ u := by
    rw [div_le_iff₀ positive]
    exact third
  linarith

/-- The third branch starts behind the first two items. -/
theorem quantile_ge (below : theta < 1) (many : 2 < items) (grown : zeta 0 2 theta 0 < zetaN)
    (third : 1 + 0.5 ^ theta ≤ u * zetaN) :
    (2 / items) ^ (1 - theta) ≤ 1 - etaFor theta items zetaN * (1 - u) := by
  have denominator := denominator_pos grown
  have product : etaFor theta items zetaN * (1 - zeta 0 2 theta 0 / zetaN) =
      1 - (2 / items) ^ (1 - theta) := div_mul_cancel₀ _ denominator.ne'
  have scaled := mul_le_mul_of_nonneg_left (rest_le grown third) (etaFor_pos below many grown).le
  linarith

theorem quantile_lt_one (below : theta < 1) (many : 2 < items) (grown : zeta 0 2 theta 0 < zetaN)
    (draw : u < 1) : 1 - etaFor theta items zetaN * (1 - u) < 1 := by
  have positive := mul_pos (etaFor_pos below many grown) (sub_pos.mpr draw)
  linarith

theorem quantile_pos (below : theta < 1) (many : 2 < items) (grown : zeta 0 2 theta 0 < zetaN)
    (third : 1 + 0.5 ^ theta ≤ u * zetaN) : 0 < 1 - etaFor theta items zetaN * (1 - u) := by
  have start : 0 < (2 / items) ^ (1 - theta) := by
    apply Real.rpow_pos_of_pos
    positivity
  exact start.trans_le (quantile_ge below many grown third)

/-- Its result is a proper share of the items. -/
theorem power_lt_one (below : theta < 1) (many : 2 < items) (grown : zeta 0 2 theta 0 < zetaN)
    (third : 1 + 0.5 ^ theta ≤ u * zetaN) (draw : u < 1) :
    (1 - etaFor theta items zetaN * (1 - u)) ^ (1 / (1 - theta)) < 1 := by
  apply Real.rpow_lt_one
  · exact (quantile_pos below many grown third).le
  · exact quantile_lt_one below many grown draw
  · exact one_div_pos.mpr (sub_pos.mpr below)

/-- Fewer items give a smaller `eta`. -/
theorem etaFor_lt {more : ℝ} (below : theta < 1) (many : 2 < items) (less : items < more)
    (grown : zeta 0 2 theta 0 < zetaN) : etaFor theta items zetaN < etaFor theta more zetaN := by
  have positive : 0 < items := by linarith
  apply div_lt_div_of_pos_right _ (denominator_pos grown)
  have shares : 2 / more < 2 / items := div_lt_div_of_pos_left two_pos positive less
  have nonneg : 0 ≤ 2 / more := (div_pos two_pos (positive.trans less)).le
  have powers := Real.rpow_lt_rpow nonneg shares (sub_pos.mpr below)
  linarith

/-- The draw at which the third branch computes the share `share` of the items. -/
noncomputable def drawFor (theta items zetaN share : ℝ) : ℝ :=
  1 - (1 - share ^ (1 - theta)) / etaFor theta items zetaN

theorem quantile_drawFor {share : ℝ} (below : theta < 1) (many : 2 < items)
    (grown : zeta 0 2 theta 0 < zetaN) :
    1 - etaFor theta items zetaN * (1 - drawFor theta items zetaN share) = share ^ (1 - theta) := by
  have positive := etaFor_pos below many grown
  rw [drawFor, sub_sub_cancel, mul_div_cancel₀ _ positive.ne']
  ring

theorem drawFor_lt_one {share : ℝ} (below : theta < 1) (many : 2 < items)
    (grown : zeta 0 2 theta 0 < zetaN) (nonneg : 0 ≤ share) (less : share < 1) :
    drawFor theta items zetaN share < 1 := by
  have power := Real.rpow_lt_one nonneg less (sub_pos.mpr below)
  have rest := div_pos (sub_pos.mpr power) (etaFor_pos below many grown)
  rw [drawFor]
  linarith

/-- It is a draw of the third branch where the share is behind the first two items. -/
theorem drawFor_third {share : ℝ} (below : theta < 1) (many : 2 < items)
    (grown : zeta 0 2 theta 0 < zetaN) (behind : 2 / items ≤ share) :
    1 + 0.5 ^ theta ≤ drawFor theta items zetaN share * zetaN := by
  have positive := (zeta_two_pos theta).trans grown
  have denominator := denominator_pos grown
  have etaPos := etaFor_pos below many grown
  have start : 0 ≤ 2 / items := by positivity
  have powers := Real.rpow_le_rpow start behind (sub_pos.mpr below).le
  have product : etaFor theta items zetaN * (1 - zeta 0 2 theta 0 / zetaN) =
      1 - (2 / items) ^ (1 - theta) := div_mul_cancel₀ _ denominator.ne'
  have rest : (1 - share ^ (1 - theta)) / etaFor theta items zetaN ≤ 1 - zeta 0 2 theta 0 / zetaN := by
    rw [div_le_iff₀ etaPos, mul_comm]
    linarith
  have draw : zeta 0 2 theta 0 / zetaN ≤ drawFor theta items zetaN share := by
    rw [drawFor]
    linarith
  rw [← zeta_two]
  exact (div_le_iff₀ positive).mp draw

end Quantile

/-! ### Generators -/

theorem kZipfianConst_lt_one : kZipfianConst < 1 := by
  rw [kZipfianConst]
  norm_num

theorem toUInt64_toNat {number : ℝ} (nonneg : 0 ≤ number) (fits : number < 2 ^ 64) :
    (toUInt64 number).toNat = ⌊number⌋₊ := by
  rw [toUInt64, UInt64.toNat_ofNat']
  apply Nat.mod_eq_of_lt
  rw [Nat.floor_lt nonneg]
  exact_mod_cast fits

namespace ZipfianGenerator

variable {generator next : ZipfianGenerator} {min max num : UInt64} {theta u : ℝ}

/-- What the constructor establishes and `Next` keeps. -/
structure Built (generator : ZipfianGenerator) (min numItems : UInt64) (theta : ℝ) : Prop where
  items : generator.numItems = numItems
  origin : generator.base = min
  const : generator.theta = theta
  alpha : generator.alpha = 1 / (1 - theta)
  zeta2 : generator.zeta2 = zeta 0 2 theta 0
  zetaN : generator.zetaN = zeta 0 generator.nForZeta.toNat theta 0
  eta : generator.eta = etaFor theta (numItems.toNat : ℝ) generator.zetaN

theorem etaOf_eq (const : generator.theta = theta) (zeta2 : generator.zeta2 = zeta 0 2 theta 0) :
    generator.etaOf = etaFor theta (generator.numItems.toNat : ℝ) generator.zetaN := by
  rw [etaOf, etaFor, const, zeta2]

/-- The constants for more items than before. -/
theorem recompute_some (more : generator.nForZeta ≤ num) (const : generator.theta = theta)
    (alpha : generator.alpha = 1 / (1 - theta)) (zeta2 : generator.zeta2 = zeta 0 2 theta 0)
    (zetaN : generator.zetaN = zeta 0 generator.nForZeta.toNat theta 0) :
    ∃ grown, generator.recompute num = some grown ∧
      Built grown generator.base generator.numItems theta ∧ grown.nForZeta = num := by
  have raised : zeta generator.nForZeta.toNat num.toNat generator.theta generator.zetaN =
      zeta 0 num.toNat theta 0 := by
    rw [const, zetaN, zeta_zeta (Nat.zero_le _) (UInt64.le_iff_toNat_le.mp more)]
  rw [recompute, raiseZeta, if_pos more]
  exact ⟨_, rfl, ⟨rfl, rfl, const, alpha, zeta2, raised, etaOf_eq const zeta2⟩, rfl⟩

/-- `Next` keeps the constants of the largest count so far. -/
theorem Built.grow {numItems : UInt64} (built : Built generator min numItems theta) (num : UInt64) :
    ∃ grown, generator.grow num = some grown ∧ Built grown min numItems theta ∧
      grown.nForZeta.toNat = Nat.max generator.nForZeta.toNat num.toNat := by
  obtain ⟨items, origin, const, alpha, zeta2, zetaN, eta⟩ := built
  rw [ZipfianGenerator.grow]
  split
  · next more =>
      have grew := UInt64.le_of_lt more
      obtain ⟨grown, recomputed, builtGrown, counted⟩ :=
        recompute_some grew const alpha zeta2 zetaN
      rw [items, origin] at builtGrown
      refine ⟨grown, recomputed, builtGrown, ?_⟩
      rw [counted]
      exact (Nat.max_eq_right (UInt64.le_iff_toNat_le.mp grew)).symm
  · next notMore =>
      refine ⟨generator, rfl, ⟨items, origin, const, alpha, zeta2, zetaN, eta⟩, ?_⟩
      exact (Nat.max_eq_left (UInt64.le_iff_toNat_le.mp (UInt64.not_lt.mp notMore))).symm

theorem Built.nextOf {numItems : UInt64} (built : Built generator min numItems theta)
    (admits : 2 ≤ num ∧ num < kMaxNumItems) (u : ℝ) :
    ∃ value next, generator.nextOf num u = some (value, next) ∧ Built next min numItems theta ∧
      next.nForZeta.toNat = Nat.max generator.nForZeta.toNat num.toNat ∧ value = next.valueOf num u := by
  obtain ⟨grown, grew, builtGrown, counted⟩ := built.grow num
  obtain ⟨items, origin, const, alpha, zeta2, zetaN, eta⟩ := builtGrown
  rw [ZipfianGenerator.nextOf, if_pos admits, grew]
  exact ⟨_, _, rfl, ⟨items, origin, const, alpha, zeta2, zetaN, eta⟩, counted, rfl⟩

/-- The counts that the assertion of the constructor admits. -/
def Admits (min max : UInt64) : Prop := 2 ≤ max - min + 1 ∧ max - min + 1 < kMaxNumItems

/-- The members before `RaiseZeta` is called. -/
noncomputable def blank (min max : UInt64) (zipfianConst : ℝ) : ZipfianGenerator where
  numItems := max - min + 1
  base := min
  theta := zipfianConst
  zetaN := 0
  eta := 0
  alpha := 1 / (1 - zipfianConst)
  zeta2 := zeta 0 2 zipfianConst 0
  nForZeta := 0
  lastValue := 0

theorem construct_eq (admits : Admits min max) (theta u : ℝ) :
    construct min max theta u = ((blank min max theta).recompute (max - min + 1)).bind fun generator =>
      (generator.next u).bind fun returned => some returned.2 :=
  if_pos admits

theorem exists_construct (admits : Admits min max) (theta u : ℝ) :
    ∃ generator, construct min max theta u = some generator ∧
      Built generator min (max - min + 1) theta ∧ generator.nForZeta = max - min + 1 := by
  have start : (blank min max theta).zetaN = zeta 0 0 theta 0 := (zeta_self 0 theta 0).symm
  have none : (blank min max theta).nForZeta ≤ max - min + 1 := UInt64.zero_le
  obtain ⟨first, recomputed, builtFirst, firstCount⟩ := recompute_some none rfl rfl rfl start
  obtain ⟨value, generator, drew, built, count, _⟩ := builtFirst.nextOf admits u
  refine ⟨generator, ?_, built, ?_⟩
  · have isNext : first.next u = some (value, generator) := by
      rw [ZipfianGenerator.next, builtFirst.items]
      exact drew
    rw [construct_eq admits, recomputed, Option.bind_some, isNext]
    rfl
  · rw [firstCount] at count
    exact UInt64.toNat_inj.mp (count.trans (Nat.max_self _))

/-- The constructor returns for the counts that its assertion admits only. -/
theorem construct_some {generator : ZipfianGenerator}
    (constructed : construct min max theta u = some generator) :
    Admits min max ∧ Built generator min (max - min + 1) theta ∧ generator.nForZeta = max - min + 1 := by
  by_cases admits : Admits min max
  · obtain ⟨other, otherConstructed, built⟩ := exists_construct admits theta u
    cases Option.some.inj (constructed.symm.trans otherConstructed)
    exact ⟨admits, built⟩
  · have nothing : construct min max theta u = none := if_neg admits
    rw [constructed] at nothing
    cases nothing

theorem valueOf_third {numItems : UInt64} (built : Built generator min numItems theta)
    (third : 1 + 0.5 ^ theta ≤ u * generator.zetaN) (num : UInt64) :
    generator.valueOf num u = toUInt64 ((min.toNat : ℝ) + num.toNat *
      (1 - etaFor theta (numItems.toNat : ℝ) generator.zetaN * (1 - u)) ^ (1 / (1 - theta))) := by
  have half : 0 < (0.5 : ℝ) ^ theta := by positivity
  have notFirst : ¬ u * generator.zetaN < 1 := by linarith
  have notSecond : ¬ u * generator.zetaN < 1 + 0.5 ^ generator.theta := by
    rw [built.const]
    exact not_lt.mpr third
  rw [valueOf]
  simp only [if_neg notFirst, if_neg notSecond]
  rw [built.origin, built.alpha, built.eta, quantile_eq]

/-- There are items behind the first two where a draw comes to the third branch. -/
theorem Built.many {numItems : UInt64} (built : Built generator min numItems theta)
    (two : 2 ≤ generator.nForZeta) (draw : u < 1) (third : 1 + 0.5 ^ theta ≤ u * generator.zetaN) :
    2 < generator.nForZeta.toNat ∧ zeta 0 2 theta 0 < generator.zetaN := by
  have twoNat : 2 ≤ generator.nForZeta.toNat := UInt64.le_iff_toNat_le.mp two
  rcases Nat.lt_or_eq_of_le twoNat with more | same
  · refine ⟨more, ?_⟩
    rw [built.zetaN]
    exact zeta_two_lt more theta
  · have positive := zeta_two_pos theta
    rw [built.zetaN, ← same, ← zeta_two] at third
    have shrunk := mul_lt_mul_of_pos_right draw positive
    linarith

/-- The third branch returns one of the items behind the first two, counted from `min` on. -/
theorem third_range {numItems : UInt64} (built : Built generator min numItems theta)
    (counted : generator.nForZeta = numItems) (below : theta < 1) (two : 2 ≤ numItems)
    (span : min.toNat + numItems.toNat = max.toNat + 1) (draw : u < 1)
    (third : 1 + 0.5 ^ theta ≤ u * generator.zetaN) :
    min ≤ generator.valueOf numItems u ∧ generator.valueOf numItems u ≤ max := by
  obtain ⟨many, grown⟩ := built.many (counted.symm ▸ two) draw third
  rw [counted] at many
  have manyReal : (2 : ℝ) < numItems.toNat := by exact_mod_cast many
  have positive := quantile_pos below manyReal grown third
  have share := power_lt_one below manyReal grown third draw
  have nonneg := Real.rpow_nonneg positive.le (1 / (1 - theta))
  set power := (1 - etaFor theta (numItems.toNat : ℝ) generator.zetaN * (1 - u)) ^ (1 / (1 - theta))
  have spanReal : (min.toNat : ℝ) + numItems.toNat = max.toNat + 1 := by exact_mod_cast span
  have product : (numItems.toNat : ℝ) * power < numItems.toNat :=
    mul_lt_of_lt_one_right (by linarith) share
  have productNonneg : 0 ≤ (numItems.toNat : ℝ) * power := mul_nonneg (by linarith) nonneg
  have numberNonneg : 0 ≤ (min.toNat : ℝ) + numItems.toNat * power :=
    add_nonneg (Nat.cast_nonneg _) productNonneg
  have upper : (min.toNat : ℝ) + numItems.toNat * power < (max.toNat + 1 : Nat) := by
    push_cast
    linarith
  have fits : ((max.toNat + 1 : Nat) : ℝ) ≤ 2 ^ 64 := by
    exact_mod_cast max.toNat_lt
  have value := toUInt64_toNat numberNonneg (upper.trans_le fits)
  rw [valueOf_third built third, UInt64.le_iff_toNat_le, UInt64.le_iff_toNat_le, value]
  constructor
  · exact Nat.le_floor (by linarith)
  · exact Nat.le_of_lt_succ ((Nat.floor_lt numberNonneg).mpr upper)

/-- A draw of a generator over `min` and `max` that stays in their range: the first branch returns 0 and
the second one 1, whatever `min` is. -/
def StaysInside (min : UInt64) (theta zetaN u : ℝ) : Prop :=
  min = 0 ∨ min = 1 ∧ 1 ≤ u * zetaN ∨ 1 + 0.5 ^ theta ≤ u * zetaN

theorem valueOf_range_iff {numItems : UInt64} (built : Built generator min numItems theta)
    (counted : generator.nForZeta = numItems) (below : theta < 1)
    (admits : 2 ≤ numItems ∧ numItems < kMaxNumItems) (span : min.toNat + numItems.toNat = max.toNat + 1)
    (draw : u < 1) :
    min ≤ generator.valueOf numItems u ∧ generator.valueOf numItems u ≤ max ↔
      StaysInside min theta generator.zetaN u := by
  have two : 2 ≤ numItems.toNat := UInt64.le_iff_toNat_le.mp admits.1
  have half : 0 < (0.5 : ℝ) ^ theta := by positivity
  by_cases first : u * generator.zetaN < 1
  · have value : generator.valueOf numItems u = 0 := if_pos first
    rw [value]
    constructor
    · rintro ⟨atLeast, _⟩
      exact Or.inl (UInt64.le_zero_iff.mp atLeast)
    · rintro (rfl | ⟨_, notFirst⟩ | third)
      · exact ⟨UInt64.zero_le, UInt64.zero_le⟩
      · linarith
      · linarith
  · by_cases second : u * generator.zetaN < 1 + 0.5 ^ theta
    · have value : generator.valueOf numItems u = 1 := by
        rw [valueOf, built.const]
        exact (if_neg first).trans (if_pos second)
      have one : (1 : UInt64).toNat = 1 := rfl
      rw [value, UInt64.le_iff_toNat_le, UInt64.le_iff_toNat_le, one]
      constructor
      · rintro ⟨atMost, _⟩
        rcases Nat.le_one_iff_eq_zero_or_eq_one.mp atMost with isZero | isOne
        · exact Or.inl (UInt64.toNat_inj.mp isZero)
        · exact Or.inr (Or.inl ⟨UInt64.toNat_inj.mp isOne, not_lt.mp first⟩)
      · rintro (rfl | ⟨rfl, _⟩ | third)
        · have zero : (0 : UInt64).toNat = 0 := rfl
          rw [zero] at span ⊢
          omega
        · rw [one] at span ⊢
          omega
        · linarith
    · constructor
      · exact fun _ => Or.inr (Or.inr (not_lt.mp second))
      · exact fun _ => third_range built counted below admits.1 span draw (not_lt.mp second)

/-- Calls of `Next()` one after another. -/
noncomputable def draw (generator : ZipfianGenerator) (draws : List ℝ) :
    Option (List UInt64 × ZipfianGenerator) :=
  generator.run (draws.map fun u => (generator.numItems, u))

theorem run_cons {value : UInt64} {values : List UInt64} {final : ZipfianGenerator}
    {calls : List (UInt64 × ℝ)} (drew : generator.nextOf num u = some (value, next))
    (ran : next.run calls = some (values, final)) :
    generator.run ((num, u) :: calls) = some (value :: values, final) := by
  simp only [run, drew, ran, Option.bind_eq_bind, Option.bind_some, Option.pure_def]

theorem span_of_admits (less : min < max) (admits : Admits min max) :
    min.toNat + (max - min + 1).toNat = max.toNat + 1 := by
  have atLeast := UInt64.le_iff_toNat_le.mp admits.1
  have lessNat := UInt64.lt_iff_toNat_lt.mp less
  have difference := UInt64.toNat_sub_of_le max min (UInt64.le_of_lt less)
  have bounded := max.toNat_lt
  have one : (1 : UInt64).toNat = 1 := rfl
  have two : (2 : UInt64).toNat = 2 := rfl
  rw [UInt64.toNat_add, difference, one, two] at atLeast
  rw [UInt64.toNat_add, difference, one]
  omega

theorem run_range_iff {numItems : UInt64} (built : Built generator min numItems theta)
    (counted : generator.nForZeta = numItems) (below : theta < 1)
    (admits : 2 ≤ numItems ∧ numItems < kMaxNumItems) (span : min.toNat + numItems.toNat = max.toNat + 1)
    (draws : List ℝ) (unit : ∀ u ∈ draws, u < 1) :
    ∃ values final, generator.run (draws.map fun u => (numItems, u)) = some (values, final) ∧
      ((∀ value ∈ values, min ≤ value ∧ value ≤ max) ↔
        ∀ u ∈ draws, StaysInside min theta (zeta 0 numItems.toNat theta 0) u) := by
  induction draws generalizing generator with
  | nil => exact ⟨[], generator, rfl, by simp⟩
  | cons u draws inductionHypothesis =>
      obtain ⟨unitFirst, unitRest⟩ := List.forall_mem_cons.mp unit
      obtain ⟨value, next, drew, builtNext, count, valueEq⟩ := built.nextOf admits u
      have countedNext : next.nForZeta = numItems := by
        rw [counted] at count
        exact UInt64.toNat_inj.mp (count.trans (Nat.max_self _))
      have inRange := valueOf_range_iff builtNext countedNext below admits span unitFirst
      rw [← valueEq, builtNext.zetaN, countedNext] at inRange
      obtain ⟨values, final, ran, rest⟩ := inductionHypothesis builtNext countedNext unitRest
      refine ⟨value :: values, final, ?_, ?_⟩
      · exact run_cons drew ran
      · rw [List.forall_mem_cons, List.forall_mem_cons, inRange, rest]

/-- The values of a generator over `min` and `max` are in this range, for any run of calls, if and only if
every draw stays inside: always for `min = 0`; for `min = 1` as long as no draw comes to the first branch;
otherwise as long as all come to the third one. -/
theorem zipfian_in_range_iff {u₀ : ℝ} (less : min < max)
    (constructed : construct min max kZipfianConst u₀ = some generator) (draws : List ℝ)
    (unit : ∀ u ∈ draws, 0 ≤ u ∧ u < 1) :
    ∃ values final, generator.draw draws = some (values, final) ∧
      ((∀ value ∈ values, min ≤ value ∧ value ≤ max) ↔
        ∀ u ∈ draws,
          StaysInside min kZipfianConst (zeta 0 (max - min + 1).toNat kZipfianConst 0) u) := by
  obtain ⟨admits, built, counted⟩ := construct_some constructed
  rw [ZipfianGenerator.draw, built.items]
  exact run_range_iff built counted kZipfianConst_lt_one admits (span_of_admits less admits) draws
    fun u member => (unit u member).2

theorem zipfian_in_range_from_zero : ∃ generator,
    construct 0 9 kZipfianConst 0 = some generator ∧
      ∃ values final, generator.draw [0, 0.5] = some (values, final) ∧
        ∀ value ∈ values, 0 ≤ value ∧ value ≤ 9 := by
  obtain ⟨generator, constructed, _⟩ :=
    exists_construct (⟨by decide, by decide⟩ : Admits 0 9) kZipfianConst 0
  obtain ⟨values, final, ran, inRange⟩ :=
    zipfian_in_range_iff (by decide) constructed [0, 0.5] (by norm_num)
  exact ⟨generator, constructed, values, final, ran, inRange.mpr fun _ _ => Or.inl rfl⟩

/-- A scan length of zero from a generator over 1 and 1000. -/
theorem zipfian_scan_length_zero : ∃ generator final,
    construct 1 1000 kZipfianConst 0 = some generator ∧ generator.draw [0] = some ([0], final) := by
  obtain ⟨generator, constructed, built, _⟩ :=
    exists_construct (⟨by decide, by decide⟩ : Admits 1 1000) kZipfianConst 0
  obtain ⟨value, next, drew, _, _, valueEq⟩ :=
    built.nextOf (⟨by decide, by decide⟩ : (2 : UInt64) ≤ 1000 - 1 + 1 ∧ 1000 - 1 + 1 < kMaxNumItems) 0
  have isZero : value = 0 := by
    rw [valueEq, valueOf, zero_mul]
    exact if_pos one_pos
  refine ⟨generator, next, constructed, ?_⟩
  rw [draw, built.items]
  exact run_cons (isZero ▸ drew) rfl

/-! ### Growing -/

section Growing

variable {n m : UInt64} {grown large : ZipfianGenerator} {u₁ u₂ : ℝ}

/-- Asked for `m` items with the same draw, both return, and the same value. -/
def SameValue (grown large : ZipfianGenerator) (m : UInt64) (u : ℝ) : Prop :=
  ∃ value next other, grown.nextOf m u = some (value, next) ∧ large.next u = some (value, other)

theorem ofItems_some {generator : ZipfianGenerator} (constructed : ofItems n u = some generator) :
    Built generator 0 n kZipfianConst ∧ generator.nForZeta = n := by
  obtain ⟨_, built, counted⟩ := construct_some constructed
  have items : n - 1 - 0 + 1 = n := by grind
  rw [items] at built counted
  exact ⟨built, counted⟩

/-- Any calls with counts up to `m` keep the constants of the largest one. -/
theorem Built.run {calls : List (UInt64 × ℝ)} {values : List UInt64} {final : ZipfianGenerator}
    (built : Built generator min n theta) (counted : generator.nForZeta ≤ m)
    (counts : ∀ call ∈ calls, call.1 ≤ m) (ran : generator.run calls = some (values, final)) :
    Built final min n theta ∧ final.nForZeta ≤ m := by
  induction calls generalizing generator values with
  | nil =>
      cases ran
      exact ⟨built, counted⟩
  | cons call calls inductionHypothesis =>
      obtain ⟨num, u⟩ := call
      obtain ⟨atMost, restCounts⟩ := List.forall_mem_cons.mp counts
      obtain ⟨⟨value, next⟩, drew, rest⟩ := Option.bind_eq_some_iff.mp ran
      obtain ⟨⟨others, last⟩, restRan, same⟩ := Option.bind_eq_some_iff.mp rest
      cases same
      have admits : 2 ≤ num ∧ num < kMaxNumItems := by
        by_contra fails
        rw [ZipfianGenerator.nextOf, if_neg fails] at drew
        cases drew
      obtain ⟨_, other, otherDrew, builtNext, count, _⟩ := built.nextOf admits u
      cases Option.some.inj (drew.symm.trans otherDrew)
      apply inductionHypothesis builtNext _ restCounts restRan
      rw [UInt64.le_iff_toNat_le, count]
      exact Nat.max_le.mpr ⟨UInt64.le_iff_toNat_le.mp counted, UInt64.le_iff_toNat_le.mp atMost⟩

/-- A call for `m` items returns what the constants for so many items give. -/
theorem exists_values {grownItems : UInt64} (built : Built grown 0 grownItems theta)
    (counted : grown.nForZeta ≤ m) (admits : 2 ≤ m ∧ m < kMaxNumItems) (u : ℝ) :
    ∃ value next, grown.nextOf m u = some (value, next) ∧ Built next 0 grownItems theta ∧
      next.nForZeta = m ∧ value = next.valueOf m u := by
  obtain ⟨value, next, drew, builtNext, count, valueEq⟩ := built.nextOf admits u
  refine ⟨value, next, drew, builtNext, ?_, valueEq⟩
  exact UInt64.toNat_inj.mp (count.trans (Nat.max_eq_right (UInt64.le_iff_toNat_le.mp counted)))

/-- The first two branches do not look at `eta`. -/
theorem valueOf_early {first second : ZipfianGenerator} {firstItems secondItems : UInt64}
    (built : Built first 0 firstItems theta) (builtSecond : Built second 0 secondItems theta)
    (counted : first.nForZeta = m) (countedSecond : second.nForZeta = m)
    (early : u * zeta 0 m.toNat theta 0 < 1 + 0.5 ^ theta) :
    first.valueOf m u = second.valueOf m u := by
  rw [← counted, ← built.zetaN] at early
  have same : second.zetaN = first.zetaN := by
    rw [built.zetaN, builtSecond.zetaN, counted, countedSecond]
  rw [valueOf, valueOf, same, built.const, builtSecond.const]
  simp only [if_pos early]

/-- The constants determine the values. -/
theorem valueOf_congr {first second : ZipfianGenerator} {numItems : UInt64}
    (built : Built first 0 numItems theta) (builtSecond : Built second 0 numItems theta)
    (counted : first.nForZeta = second.nForZeta) (num : UInt64) (u : ℝ) :
    first.valueOf num u = second.valueOf num u := by
  have same : first.zetaN = second.zetaN := by
    rw [built.zetaN, builtSecond.zetaN, counted]
  rw [valueOf, valueOf, built.eta, builtSecond.eta, built.const, builtSecond.const, built.origin,
    builtSecond.origin, built.alpha, builtSecond.alpha, same]

/-- Two numbers with the third item between them. -/
theorem toUInt64_ne {first second : ℝ} (three : 3 ≤ first) (fits : first < 2 ^ 64) (nonneg : 0 ≤ second)
    (less : second < 3) : toUInt64 first ≠ toUInt64 second := by
  intro same
  have toNat := congrArg UInt64.toNat same
  rw [toUInt64_toNat (by linarith) fits, toUInt64_toNat nonneg (by linarith)] at toNat
  have atLeast : 3 ≤ ⌊first⌋₊ := Nat.le_floor (by exact_mod_cast three)
  have atMost : ⌊second⌋₊ < 3 := (Nat.floor_lt nonneg).mpr (by exact_mod_cast less)
  omega

/-- With fewer items in `eta`, some draw of the third branch returns another value. -/
theorem exists_other_value {first second : ZipfianGenerator} (three : 3 ≤ n) (less : n < m)
    (below : theta < 1) (built : Built first 0 n theta) (builtSecond : Built second 0 m theta)
    (counted : first.nForZeta = m) (countedSecond : second.nForZeta = m) :
    ∃ u, 0 ≤ u ∧ u < 1 ∧ first.valueOf m u ≠ second.valueOf m u := by
  have threeNat : 3 ≤ n.toNat := UInt64.le_iff_toNat_le.mp three
  have lessNat : n.toNat < m.toNat := UInt64.lt_iff_toNat_lt.mp less
  have many : (2 : ℝ) < n.toNat := by exact_mod_cast threeNat
  have lessReal : (n.toNat : ℝ) < m.toNat := by exact_mod_cast lessNat
  have fits : (m.toNat : ℝ) < 2 ^ 64 := by exact_mod_cast m.toNat_lt
  have manyLarge := many.trans lessReal
  have positive : (0 : ℝ) < m.toNat := by linarith
  have same : second.zetaN = first.zetaN := by
    rw [built.zetaN, builtSecond.zetaN, counted, countedSecond]
  have grew : zeta 0 2 theta 0 < first.zetaN := by
    rw [built.zetaN, counted]
    exact zeta_two_lt (by omega) theta
  have zetaPos := (zeta_two_pos theta).trans grew
  have half : 0 < (0.5 : ℝ) ^ theta := by positivity
  have exponent := one_div_pos.mpr (sub_pos.mpr below)
  -- what a draw of the third branch gives in either generator
  have differ : ∀ u, 1 + 0.5 ^ theta ≤ u * first.zetaN → u < 1 →
      3 ≤ (m.toNat : ℝ) * (1 - etaFor theta n.toNat first.zetaN * (1 - u)) ^ (1 / (1 - theta)) →
      (m.toNat : ℝ) * (1 - etaFor theta m.toNat first.zetaN * (1 - u)) ^ (1 / (1 - theta)) < 3 →
      0 ≤ u ∧ u < 1 ∧ first.valueOf m u ≠ second.valueOf m u := by
    intro u third draw atLeast lessThree
    have drawPos : 0 ≤ u := by
      by_contra negative
      have product := mul_neg_of_neg_of_pos (not_le.mp negative) zetaPos
      linarith
    have share := mul_lt_of_lt_one_right positive (power_lt_one below many grew third draw)
    have nonneg := mul_nonneg positive.le
      (Real.rpow_nonneg (quantile_pos below manyLarge grew third).le (1 / (1 - theta)))
    have thirdSecond : 1 + 0.5 ^ theta ≤ u * second.zetaN := same ▸ third
    have zero : ((0 : UInt64).toNat : ℝ) = 0 := Nat.cast_zero
    refine ⟨drawPos, draw, ?_⟩
    rw [valueOf_third built third, valueOf_third builtSecond thirdSecond, same, zero, zero_add, zero_add]
    exact toUInt64_ne atLeast (share.trans fits) nonneg lessThree
  by_cases early : 3 / (m.toNat : ℝ) ≤ 2 / n.toNat
  · -- the draw at which the larger generator returns 2
    have share : (2 : ℝ) / m.toNat < 1 := (div_lt_one positive).mpr manyLarge
    have shareNonneg : (0 : ℝ) ≤ 2 / m.toNat := by positivity
    have third := drawFor_third below manyLarge grew (le_refl (2 / (m.toNat : ℝ)))
    refine ⟨_, differ _ third (drawFor_lt_one below manyLarge grew shareNonneg share) ?_ ?_⟩
    · have start : (0 : ℝ) ≤ 2 / n.toNat := by positivity
      have powers := Real.rpow_le_rpow (Real.rpow_nonneg start _) (quantile_ge below many grew third)
        exponent.le
      rw [power_root start below] at powers
      have scaled := mul_le_mul_of_nonneg_left (early.trans powers) positive.le
      rwa [mul_div_cancel₀ _ positive.ne'] at scaled
    · rw [quantile_drawFor below manyLarge grew, power_root shareNonneg below,
        mul_div_cancel₀ _ positive.ne']
      norm_num
  · -- the draw at which the smaller generator returns 3
    have behind : 2 / (n.toNat : ℝ) ≤ 3 / m.toNat := (not_le.mp early).le
    have share : (3 : ℝ) / m.toNat < 1 := by
      rw [div_lt_one positive]
      exact_mod_cast (by omega : 3 < m.toNat)
    have shareNonneg : (0 : ℝ) ≤ 3 / m.toNat := by positivity
    have third := drawFor_third below many grew behind
    have draw := drawFor_lt_one below many grew shareNonneg share
    refine ⟨_, differ _ third draw ?_ ?_⟩
    · rw [quantile_drawFor below many grew, power_root shareNonneg below, mul_div_cancel₀ _ positive.ne']
    · have etas := mul_lt_mul_of_pos_right (etaFor_lt below many lessReal grew) (sub_pos.mpr draw)
      have quantiles : 1 - etaFor theta m.toNat first.zetaN * (1 - drawFor theta n.toNat first.zetaN _) <
          1 - etaFor theta n.toNat first.zetaN * (1 - drawFor theta n.toNat first.zetaN _) :=
        sub_lt_sub_left etas 1
      have powers := Real.rpow_lt_rpow (quantile_pos below manyLarge grew third).le quantiles exponent
      rw [quantile_drawFor below many grew, power_root shareNonneg below] at powers
      have scaled := mul_lt_mul_of_pos_left powers positive
      rwa [mul_div_cancel₀ _ positive.ne'] at scaled

/-- Whether two calls return the same is decided by two generators with the constants for `m` items. -/
theorem exists_sameValue_iff {grownItems : UInt64} (built : Built grown 0 grownItems theta)
    (counted : grown.nForZeta ≤ m) (builtLarge : Built large 0 m theta) (countedLarge : large.nForZeta = m)
    (admits : 2 ≤ m ∧ m < kMaxNumItems) :
    ∃ first second, Built first 0 grownItems theta ∧ first.nForZeta = m ∧ Built second 0 m theta ∧
      second.nForZeta = m ∧ ∀ u, SameValue grown large m u ↔ first.valueOf m u = second.valueOf m u := by
  have atMost := UInt64.le_of_eq countedLarge
  obtain ⟨_, first, _, builtFirst, countedFirst, _⟩ := exists_values built counted admits 0
  obtain ⟨_, second, _, builtSecond, countedSecond, _⟩ := exists_values builtLarge atMost admits 0
  refine ⟨first, second, builtFirst, countedFirst, builtSecond, countedSecond, ?_⟩
  intro u
  obtain ⟨value, next, drew, builtNext, countedNext, valueEq⟩ := exists_values built counted admits u
  obtain ⟨other, otherNext, otherDrew, builtOther, countedOther, otherEq⟩ :=
    exists_values builtLarge atMost admits u
  rw [valueOf_congr builtFirst builtNext (countedFirst.trans countedNext.symm), ← valueEq,
    valueOf_congr builtSecond builtOther (countedSecond.trans countedOther.symm), ← otherEq, SameValue,
    ZipfianGenerator.next, builtLarge.items, drew, otherDrew]
  constructor
  · rintro ⟨_, _, _, isValue, isOther⟩
    cases isValue
    cases isOther
    rfl
  · rintro rfl
    exact ⟨value, next, otherNext, rfl, rfl⟩

/-- A generator over `n` items that has grown to `m` returns what one over `m` items returns, for all
draws, if and only if it did not have to grow: `Eta` uses the number of items of the constructor.  The
draws of the first two branches give the same value anyway. -/
theorem zipfian_grows_iff {small : ZipfianGenerator} {calls : List (UInt64 × ℝ)} {values : List UInt64}
    (three : 3 ≤ n) (atMost : n ≤ m) (fits : m < kMaxNumItems)
    (counts : ∀ call ∈ calls, n ≤ call.1 ∧ call.1 ≤ m) (constructed : ofItems n u₁ = some small)
    (earlier : small.run calls = some (values, grown)) (constructedLarge : ofItems m u₂ = some large) :
    ((∀ u, 0 ≤ u → u < 1 → SameValue grown large m u) ↔ n = m) ∧
      ∀ u, u * zeta 0 m.toNat kZipfianConst 0 < 1 + 0.5 ^ kZipfianConst → SameValue grown large m u := by
  obtain ⟨builtSmall, countedSmall⟩ := ofItems_some constructed
  obtain ⟨builtLarge, countedLarge⟩ := ofItems_some constructedLarge
  obtain ⟨built, counted⟩ := builtSmall.run (countedSmall ▸ atMost)
    (fun call member => (counts call member).2) earlier
  have two : (2 : UInt64) ≤ n := UInt64.le_trans (by decide) three
  obtain ⟨first, second, builtFirst, countedFirst, builtSecond, countedSecond, sameValue⟩ :=
    exists_sameValue_iff built counted builtLarge countedLarge ⟨UInt64.le_trans two atMost, fits⟩
  constructor
  · constructor
    · intro same
      by_contra different
      have lessNat : n.toNat < m.toNat := by
        apply Nat.lt_of_le_of_ne (UInt64.le_iff_toNat_le.mp atMost)
        exact fun equal => different (UInt64.toNat_inj.mp equal)
      obtain ⟨u, nonneg, draw, differs⟩ := exists_other_value three (UInt64.lt_iff_toNat_lt.mpr lessNat)
        kZipfianConst_lt_one builtFirst builtSecond countedFirst countedSecond
      exact differs ((sameValue u).mp (same u nonneg draw))
    · rintro rfl u _ _
      rw [sameValue]
      exact valueOf_congr builtFirst builtSecond (countedFirst.trans countedSecond.symm) _ u
  · intro u early
    rw [sameValue]
    exact valueOf_early builtFirst builtSecond countedFirst countedSecond early

theorem exists_ofItems (admits : 2 ≤ n ∧ n < kMaxNumItems) (u : ℝ) :
    ∃ generator, ofItems n u = some generator := by
  have items : n - 1 - 0 + 1 = n := by grind
  have counts : Admits 0 (n - 1) := by
    rw [Admits, items]
    exact admits
  obtain ⟨generator, constructed, _⟩ := exists_construct counts kZipfianConst u
  exact ⟨generator, constructed⟩

theorem zipfian_grows_four : ∃ small large, ofItems 4 0 = some small ∧ ofItems 4 0.5 = some large ∧
    ∀ u, 0 ≤ u → u < 1 → SameValue small large 4 u := by
  obtain ⟨small, constructed⟩ :=
    exists_ofItems (⟨by decide, by decide⟩ : (2 : UInt64) ≤ 4 ∧ 4 < kMaxNumItems) 0
  obtain ⟨large, constructedLarge⟩ :=
    exists_ofItems (⟨by decide, by decide⟩ : (2 : UInt64) ≤ 4 ∧ 4 < kMaxNumItems) 0.5
  have grows := zipfian_grows_iff (by decide) (UInt64.le_refl 4) (by decide) (List.forall_mem_nil _)
    constructed rfl constructedLarge
  exact ⟨small, large, constructed, constructedLarge, grows.1.mpr rfl⟩

/-- A generator over three items asked for four. -/
theorem zipfian_grown_differs : ∃ small large u, ofItems 3 0 = some small ∧ ofItems 4 0 = some large ∧
    0 ≤ u ∧ u < 1 ∧ ¬ SameValue small large 4 u := by
  obtain ⟨small, constructed⟩ :=
    exists_ofItems (⟨by decide, by decide⟩ : (2 : UInt64) ≤ 3 ∧ 3 < kMaxNumItems) 0
  obtain ⟨large, constructedLarge⟩ :=
    exists_ofItems (⟨by decide, by decide⟩ : (2 : UInt64) ≤ 4 ∧ 4 < kMaxNumItems) 0
  obtain ⟨built, counted⟩ := ofItems_some constructed
  obtain ⟨builtLarge, countedLarge⟩ := ofItems_some constructedLarge
  have atMost : small.nForZeta ≤ 4 := by
    rw [counted]
    decide
  obtain ⟨first, second, builtFirst, countedFirst, builtSecond, countedSecond, sameValue⟩ :=
    exists_sameValue_iff built atMost builtLarge countedLarge ⟨by decide, by decide⟩
  obtain ⟨u, nonneg, draw, differs⟩ := exists_other_value (UInt64.le_refl 3) (by decide)
    kZipfianConst_lt_one builtFirst builtSecond countedFirst countedSecond
  exact ⟨small, large, u, constructed, constructedLarge, nonneg, draw, fun same =>
    differs ((sameValue u).mp same)⟩

end Growing

end ZipfianGenerator

end StoredsBench.Core
