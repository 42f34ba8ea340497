/-
Module: StoredsBench.Core.Zipfian
Layer: Model
Purpose: `ZipfianGenerator` of `core/zipfian_generator.h` in exact real arithmetic: `double` stands for the
  real numbers, and what `RandomDouble` returns is an argument.
Trusted boundary: human-reviewed spec
Main exports: kZipfianConst, kMaxNumItems, zeta, etaFor, ZipfianGenerator, ZipfianGenerator.construct,
  ZipfianGenerator.nextOf, ZipfianGenerator.next, ZipfianGenerator.run
-/
import Mathlib.Analysis.SpecialFunctions.Pow.Real

namespace StoredsBench.Core

/-- `kZipfianConst`. -/
noncomputable def kZipfianConst : ℝ := 0.99

/-- `kMaxNumItems`: `UINT64_MAX >> 24`. -/
def kMaxNumItems : UInt64 := (0xffffffffffffffff : UInt64) >>> 24

/-- `Zeta`: adds the terms from `last_num + 1` to `cur_num`. -/
noncomputable def zeta (lastNum curNum : Nat) (theta lastZeta : ℝ) : ℝ :=
  (List.range' (lastNum + 1) (curNum - lastNum)).foldl (fun zeta (i : Nat) => zeta + 1 / (i : ℝ) ^ theta)
    lastZeta

/-- `Eta` for so many items, with constants for as many as `zetaN` counts. -/
noncomputable def etaFor (theta items zetaN : ℝ) : ℝ :=
  (1 - (2 / items) ^ (1 - theta)) / (1 - zeta 0 2 theta 0 / zetaN)

/-- `static_cast<uint64_t>`: what is behind the point is cut off. -/
noncomputable def toUInt64 (number : ℝ) : UInt64 := UInt64.ofNat ⌊number⌋₊

/-- `ZipfianGenerator`. -/
structure ZipfianGenerator where
  numItems : UInt64
  base : UInt64
  theta : ℝ
  zetaN : ℝ
  eta : ℝ
  alpha : ℝ
  zeta2 : ℝ
  nForZeta : UInt64
  lastValue : UInt64

namespace ZipfianGenerator

/-- `RaiseZeta`; `none` where its assertion fails. -/
noncomputable def raiseZeta (generator : ZipfianGenerator) (num : UInt64) : Option ZipfianGenerator :=
  if num ≥ generator.nForZeta then
    some { generator with
      zetaN := zeta generator.nForZeta.toNat num.toNat generator.theta generator.zetaN
      nForZeta := num }
  else none

/-- `Eta`. -/
noncomputable def etaOf (generator : ZipfianGenerator) : ℝ :=
  (1 - (2 / (generator.numItems.toNat : ℝ)) ^ (1 - generator.theta)) /
    (1 - generator.zeta2 / generator.zetaN)

/-- `RaiseZeta` and `Eta` together. -/
noncomputable def recompute (generator : ZipfianGenerator) (num : UInt64) : Option ZipfianGenerator :=
  (generator.raiseZeta num).map fun raised => { raised with eta := raised.etaOf }

/-- What `Next` does where there are more items than before. -/
noncomputable def grow (generator : ZipfianGenerator) (num : UInt64) : Option ZipfianGenerator :=
  if num > generator.nForZeta then generator.recompute num else some generator

/-- The value that `Next` computes from its draw. -/
noncomputable def valueOf (generator : ZipfianGenerator) (num : UInt64) (u : ℝ) : UInt64 :=
  let uz := u * generator.zetaN
  if uz < 1 then 0
  else if uz < 1 + 0.5 ^ generator.theta then 1
  else
    toUInt64 ((generator.base.toNat : ℝ) +
      num.toNat * (generator.eta * u - generator.eta + 1) ^ generator.alpha)

/-- `Next(num)` with the draw `u`; `none` where an assertion fails. -/
noncomputable def nextOf (generator : ZipfianGenerator) (num : UInt64) (u : ℝ) :
    Option (UInt64 × ZipfianGenerator) :=
  if 2 ≤ num ∧ num < kMaxNumItems then
    (generator.grow num).map fun grown =>
      (grown.valueOf num u, { grown with lastValue := grown.valueOf num u })
  else none

/-- `Next()`. -/
noncomputable def next (generator : ZipfianGenerator) (u : ℝ) : Option (UInt64 × ZipfianGenerator) :=
  generator.nextOf generator.numItems u

/-- The constructor over `min` and `max`, with the draw of its call of `Next`. -/
noncomputable def construct (min max : UInt64) (zipfianConst u : ℝ) : Option ZipfianGenerator :=
  let generator : ZipfianGenerator := {
    numItems := max - min + 1
    base := min
    theta := zipfianConst
    zetaN := 0
    eta := 0
    alpha := 1 / (1 - zipfianConst)
    zeta2 := zeta 0 2 zipfianConst 0
    nForZeta := 0
    lastValue := 0 }
  if 2 ≤ generator.numItems ∧ generator.numItems < kMaxNumItems then do
    let generator ← generator.recompute generator.numItems
    let (_, generator) ← generator.next u
    return generator
  else none

/-- The constructor over so many items. -/
noncomputable def ofItems (numItems : UInt64) (u : ℝ) : Option ZipfianGenerator :=
  construct 0 (numItems - 1) kZipfianConst u

/-- Calls of `Next` one after another, each with its count and its draw: the values they return, and the
generator behind them. -/
noncomputable def run : ZipfianGenerator → List (UInt64 × ℝ) →
    Option (List UInt64 × ZipfianGenerator)
  | generator, [] => some ([], generator)
  | generator, (num, u) :: calls => do
      let (value, generator) ← generator.nextOf num u
      let (values, generator) ← run generator calls
      return (value :: values, generator)

end ZipfianGenerator

end StoredsBench.Core
