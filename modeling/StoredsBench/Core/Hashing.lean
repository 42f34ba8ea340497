/-
Module: StoredsBench.Core.Hashing
Layer: Refinement
Purpose: `FNVHash64` tells numbers below `2 ^ 32` apart.  Two such numbers differ in their first four
  octets only, which change the hash by little before each multiplication with the prime
  `2 ^ 40 + 435`; the powers of the prime keep these changes apart.  The other rounds are injective.
Trusted boundary: none
Main exports: fnvRound_injective, octets_eq, fnvHash64_injective
-/
import StoredsBench.Core.Utils
import Mathlib.Data.Nat.Bitwise

namespace StoredsBench.Core

/-! ### Single rounds -/

/-- The prime is odd, so that multiplication with it can be undone. -/
theorem mul_prime_cancel {first second : UInt64} (same : first * kFNVPrime64 = second * kFNVPrime64) :
    first = second := by
  have inverse : kFNVPrime64 * 0xce965057aff6957b = 1 := by decide
  have undone : first * kFNVPrime64 * 0xce965057aff6957b =
      second * kFNVPrime64 * 0xce965057aff6957b := by rw [same]
  rwa [UInt64.mul_assoc, UInt64.mul_assoc, inverse, UInt64.mul_one, UInt64.mul_one] at undone

theorem xor_cancel {first second octet : UInt64} (same : first ^^^ octet = second ^^^ octet) :
    first = second := by
  have undone : first ^^^ octet ^^^ octet = second ^^^ octet ^^^ octet := by rw [same]
  rwa [UInt64.xor_assoc, UInt64.xor_assoc, UInt64.xor_self, UInt64.xor_zero, UInt64.xor_zero] at undone

theorem fnvRound_injective {first second octet : UInt64}
    (same : fnvRound first octet = fnvRound second octet) : first = second :=
  xor_cancel (mul_prime_cancel same)

theorem fnvStep_zero (hash : UInt64) : fnvStep ⟨0, hash⟩ = ⟨0, fnvRound hash 0⟩ := by
  have shifted : (0 : UInt64) >>> 8 = 0 := by decide
  have octet : (0 : UInt64) &&& 0x00ff = 0 := by decide
  simp only [fnvStep, shifted, octet]

/-- The rounds for the octets of zero. -/
theorem fnvLoop_zero_injective (rounds : Nat) {first second : UInt64}
    (same : (fnvLoop rounds ⟨0, first⟩).hash = (fnvLoop rounds ⟨0, second⟩).hash) : first = second := by
  induction rounds generalizing first second with
  | zero => exact same
  | succ rounds inductionHypothesis =>
      rw [fnvLoop, fnvLoop, fnvStep_zero, fnvStep_zero] at same
      exact fnvRound_injective (inductionHypothesis same)

/-- An octet changes the lowest byte of the hash only. -/
theorem xor_octet (hash octet : UInt64) (small : octet.toNat < 256) :
    (hash ^^^ octet).toNat / 256 = hash.toNat / 256 := by
  have none : octet.toNat >>> 8 = 0 := by
    rw [Nat.shiftRight_eq_div_pow]
    omega
  have shifted : (hash.toNat ^^^ octet.toNat) >>> 8 = hash.toNat >>> 8 := by
    rw [Nat.shiftRight_xor_distrib, none, Nat.xor_zero]
  rwa [Nat.shiftRight_eq_div_pow, Nat.shiftRight_eq_div_pow, ← UInt64.toNat_xor] at shifted

/-- Multiplication wraps around. -/
theorem mul_prime (hash : UInt64) :
    ∃ wraps : Int, ((hash * kFNVPrime64).toNat : Int) =
      1099511628211 * hash.toNat - 18446744073709551616 * wraps := by
  refine ⟨(hash.toNat * 1099511628211 / 2 ^ 64 : Nat), ?_⟩
  have division := Nat.div_add_mod (hash.toNat * 1099511628211) (2 ^ 64)
  have prime : kFNVPrime64.toNat = 1099511628211 := rfl
  rw [UInt64.toNat_mul, prime]
  push_cast
  omega

/-! ### Four rounds -/

/-- The difference of two hashes with an octet in each, and behind the round.  The octets change it by
little, and by less when the hashes are equal. -/
theorem round_difference (first second octet other : UInt64) (small : octet.toNat < 256)
    (otherSmall : other.toNat < 256) :
    ∃ change wraps : Int,
      ((first ^^^ octet).toNat : Int) - (second ^^^ other).toNat =
        first.toNat - second.toNat + change ∧
      ((fnvRound first octet).toNat : Int) - (fnvRound second other).toNat =
        1099511628211 * (first.toNat - second.toNat + change) - 18446744073709551616 * wraps ∧
      (-510 ≤ change ∧ change ≤ 510) ∧ (first = second → -255 ≤ change ∧ change ≤ 255) := by
  have firstHigh := xor_octet first octet small
  have secondHigh := xor_octet second other otherSmall
  obtain ⟨firstWraps, firstProduct⟩ := mul_prime (first ^^^ octet)
  obtain ⟨secondWraps, secondProduct⟩ := mul_prime (second ^^^ other)
  obtain ⟨change, changeEq⟩ : ∃ change : Int, change =
      ((first ^^^ octet).toNat : Int) - (second ^^^ other).toNat - (first.toNat - second.toNat) :=
    ⟨_, rfl⟩
  refine ⟨change, firstWraps - secondWraps, ?_, ?_, ?_, ?_⟩
  · omega
  · rw [fnvRound, fnvRound, firstProduct, secondProduct]
    omega
  · omega
  · rintro rfl
    omega

/-- Four small changes, spread by the powers of the prime, vanish together only. -/
theorem changes_eq_zero {first second third fourth wraps : Int}
    (firstBound : -255 ≤ first ∧ first ≤ 255) (secondBound : -510 ≤ second ∧ second ≤ 510)
    (thirdBound : -510 ≤ third ∧ third ≤ 510) (fourthBound : -510 ≤ fourth ∧ fourth ≤ 510)
    (sum : 1099511627776 * (567675 * first + 870 * second + third) +
      (82312875 * first + 189225 * second + 435 * third + fourth) = 18446744073709551616 * wraps) :
    first = 0 ∧ second = 0 ∧ third = 0 ∧ fourth = 0 := by
  have low : 82312875 * first + 189225 * second + 435 * third + fourth = 0 := by omega
  have high : 567675 * first + 870 * second + third = 16777216 * wraps := by omega
  -- The low part makes each change a multiple of 435 up to the one before it.
  obtain ⟨a, rfl⟩ : ∃ a, fourth = 435 * a := ⟨-(189225 * first + 435 * second + third), by omega⟩
  obtain ⟨b, rfl⟩ : ∃ b, third = 435 * b - a := ⟨-(435 * first + second), by omega⟩
  obtain rfl : second = -435 * first - b := by omega
  have smallA : -1 ≤ a ∧ a ≤ 1 := by omega
  have smallB : -1 ≤ b ∧ b ≤ 1 := by omega
  have smallFirst : -1 ≤ first ∧ first ≤ 1 := by omega
  have none : wraps = 0 := by omega
  omega

/-- Equal hashes with equal octets. -/
theorem octet_eq {hash octet other : UInt64}
    (same : ((hash ^^^ octet).toNat : Int) - (hash ^^^ other).toNat = 0) : octet = other := by
  have xorEq : hash ^^^ octet = hash ^^^ other := UInt64.toNat_inj.mp (by omega)
  rw [UInt64.xor_comm hash, UInt64.xor_comm hash] at xorEq
  exact xor_cancel xorEq

/-- Four rounds from one hash to one hash take the same octets. -/
theorem octets_eq {hash a b c d a' b' c' d' : UInt64} (smallA : a.toNat < 256) (smallB : b.toNat < 256)
    (smallC : c.toNat < 256) (smallD : d.toNat < 256) (smallA' : a'.toNat < 256)
    (smallB' : b'.toNat < 256) (smallC' : c'.toNat < 256) (smallD' : d'.toNat < 256)
    (same : fnvRound (fnvRound (fnvRound (fnvRound hash a) b) c) d =
      fnvRound (fnvRound (fnvRound (fnvRound hash a') b') c') d') :
    a = a' ∧ b = b' ∧ c = c' ∧ d = d' := by
  obtain ⟨first, firstWraps, firstEq, firstRound, _, firstBound⟩ :=
    round_difference hash hash a a' smallA smallA'
  obtain ⟨second, secondWraps, secondEq, secondRound, secondBound, _⟩ :=
    round_difference (fnvRound hash a) (fnvRound hash a') b b' smallB smallB'
  obtain ⟨third, thirdWraps, thirdEq, thirdRound, thirdBound, _⟩ :=
    round_difference (fnvRound (fnvRound hash a) b) (fnvRound (fnvRound hash a') b') c c' smallC smallC'
  obtain ⟨fourth, fourthWraps, fourthEq, _, fourthBound, _⟩ :=
    round_difference (fnvRound (fnvRound (fnvRound hash a) b) c)
      (fnvRound (fnvRound (fnvRound hash a') b') c') d d' smallD smallD'
  -- The last hashes are equal already before the multiplication.
  have lastEq : ((fnvRound (fnvRound (fnvRound hash a) b) c ^^^ d).toNat : Int) -
      (fnvRound (fnvRound (fnvRound hash a') b') c' ^^^ d').toNat = 0 := by
    have equal := mul_prime_cancel same
    rw [equal]
    omega
  have sum : 1099511627776 * (567675 * first + 870 * second + third) +
      (82312875 * first + 189225 * second + 435 * third + fourth) =
      18446744073709551616 * (thirdWraps + 1099511628211 * secondWraps +
        (1099511628211 * 1099511628211) * firstWraps - 65536 * second -
        (72057594037927936 + 1305 * 65536) * first - 65536 * 0) := by
    omega
  obtain ⟨rfl, rfl, rfl, rfl⟩ :=
    changes_eq_zero (firstBound rfl) secondBound thirdBound fourthBound sum
  obtain rfl : a = a' := octet_eq (firstEq.trans (by omega))
  obtain rfl : b = b' := octet_eq (secondEq.trans (by omega))
  obtain rfl : c = c' := octet_eq (thirdEq.trans (by omega))
  exact ⟨rfl, rfl, rfl, octet_eq lastEq⟩

/-! ### Numbers below `2 ^ 32` -/

theorem octet_toNat (val : UInt64) : (val &&& 0x00ff).toNat = val.toNat % 256 := by
  rw [UInt64.toNat_and]
  exact Nat.and_two_pow_sub_one_eq_mod val.toNat 8

theorem octet_small (val : UInt64) : (val &&& 0x00ff).toNat < 256 := by
  rw [octet_toNat]
  omega

theorem shift_toNat (val : UInt64) : (val >>> 8).toNat = val.toNat / 256 := by
  rw [UInt64.toNat_shiftRight]
  exact Nat.shiftRight_eq_div_pow val.toNat 8

/-- Behind four rounds nothing is left of such a number. -/
theorem shifted_out {val : UInt64} (small : val.toNat < 2 ^ 32) : val >>> 8 >>> 8 >>> 8 >>> 8 = 0 := by
  apply UInt64.toNat_inj.mp
  rw [shift_toNat, shift_toNat, shift_toNat, shift_toNat]
  have zero : (0 : UInt64).toNat = 0 := rfl
  omega

theorem fnvHash64_eq {val : UInt64} (small : val.toNat < 2 ^ 32) :
    fnvHash64 val = (fnvLoop 4 ⟨0, fnvRound (fnvRound (fnvRound (fnvRound kFNVOffsetBasis64
      (val &&& 0x00ff)) (val >>> 8 &&& 0x00ff)) (val >>> 8 >>> 8 &&& 0x00ff))
      (val >>> 8 >>> 8 >>> 8 &&& 0x00ff)⟩).hash := by
  rw [← shifted_out small]
  rfl

/-- `FNVHash64` is injective below `2 ^ 32`. -/
theorem fnvHash64_injective {first second : UInt64} (firstSmall : first.toNat < 2 ^ 32)
    (secondSmall : second.toNat < 2 ^ 32) (same : fnvHash64 first = fnvHash64 second) :
    first = second := by
  rw [fnvHash64_eq firstSmall, fnvHash64_eq secondSmall] at same
  obtain ⟨one, two, three, four⟩ := octets_eq (octet_small _) (octet_small _) (octet_small _)
    (octet_small _) (octet_small _) (octet_small _) (octet_small _) (octet_small _)
    (fnvLoop_zero_injective 4 same)
  have oneEq := congrArg UInt64.toNat one
  have twoEq := congrArg UInt64.toNat two
  have threeEq := congrArg UInt64.toNat three
  have fourEq := congrArg UInt64.toNat four
  simp only [octet_toNat, shift_toNat] at oneEq twoEq threeEq fourEq
  apply UInt64.toNat_inj.mp
  omega

end StoredsBench.Core
