import GoiKey.Model.PqPoly
import Mathlib.Algebra.Order.Ring.Int
import Mathlib.Data.Int.ModEq
import Mathlib.Tactic.Linarith
import Mathlib.Tactic.Ring

/-!
The Montgomery multiplier forms the product of the reference, whatever its operands are,
and nothing on the way goes over its width. Small products come out reduced.
-/

namespace GoiKey.Pq

variable {a x y : Int}

theorem s32_self (hlow : -2 ^ 31 ≤ x) (hhigh : x < 2 ^ 31) : s32 x = x := by
  apply Int.bmod_eq_of_le_mul_two
  · norm_num at hlow ⊢
    omega
  · norm_num at hhigh ⊢
    omega

theorem s32_range (x : Int) : -2 ^ 31 ≤ s32 x ∧ s32 x < 2 ^ 31 :=
  ⟨Int.le_bmod (by decide), Int.bmod_lt (by decide)⟩

/-- The factor of q that `montgomery_reduce` takes away. -/
def quotient (a : Int) : Int := s32 (a % 2 ^ 64 * qinv)

theorem quotient_range (a : Int) : -2 ^ 31 ≤ quotient a ∧ quotient a < 2 ^ 31 := s32_range _

theorem quotient_dvd (a : Int) : (2 ^ 32 : Int) ∣ a - quotient a * q := by
  have hs : quotient a ≡ a % 2 ^ 64 * qinv [ZMOD 2 ^ 32] := Int.bmod_emod
  have hword : a % 2 ^ 64 ≡ a [ZMOD 2 ^ 32] := by
    apply Int.ModEq.of_dvd (show (2 ^ 32 : Int) ∣ 2 ^ 64 by norm_num)
    exact Int.mod_modEq a (2 ^ 64)
  have hone : qinv * q ≡ 1 [ZMOD 2 ^ 32] := by decide
  apply Int.ModEq.dvd
  calc quotient a * q ≡ a % 2 ^ 64 * qinv * q [ZMOD 2 ^ 32] := hs.mul_right q
    _ ≡ a * qinv * q [ZMOD 2 ^ 32] := (hword.mul_right qinv).mul_right q
    _ = a * (qinv * q) := by ring
    _ ≡ a * 1 [ZMOD 2 ^ 32] := hone.mul_left a
    _ = a := by ring

theorem quotient_shift (a : Int) : (a - quotient a * q) >>> (32 : Nat) * 2 ^ 32 = a - quotient a * q := by
  rw [Int.shiftRight_eq_div_pow]
  exact Int.ediv_mul_cancel (quotient_dvd a)

/-- A product of two words leaves 32 bits. -/
theorem quotient_fits (hlow : -2 ^ 62 ≤ a) (hhigh : a ≤ 2 ^ 62) :
    -2 ^ 31 ≤ (a - quotient a * q) >>> (32 : Nat) ∧ (a - quotient a * q) >>> (32 : Nat) < 2 ^ 31 := by
  have hshift := quotient_shift a
  obtain ⟨htlow, hthigh⟩ := quotient_range a
  rw [q] at hshift ⊢
  norm_num at hlow hhigh htlow hthigh hshift ⊢
  constructor <;> omega

theorem montgomeryReduce_shift (hlow : -2 ^ 62 ≤ a) (hhigh : a ≤ 2 ^ 62) :
    montgomeryReduce a * 2 ^ 32 = a - quotient a * q := by
  obtain ⟨hl, hh⟩ := quotient_fits hlow hhigh
  rw [← quotient_shift a]
  exact congrArg (· * 2 ^ 32) (s32_self hl hh)

/-- The products of the transforms are below this. -/
theorem montgomeryReduce_spec (h : |a| < 2 ^ 31 * q) :
    |montgomeryReduce a| < q ∧ montgomeryReduce a * 2 ^ 32 ≡ a [ZMOD q] := by
  obtain ⟨hlow, hhigh⟩ := abs_lt.mp h
  obtain ⟨htlow, hthigh⟩ := quotient_range a
  rw [q] at hlow hhigh
  norm_num at hlow hhigh htlow hthigh
  have hshift : montgomeryReduce a * 2 ^ 32 = a - quotient a * q :=
    montgomeryReduce_shift (by norm_num; omega) (by norm_num; omega)
  constructor
  · rw [q] at hshift ⊢
    norm_num at hshift
    apply abs_lt.mpr
    constructor <;> omega
  · rw [hshift]
    apply Int.ModEq.symm
    rw [Int.modEq_iff_dvd]
    exact ⟨-quotient a, by ring⟩

end GoiKey.Pq

namespace GoiKey.Rtl.Mont

open Pq

variable {p m : BitVec 64} (a b : BitVec 32)

theorem product_range : -2 ^ 62 ≤ a.toInt * b.toInt ∧ a.toInt * b.toInt ≤ 2 ^ 62 :=
  ⟨BitVec.le_toInt_mul_toInt, BitVec.toInt_mul_toInt_le⟩

theorem toInt_product : (product a b).toInt = a.toInt * b.toInt := by
  obtain ⟨hlow, hhigh⟩ := product_range a b
  rw [product, BitVec.toInt_mul, BitVec.toInt_signExtend_of_le (by decide), BitVec.toInt_signExtend_of_le (by decide)]
  norm_num at hlow hhigh
  apply Int.bmod_eq_of_le_mul_two
  · norm_num
    omega
  · norm_num
    omega

theorem toNat_eq_emod (p : BitVec 64) : (p.toNat : Int) = p.toInt % 2 ^ 64 := by
  have hlt : (p.toNat : Int) < 2 ^ 64 := by exact_mod_cast p.isLt
  rw [BitVec.toInt_eq_toNat_bmod]
  calc (p.toNat : Int) = (p.toNat : Int) % ((2 ^ 64 : Nat) : Int) := (Int.emod_eq_of_lt (Int.natCast_nonneg _) hlt).symm
    _ = (p.toNat : Int).bmod (2 ^ 64) % ((2 ^ 64 : Nat) : Int) := Int.bmod_emod.symm

/-- The low word. -/
theorem toInt_low (p : BitVec 64) : (p.setWidth 32).toInt = s32 p.toInt := by
  have hmod : p.toInt % 2 ^ 64 % ((2 ^ 32 : Nat) : Int) = p.toInt % ((2 ^ 32 : Nat) : Int) :=
    Int.emod_emod_of_dvd p.toInt (by norm_num)
  rw [BitVec.toInt_setWidth, toNat_eq_emod, s32, ← Int.emod_bmod, hmod, Int.emod_bmod]

theorem toInt_quotient (p : BitVec 64) : (Mont.quotient p).toInt = Pq.quotient p.toInt := by
  have hconst : (58728449 : BitVec 32).toInt = qinv := by decide
  rw [Mont.quotient, BitVec.toInt_mul, hconst, BitVec.toInt_setWidth, toNat_eq_emod, Int.bmod_mul_bmod]
  rfl

theorem toInt_multiple (t : BitVec 32) : (multiple t).toInt = t.toInt * q := by
  have hconst : (8380417 : BitVec 64).toInt = q := by decide
  have hlow := t.le_toInt
  have hhigh := t.toInt_lt
  rw [multiple, BitVec.toInt_mul, hconst, BitVec.toInt_signExtend_of_le (by decide), q]
  norm_num at hlow hhigh
  apply Int.bmod_eq_of_le_mul_two
  · norm_num
    omega
  · norm_num
    omega

/-- What comes out at the end of the pipe. -/
def reduced : BitVec 32 := high (product a b) (multiple (Mont.quotient (product a b)))

/-- The subtraction keeps to 64 bits and the result to 32. -/
structure Fits (p m : BitVec 64) : Prop where
  difference : ¬p.ssubOverflow m
  high : (high p m).toInt = (p.toInt - m.toInt) >>> (32 : Nat)

theorem fits : Fits (product a b) (multiple (Mont.quotient (product a b))) := by
  obtain ⟨hlow, hhigh⟩ := product_range a b
  obtain ⟨hqlow, hqhigh⟩ := quotient_fits hlow hhigh
  have hshift := quotient_shift (a.toInt * b.toInt)
  have hdifference : ¬(product a b).ssubOverflow (multiple (Mont.quotient (product a b))) := by
    rw [BitVec.ssubOverflow, toInt_multiple, toInt_quotient, toInt_product, ← hshift]
    norm_num at hqlow hqhigh ⊢
    constructor <;> omega
  refine ⟨hdifference, ?_⟩
  rw [Mont.high, toInt_low, BitVec.toInt_sshiftRight, BitVec.toInt_sub_of_not_ssubOverflow hdifference, toInt_multiple,
    toInt_quotient, toInt_product, s32_self hqlow hqhigh]

theorem toInt_reduced : (reduced a b).toInt = montgomeryReduce (a.toInt * b.toInt) := by
  obtain ⟨hlow, hhigh⟩ := product_range a b
  obtain ⟨hqlow, hqhigh⟩ := quotient_fits hlow hhigh
  rw [reduced, (fits a b).high, toInt_multiple, toInt_quotient, toInt_product]
  exact (s32_self hqlow hqhigh).symm

end GoiKey.Rtl.Mont
