import Mathlib.Data.Nat.ModEq
import GoiKey.Lib.Limbs

/-!
Montgomery multiplication word by word: a row adds a multiple of one operand and a
multiple of the modulus to the accumulator and drops its low word.
-/

namespace Montgomery

open Limbs

variable {β : Nat}

/-! One row, with its two chains of carries. -/

section Row

variable (β) (t a m : Nat → Nat) (b q : Nat)

/-- The carry of the first chain, which adds `a * b`. -/
def carry₁ : Nat → Nat
  | 0 => 0
  | k + 1 => (t k + a k * b + carry₁ k) / β

def sum₁ (k : Nat) : Nat := t k + a k * b + carry₁ β t a b k

/-- The carry of the second chain, which adds `m * q` to the words of the first. -/
def carry₂ : Nat → Nat
  | 0 => 0
  | k + 1 => (sum₁ β t a b k % β + m k * q + carry₂ k) / β

def sum₂ (k : Nat) : Nat := sum₁ β t a b k % β + m k * q + carry₂ β t a m b q k

variable {β t a m b q}

theorem row_value (k : Nat) :
    value β (fun i => sum₂ β t a m b q i % β) k + (carry₁ β t a b k + carry₂ β t a m b q k) * β ^ k
      = value β (fun i => t i + a i * b + m i * q) k := by
  induction k with
  | zero => simp [carry₁, carry₂]
  | succ k ih =>
    rw [value_succ, value_succ]
    apply carry_step (k := 0) ih
    have h₁ : sum₁ β t a b k % β + carry₁ β t a b (k + 1) * β = t k + a k * b + carry₁ β t a b k := by
      rw [Nat.mul_comm]
      exact Nat.mod_add_div _ _
    have h₂ : sum₂ β t a m b q k % β + carry₂ β t a m b q (k + 1) * β
        = sum₁ β t a b k % β + m k * q + carry₂ β t a m b q k := by
      rw [Nat.mul_comm]
      exact Nat.mod_add_div _ _
    rw [Nat.add_mul]
    omega

/-- When the low word of a row vanishes, the words above it and the carries are the row over the base. -/
theorem row_shift (n : Nat) (h : β ∣ value β (fun i => t i + a i * b + m i * q) (n + 1)) :
    (value β (fun i => sum₂ β t a m b q (i + 1) % β) n
      + (carry₁ β t a b (n + 1) + carry₂ β t a m b q (n + 1)) * β ^ n) * β
      = value β (fun i => t i + a i * b + m i * q) (n + 1) := by
  have hrow := row_value (β := β) (t := t) (a := a) (m := m) (b := b) (q := q) (n + 1)
  have hlow : sum₂ β t a m b q 0 % β = 0 := by
    have hmod : value β (fun i => sum₂ β t a m b q i % β) (n + 1) % β = 0 := by
      rw [← hrow, Nat.pow_succ, ← Nat.mul_assoc, Nat.dvd_add_left (Nat.dvd_mul_left _ _)] at h
      exact Nat.mod_eq_zero_of_dvd h
    rw [value_mod _ (Nat.succ_pos n), Nat.mod_mod] at hmod
    exact hmod
  rw [← hrow, value_shift, hlow]
  ring

/-- With words below the base nothing is lost above two words. -/
theorem sum₁_lt (ht : ∀ i, t i < β) (ha : ∀ i, a i < β) (hb : b < β) (k : Nat) :
    carry₁ β t a b k < β ∧ sum₁ β t a b k < β * β := by
  have hβ : 0 < β := Nat.zero_lt_of_lt hb
  have hsum : ∀ k, carry₁ β t a b k < β → sum₁ β t a b k < β * β := by
    intro k hk
    have hprod : a k * b ≤ (β - 1) * (β - 1) :=
      Nat.mul_le_mul (Nat.le_sub_one_of_lt (ha k)) (Nat.le_sub_one_of_lt hb)
    have htk := ht k
    obtain ⟨γ, rfl⟩ := Nat.exists_eq_add_of_le' hβ
    rw [sum₁]
    simp only [Nat.add_sub_cancel] at hprod
    nlinarith
  induction k with
  | zero => exact ⟨hβ, hsum 0 hβ⟩
  | succ k ih =>
    have hcarry : carry₁ β t a b (k + 1) < β := Nat.div_lt_of_lt_mul ih.2
    exact ⟨hcarry, hsum (k + 1) hcarry⟩

theorem sum₂_lt (hm : ∀ i, m i < β) (hq : q < β) (k : Nat) :
    carry₂ β t a m b q k < β ∧ sum₂ β t a m b q k < β * β := by
  have hβ : 0 < β := Nat.zero_lt_of_lt hq
  have hsum : ∀ k, carry₂ β t a m b q k < β → sum₂ β t a m b q k < β * β := by
    intro k hk
    have hprod : m k * q ≤ (β - 1) * (β - 1) :=
      Nat.mul_le_mul (Nat.le_sub_one_of_lt (hm k)) (Nat.le_sub_one_of_lt hq)
    have hlow : sum₁ β t a b k % β < β := Nat.mod_lt _ hβ
    obtain ⟨γ, rfl⟩ := Nat.exists_eq_add_of_le' hβ
    rw [sum₂]
    simp only [Nat.add_sub_cancel] at hprod
    nlinarith
  induction k with
  | zero => exact ⟨hβ, hsum 0 hβ⟩
  | succ k ih =>
    have hcarry : carry₂ β t a m b q (k + 1) < β := Nat.div_lt_of_lt_mul ih.2
    exact ⟨hcarry, hsum (k + 1) hcarry⟩

end Row

/-! What the rows come to. -/

/-- The multiple of the modulus that makes the low word of a row vanish. -/
theorem digit_vanishes {T A b M n' : Nat} (hn : β ∣ M * n' + 1) :
    β ∣ T + A * b + M * ((T + A * b) * n' % β) := by
  have hmod : T + A * b + M * ((T + A * b) * n' % β) ≡ (T + A * b) * (M * n' + 1) [MOD β] := by
    calc T + A * b + M * ((T + A * b) * n' % β) ≡ T + A * b + M * ((T + A * b) * n') [MOD β] :=
          Nat.ModEq.add_left _ (Nat.ModEq.mul_left _ (Nat.mod_modEq _ _))
      _ = (T + A * b) * (M * n' + 1) := by ring
      _ ≡ (T + A * b) * (M * n' + 1) [MOD β] := Nat.ModEq.refl _
  exact (Nat.modEq_zero_iff_dvd.mp (hmod.trans
    (Nat.modEq_zero_iff_dvd.mpr (Dvd.dvd.mul_left hn _))))

/-- A step of Newton's iteration for the inverse: what is left over is squared. -/
theorem newton {R : Type} [CommRing R] {a x e : R} (h : a * x = 1 + e) : a * (x * (2 - a * x)) = 1 - e ^ 2 := by
  rw [← mul_assoc, h]
  ring

/-- A row keeps the accumulator below the sum of operand and modulus. -/
theorem row_bound {T T' A M b q : Nat} (hβ : 0 < β) (h : T' * β = T + A * b + M * q) (hT : T < A + M)
    (hb : b < β) (hq : q < β) : T' < A + M := by
  have hA : A * b ≤ A * (β - 1) := Nat.mul_le_mul_left _ (Nat.le_sub_one_of_lt hb)
  have hM : M * q ≤ M * (β - 1) := Nat.mul_le_mul_left _ (Nat.le_sub_one_of_lt hq)
  obtain ⟨γ, rfl⟩ := Nat.exists_eq_add_of_le' hβ
  simp only [Nat.add_sub_cancel] at hA hM
  by_contra hge
  have hle : (A + M) * (γ + 1) ≤ T' * (γ + 1) := Nat.mul_le_mul_right _ (Nat.le_of_not_lt hge)
  nlinarith

/-- The accumulator after some rows. -/
structure Accumulated (β A M : Nat) (w : Nat → Nat) (i T : Nat) : Prop where
  bound : T < A + M
  total : ∃ Q, Q < β ^ i ∧ T * β ^ i = A * value β w i + M * Q

theorem Accumulated.zero {A M : Nat} {w : Nat → Nat} (h : 0 < A + M) : Accumulated β A M w 0 0 :=
  ⟨h, 0, Nat.one_pos, by simp⟩

/-- The accumulator after one row more. -/
theorem Accumulated.row {A M T T' q i : Nat} {w : Nat → Nat} (hβ : 0 < β) (h : Accumulated β A M w i T)
    (hw : w i < β) (hq : q < β) (hrow : T' * β = T + A * w i + M * q) :
    Accumulated β A M w (i + 1) T' := by
  obtain ⟨Q, hQ, htotal⟩ := h.total
  refine ⟨row_bound hβ hrow h.bound hw hq, Q + q * β ^ i, ?_, ?_⟩
  · exact below_succ hQ hq
  · calc T' * β ^ (i + 1) = T' * β * β ^ i := by ring
      _ = (T + A * w i + M * q) * β ^ i := by rw [hrow]
      _ = T * β ^ i + A * (w i * β ^ i) + M * (q * β ^ i) := by ring
      _ = A * (value β w i + w i * β ^ i) + M * (Q + q * β ^ i) := by rw [htotal]; ring
      _ = A * value β w (i + 1) + M * (Q + q * β ^ i) := by rw [value_succ]

/-- After all rows the accumulator is the product over `β ^ n`, and below two moduli when one
operand is below the modulus. -/
theorem Accumulated.product {A M T n : Nat} {w : Nat → Nat} (h : Accumulated β A M w n T)
    (hsmall : A * value β w n < β ^ n * M) :
    T < 2 * M ∧ T * β ^ n ≡ A * value β w n [MOD M] := by
  obtain ⟨Q, hQ, htotal⟩ := h.total
  constructor
  · have hMQ : M * Q ≤ M * β ^ n := Nat.mul_le_mul_left _ (Nat.le_of_lt hQ)
    have hlt : T * β ^ n < 2 * M * β ^ n := by
      rw [htotal]
      nlinarith
    exact Nat.lt_of_mul_lt_mul_right hlt
  · rw [htotal]
    exact (Nat.modEq_iff_dvd' (Nat.le_add_right _ _)).mpr (by simp) |>.symm

/-- The last subtraction. -/
theorem reduced {T M : Nat} (h : T < 2 * M) :
    (if M ≤ T then T - M else T) < M ∧ (if M ≤ T then T - M else T) ≡ T [MOD M] := by
  split
  next hle => exact ⟨by omega, (Nat.modEq_iff_dvd' (Nat.sub_le T M)).mpr (by simp [Nat.sub_sub_self hle])⟩
  next hlt => exact ⟨by omega, Nat.ModEq.refl _⟩

/-! Numbers in Montgomery form: multiplied by R. -/

section Form

variable {M R x a b r α β : Nat}

/-- A product of numbers in Montgomery form. -/
theorem product_form (hcop : Nat.gcd M R = 1) (hx : x * R ≡ a * b [MOD M]) (ha : a ≡ α * R [MOD M])
    (hb : b ≡ β * R [MOD M]) : x ≡ α * β * R [MOD M] := by
  apply Nat.ModEq.cancel_right_of_coprime hcop
  calc x * R ≡ a * b [MOD M] := hx
    _ ≡ α * R * (β * R) [MOD M] := Nat.ModEq.mul ha hb
    _ = α * β * R * R := by ring

/-- R^2 brings a number into Montgomery form. -/
theorem into_form (hcop : Nat.gcd M R = 1) (hx : x * R ≡ a * r [MOD M]) (hr : r ≡ R * R [MOD M]) :
    x ≡ a * R [MOD M] := by
  apply Nat.ModEq.cancel_right_of_coprime hcop
  calc x * R ≡ a * r [MOD M] := hx
    _ ≡ a * (R * R) [MOD M] := Nat.ModEq.mul_left a hr
    _ = a * R * R := by ring

/-- A multiplication by one takes it out again. -/
theorem out_of_form (hcop : Nat.gcd M R = 1) (hx : x * R ≡ a * 1 [MOD M]) (ha : a ≡ α * R [MOD M]) :
    x ≡ α [MOD M] := by
  apply Nat.ModEq.cancel_right_of_coprime hcop
  calc x * R ≡ a * 1 [MOD M] := hx
    _ = a := Nat.mul_one a
    _ ≡ α * R [MOD M] := ha

end Form

end Montgomery
