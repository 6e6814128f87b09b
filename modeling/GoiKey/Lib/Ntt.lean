import GoiKey.Lib.Loops
import Mathlib.Logic.Function.Basic
import Mathlib.Algebra.Polynomial.Div
import Mathlib.Algebra.Polynomial.Monic
import Mathlib.Algebra.Polynomial.Eval.Degree
import Mathlib.Tactic.Ring

/-!
Butterflies in place: a pair of entries `h` apart is replaced by two functions of it. A
pass takes the pairs one after the other, block by block.
-/

namespace Butterflies

variable {α : Type} {h i j n : Nat} {a : Nat → α}

section Pairs

variable (f g : α → α → α) (h : Nat)

def butterfly (j : Nat) (a : Nat → α) : Nat → α :=
  Function.update (Function.update a j (f (a j) (a (j + h)))) (j + h) (g (a j) (a (j + h)))

/-- The first `n` pairs of the block that begins at `start`. -/
def sweep (start : Nat) (a : Nat → α) (n : Nat) : Nat → α := forLoop (fun j => butterfly f g h (start + j)) a n

variable {f g h}

theorem butterfly_left (hh : 0 < h) : butterfly f g h j a j = f (a j) (a (j + h)) := by
  rw [butterfly, Function.update_of_ne (by omega), Function.update_self]

theorem butterfly_right : butterfly f g h j a (j + h) = g (a j) (a (j + h)) := Function.update_self ..

theorem butterfly_elsewhere (hleft : i ≠ j) (hright : i ≠ j + h) : butterfly f g h j a i = a i := by
  rw [butterfly, Function.update_of_ne hright, Function.update_of_ne hleft]

variable {start : Nat}

/-- Pairs that have not been reached are as they were. -/
theorem sweep_ahead (f g : α → α → α) (a : Nat → α) (start : Nat) (hn : n ≤ j) (hj : j < h) :
    sweep f g h start a n (start + j) = a (start + j) ∧ sweep f g h start a n (start + j + h) = a (start + j + h) := by
  induction n with
  | zero => exact ⟨rfl, rfl⟩
  | succ n ih =>
    obtain ⟨hleft, hright⟩ := ih (Nat.le_of_succ_le hn)
    rw [sweep, forLoop_succ, butterfly_elsewhere (by omega) (by omega), butterfly_elsewhere (by omega) (by omega)]
    exact ⟨hleft, hright⟩

/-- Pairs that have been reached are done. -/
theorem sweep_behind (hj : j < n) (hn : n ≤ h) :
    sweep f g h start a n (start + j) = f (a (start + j)) (a (start + j + h)) ∧
    sweep f g h start a n (start + j + h) = g (a (start + j)) (a (start + j + h)) := by
  induction n with
  | zero => exact absurd hj (Nat.not_lt_zero j)
  | succ n ih =>
    have hh : 0 < h := Nat.lt_of_lt_of_le (Nat.succ_pos n) hn
    rcases Nat.lt_succ_iff_lt_or_eq.mp hj with hlt | rfl
    · obtain ⟨hleft, hright⟩ := ih hlt (Nat.le_of_succ_le hn)
      rw [sweep, forLoop_succ, butterfly_elsewhere (by omega) (by omega), butterfly_elsewhere (by omega) (by omega)]
      exact ⟨hleft, hright⟩
    · obtain ⟨hleft, hright⟩ := sweep_ahead f g a start (Nat.le_refl j) hn
      rw [sweep] at hleft hright
      rw [sweep, forLoop_succ, butterfly_left hh, butterfly_right, hleft, hright]
      exact ⟨rfl, rfl⟩

theorem sweep_elsewhere (hn : n ≤ h) (hi : i < start ∨ start + 2 * h ≤ i) : sweep f g h start a n i = a i := by
  induction n with
  | zero => rfl
  | succ n ih =>
    rw [sweep, forLoop_succ, butterfly_elsewhere (by omega) (by omega)]
    exact ih (Nat.le_of_succ_le hn)

end Pairs

section Blocks

variable (f g : Nat → α → α → α) (h : Nat)

/-- The first `n` blocks. -/
def pass (a : Nat → α) (n : Nat) : Nat → α := forLoop (fun b a => sweep (f b) (g b) h (2 * h * b) a h) a n

/-- What becomes of every entry. -/
def cross (a : Nat → α) (i : Nat) : α :=
  if i / h % 2 = 0 then f (i / h / 2) (a i) (a (i + h)) else g (i / h / 2) (a (i - h)) (a i)

variable {f g h} {b : Nat}

theorem pass_ahead (hi : 2 * h * n ≤ i) : pass f g h a n i = a i := by
  induction n with
  | zero => rfl
  | succ n ih =>
    rw [Nat.mul_succ] at hi
    rw [pass, forLoop_succ, sweep_elsewhere (Nat.le_refl h) (.inr hi)]
    exact ih (Nat.le_of_add_right_le hi)

theorem cross_left (hj : j < h) :
    cross f g h a (2 * h * b + j) = f b (a (2 * h * b + j)) (a (2 * h * b + j + h)) := by
  have hquot : (2 * h * b + j) / h = 2 * b := by
    rw [Nat.mul_right_comm, Nat.mul_comm, Nat.mul_add_div (Nat.zero_lt_of_lt hj), Nat.div_eq_of_lt hj, Nat.add_zero]
  rw [cross, hquot, if_pos (Nat.mul_mod_right 2 b), Nat.mul_div_right b Nat.two_pos]

theorem cross_right (hj : j < h) :
    cross f g h a (2 * h * b + j + h) = g b (a (2 * h * b + j)) (a (2 * h * b + j + h)) := by
  have hh : 0 < h := Nat.zero_lt_of_lt hj
  have hquot : (2 * h * b + j + h) / h = 2 * b + 1 := by
    rw [Nat.add_div_right _ hh, Nat.mul_right_comm, Nat.mul_comm, Nat.mul_add_div hh, Nat.div_eq_of_lt hj, Nat.add_zero]
  have hodd : (2 * b + 1) % 2 ≠ 0 := by omega
  have hhalf : (2 * b + 1) / 2 = b := by omega
  rw [cross, hquot, if_neg hodd, hhalf, Nat.add_sub_cancel]

theorem pass_behind (hi : i < 2 * h * n) : pass f g h a n i = cross f g h a i := by
  induction n with
  | zero => exact absurd hi (Nat.not_lt_zero i)
  | succ n ih =>
    rw [Nat.mul_succ] at hi
    rw [pass, forLoop_succ]
    rcases Nat.lt_or_ge i (2 * h * n) with hlt | hge
    · rw [sweep_elsewhere (Nat.le_refl h) (.inl hlt)]
      exact ih hlt
    · obtain ⟨d, rfl⟩ := Nat.exists_eq_add_of_le hge
      have hbefore : ∀ k, 2 * h * n ≤ k → forLoop (fun b a => sweep (f b) (g b) h (2 * h * b) a h) a n k = a k :=
        fun k hk => pass_ahead hk
      rcases Nat.lt_or_ge d h with hleft | hright
      · rw [(sweep_behind hleft (Nat.le_refl h)).1, cross_left hleft, hbefore _ (Nat.le_add_right _ _),
          hbefore _ (by omega)]
      · obtain ⟨e, rfl⟩ := Nat.exists_eq_add_of_le' hright
        have he : e < h := by omega
        rw [← Nat.add_assoc, (sweep_behind he (Nat.le_refl h)).2, cross_right he, hbefore _ (Nat.le_add_right _ _),
          hbefore _ (by omega)]

/-- The pair that is next has not been touched. -/
theorem next_pair (hj : j < h) :
    sweep (f n) (g n) h (2 * h * n) (pass f g h a n) j (2 * h * n + j) = a (2 * h * n + j) ∧
    sweep (f n) (g n) h (2 * h * n) (pass f g h a n) j (2 * h * n + j + h) = a (2 * h * n + j + h) := by
  obtain ⟨hleft, hright⟩ := sweep_ahead (f n) (g n) (pass f g h a n) (2 * h * n) (Nat.le_refl j) hj
  rw [hleft, hright]
  exact ⟨pass_ahead (Nat.le_add_right _ _), pass_ahead (by omega)⟩

end Blocks

end Butterflies

/-!
The number-theoretic transform of `2 ^ m` coefficients, in layers of butterflies: the
blocks of a layer are numbered as the nodes of a binary tree, the root 1, and block `k`
goes from `X ^ 2h - z k ^ 2` to the two factors of it. The transform is evaluation at the
roots of `X ^ (2 ^ m) + 1`, so that the inverse brings a product of values back to the
product of the polynomials.
-/

namespace Ntt

open Finset Polynomial

variable {R : Type*} [CommRing R] {z z' a b : ℕ → R} {x : R} {h i j k l m n : ℕ}

/-! A layer; its halves are `h` long. -/

def split (z : ℕ → R) (h : ℕ) (a : ℕ → R) (i : ℕ) : R :=
  if i / h % 2 = 0 then a i + z (i / h / 2) * a (i + h) else a (i - h) - z (i / h / 2) * a i

def join (z : ℕ → R) (h : ℕ) (a : ℕ → R) (i : ℕ) : R :=
  if i / h % 2 = 0 then a i + a (i + h) else z (i / h / 2) * (a (i - h) - a i)

theorem half_pos (hi : i / h % 2 = 1) : 0 < h ∧ h ≤ i := by
  rcases Nat.eq_zero_or_pos h with rfl | hpos
  · rw [Nat.div_zero] at hi
    exact absurd hi (by decide)
  · refine ⟨hpos, ?_⟩
    by_contra hlt
    rw [Nat.div_eq_of_lt (Nat.lt_of_not_le hlt)] at hi
    exact absurd hi (by decide)

theorem two_pow_half (hl : l + 1 ≤ m) : 2 * 2 ^ (m - (l + 1)) = 2 ^ (m - l) := by
  rw [← Nat.pow_succ']
  congr 1
  omega

/-- What `join` does on top of `split`. -/
theorem join_split (hh : 0 < h) (hz : z' (i / h / 2) * z (i / h / 2) = 1) :
    join z' h (split z h a) i = 2 * a i := by
  rcases Nat.mod_two_eq_zero_or_one (i / h) with heven | hodd
  · have hright : (i + h) / h = i / h + 1 := Nat.add_div_right i hh
    have hnode : (i / h + 1) / 2 = i / h / 2 := by omega
    have hside : (i / h + 1) % 2 ≠ 0 := by omega
    rw [join, if_pos heven, split, if_pos heven, split, hright, if_neg hside, hnode, Nat.add_sub_cancel]
    ring
  · have hle := (half_pos hodd).2
    have hleft : (i - h) / h = i / h - 1 := by
      rw [← Nat.sub_add_cancel hle, Nat.add_div_right _ hh, Nat.add_sub_cancel]
      rfl
    have hbefore : ∀ c, c % 2 = 1 → (c - 1) / 2 = c / 2 ∧ (c - 1) % 2 = 0 := by omega
    obtain ⟨hnode, hside⟩ := hbefore _ hodd
    have hne : i / h % 2 ≠ 0 := by omega
    rw [join, if_neg hne, split, hleft, if_pos hside, hnode, split, if_neg hne, Nat.sub_add_cancel hle]
    calc z' (i / h / 2) * (a (i - h) + z (i / h / 2) * a i - (a (i - h) - z (i / h / 2) * a i))
        = 2 * (z' (i / h / 2) * z (i / h / 2)) * a i := by ring
      _ = 2 * a i := by rw [hz, mul_one]

/-- The partner of an index stands in the same block. -/
theorem partner_lt (hi : i < n) (hn : 2 * h ∣ n) (heven : i / h % 2 = 0) : i + h < n := by
  obtain ⟨c, rfl⟩ := hn
  rcases Nat.eq_zero_or_pos h with rfl | hpos
  · exact hi
  · have hlt : i / h < 2 * c := by
      rw [Nat.div_lt_iff_lt_mul hpos]
      calc i < 2 * h * c := hi
        _ = 2 * c * h := by ring
    have hroom : i / h + 2 ≤ 2 * c := by omega
    have hi' := Nat.lt_div_mul_add (a := i) hpos
    calc i + h < i / h * h + h + h := by omega
      _ = (i / h + 2) * h := by ring
      _ ≤ 2 * c * h := Nat.mul_le_mul_right h hroom
      _ = 2 * h * c := by ring

theorem split_congr (hab : ∀ k < n, a k = b k) (hn : 2 * h ∣ n) (hi : i < n) : split z h a i = split z h b i := by
  rw [split, split, hab i hi, hab (i - h) (Nat.lt_of_le_of_lt (Nat.sub_le i h) hi)]
  split_ifs with heven
  · rw [hab (i + h) (partner_lt hi hn heven)]
  · rfl

theorem join_congr (hab : ∀ k < n, a k = b k) (hn : 2 * h ∣ n) (hi : i < n) : join z h a i = join z h b i := by
  rw [join, join, hab i hi, hab (i - h) (Nat.lt_of_le_of_lt (Nat.sub_le i h) hi)]
  split_ifs with heven
  · rw [hab (i + h) (partner_lt hi hn heven)]
  · rfl

theorem join_mul (c : R) : join z h (fun k => c * a k) i = c * join z h a i := by
  rw [join, join]
  split_ifs <;> ring

/-! The transform and its inverse, a layer after another. -/

def layers (z : ℕ → R) (m : ℕ) (a : ℕ → R) : ℕ → ℕ → R
  | 0 => a
  | l + 1 => split (fun b => z (2 ^ l + b)) (2 ^ (m - (l + 1))) (layers z m a l)

def inverse (z : ℕ → R) (m : ℕ) (a : ℕ → R) : ℕ → ℕ → R
  | 0 => a
  | l + 1 => join (fun b => z (2 ^ (m - (l + 1)) + b)) (2 ^ l) (inverse z m a l)

theorem two_pow_dvd (hl : l + 1 ≤ m) : 2 * 2 ^ l ∣ 2 ^ m := by
  rw [← Nat.pow_succ']
  exact Nat.pow_dvd_pow 2 hl

theorem layers_congr (hab : ∀ k < 2 ^ m, a k = b k) (hl : l ≤ m) (hi : i < 2 ^ m) :
    layers z m a l i = layers z m b l i := by
  induction l generalizing i with
  | zero => exact hab i hi
  | succ l ih =>
    exact split_congr (fun k hk => ih (Nat.le_of_succ_le hl) hk) (two_pow_dvd (by omega)) hi

theorem inverse_congr (hab : ∀ k < 2 ^ m, a k = b k) (hl : l ≤ m) (hi : i < 2 ^ m) :
    inverse z m a l i = inverse z m b l i := by
  induction l generalizing i with
  | zero => exact hab i hi
  | succ l ih => exact join_congr (fun k hk => ih (Nat.le_of_succ_le hl) hk) (two_pow_dvd hl) hi

theorem inverse_smul (c : R) (hl : l ≤ m) (hi : i < 2 ^ m) :
    inverse z m (fun k => c * a k) l i = c * inverse z m a l i := by
  induction l generalizing i with
  | zero => rfl
  | succ l ih =>
    rw [inverse, join_congr (fun k hk => ih (Nat.le_of_succ_le hl) hk) (two_pow_dvd hl) hi, join_mul]
    rfl

theorem block_lt (hl : l < m) (hi : i < 2 ^ m) : i / 2 ^ l / 2 < 2 ^ (m - (l + 1)) := by
  rw [Nat.div_div_eq_div_mul, Nat.div_lt_iff_lt_mul (Nat.mul_pos (Nat.two_pow_pos l) Nat.two_pos), ← Nat.pow_succ,
    ← Nat.pow_add, Nat.sub_add_cancel hl]
  exact hi

/-- Layer by layer the inverse undoes the transform, up to a power of two. -/
theorem inverse_layers (hz : ∀ k, 1 ≤ k → k < 2 ^ m → z' k * z k = 1) (hl : l ≤ m) (hi : i < 2 ^ m) :
    inverse z' m (layers z m a m) l i = 2 ^ l * layers z m a (m - l) i := by
  induction l generalizing i with
  | zero => rw [pow_zero, one_mul]; rfl
  | succ l ih =>
    have hlayer : m - l = m - (l + 1) + 1 := by omega
    have hhalf : m - (m - (l + 1) + 1) = l := by omega
    have hlow := block_lt hl hi
    have hroom : 2 * 2 ^ (m - (l + 1)) ≤ 2 ^ m := by
      rw [← Nat.pow_succ']
      exact Nat.pow_le_pow_right Nat.two_pos (by omega)
    calc inverse z' m (layers z m a m) (l + 1) i
        = join (fun b => z' (2 ^ (m - (l + 1)) + b)) (2 ^ l) (fun k => 2 ^ l * layers z m a (m - l) k) i :=
          join_congr (fun k hk => ih (Nat.le_of_succ_le hl) hk) (two_pow_dvd hl) hi
      _ = 2 ^ l * join (fun b => z' (2 ^ (m - (l + 1)) + b)) (2 ^ l) (layers z m a (m - l)) i := join_mul _
      _ = 2 ^ l * (2 * layers z m a (m - (l + 1)) i) := by
          rw [hlayer, layers, hhalf]
          rw [join_split (Nat.two_pow_pos l)]
          exact hz _ (Nat.le_add_right_of_le Nat.one_le_two_pow) (by omega)
      _ = 2 ^ (l + 1) * layers z m a (m - (l + 1)) i := by ring

/-! Evaluation. -/

/-- Block `b` of length `h`, taken for a polynomial. -/
def value (a : ℕ → R) (h b : ℕ) (x : R) : R := ∑ j ∈ range h, a (b * h + j) * x ^ j

/-- What block `k` is reduced by: the power of `X` that `k` stands for is this number. -/
def root (z : ℕ → R) (k : ℕ) : R := if k = 1 then -1 else if k % 2 = 0 then z (k / 2) else -z (k / 2)

theorem root_sq (hk : 2 ≤ k) : root z k ^ 2 = z (k / 2) ^ 2 := by
  rw [root, if_neg (by omega)]
  split_ifs
  · rfl
  · exact neg_sq _

theorem value_split (c : ℕ) (hx : x ^ h = if c % 2 = 0 then z (c / 2) else -z (c / 2)) :
    value (split z h a) h c x = value a (2 * h) (c / 2) x := by
  have hsplit : value a (2 * h) (c / 2) x
      = ∑ j ∈ range h, (a (c / 2 * (2 * h) + j) + x ^ h * a (c / 2 * (2 * h) + (h + j))) * x ^ j := by
    rw [value, two_mul, sum_range_add, ← sum_add_distrib]
    apply sum_congr rfl
    intro j _
    rw [pow_add]
    ring
  rw [hsplit, value]
  apply sum_congr rfl
  intro j hj
  have hjh : j < h := mem_range.mp hj
  have hh : 0 < h := Nat.zero_lt_of_lt hjh
  have hblock : (c * h + j) / h = c := by
    rw [Nat.mul_comm, Nat.mul_add_div hh, Nat.div_eq_of_lt hjh, Nat.add_zero]
  congr 1
  rw [split, hblock, hx]
  rcases Nat.mod_two_eq_zero_or_one c with heven | hodd
  · have hc : c = 2 * (c / 2) := by omega
    have hleft : c / 2 * (2 * h) + j = c * h + j := by
      conv_rhs => rw [hc]
      ring
    have hright : c / 2 * (2 * h) + (h + j) = c * h + j + h := by
      conv_rhs => rw [hc]
      ring
    rw [if_pos heven, if_pos heven, hleft, hright]
  · have hc : c = 2 * (c / 2) + 1 := by omega
    have hright : c / 2 * (2 * h) + (h + j) = c * h + j := by
      conv_rhs => rw [hc]
      ring
    have hleft : c / 2 * (2 * h) + j = c * h + j - h := by
      rw [← hright, Nat.add_comm h j, ← Nat.add_assoc, Nat.add_sub_cancel]
    have hne : c % 2 ≠ 0 := by omega
    rw [if_neg hne, if_neg hne, hleft, hright]
    ring

section Roots

variable (hz : ∀ k, 1 ≤ k → k < 2 ^ m → z k ^ 2 = root z k)

include hz

/-- From a node to the one above it. -/
theorem root_up {c : ℕ} (hl : l + 1 ≤ m) (hc : c < 2 ^ (l + 1)) (hx : x ^ 2 ^ (m - (l + 1)) = root z (2 ^ (l + 1) + c)) :
    x ^ 2 ^ (m - l) = root z (2 ^ l + c / 2) := by
  have hpow : 2 ^ (m - l) = 2 ^ (m - (l + 1)) * 2 := by rw [Nat.mul_comm, two_pow_half hl]
  have hup : (2 ^ (l + 1) + c) / 2 = 2 ^ l + c / 2 := by
    rw [Nat.pow_succ', Nat.mul_add_div Nat.two_pos]
  have hlow : 2 ^ l + c / 2 < 2 ^ m := by
    have hroom : 2 ^ (l + 1) ≤ 2 ^ m := Nat.pow_le_pow_right Nat.two_pos hl
    rw [Nat.pow_succ] at hroom hc
    omega
  have hpos : 1 ≤ 2 ^ l := Nat.one_le_two_pow
  rw [hpow, pow_mul, hx, root_sq (by rw [Nat.pow_succ]; omega), hup]
  exact hz _ (by omega) hlow

theorem pow_eq_neg_one {c : ℕ} (hl : l ≤ m) (hc : c < 2 ^ l) (hx : x ^ 2 ^ (m - l) = root z (2 ^ l + c)) :
    x ^ 2 ^ m = -1 := by
  induction l generalizing c with
  | zero =>
    obtain rfl : c = 0 := by omega
    exact hx
  | succ l ih =>
    exact ih (Nat.le_of_succ_le hl) (by rw [Nat.pow_succ] at hc; omega) (root_up hz hl hc hx)

/-- Every layer has the values of the polynomial at the roots of its blocks. -/
theorem value_layers {c : ℕ} (hl : l ≤ m) (hc : c < 2 ^ l) (hx : x ^ 2 ^ (m - l) = root z (2 ^ l + c)) :
    value (layers z m a l) (2 ^ (m - l)) c x = value a (2 ^ m) 0 x := by
  induction l generalizing c with
  | zero =>
    obtain rfl : c = 0 := by omega
    rfl
  | succ l ih =>
    have hpos : 1 ≤ 2 ^ l := Nat.one_le_two_pow
    have hne : 2 ^ (l + 1) + c ≠ 1 := by
      rw [Nat.pow_succ]
      omega
    have hside : (2 ^ (l + 1) + c) % 2 = c % 2 := by
      rw [Nat.pow_succ']
      omega
    have hnode : (2 ^ (l + 1) + c) / 2 = 2 ^ l + c / 2 := by
      rw [Nat.pow_succ', Nat.mul_add_div Nat.two_pos]
    have hup := ih (Nat.le_of_succ_le hl) (by rw [Nat.pow_succ] at hc; omega) (root_up hz hl hc hx)
    rw [root, if_neg hne, hside, hnode] at hx
    rw [layers, value_split c hx, two_pow_half hl]
    exact hup

/-- The transform is evaluation. -/
theorem layers_eq_value (hi : i < 2 ^ m) :
    layers z m a m i = value a (2 ^ m) 0 (root z (2 ^ m + i)) := by
  have hpoint : root z (2 ^ m + i) ^ 2 ^ (m - m) = root z (2 ^ m + i) := by
    rw [Nat.sub_self, pow_zero, pow_one]
  rw [← value_layers hz (Nat.le_refl m) hi hpoint, Nat.sub_self, value, pow_zero, sum_range_one, pow_zero, mul_one,
    mul_one, Nat.add_zero]

theorem root_pow (hi : i < 2 ^ m) : root z (2 ^ m + i) ^ 2 ^ m = -1 :=
  pow_eq_neg_one hz (Nat.le_refl m) hi (by rw [Nat.sub_self, pow_zero, pow_one])

end Roots

/-! Polynomials. -/

/-- The polynomial with these coefficients. -/
noncomputable def poly (n : ℕ) (a : ℕ → R) : R[X] := ∑ j ∈ range n, C (a j) * X ^ j

theorem eval_poly : (poly n a).eval x = value a n 0 x := by
  rw [poly, eval_finsetSum, value]
  apply sum_congr rfl
  intro j _
  rw [eval_mul, eval_C, eval_pow, eval_X, zero_mul, zero_add]

theorem poly_congr (hab : ∀ k < n, a k = b k) : poly n a = poly n b := by
  apply sum_congr rfl
  intro j hj
  rw [hab j (mem_range.mp hj)]

theorem poly_coeff {p : R[X]} (hp : p.natDegree < n) : poly n p.coeff = p :=
  (p.as_sum_range_C_mul_X_pow' hp).symm

theorem monic_modulus (hn : n ≠ 0) : (X ^ n + 1 : R[X]).Monic := by
  have hmonic := monic_X_pow_add_C (1 : R) hn
  rwa [C_1] at hmonic

variable (a b) in
/-- The product of two polynomials, reduced. -/
noncomputable def product (n : ℕ) : R[X] := (poly n a * poly n b) %ₘ (X ^ n + 1)

theorem natDegree_product_lt [Nontrivial R] (hn : n ≠ 0) : (product a b n).natDegree < n := by
  have hmodulus : (X ^ n + 1 : R[X]).natDegree = n := by
    have h := natDegree_X_pow_add_C (n := n) (r := (1 : R))
    rwa [C_1] at h
  have hne : (X ^ n + 1 : R[X]) ≠ 1 := by
    intro h
    rw [h, natDegree_one] at hmodulus
    exact hn hmodulus.symm
  conv_rhs => rw [← hmodulus]
  exact natDegree_modByMonic_lt _ (monic_modulus hn) hne

theorem poly_product [Nontrivial R] (hn : n ≠ 0) {c : ℕ → R} (hc : ∀ k < n, c k = (product a b n).coeff k) :
    poly n c = product a b n := by
  rw [poly_congr hc, poly_coeff (natDegree_product_lt hn)]

/-- The inverse of a product of transforms is the product of the polynomials. -/
theorem inverse_mul [Nontrivial R] (hz : ∀ k, 1 ≤ k → k < 2 ^ m → z k ^ 2 = root z k)
    (hz' : ∀ k, 1 ≤ k → k < 2 ^ m → z' k * z k = 1) (hi : i < 2 ^ m) :
    inverse z' m (fun k => layers z m a m k * layers z m b m k) m i = 2 ^ m * (product a b (2 ^ m)).coeff i := by
  have hvalues : ∀ k < 2 ^ m, layers z m a m k * layers z m b m k = layers z m (product a b (2 ^ m)).coeff m k := by
    intro k hk
    have hroot : (X ^ 2 ^ m + 1 : R[X]).IsRoot (root z (2 ^ m + k)) := by
      rw [IsRoot, eval_add, eval_pow, eval_X, eval_one, root_pow hz hk, neg_add_cancel]
    rw [layers_eq_value hz hk, layers_eq_value hz hk, layers_eq_value hz hk, ← eval_poly, ← eval_poly, ← eval_poly,
      poly_coeff (natDegree_product_lt (Nat.two_pow_pos m).ne'), ← eval_mul]
    exact (eval₂_modByMonic_eq_self_of_root (f := RingHom.id R) hroot).symm
  rw [inverse_congr hvalues (Nat.le_refl m) hi, inverse_layers hz' (Nat.le_refl m) hi, Nat.sub_self]
  rfl

end Ntt
