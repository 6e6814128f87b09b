import GoiKey.Lib.Ntt
import GoiKey.Proofs.PqMontgomery
import Mathlib.Data.ZMod.Basic

/-!
The transforms of the reference, as passes of butterflies. Their coefficients stay small
enough for every sum to be exact, and modulo q they are the transform and the inverse of
polynomials modulo X^256 + 1.
-/

namespace GoiKey.Pq

open Butterflies

variable {a b : Poly} {l i j : Nat} {inv : Bool} {x y z : Int}

/-! What a butterfly makes of a pair; `inv` says which way the transform goes. -/

/-- What is multiplied by the zeta. -/
def factor (inv : Bool) (x y : Int) : Int := if inv then s32 (x - y) else y

def lowSum (inv : Bool) (z x y : Int) : Int :=
  if inv then s32 (x + y) else s32 (x + montgomeryReduce (z * factor inv x y))

def highSum (inv : Bool) (z x y : Int) : Int :=
  if inv then montgomeryReduce (z * factor inv x y) else s32 (x - montgomeryReduce (z * factor inv x y))

theorem nttBody_eq {ln : Nat} (hln : 0 < ln) :
    nttBody z ln j a = butterfly (lowSum false z) (highSum false z) ln j a := by
  have hne : j ≠ j + ln := by omega
  rw [nttBody, butterfly, Function.update_of_ne hne, Function.update_comm hne]
  rfl

theorem inttBody_eq {ln : Nat} (hln : 0 < ln) :
    inttBody z ln j a = butterfly (lowSum true z) (highSum true z) ln j a := by
  have hne : j + ln ≠ j := by omega
  rw [inttBody, butterfly, Function.update_self, Function.update_of_ne hne, Function.update_idem]
  rfl

/-- The length of half a block of layer `l`. -/
def half (inv : Bool) (l : Nat) : Nat := if inv then 2 ^ l else 2 ^ (7 - l)

/-- The zeta of block `b`. -/
def blockZeta (inv : Bool) (l b : Nat) : Int := if inv then -zeta (2 ^ (8 - l) - b - 1) else zeta (2 ^ l - 1 + b + 1)

/-- The first `n` blocks of layer `l`. -/
def blocks (inv : Bool) (l : Nat) (a : Poly) (n : Nat) : Poly :=
  pass (fun b => lowSum inv (blockZeta inv l b)) (fun b => highSum inv (blockZeta inv l b)) (half inv l) a n

/-- The first `n` butterflies of block `b`. -/
def pairs (inv : Bool) (l b : Nat) (a : Poly) (n : Nat) : Poly :=
  sweep (lowSum inv (blockZeta inv l b)) (highSum inv (blockZeta inv l b)) (half inv l) (2 * half inv l * b) a n

/-- The first `n` layers. -/
def layers (inv : Bool) (a : Poly) (n : Nat) : Poly := forLoop (fun l a => blocks inv l a (128 / half inv l)) a n

theorem half_pos (inv : Bool) (l : Nat) : 0 < half inv l := by
  rw [half]
  split <;> exact Nat.two_pow_pos _

theorem opNtt_eq (a : Poly) : opNtt a = layers false a 8 := by
  have hlayer : ∀ l a, nttLayer (2 ^ l - 1) (2 ^ (7 - l)) a = blocks false l a (128 / half false l) := by
    intro l a
    rw [nttLayer, blocks, Butterflies.pass]
    simp only [sweep]
    congr 1
    funext b c
    congr 1
    funext j d
    exact nttBody_eq (half_pos false l)
  rw [opNtt, layers]
  congr 1
  funext l a
  exact hlayer l a

theorem opIntt_eq (a : Poly) : opIntt a = fun i => montgomeryReduce (41978 * layers true a 8 i) := by
  have hlayer : ∀ l a, inttLayer (2 ^ (8 - l)) (2 ^ l) a = blocks true l a (128 / half true l) := by
    intro l a
    rw [inttLayer, blocks, Butterflies.pass]
    simp only [sweep]
    congr 1
    funext b c
    congr 1
    funext j d
    exact inttBody_eq (half_pos true l)
  have hlayers : forLoop (fun l => inttLayer (2 ^ (8 - l)) (2 ^ l)) a 8 = layers true a 8 := by
    rw [layers]
    congr 1
    funext l a
    exact hlayer l a
  rw [opIntt, hlayers]

/-! Sizes. -/

/-- A signed word. -/
def Word (v : Int) : Prop := -2 ^ 31 ≤ v ∧ v < 2 ^ 31

theorem Word.of_abs {v : Int} (h : |v| < 256 * q) : Word v := by
  obtain ⟨hlow, hhigh⟩ := abs_lt.mp h
  rw [q] at hlow hhigh
  constructor <;> norm_num <;> omega

/-- The sums of a butterfly are words. -/
structure PairFits (inv : Bool) (z x y : Int) : Prop where
  difference : inv = true → Word (x - y)
  low : Word (x + if inv then y else montgomeryReduce (z * y))
  high : inv = false → Word (x - montgomeryReduce (z * y))

theorem zeta_le : ∀ k < 256, |zeta k| ≤ 4108315 := by decide +kernel

theorem product_small {v : Int} (hz : |z| ≤ 4108315) (hv : |v| ≤ 256 * q) : |z * v| < 2 ^ 31 * q := by
  rw [abs_mul]
  calc |z| * |v| ≤ 4108315 * (256 * q) := mul_le_mul hz hv (abs_nonneg v) (by norm_num)
    _ < 2 ^ 31 * q := by decide

/-- What a butterfly does, on coefficients that leave it room. -/
theorem pair_spec (inv : Bool) {B : Int} (hx : |x| < B) (hy : |y| < B) (hB : B ≤ 128 * q) (hz : |z| ≤ 4108315) :
    PairFits inv z x y ∧ ∃ t, |t| < q ∧ t * 2 ^ 32 ≡ z * (if inv then x - y else y) [ZMOD q] ∧
      lowSum inv z x y = x + (if inv then y else t) ∧ highSum inv z x y = if inv then t else x - t := by
  have hsum : |x + y| < 256 * q := by
    calc |x + y| ≤ |x| + |y| := abs_add_le x y
      _ < 256 * q := by linarith
  have hdifference : |x - y| < 256 * q := by
    calc |x - y| ≤ |x| + |y| := abs_sub x y
      _ < 256 * q := by linarith
  have hq : (0 : Int) < q := by decide
  cases inv with
  | true =>
    obtain ⟨ht, hmod⟩ := montgomeryReduce_spec (product_small hz hdifference.le)
    have hd := Word.of_abs hdifference
    have hs := Word.of_abs hsum
    refine ⟨⟨fun _ => hd, hs, fun h => by cases h⟩, montgomeryReduce (z * (x - y)), ht, hmod, ?_, ?_⟩
    · exact s32_self hs.1 hs.2
    · exact congrArg (fun v => montgomeryReduce (z * v)) (s32_self hd.1 hd.2)
  | false =>
    obtain ⟨ht, hmod⟩ := montgomeryReduce_spec (product_small (v := y) hz (by linarith))
    have hlow : Word (x + montgomeryReduce (z * y)) := by
      apply Word.of_abs
      calc |x + montgomeryReduce (z * y)| ≤ |x| + |montgomeryReduce (z * y)| := abs_add_le _ _
        _ < 256 * q := by linarith
    have hhigh : Word (x - montgomeryReduce (z * y)) := by
      apply Word.of_abs
      calc |x - montgomeryReduce (z * y)| ≤ |x| + |montgomeryReduce (z * y)| := abs_sub _ _
        _ < 256 * q := by linarith
    refine ⟨⟨fun h => (by cases h), hlow, fun _ => hhigh⟩, montgomeryReduce (z * y), ht, hmod, ?_, ?_⟩
    · exact s32_self hlow.1 hlow.2
    · exact s32_self hhigh.1 hhigh.2

/-- What the coefficients are below after `l` layers. -/
def room (inv : Bool) (l : Nat) : Int := if inv then 2 ^ l * q else (l + 1) * q

theorem room_le (hl : l < 8) : room inv l ≤ 128 * q := by
  have hq : (0 : Int) ≤ q := by decide
  rw [room]
  split
  · apply mul_le_mul_of_nonneg_right _ hq
    calc (2 : Int) ^ l ≤ 2 ^ 7 := pow_le_pow_right₀ (by norm_num) (Nat.le_of_lt_succ hl)
      _ = 128 := by norm_num
  · apply mul_le_mul_of_nonneg_right _ hq
    omega

/-- The blocks of a layer take up all coefficients. -/
theorem blocks_whole (inv : Bool) (hl : l < 8) : 2 * half inv l * (128 / half inv l) = 256 := by
  have hall : ∀ inv, ∀ l < 8, 2 * half inv l * (128 / half inv l) = 256 := by decide
  exact hall inv l hl

theorem blockZeta_le (hl : l < 8) {n : Nat} (hn : n < 128 / half inv l) : |blockZeta inv l n| ≤ 4108315 := by
  cases inv with
  | true =>
    rw [blockZeta, if_pos rfl, abs_neg]
    apply zeta_le
    have hpow : 2 ^ (8 - l) ≤ 2 ^ 8 := Nat.pow_le_pow_right Nat.two_pos (Nat.sub_le 8 l)
    omega
  | false =>
    rw [blockZeta, if_neg (by decide)]
    apply zeta_le
    have hall : ∀ l < 8, 128 / half false l = 2 ^ l := by decide
    have hblocks := hall l hl
    have hpow : 2 ^ l ≤ 2 ^ 7 := Nat.pow_le_pow_right Nat.two_pos (Nat.le_of_lt_succ hl)
    omega

theorem block_lt (inv : Bool) (hl : l < 8) (hi : i < 256) : i / half inv l / 2 < 128 / half inv l := by
  have hwhole := blocks_whole inv hl
  rw [Nat.div_div_eq_div_mul, Nat.div_lt_iff_lt_mul (Nat.mul_pos (half_pos inv l) Nat.two_pos)]
  calc i < 256 := hi
    _ = 128 / half inv l * (half inv l * 2) := by rw [← hwhole]; ring

/-- A layer in one go. -/
theorem layers_succ (hl : l < 8) (hi : i < 256) :
    layers inv a (l + 1) i
      = cross (fun b => lowSum inv (blockZeta inv l b)) (fun b => highSum inv (blockZeta inv l b)) (half inv l)
          (layers inv a l) i := by
  rw [layers, forLoop_succ, blocks, pass_behind (by rw [blocks_whole inv hl]; exact hi)]
  rfl

/-- The other coefficient of a pair. -/
theorem partner_lt (hl : l < 8) (hi : i < 256) (heven : i / half inv l % 2 = 0) : i + half inv l < 256 :=
  Ntt.partner_lt hi ⟨_, (blocks_whole inv hl).symm⟩ heven

/-- Only the first 256 coefficients count. -/
theorem layers_congr (hab : ∀ i < 256, a i = b i) (hl : l ≤ 8) (hi : i < 256) : layers inv a l i = layers inv b l i := by
  induction l generalizing i with
  | zero => exact hab i hi
  | succ l ih =>
    have hsame : ∀ k < 256, layers inv a l k = layers inv b l k := fun k hk => ih (Nat.le_of_succ_le hl) hk
    rw [layers_succ hl hi, layers_succ hl hi, cross, cross, hsame i hi, hsame (i - half inv l) (by omega)]
    split_ifs with heven
    · rw [hsame _ (partner_lt hl hi heven)]
    · rfl

theorem layers_lt (inv : Bool) (ha : ∀ i < 256, |a i| < q) (hl : l ≤ 8) (hi : i < 256) : |layers inv a l i| < room inv l := by
  induction l generalizing i with
  | zero =>
    have hroom : room inv 0 = q := by cases inv <;> rfl
    rw [hroom]
    exact ha i hi
  | succ l ih =>
    have hlt : l < 8 := hl
    have hsmall : ∀ k < 256, |layers inv a l k| < room inv l := fun k hk => ih (Nat.le_of_lt hlt) hk
    have hz := blockZeta_le hlt (block_lt inv hlt hi)
    have hq : (0 : Int) < q := by decide
    have hgrow : room inv l + (if inv then room inv l else q) = room inv (l + 1) ∧ q ≤ room inv (l + 1) := by
      cases inv with
      | true =>
        have hpow : (1 : Int) ≤ 2 ^ (l + 1) := one_le_pow₀ (by norm_num)
        refine ⟨?_, ?_⟩
        · simp only [room, if_true]
          ring
        · simp only [room, if_true]
          nlinarith
      | false =>
        refine ⟨?_, ?_⟩
        · simp only [room, Bool.false_eq_true, if_false]
          push_cast
          ring
        · simp only [room, Bool.false_eq_true, if_false]
          push_cast
          nlinarith
    rw [layers_succ hlt hi, cross]
    split_ifs with heven
    · have hy := hsmall _ (partner_lt hlt hi heven)
      obtain ⟨-, t, ht, -, hlow, -⟩ := pair_spec inv (hsmall i hi) hy (room_le hlt) hz
      rw [hlow]
      calc |layers inv a l i + (if inv = true then layers inv a l (i + half inv l) else t)|
          ≤ |layers inv a l i| + |if inv = true then layers inv a l (i + half inv l) else t| := abs_add_le _ _
        _ < room inv l + (if inv then room inv l else q) := by
            apply add_lt_add (hsmall i hi)
            split <;> assumption
        _ = room inv (l + 1) := hgrow.1
    · have hx := hsmall (i - half inv l) (by omega)
      obtain ⟨-, t, ht, -, -, hhigh⟩ := pair_spec inv hx (hsmall i hi) (room_le hlt) hz
      rw [hhigh]
      cases inv with
      | true => exact lt_of_lt_of_le ht hgrow.2
      | false =>
        calc |layers false a l (i - half false l) - t| ≤ |layers false a l (i - half false l)| + |t| := abs_sub _ _
          _ < room false l + q := add_lt_add hx ht
          _ = room false (l + 1) := hgrow.1

/-- Every butterfly of a transform of reduced coefficients is exact. -/
theorem pairs_fit (ha : ∀ i < 256, |a i| < q) (hl : l < 8) {n : Nat} (hn : n < 128 / half inv l)
    (hj : j < half inv l) :
    PairFits inv (blockZeta inv l n) (pairs inv l n (blocks inv l (layers inv a l) n) j (2 * half inv l * n + j))
      (pairs inv l n (blocks inv l (layers inv a l) n) j (2 * half inv l * n + j + half inv l)) := by
  have hwhole := blocks_whole inv hl
  have hroom : 2 * half inv l * n + 2 * half inv l ≤ 256 := by
    rw [← hwhole, ← Nat.mul_succ]
    exact Nat.mul_le_mul_left _ hn
  obtain ⟨hleft, hright⟩ := next_pair (a := layers inv a l)
    (f := fun b => lowSum inv (blockZeta inv l b)) (g := fun b => highSum inv (blockZeta inv l b)) (n := n) hj
  rw [pairs, blocks, hleft, hright]
  exact (pair_spec inv (layers_lt inv ha (Nat.le_of_lt hl) (by omega)) (layers_lt inv ha (Nat.le_of_lt hl) (by omega)) (room_le hl)
    (blockZeta_le hl hn)).1

/-! Modulo q. -/

abbrev Zq := ZMod 8380417

instance : Nontrivial Zq := ⟨0, 1, by decide⟩

/-- The inverse of 2^32. -/
def rinv : Zq := 8265825

theorem rinv_mul : rinv * 2 ^ 32 = 1 := by decide +kernel

theorem cast_of_modEq {v w : Int} (h : v ≡ w [ZMOD q]) : (v : Zq) = (w : Zq) :=
  (ZMod.intCast_eq_intCast_iff v w 8380417).mpr h

/-- What a Montgomery product stands for. -/
theorem cast_reduced {t v : Int} (h : t * 2 ^ 32 ≡ v [ZMOD q]) : (t : Zq) = rinv * (v : Zq) := by
  have hcast := cast_of_modEq h
  rw [Int.cast_mul, Int.cast_pow, Int.cast_ofNat] at hcast
  calc (t : Zq) = rinv * 2 ^ 32 * (t : Zq) := by rw [rinv_mul, one_mul]
    _ = rinv * ((t : Zq) * 2 ^ 32) := by ring
    _ = rinv * (v : Zq) := by rw [hcast]

/-- The factor at a node of the transform. -/
def nodeZeta (k : Nat) : Zq := rinv * (zeta k : Zq)

/-- The inverse counts the nodes of a layer from the last. -/
def nodeInverse (k : Nat) : Zq := rinv * ((-zeta (3 * 2 ^ Nat.log 2 k - 1 - k) : Int) : Zq)

theorem nodeZeta_sq : ∀ k, 1 ≤ k → k < 2 ^ 8 → nodeZeta k ^ 2 = Ntt.root nodeZeta k := by
  have hall : ∀ k < 256, 1 ≤ k →
      (8265825 * (8265825 * zeta k ^ 2)) % 8380417
        = (if k = 1 then -1 else 8265825 * (if k % 2 = 0 then zeta (k / 2) else -zeta (k / 2))) % 8380417 := by
    decide +kernel
  intro k hk hlt
  have hcast : ((8265825 * (8265825 * zeta k ^ 2) : Int) : Zq)
      = ((if k = 1 then -1 else 8265825 * (if k % 2 = 0 then zeta (k / 2) else -zeta (k / 2)) : Int) : Zq) :=
    cast_of_modEq (hall k hlt hk)
  have hleft : nodeZeta k ^ 2 = ((8265825 * (8265825 * zeta k ^ 2) : Int) : Zq) := by
    rw [nodeZeta, rinv]
    push_cast
    ring
  rw [hleft, hcast, Ntt.root]
  split_ifs
  · push_cast
    rfl
  · push_cast
    rfl
  · rw [nodeZeta, rinv]
    push_cast
    ring

theorem nodeInverse_mul : ∀ k, 1 ≤ k → k < 2 ^ 8 → nodeInverse k * nodeZeta k = 1 := by
  have hall : ∀ k < 256, 1 ≤ k →
      (8265825 * 8265825 * (-zeta (3 * 2 ^ Nat.log 2 k - 1 - k) * zeta k)) % 8380417 = 1 % 8380417 := by
    decide +kernel
  intro k hk hlt
  have hcast : ((8265825 * 8265825 * (-zeta (3 * 2 ^ Nat.log 2 k - 1 - k) * zeta k) : Int) : Zq) = ((1 : Int) : Zq) :=
    cast_of_modEq (hall k hlt hk)
  have hleft : nodeInverse k * nodeZeta k
      = ((8265825 * 8265825 * (-zeta (3 * 2 ^ Nat.log 2 k - 1 - k) * zeta k) : Int) : Zq) := by
    rw [nodeInverse, nodeZeta, rinv]
    push_cast
    ring
  rw [hleft, hcast, Int.cast_one]

theorem layers_ntt (ha : ∀ i < 256, |a i| < q) (hl : l ≤ 8) (hi : i < 256) :
    (layers false a l i : Zq) = Ntt.layers nodeZeta 8 (fun k => (a k : Zq)) l i := by
  induction l generalizing i with
  | zero => rfl
  | succ l ih =>
    have hlt : l < 8 := hl
    have hsmall : ∀ k < 256, |layers false a l k| < room false l := fun k hk => layers_lt _ ha (Nat.le_of_lt hlt) hk
    have hz := blockZeta_le hlt (block_lt false hlt hi)
    have hsame : ∀ k < 256, (layers false a l k : Zq) = Ntt.layers nodeZeta 8 (fun k => (a k : Zq)) l k :=
      fun k hk => ih (Nat.le_of_lt hlt) hk
    have hhalf : 2 ^ (8 - (l + 1)) = half false l := by
      rw [half, if_neg (by decide)]
      congr 1
      omega
    have hnode : ∀ b, nodeZeta (2 ^ l + b) = rinv * (blockZeta false l b : Zq) := by
      intro b
      have hindex : 2 ^ l - 1 + b + 1 = 2 ^ l + b := by
        have hpos : 1 ≤ 2 ^ l := Nat.one_le_two_pow
        omega
      rw [nodeZeta, blockZeta, if_neg (by decide), hindex]
    rw [layers_succ hlt hi, Ntt.layers, hhalf, cross, Ntt.split]
    split_ifs with heven
    · have hpartner := partner_lt hlt hi heven
      obtain ⟨-, t, -, hmod, hlow, -⟩ := pair_spec false (hsmall i hi) (hsmall _ hpartner) (room_le hlt) hz
      rw [hlow, ← hsame i hi, ← hsame _ hpartner, hnode]
      rw [if_neg (by decide)] at hmod ⊢
      have ht := cast_reduced hmod
      push_cast at ht ⊢
      rw [ht]
      ring
    · have hleft : i - half false l < 256 := by omega
      obtain ⟨-, t, -, hmod, -, hhigh⟩ := pair_spec false (hsmall _ hleft) (hsmall i hi) (room_le hlt) hz
      rw [hhigh, ← hsame i hi, ← hsame _ hleft, hnode]
      rw [if_neg (by decide)] at hmod ⊢
      have ht := cast_reduced hmod
      push_cast at ht ⊢
      rw [ht]
      ring

theorem layers_intt (ha : ∀ i < 256, |a i| < q) (hl : l ≤ 8) (hi : i < 256) :
    (layers true a l i : Zq) = Ntt.inverse nodeInverse 8 (fun k => (a k : Zq)) l i := by
  induction l generalizing i with
  | zero => rfl
  | succ l ih =>
    have hlt : l < 8 := hl
    have hsmall : ∀ k < 256, |layers true a l k| < room true l := fun k hk => layers_lt _ ha (Nat.le_of_lt hlt) hk
    have hz := blockZeta_le hlt (block_lt true hlt hi)
    have hsame : ∀ k < 256, (layers true a l k : Zq) = Ntt.inverse nodeInverse 8 (fun k => (a k : Zq)) l k :=
      fun k hk => ih (Nat.le_of_lt hlt) hk
    have hhalf : 2 ^ l = half true l := rfl
    have hnode : ∀ b < 2 ^ (8 - (l + 1)), nodeInverse (2 ^ (8 - (l + 1)) + b) = rinv * (blockZeta true l b : Zq) := by
      intro b hb
      have hlog : Nat.log 2 (2 ^ (8 - (l + 1)) + b) = 8 - (l + 1) := by
        apply Nat.log_eq_of_pow_le_of_lt_pow (Nat.le_add_right _ _)
        rw [Nat.pow_succ]
        omega
      have hindex : 3 * 2 ^ (8 - (l + 1)) - 1 - (2 ^ (8 - (l + 1)) + b) = 2 ^ (8 - l) - b - 1 := by
        rw [← Ntt.two_pow_half hl]
        omega
      rw [nodeInverse, hlog, hindex, blockZeta, if_pos rfl]
    rw [layers_succ hlt hi, Ntt.inverse, hhalf, cross, Ntt.join]
    split_ifs with heven
    · have hpartner := partner_lt hlt hi heven
      obtain ⟨-, t, -, -, hlow, -⟩ := pair_spec true (hsmall i hi) (hsmall _ hpartner) (room_le hlt) hz
      rw [hlow, ← hsame i hi, ← hsame _ hpartner, if_pos rfl]
      push_cast
      ring
    · have hleft : i - half true l < 256 := by omega
      obtain ⟨-, t, -, hmod, -, hhigh⟩ := pair_spec true (hsmall _ hleft) (hsmall i hi) (room_le hlt) hz
      rw [hhigh, ← hsame i hi, ← hsame _ hleft, hnode (i / half true l / 2) (Ntt.block_lt hlt hi), if_pos rfl]
      rw [if_pos rfl] at hmod
      have ht := cast_reduced hmod
      push_cast at ht ⊢
      rw [ht]
      ring

/-! The product. -/

theorem opNtt_lt (ha : ∀ i < 256, |a i| < q) (hi : i < 256) : |opNtt a i| < 9 * q := by
  rw [opNtt_eq]
  exact layers_lt false ha (Nat.le_refl 8) hi

theorem opIntt_congr (hab : ∀ i < 256, a i = b i) (hi : i < 256) : opIntt a i = opIntt b i := by
  rw [opIntt_eq, opIntt_eq]
  exact congrArg (fun v => montgomeryReduce (41978 * v)) (layers_congr hab (Nat.le_refl 8) hi)

theorem opPmul_spec {x y : Poly} (hx : |x i| < 9 * q) (hy : |y i| < 9 * q) :
    |opPmul x y i| < q ∧ (opPmul x y i : Zq) = rinv * ((x i : Zq) * (y i : Zq)) := by
  have hsmall : |x i * y i| < 2 ^ 31 * q := by
    rw [abs_mul]
    calc |x i| * |y i| ≤ (9 * q) * (9 * q) := mul_le_mul hx.le hy.le (abs_nonneg _) (by decide)
      _ < 2 ^ 31 * q := by decide
  obtain ⟨hlt, hmod⟩ := montgomeryReduce_spec hsmall
  refine ⟨hlt, ?_⟩
  rw [opPmul, cast_reduced hmod, Int.cast_mul]

theorem opIntt_spec (ha : ∀ i < 256, |a i| < q) (hi : i < 256) :
    (opIntt a i : Zq) = rinv * 41978 * Ntt.inverse nodeInverse 8 (fun k => (a k : Zq)) 8 i := by
  have hsmall : |41978 * layers true a 8 i| < 2 ^ 31 * q :=
    product_small (by norm_num) (layers_lt true ha (Nat.le_refl 8) hi).le
  rw [opIntt_eq, cast_reduced (montgomeryReduce_spec hsmall).2, Int.cast_mul, layers_intt ha (Nat.le_refl 8) hi,
    ← mul_assoc]
  rfl

/-- The inverse transform of the product of two transforms is the product of the polynomials. -/
theorem transforms_multiply (ha : ∀ i < 256, |a i| < q) (hb : ∀ i < 256, |b i| < q) :
    Ntt.poly 256 (fun i => (opIntt (opPmul (opNtt a) (opNtt b)) i : Zq))
      = Ntt.product (fun i => (a i : Zq)) (fun i => (b i : Zq)) 256 := by
  have hfactor : rinv * 41978 * rinv * 2 ^ 8 = 1 := by decide +kernel
  apply Ntt.poly_product (by decide)
  intro i hi
  have hsmall : ∀ k < 256, |opPmul (opNtt a) (opNtt b) k| < q :=
    fun k hk => (opPmul_spec (opNtt_lt ha hk) (opNtt_lt hb hk)).1
  have hvalues : ∀ k < 2 ^ 8, (opPmul (opNtt a) (opNtt b) k : Zq)
      = rinv * (Ntt.layers nodeZeta 8 (fun k => (a k : Zq)) 8 k * Ntt.layers nodeZeta 8 (fun k => (b k : Zq)) 8 k) := by
    intro k hk
    rw [(opPmul_spec (opNtt_lt ha hk) (opNtt_lt hb hk)).2, opNtt_eq, opNtt_eq, layers_ntt ha (Nat.le_refl 8) hk,
      layers_ntt hb (Nat.le_refl 8) hk]
  rw [opIntt_spec hsmall hi, Ntt.inverse_congr hvalues (Nat.le_refl 8) hi, Ntt.inverse_smul rinv (Nat.le_refl 8) hi,
    Ntt.inverse_mul nodeZeta_sq nodeInverse_mul hi]
  calc rinv * 41978 * (rinv * (2 ^ 8 * (Ntt.product (fun i => (a i : Zq)) (fun i => (b i : Zq)) (2 ^ 8)).coeff i))
      = rinv * 41978 * rinv * 2 ^ 8 * (Ntt.product (fun i => (a i : Zq)) (fun i => (b i : Zq)) (2 ^ 8)).coeff i := by
        ring
    _ = (Ntt.product (fun i => (a i : Zq)) (fun i => (b i : Zq)) (2 ^ 8)).coeff i := by rw [hfactor, one_mul]

end GoiKey.Pq
