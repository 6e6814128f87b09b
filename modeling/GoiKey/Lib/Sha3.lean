import Mathlib.Data.BitVec
import Mathlib.Data.List.GetD
import Mathlib.Logic.Function.Iterate

/-!
The permutations and the extendable-output functions of FIPS 202, for messages of whole bytes.
-/

namespace Sha3

/-- The coordinates are taken modulo five. -/
instance instNeZeroFive : NeZero 5 := ⟨by decide⟩

/-- The lanes by column and row. -/
abbrev State (w : Nat) := Fin 5 → Fin 5 → BitVec w

variable {w : Nat}

/-! The step mappings. -/

def parity (a : State w) (x : Fin 5) : BitVec w := a x 0 ^^^ a x 1 ^^^ a x 2 ^^^ a x 3 ^^^ a x 4

def theta (a : State w) : State w := fun x y => a x y ^^^ (parity a (x - 1) ^^^ (parity a (x + 1)).rotateLeft 1)

/-- The lanes in the order in which rho goes through them. -/
def walk : Nat → Fin 5 × Fin 5
  | 0 => (1, 0)
  | t + 1 => ((walk t).2, 2 * (walk t).1 + 3 * (walk t).2)

def offset (x y : Fin 5) : Nat := ((List.range 24).find? fun t => walk t = (x, y)).elim 0 fun t => (t + 1) * (t + 2) / 2

def rho (a : State w) : State w := fun x y => (a x y).rotateLeft (offset x y)

def pi (a : State w) : State w := fun x y => a (x + 3 * y) x

def chi (a : State w) : State w := fun x y => a x y ^^^ (~~~a (x + 1) y &&& a (x + 2) y)

/-- The register of the round constants. -/
def lfsr : Nat → BitVec 8
  | 0 => 1
  | t + 1 => lfsr t <<< 1 ^^^ if (lfsr t).msb then 0x71 else 0

def rc (t : Nat) : Bool := (lfsr (t % 255)).getLsbD 0

def roundConstant (w i : Nat) : BitVec w :=
  (List.range (Nat.log2 w + 1)).foldl (fun r j => if rc (j + 7 * i) then r ||| BitVec.twoPow w (2 ^ j - 1) else r) 0

def iota (c : BitVec w) (a : State w) : State w := fun x y => if x = 0 ∧ y = 0 then a x y ^^^ c else a x y

def round (i : Nat) (a : State w) : State w := iota (roundConstant w i) (chi (pi (rho (theta a))))

/-- The state after some rounds. -/
def rounds (a : State w) : Nat → State w
  | 0 => a
  | i + 1 => round i (rounds a i)

def permutation (a : State w) : State w := rounds a (12 + 2 * Nat.log2 w)

/-! The sponge, with lanes of 64 bits. -/

/-- Bytes as a number, the least significant first. -/
def wordOf (bytes : List (BitVec 8)) : BitVec 64 := bytes.foldr (fun b x => x <<< 8 ||| b.setWidth 64) 0

/-- The lanes of a text. -/
def laneAt (text : List (BitVec 8)) (n : Nat) : BitVec 64 := wordOf ((text.drop (8 * n)).take 8)

/-- The place of a lane in the string of a state. -/
def index (x y : Fin 5) : Nat := 5 * y.val + x.val

/-- A word put into a lane. -/
def putLane (a : State 64) (l : Nat) (v : BitVec 64) : State 64 :=
  fun x y => if index x y = l then a x y ^^^ v else a x y

/-- The first `n` lanes of a text put into a state, of those behind a block. -/
def absorb (a : State 64) (text : List (BitVec 8)) (start n : Nat) : State 64 :=
  fun x y => if index x y < n then a x y ^^^ laneAt text (start + index x y) else a x y

/-- The state after some blocks of so many lanes. -/
def absorbed (lanes : Nat) (text : List (BitVec 8)) : Nat → State 64
  | 0 => fun _ _ => 0
  | n + 1 => permutation (absorb (absorbed lanes text n) text (n * lanes) lanes)

/-- A byte of a state. -/
def byteAt (a : State 64) (j : Nat) : BitVec 8 :=
  (a (Fin.ofNat 5 (j / 8)) (Fin.ofNat 5 (j / 8 / 5))).extractLsb' (8 * (j % 8)) 8

/-- What is squeezed out. -/
def squeezed (lanes : Nat) (a : State 64) (n : Nat) : BitVec 8 :=
  byteAt (permutation^[n / (8 * lanes)] a) (n % (8 * lanes))

/-- The padding of an extendable-output function, with its suffix. -/
def pad (rate : Nat) (m : List (BitVec 8)) : List (BitVec 8) :=
  let q := rate - m.length % rate
  m ++ if q = 1 then [0x9f] else 0x1f :: List.replicate (q - 2) 0 ++ [0x80]

/-- The output of an extendable-output function. -/
def output (lanes : Nat) (m : List (BitVec 8)) : Nat → BitVec 8 :=
  let text := pad (8 * lanes) m
  squeezed lanes (absorbed lanes text (text.length / (8 * lanes)))

def shake128 : List (BitVec 8) → Nat → BitVec 8 := output 21

def shake256 : List (BitVec 8) → Nat → BitVec 8 := output 17

/-! Lanes of a text. -/

theorem wordOf_bit (bytes : List (BitVec 8)) {i : Nat} (hi : i < 64) :
    (wordOf bytes).getLsbD i = (bytes.getD (i / 8) 0).getLsbD (i % 8) := by
  induction bytes generalizing i with
  | nil => simp [wordOf]
  | cons b bytes ih =>
    rw [wordOf, List.foldr_cons, ← wordOf, BitVec.getLsbD_or, BitVec.getLsbD_shiftLeft, BitVec.getLsbD_setWidth]
    by_cases h : i < 8
    · rw [Nat.div_eq_of_lt h, Nat.mod_eq_of_lt h]
      simp [h, hi]
    · have hsub : i / 8 = (i - 8) / 8 + 1 := by omega
      have hmod : i % 8 = (i - 8) % 8 := by omega
      have hge : b.getLsbD i = false := BitVec.getLsbD_of_ge b i (by omega)
      rw [hsub, hmod, List.getD_cons_succ, ← ih (by omega)]
      simp [h, hi, hge]

theorem laneAt_bit (text : List (BitVec 8)) (n : Nat) {i : Nat} (hi : i < 64) :
    (laneAt text n).getLsbD i = (text.getD (8 * n + i / 8) 0).getLsbD (i % 8) := by
  have hlt : i / 8 < 8 := by omega
  rw [laneAt, wordOf_bit _ hi]
  simp only [List.getD_eq_getElem?_getD, List.getElem?_take, List.getElem?_drop, hlt, if_true]

theorem laneAt_append {t : List (BitVec 8)} (u : List (BitVec 8)) {n : Nat} (h : 8 * (n + 1) ≤ t.length) :
    laneAt (t ++ u) n = laneAt t n := by
  rw [laneAt, laneAt, List.drop_append_of_le_length (by omega), List.take_append_of_le_length]
  rw [List.length_drop]
  omega

theorem absorb_succ (a : State 64) (text : List (BitVec 8)) (start n : Nat) :
    absorb a text start (n + 1) = putLane (absorb a text start n) n (laneAt text (start + n)) := by
  funext x y
  rw [putLane, absorb, absorb]
  by_cases h : index x y = n
  · rw [if_pos (by omega), if_pos h, if_neg (by omega), h]
  · rw [if_neg h]
    by_cases hlt : index x y < n
    · rw [if_pos (by omega), if_pos hlt]
    · rw [if_neg (by omega), if_neg hlt]

theorem absorb_congr {a : State 64} {t u : List (BitVec 8)} {start n : Nat}
    (h : ∀ k < n, laneAt t (start + k) = laneAt u (start + k)) : absorb a t start n = absorb a u start n := by
  funext x y
  rw [absorb, absorb]
  split
  · rw [h _ ‹_›]
  · rfl

theorem absorbed_congr {lanes : Nat} {t u : List (BitVec 8)} {n : Nat}
    (h : ∀ k < n * lanes, laneAt t k = laneAt u k) : absorbed lanes t n = absorbed lanes u n := by
  induction n with
  | zero => rfl
  | succ n ih =>
    rw [Nat.succ_mul] at h
    rw [absorbed, absorbed, ih fun k hk => h k (by omega), absorb_congr fun k hk => h _ (by omega)]

/-! A text that comes byte by byte: its whole lanes are put in as they come. -/

/-- The state after the whole lanes of a text. -/
def taken (lanes : Nat) (t : List (BitVec 8)) : State 64 :=
  absorb (absorbed lanes t (t.length / 8 / lanes)) t (t.length / 8 / lanes * lanes) (t.length / 8 % lanes)

theorem absorbed_append {lanes n : Nat} (t u : List (BitVec 8)) (h : 8 * (n * lanes) ≤ t.length) :
    absorbed lanes (t ++ u) n = absorbed lanes t n :=
  absorbed_congr fun k hk => laneAt_append u (by omega)

theorem taken_append {lanes : Nat} (t u : List (BitVec 8)) :
    absorb (absorbed lanes (t ++ u) (t.length / 8 / lanes)) (t ++ u) (t.length / 8 / lanes * lanes)
      (t.length / 8 % lanes) = taken lanes t := by
  have hle : t.length / 8 / lanes * lanes + t.length / 8 % lanes = t.length / 8 := Nat.div_add_mod' _ _
  rw [absorbed_append t u (by omega), taken]
  exact absorb_congr fun k hk => laneAt_append u (by omega)

/-- A byte within a lane. -/
theorem taken_within {lanes : Nat} {t : List (BitVec 8)} (b : BitVec 8) (h : t.length % 8 ≠ 7) :
    taken lanes (t ++ [b]) = taken lanes t := by
  have hlen : (t ++ [b]).length / 8 = t.length / 8 := by
    rw [List.length_append, List.length_singleton]
    omega
  rw [taken, hlen, taken_append]

/-- A byte that ends a lane. -/
theorem taken_lane {lanes : Nat} {t : List (BitVec 8)} (b : BitVec 8) :
    putLane (taken lanes t) (t.length / 8 % lanes) (laneAt (t ++ [b]) (t.length / 8)) =
      absorb (absorbed lanes (t ++ [b]) (t.length / 8 / lanes)) (t ++ [b]) (t.length / 8 / lanes * lanes)
        (t.length / 8 % lanes + 1) := by
  rw [absorb_succ, taken_append, Nat.div_add_mod']

/-- The state after it. -/
theorem taken_next {lanes : Nat} {t : List (BitVec 8)} (b : BitVec 8) (h : t.length % 8 = 7) (hl : 0 < lanes) :
    taken lanes (t ++ [b]) =
      if t.length / 8 % lanes + 1 = lanes then
        permutation (putLane (taken lanes t) (t.length / 8 % lanes) (laneAt (t ++ [b]) (t.length / 8)))
      else putLane (taken lanes t) (t.length / 8 % lanes) (laneAt (t ++ [b]) (t.length / 8)) := by
  have hlen : (t ++ [b]).length / 8 = t.length / 8 + 1 := by
    rw [List.length_append, List.length_singleton]
    omega
  have hlt := Nat.mod_lt (t.length / 8) hl
  have hsplit : t.length / 8 + 1 = lanes * (t.length / 8 / lanes) + (t.length / 8 % lanes + 1) := by
    rw [← Nat.add_assoc, Nat.div_add_mod]
  have hdiv : (t.length / 8 + 1) / lanes = t.length / 8 / lanes + (t.length / 8 % lanes + 1) / lanes := by
    rw [hsplit, Nat.mul_add_div hl]
  have hmod : (t.length / 8 + 1) % lanes = (t.length / 8 % lanes + 1) % lanes := by
    rw [hsplit, Nat.mul_add_mod]
  rw [taken, hlen, taken_lane b, hdiv, hmod]
  split
  · rename_i hend
    rw [hend, Nat.div_self hl, Nat.mod_self]
    funext x y
    rw [absorb, if_neg (Nat.not_lt_zero _)]
    rfl
  · have hzero : (t.length / 8 % lanes + 1) / lanes = 0 := Nat.div_eq_of_lt (by omega)
    have hself : (t.length / 8 % lanes + 1) % lanes = t.length / 8 % lanes + 1 := Nat.mod_eq_of_lt (by omega)
    rw [hzero, hself, Nat.add_zero]

/-! The padding. -/

theorem pad_length {rate : Nat} (h : 2 ≤ rate) (m : List (BitVec 8)) :
    (pad rate m).length = (m.length / rate + 1) * rate := by
  have hlt := Nat.mod_lt m.length (show 0 < rate by omega)
  have hdiv := Nat.div_add_mod m.length rate
  rw [pad, List.length_append, Nat.succ_mul, Nat.mul_comm (m.length / rate)]
  split
  · rw [List.length_singleton]
    omega
  · rw [List.length_append, List.length_cons, List.length_replicate, List.length_singleton]
    omega

/-- The bytes of a padded text. -/
theorem pad_getD {rate k : Nat} (h : 2 ≤ rate) (m : List (BitVec 8)) (hk : k < (m.length / rate + 1) * rate) :
    (pad rate m).getD k 0 = m.getD k 0 ||| (if k = m.length then 0x1f else 0) |||
      if k + 1 = (m.length / rate + 1) * rate then 0x80 else 0 := by
  have hlt := Nat.mod_lt m.length (show 0 < rate by omega)
  have hdiv := Nat.div_add_mod m.length rate
  rw [Nat.succ_mul, Nat.mul_comm (m.length / rate)] at hk ⊢
  rw [pad]
  by_cases hin : k < m.length
  · rw [List.getD_append _ _ _ _ hin, if_neg (by omega), if_neg (by omega)]
    exact (BitVec.or_zero.trans BitVec.or_zero).symm
  · have hzero : m.getD k 0 = 0 := List.getD_eq_default _ _ (Nat.le_of_not_lt hin)
    rw [List.getD_append_right _ _ _ _ (Nat.le_of_not_lt hin), hzero]
    by_cases hq : rate - m.length % rate = 1
    · have hkm : k = m.length := by omega
      rw [if_pos hq, if_pos hkm, if_pos (by omega), hkm, Nat.sub_self]
      rfl
    · rw [if_neg hq]
      obtain hkm | hkm := Nat.eq_or_lt_of_le (Nat.le_of_not_lt hin)
      · rw [← hkm, if_pos rfl, if_neg (by omega), Nat.sub_self]
        rfl
      · obtain ⟨j, rfl⟩ := Nat.exists_eq_add_of_lt hkm
        rw [if_neg (by omega), show m.length + j + 1 - m.length = j + 1 by omega, List.cons_append, List.getD_cons_succ]
        by_cases hlast : j = rate - m.length % rate - 2
        · rw [if_pos (by omega), List.getD_append_right _ _ _ _ (by rw [List.length_replicate]; omega),
            List.length_replicate, hlast, Nat.sub_self]
          rfl
        · rw [if_neg (by omega), List.getD_append _ _ _ _ (by rw [List.length_replicate]; omega)]
          simp only [List.getD_eq_getElem?_getD, List.getElem?_replicate]
          split <;> rfl

/-- The lanes of a padded text. -/
theorem pad_laneAt {lanes n : Nat} (h : 1 ≤ lanes) (m : List (BitVec 8)) (hn : n < (m.length / (8 * lanes) + 1) * lanes) :
    laneAt (pad (8 * lanes) m) n = laneAt m n |||
      (if n = m.length / 8 then 0x1f#64 <<< (8 * (m.length % 8)) else 0) |||
      if n + 1 = (m.length / (8 * lanes) + 1) * lanes then 0x8000000000000000 else 0 := by
  have hend : (m.length / (8 * lanes) + 1) * (8 * lanes) = 8 * ((m.length / (8 * lanes) + 1) * lanes) := by
    rw [Nat.mul_left_comm]
  generalize he : (m.length / (8 * lanes) + 1) * lanes = e at hn hend ⊢
  apply BitVec.eq_of_getLsbD_eq
  intro i hi
  have hk : 8 * n + i / 8 < (m.length / (8 * lanes) + 1) * (8 * lanes) := by
    rw [hend]
    omega
  rw [laneAt_bit _ _ hi, pad_getD (by omega) m hk, hend, BitVec.getLsbD_or, BitVec.getLsbD_or, BitVec.getLsbD_or,
    BitVec.getLsbD_or, laneAt_bit _ _ hi]
  congr 1
  · congr 1
    by_cases hq : n = m.length / 8
    · rw [if_pos hq, BitVec.getLsbD_shiftLeft, decide_eq_true hi, Bool.true_and]
      by_cases hb : i / 8 = m.length % 8
      · rw [if_pos (by omega), decide_eq_false (show ¬i < 8 * (m.length % 8) by omega), Bool.not_false, Bool.true_and,
          show i - 8 * (m.length % 8) = i % 8 by omega]
        have hbit : ∀ j < 8, (0x1f : BitVec 8).getLsbD j = (0x1f#64).getLsbD j := by decide
        exact hbit _ (Nat.mod_lt i (by decide))
      · rw [if_neg (by omega)]
        by_cases hlt : i < 8 * (m.length % 8)
        · simp [hlt]
        · have hbit : ∀ j < 64, 8 ≤ j → (0x1f#64).getLsbD j = false := by decide
          rw [hbit _ (by omega) (by omega)]
          simp
    · rw [if_neg hq, if_neg (by omega)]
      exact BitVec.getLsbD_zero.trans BitVec.getLsbD_zero.symm
  · by_cases hlast : n + 1 = e
    · rw [if_pos hlast]
      by_cases hb : i / 8 = 7
      · rw [if_pos (by omega)]
        have hbit : ∀ j < 64, j / 8 = 7 → (0x80 : BitVec 8).getLsbD (j % 8) = (0x8000000000000000 : BitVec 64).getLsbD j := by
          decide
        exact hbit i hi hb
      · rw [if_neg (by omega)]
        have hbit : ∀ j < 64, j / 8 ≠ 7 → (0x8000000000000000 : BitVec 64).getLsbD j = false := by decide
        rw [hbit i hi hb]
        exact BitVec.getLsbD_zero
    · rw [if_neg hlast, if_neg (by omega)]
      exact BitVec.getLsbD_zero.trans BitVec.getLsbD_zero.symm

theorem laneAt_end {m : List (BitVec 8)} {n : Nat} (h : m.length ≤ 8 * n) : laneAt m n = 0 := by
  rw [laneAt, List.drop_of_length_le h]
  rfl

/-- The last block is put in by one lane, or by two. -/
theorem absorb_pad {lanes j start : Nat} (a : State 64) (m : List (BitVec 8)) (hj : j < lanes)
    (hq : m.length / 8 = start + j) (he : (m.length / (8 * lanes) + 1) * lanes = start + lanes) :
    absorb a (pad (8 * lanes) m) start lanes =
      if j + 1 = lanes then putLane (absorb a m start j) j (laneAt (pad (8 * lanes) m) (start + j))
      else putLane (putLane (absorb a m start j) j (laneAt (pad (8 * lanes) m) (start + j))) (lanes - 1)
        0x8000000000000000 := by
  have hlane : ∀ k < lanes, k ≠ j → laneAt (pad (8 * lanes) m) (start + k) =
      if k < j then laneAt m (start + k) else if k + 1 = lanes then 0x8000000000000000 else 0 := by
    intro k hk hkj
    have hpad := pad_laneAt (n := start + k) (show 1 ≤ lanes by omega) m (by rw [he]; omega)
    rw [he, if_neg (by omega)] at hpad
    rw [hpad]
    by_cases hlt : k < j
    · rw [if_pos hlt, if_neg (by omega)]
      exact BitVec.or_zero.trans BitVec.or_zero
    · have hzero : laneAt m (start + k) = 0 := laneAt_end (by omega)
      rw [if_neg hlt, hzero]
      simp only [show start + k + 1 = start + lanes ↔ k + 1 = lanes by omega]
      exact (congrArg (· ||| _) BitVec.or_zero).trans BitVec.zero_or
  have hxor : ∀ v : BitVec 64, v ^^^ 0 = v := fun _ => BitVec.xor_zero
  split
  · funext x y
    rw [putLane, absorb, absorb]
    by_cases hin : index x y < lanes
    · rw [if_pos hin]
      by_cases hi : index x y = j
      · rw [if_pos hi, if_neg (by omega), hi]
      · rw [if_neg hi, if_pos (by omega), hlane _ hin hi, if_pos (by omega)]
    · rw [if_neg hin, if_neg (by omega), if_neg (by omega)]
  · funext x y
    rw [putLane, putLane, absorb, absorb]
    by_cases hin : index x y < lanes
    · rw [if_pos hin]
      by_cases hi : index x y = j
      · rw [if_pos hi, if_neg (by omega), if_neg (by omega), hi]
      · rw [if_neg hi, hlane _ hin hi]
        by_cases hlt : index x y < j
        · rw [if_pos hlt, if_pos hlt, if_neg (by omega)]
        · rw [if_neg hlt, if_neg hlt]
          by_cases hlast : index x y + 1 = lanes
          · rw [if_pos hlast, if_pos (by omega)]
          · rw [if_neg hlast, if_neg (by omega), hxor]
    · rw [if_neg hin, if_neg (by omega), if_neg (by omega), if_neg (by omega)]

end Sha3
