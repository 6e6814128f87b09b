import Mathlib.Data.BitVec
import Mathlib.Data.List.GetD
import Mathlib.Data.Nat.NthRoot.Defs

/-!
The secure hash algorithms of FIPS 180-4, for messages of whole bytes and for both sizes
of words.
-/

namespace SecureHash

/-- The working variables. -/
structure Vars (w : Nat) where
  a : BitVec w
  b : BitVec w
  c : BitVec w
  d : BitVec w
  e : BitVec w
  f : BitVec w
  g : BitVec w
  h : BitVec w
  deriving DecidableEq

/-- What the algorithms differ in. -/
structure Family (w : Nat) where
  bigSigma0 : BitVec w → BitVec w
  bigSigma1 : BitVec w → BitVec w
  smallSigma0 : BitVec w → BitVec w
  smallSigma1 : BitVec w → BitVec w
  constants : List (BitVec w)
  initial : List (BitVec w)

variable {w : Nat}

def ch (x y z : BitVec w) : BitVec w := (x &&& y) ^^^ (~~~x &&& z)

def maj (x y z : BitVec w) : BitVec w := (x &&& y) ^^^ (x &&& z) ^^^ (y &&& z)

/-- The words of a chaining value as working variables. -/
def Vars.of (H : Nat → BitVec w) : Vars w := ⟨H 0, H 1, H 2, H 3, H 4, H 5, H 6, H 7⟩

def Vars.word (v : Vars w) : Nat → BitVec w
  | 0 => v.a
  | 1 => v.b
  | 2 => v.c
  | 3 => v.d
  | 4 => v.e
  | 5 => v.f
  | 6 => v.g
  | 7 => v.h
  | _ => 0

variable (F : Family w)

namespace Family

/-- The message schedule. -/
def schedule (M : Nat → BitVec w) (t : Nat) : BitVec w :=
  if t < 16 then M t
  else F.smallSigma1 (schedule M (t - 2)) + schedule M (t - 7) + F.smallSigma0 (schedule M (t - 15))
    + schedule M (t - 16)
termination_by t

def temp1 (k wt : BitVec w) (v : Vars w) : BitVec w := v.h + F.bigSigma1 v.e + ch v.e v.f v.g + k + wt

def temp2 (v : Vars w) : BitVec w := F.bigSigma0 v.a + maj v.a v.b v.c

def round (k wt : BitVec w) (v : Vars w) : Vars w where
  a := F.temp1 k wt v + F.temp2 v
  b := v.a
  c := v.b
  d := v.c
  e := v.d + F.temp1 k wt v
  f := v.e
  g := v.f
  h := v.g

/-- The working variables before round `t`. -/
def rounds (M : Nat → BitVec w) (v : Vars w) : Nat → Vars w
  | 0 => v
  | t + 1 => F.round (F.constants.getD t 0) (F.schedule M t) (rounds M v t)

/-- The next chaining value. -/
def compress (H M : Nat → BitVec w) (j : Nat) : BitVec w :=
  H j + (F.rounds M (.of H) F.constants.length).word j

/-- The chaining value after some blocks. -/
def chaining (blocks : Nat → Nat → BitVec w) : Nat → Nat → BitVec w
  | 0 => fun j => F.initial.getD j 0
  | n + 1 => F.compress (chaining blocks n) (blocks n)

end Family

/-! Bytes. -/

/-- A word with a byte put in below. -/
def shiftIn (x : BitVec w) (b : BitVec 8) : BitVec w := x <<< 8 ||| b.setWidth w

/-- The bytes of a word, the most significant first. -/
def wordOf (w : Nat) (bytes : List (BitVec 8)) : BitVec w := bytes.foldl shiftIn 0

/-- The words of a text. -/
def wordAt (w : Nat) (text : List (BitVec 8)) (j : Nat) : BitVec w :=
  wordOf w ((text.drop (j * (w / 8))).take (w / 8))

/-- The blocks of a text: 16 words each. -/
def block (w : Nat) (text : List (BitVec 8)) (n j : Nat) : BitVec w := wordAt w text (16 * n + j)

/-- A number in so many bytes, the most significant first. -/
def octets : Nat → Nat → List (BitVec 8)
  | 0, _ => []
  | n + 1, x => octets n (x / 256) ++ [BitVec.ofNat 8 x]

theorem octets_length (k x : Nat) : (octets k x).length = k := by
  induction k generalizing x with
  | zero => rfl
  | succ k ih => rw [octets, List.length_append, ih, List.length_singleton]

theorem octets_getElem {k x j : Nat} (h : j < (octets k x).length) :
    (octets k x)[j] = BitVec.ofNat 8 (x / 256 ^ (k - 1 - j)) := by
  induction k generalizing x with
  | zero => exact absurd h (Nat.not_lt_zero j)
  | succ k ih =>
    simp only [octets]
    by_cases hj : j < k
    · rw [List.getElem_append_left (by rwa [octets_length]), ih, Nat.div_div_eq_div_mul, ← Nat.pow_succ']
      congr 3
      omega
    · rw [octets_length] at h
      obtain rfl : j = k := by omega
      rw [List.getElem_append_right (by rw [octets_length])]
      simp [octets_length]

theorem octets_add (k l x : Nat) : octets (k + l) x = octets k (x / 256 ^ l) ++ octets l x := by
  induction l generalizing x with
  | zero => simp [octets]
  | succ l ih =>
    rw [← Nat.add_assoc, octets, octets, ih, Nat.div_div_eq_div_mul, ← Nat.pow_succ', List.append_assoc]

theorem octets_zero (k : Nat) : octets k 0 = List.replicate k 0 := by
  induction k with
  | zero => rfl
  | succ k ih =>
    rw [octets, Nat.zero_div, ih, List.replicate_succ']
    rfl

theorem octets_inj {k x y : Nat} (h : octets k x = octets k y) : x % 256 ^ k = y % 256 ^ k := by
  induction k generalizing x y with
  | zero => rw [Nat.pow_zero, Nat.mod_one, Nat.mod_one]
  | succ k ih =>
    rw [octets, octets] at h
    obtain ⟨hhigh, hlow⟩ := List.append_inj h (by rw [octets_length, octets_length])
    have hbyte : x % 256 = y % 256 := congrArg BitVec.toNat (List.cons.inj hlow).1
    rw [Nat.pow_succ', Nat.mod_mul, Nat.mod_mul, hbyte, ih hhigh]

/-- The zeros between the marker and the length, which has the width of two words. -/
def zeros (w n : Nat) : Nat := (2 * w - 1 - w / 4 + (2 * w - n % (2 * w))) % (2 * w)

def pad (w : Nat) (m : List (BitVec 8)) : List (BitVec 8) :=
  m ++ 0x80 :: List.replicate (zeros w m.length) 0 ++ octets (w / 4) (8 * m.length)

/-- The words of the digest. -/
def Family.digest (m : List (BitVec 8)) : Nat → BitVec w :=
  F.chaining (block w (pad w m)) ((pad w m).length / (2 * w))

/-! The two families. -/

/-- The first 80 primes. -/
def primes : List Nat :=
  [2, 3, 5, 7, 11, 13, 17, 19, 23, 29, 31, 37, 41, 43, 47, 53, 59, 61, 67, 71, 73, 79, 83, 89, 97, 101, 103, 107, 109,
    113, 127, 131, 137, 139, 149, 151, 157, 163, 167, 173, 179, 181, 191, 193, 197, 199, 211, 223, 227, 229, 233, 239,
    241, 251, 257, 263, 269, 271, 277, 281, 283, 293, 307, 311, 313, 317, 331, 337, 347, 349, 353, 359, 367, 373, 379,
    383, 389, 397, 401, 409]

/-- The first bits of the fractional part of a root. -/
def fraction (n bits p : Nat) : BitVec bits := BitVec.ofNat bits (Nat.nthRoot n (p * 2 ^ (n * bits)))

def sha256 : Family 32 where
  bigSigma0 x := x.rotateRight 2 ^^^ x.rotateRight 13 ^^^ x.rotateRight 22
  bigSigma1 x := x.rotateRight 6 ^^^ x.rotateRight 11 ^^^ x.rotateRight 25
  smallSigma0 x := x.rotateRight 7 ^^^ x.rotateRight 18 ^^^ x >>> 3
  smallSigma1 x := x.rotateRight 17 ^^^ x.rotateRight 19 ^^^ x >>> 10
  constants := (primes.take 64).map (fraction 3 32)
  initial := (primes.take 8).map (fraction 2 32)

def sha512 : Family 64 where
  bigSigma0 x := x.rotateRight 28 ^^^ x.rotateRight 34 ^^^ x.rotateRight 39
  bigSigma1 x := x.rotateRight 14 ^^^ x.rotateRight 18 ^^^ x.rotateRight 41
  smallSigma0 x := x.rotateRight 1 ^^^ x.rotateRight 8 ^^^ x >>> 7
  smallSigma1 x := x.rotateRight 19 ^^^ x.rotateRight 61 ^^^ x >>> 6
  constants := primes.map (fraction 3 64)
  initial := (primes.take 8).map (fraction 2 64)

/-! Words of a text. -/

theorem foldl_shiftIn_setWidth {v : Nat} (h : w ≤ v) (text : List (BitVec 8)) (x : BitVec v) :
    (text.foldl shiftIn x).setWidth w = text.foldl shiftIn (x.setWidth w) := by
  induction text generalizing x with
  | nil => rfl
  | cons b text ih =>
    have hstep : (shiftIn x b).setWidth w = shiftIn (x.setWidth w) b := by
      apply BitVec.eq_of_getLsbD_eq
      intro i hi
      simp only [shiftIn, BitVec.getLsbD_setWidth, BitVec.getLsbD_or, BitVec.getLsbD_shiftLeft, hi,
        show i < v by omega, decide_true, Bool.true_and]
      cases hlt : decide (i < 8) with
      | true => simp
      | false =>
        have hge : i - 8 < w := by omega
        simp [hge]
    rw [List.foldl_cons, List.foldl_cons, ih, hstep]

/-- What was there goes up, and the bytes come in below. -/
theorem foldl_shiftIn (text : List (BitVec 8)) (x : BitVec w) :
    text.foldl shiftIn x = x <<< (8 * text.length) ||| wordOf w text := by
  induction text generalizing x with
  | nil => simp [wordOf]
  | cons b text ih =>
    have hcons : wordOf w (b :: text) = shiftIn 0 b <<< (8 * text.length) ||| wordOf w text := ih (shiftIn 0 b)
    rw [List.foldl_cons, ih, hcons, List.length_cons, ← BitVec.or_assoc]
    congr 1
    rw [shiftIn, shiftIn, BitVec.shiftLeft_or_distrib, BitVec.shiftLeft_or_distrib, ← BitVec.shiftLeft_add]
    simp [Nat.mul_add, Nat.add_comm]

theorem foldl_shiftIn_full {text : List (BitVec 8)} (h : w ≤ 8 * text.length) (x : BitVec w) :
    text.foldl shiftIn x = wordOf w text := by
  rw [foldl_shiftIn, BitVec.shiftLeft_eq_zero h, BitVec.zero_or]

theorem wordAt_append {text : List (BitVec 8)} (rest : List (BitVec 8)) {j : Nat}
    (h : (j + 1) * (w / 8) ≤ text.length) : wordAt w (text ++ rest) j = wordAt w text j := by
  rw [Nat.succ_mul] at h
  have hle : w / 8 ≤ (text.drop (j * (w / 8))).length := by
    rw [List.length_drop]
    omega
  rw [wordAt, wordAt, List.drop_append_of_le_length (by omega), List.take_append_of_le_length hle]

/-- The word that ends with a text. -/
theorem wordAt_last {text : List (BitVec 8)} {j : Nat} (h : text.length = (j + 1) * (w / 8)) :
    wordAt w text j = wordOf w (text.drop (j * (w / 8))) := by
  have hlen : (text.drop (j * (w / 8))).length = w / 8 := by
    rw [List.length_drop, h, Nat.succ_mul]
    omega
  rw [wordAt, List.take_of_length_le (Nat.le_of_eq hlen)]

/-! Only the words of the block count. -/

theorem Family.schedule_lt (F : Family w) (M : Nat → BitVec w) {t : Nat} (h : t < 16) : F.schedule M t = M t := by
  rw [Family.schedule, if_pos h]

theorem Family.schedule_add (F : Family w) (M : Nat → BitVec w) (t : Nat) :
    F.schedule M (t + 16) = F.smallSigma1 (F.schedule M (t + 14)) + F.schedule M (t + 9) +
      F.smallSigma0 (F.schedule M (t + 1)) + F.schedule M t := by
  conv_lhs => rw [Family.schedule, if_neg (by omega)]
  rfl

theorem Family.schedule_congr {F : Family w} {M M' : Nat → BitVec w} (h : ∀ j < 16, M j = M' j) (t : Nat) :
    F.schedule M t = F.schedule M' t := by
  induction t using Nat.strong_induction_on with
  | _ t ih =>
    by_cases ht : t < 16
    · rw [F.schedule_lt M ht, F.schedule_lt M' ht, h t ht]
    · obtain ⟨t, rfl⟩ := Nat.exists_eq_add_of_le' (Nat.le_of_not_lt ht)
      rw [F.schedule_add, F.schedule_add, ih (t + 14) (by omega), ih (t + 9) (by omega), ih (t + 1) (by omega),
        ih t (by omega)]

section

variable {F : Family w}

theorem Family.compress_congr {H H' M M' : Nat → BitVec w} (hH : ∀ j < 8, H j = H' j) (hM : ∀ j < 16, M j = M' j)
    {j : Nat} (hj : j < 8) : F.compress H M j = F.compress H' M' j := by
  have hv : Vars.of H = Vars.of H' := by
    simp only [Vars.of, hH 0 (by decide), hH 1 (by decide), hH 2 (by decide), hH 3 (by decide), hH 4 (by decide),
      hH 5 (by decide), hH 6 (by decide), hH 7 (by decide)]
  have hrounds : ∀ t, F.rounds M (.of H') t = F.rounds M' (.of H') t := by
    intro t
    induction t with
    | zero => rfl
    | succ t ih => rw [Family.rounds, Family.rounds, ih, F.schedule_congr hM]
  rw [Family.compress, Family.compress, hH j hj, hv, hrounds]

theorem Family.chaining_congr {B B' : Nat → Nat → BitVec w} {n : Nat} (h : ∀ k < n, ∀ j < 16, B k j = B' k j) :
    ∀ j < 8, F.chaining B n j = F.chaining B' n j := by
  induction n with
  | zero => exact fun _ _ => rfl
  | succ n ih =>
    intro j hj
    exact F.compress_congr (ih fun k hk => h k (Nat.lt_succ_of_lt hk)) (h n (Nat.lt_succ_self n)) hj

end

/-! The digest with lists, for running it. -/

namespace Family

/-- The rounds with a window on the schedule that moves on. -/
def sliding : List (BitVec w) → Vars w → List (BitVec w) → Vars w
  | [], v, _ => v
  | k :: ks, v, x =>
    sliding ks (F.round k (x.getD 0 0) v)
      (x.tail ++ [F.smallSigma1 (x.getD 14 0) + x.getD 9 0 + F.smallSigma0 (x.getD 1 0) + x.getD 0 0])

def window (M : Nat → BitVec w) (t : Nat) : List (BitVec w) := (List.range 16).map fun j => F.schedule M (t + j)

theorem window_next (M : Nat → BitVec w) (t : Nat) :
    (F.window M t).tail ++ [F.smallSigma1 ((F.window M t).getD 14 0) + (F.window M t).getD 9 0 +
      F.smallSigma0 ((F.window M t).getD 1 0) + (F.window M t).getD 0 0] = F.window M (t + 1) := by
  have hlast : (F.window M (t + 1)).getD 15 0 = F.schedule M (t + 16) := rfl
  rw [F.schedule_add] at hlast
  change _ = (F.window M t).tail ++ [(F.window M (t + 1)).getD 15 0]
  rw [hlast]
  rfl

theorem sliding_rounds (M : Nat → BitVec w) (v : Vars w) {d ks : List (BitVec w)} (h : F.constants = d ++ ks) :
    F.sliding ks (F.rounds M v d.length) (F.window M d.length) = F.rounds M v F.constants.length := by
  induction ks generalizing d with
  | nil =>
    rw [List.append_nil] at h
    rw [sliding, h]
  | cons k ks ih =>
    have hk : F.constants.getD d.length 0 = k := by
      rw [h, List.getD_append_right _ _ _ _ (Nat.le_refl _), Nat.sub_self]
      rfl
    have hnext := ih (d := d ++ [k]) (by rw [h, List.append_assoc, List.singleton_append])
    rw [List.length_append, List.length_singleton, rounds, hk] at hnext
    rw [sliding, window_next]
    exact hnext

/-- The next chaining value. -/
def compressList (H : List (BitVec w)) (M : List (BitVec w)) : List (BitVec w) :=
  let v := F.sliding F.constants (.of fun j => H.getD j 0) M
  (List.range 8).map fun j => H.getD j 0 + v.word j

theorem compressList_getD {H : List (BitVec w)} {M : Nat → BitVec w} {j : Nat} (hj : j < 8) :
    (F.compressList H ((List.range 16).map M)).getD j 0 = F.compress (fun j => H.getD j 0) M j := by
  have hwindow : (List.range 16).map M = F.window M 0 := by
    apply List.map_congr_left
    intro t ht
    rw [Nat.zero_add, F.schedule_lt M (List.mem_range.mp ht)]
  have hrounds := F.sliding_rounds M (.of fun j => H.getD j 0) (d := []) rfl
  rw [compressList, List.getD_eq_getElem _ _ (by rw [List.length_map, List.length_range]; exact hj), List.getElem_map,
    List.getElem_range, hwindow]
  rw [compress, ← hrounds]
  rfl

def chainingList (B : Nat → Nat → BitVec w) (n : Nat) : List (BitVec w) :=
  (List.range n).foldl (fun H k => F.compressList H ((List.range 16).map (B k))) F.initial

theorem chainingList_getD (B : Nat → Nat → BitVec w) (n : Nat) {j : Nat} (hj : j < 8) :
    (F.chainingList B n).getD j 0 = F.chaining B n j := by
  induction n generalizing j with
  | zero => rfl
  | succ n ih =>
    rw [chainingList, @List.range_succ n, List.foldl_append]
    change (F.compressList (F.chainingList B n) ((List.range 16).map (B n))).getD j 0 = _
    rw [F.compressList_getD hj]
    exact F.compress_congr (fun j hj => ih hj) (fun _ _ => rfl) hj

end Family

end SecureHash
