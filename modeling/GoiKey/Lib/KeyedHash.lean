import Mathlib.Tactic.IntervalCases
import GoiKey.Lib.SecureHash

/-!
The keyed hash of RFC 2104 over these algorithms, and the key derivation of RFC 8018 over
any keyed hash.
-/

namespace SecureHash

variable {w : Nat} {F : Family w}

/-- The bytes of a digest. -/
def bytesOf (d : Nat → BitVec w) : List (BitVec 8) := (List.range 8).flatMap fun j => octets (w / 8) (d j).toNat

namespace Family

variable (F)

def hash (m : List (BitVec 8)) : List (BitVec 8) := bytesOf (F.digest m)

/-- The key filled up to a block. A longer one is hashed. -/
def keyBlock (k : List (BitVec 8)) : List (BitVec 8) :=
  let short := if 2 * w < k.length then F.hash k else k
  short ++ List.replicate (2 * w - short.length) 0

/-- The block of the key under a pad. -/
def keyPad (x : BitVec 8) (k : List (BitVec 8)) : List (BitVec 8) := (F.keyBlock k).map (· ^^^ x)

def hmac (k m : List (BitVec 8)) : List (BitVec 8) := F.hash (F.keyPad 0x5c k ++ F.hash (F.keyPad 0x36 k ++ m))

end Family

def xorBytes (x y : List (BitVec 8)) : List (BitVec 8) := List.zipWith (· ^^^ ·) x y

section Derivation

variable (prf : List (BitVec 8) → List (BitVec 8)) (text : List (BitVec 8))

/-- The values of the iterations, the first of them first. -/
def iterated : Nat → List (BitVec 8)
  | 0 => prf text
  | n + 1 => prf (iterated n)

/-- The values up to an iteration, one over the other. -/
def accumulated : Nat → List (BitVec 8)
  | 0 => iterated prf text 0
  | n + 1 => xorBytes (accumulated n) (iterated prf text (n + 1))

/-- Block `i` of the derived key, of so many iterations. -/
def derivedBlock (salt : List (BitVec 8)) (i iterations : Nat) : List (BitVec 8) :=
  accumulated prf (salt ++ octets 4 i) (iterations - 1)

end Derivation

/-! Words of such texts. -/

theorem bytesOf_length (d : Nat → BitVec w) : (bytesOf d).length = 8 * (w / 8) := by
  simp only [bytesOf, List.length_flatMap, octets_length, List.map_const', List.sum_replicate_nat, List.length_range]

theorem shiftIn_ofNat (x : Nat) : shiftIn (BitVec.ofNat w (x / 256)) (BitVec.ofNat 8 x) = BitVec.ofNat w x := by
  apply BitVec.eq_of_getLsbD_eq
  intro i hi
  simp only [shiftIn, BitVec.getLsbD_or, BitVec.getLsbD_shiftLeft, BitVec.getLsbD_setWidth, BitVec.getLsbD_ofNat, hi,
    decide_true, Bool.true_and]
  by_cases h : i < 8
  · simp [h]
  · have hdiv : (x / 256).testBit (i - 8) = x.testBit i := by
      rw [show 256 = 2 ^ 8 by rfl, Nat.testBit_div_two_pow]
      congr 1
      omega
    simp [h, hdiv, show i - 8 < w by omega]

theorem wordOf_octets {k x : Nat} (h : x < 256 ^ k) : wordOf w (octets k x) = BitVec.ofNat w x := by
  induction k generalizing x with
  | zero =>
    obtain rfl : x = 0 := Nat.lt_one_iff.mp h
    rfl
  | succ k ih =>
    have hdiv : x / 256 < 256 ^ k := Nat.div_lt_of_lt_mul (by rwa [← Nat.pow_succ'])
    have hword := ih hdiv
    rw [wordOf] at hword ⊢
    rw [octets, List.foldl_append, hword]
    exact shiftIn_ofNat x

/-- The words behind a text of whole words. -/
theorem wordAt_behind {p t : List (BitVec 8)} {q : Nat} (h : p.length = q * (w / 8)) (j : Nat) :
    wordAt w (p ++ t) (q + j) = wordAt w t j := by
  rw [wordAt, wordAt, Nat.add_mul, ← h, List.drop_append]
  have hdrop : p.drop (p.length + j * (w / 8)) = [] := List.drop_of_length_le (Nat.le_add_right _ _)
  rw [hdrop, List.nil_append, Nat.add_sub_cancel_left]

/-- The first bytes are the first words. -/
theorem flatMap_take (d : Nat → BitVec w) {n j : Nat} (hj : j < n) :
    (((List.range n).flatMap fun k => octets (w / 8) (d k).toNat).drop (j * (w / 8))).take (w / 8) =
      octets (w / 8) (d j).toNat := by
  induction n generalizing d j with
  | zero => exact absurd hj (Nat.not_lt_zero j)
  | succ n ih =>
    rw [List.range_succ_eq_map, List.flatMap_cons, List.flatMap_map]
    obtain _ | j := j
    · rw [Nat.zero_mul, List.drop_zero, List.take_append_of_le_length (by rw [octets_length]),
        List.take_of_length_le (by rw [octets_length])]
    · have hlen : (j + 1) * (w / 8) = (octets (w / 8) (d 0).toNat).length + j * (w / 8) := by
        rw [octets_length, Nat.succ_mul, Nat.add_comm]
      rw [hlen, List.drop_length_add_append]
      exact ih (fun k => d (k + 1)) (Nat.lt_of_succ_lt_succ hj)

theorem wordAt_bytesOf (hw : 8 * (w / 8) = w) (d : Nat → BitVec w) {j : Nat} (hj : j < 8) :
    wordAt w (bytesOf d) j = d j := by
  have hlt : (d j).toNat < 256 ^ (w / 8) := by
    have hpow : 256 ^ (w / 8) = 2 ^ w := by
      rw [show 256 = 2 ^ 8 by rfl, ← Nat.pow_mul, hw]
    rw [hpow]
    exact (d j).isLt
  rw [wordAt, bytesOf, flatMap_take d hj, wordOf_octets hlt, BitVec.ofNat_toNat, BitVec.setWidth_eq]

theorem shiftIn_xor (x y : BitVec w) (a b : BitVec 8) : shiftIn (x ^^^ y) (a ^^^ b) = shiftIn x a ^^^ shiftIn y b := by
  apply BitVec.eq_of_getLsbD_eq
  intro i hi
  simp only [shiftIn, BitVec.getLsbD_or, BitVec.getLsbD_shiftLeft, BitVec.getLsbD_setWidth, BitVec.getLsbD_xor, hi,
    decide_true, Bool.true_and]
  by_cases h : i < 8
  · simp [h]
  · have hge : ∀ c : BitVec 8, c.getLsbD i = false := fun c => BitVec.getLsbD_of_ge c i (Nat.le_of_not_lt h)
    simp [h, hge]

theorem wordOf_xor {x y : List (BitVec 8)} (h : x.length = y.length) :
    wordOf w (xorBytes x y) = wordOf w x ^^^ wordOf w y := by
  have hfold : ∀ a b : BitVec w, (xorBytes x y).foldl shiftIn (a ^^^ b) = x.foldl shiftIn a ^^^ y.foldl shiftIn b := by
    induction x generalizing y with
    | nil =>
      obtain rfl := List.eq_nil_of_length_eq_zero h.symm
      exact fun _ _ => rfl
    | cons c x ih =>
      obtain _ | ⟨e, y⟩ := y
      · exact absurd h (Nat.succ_ne_zero _)
      · intro a b
        have hstep := ih (Nat.succ.inj h) (shiftIn a c) (shiftIn b e)
        rw [← shiftIn_xor] at hstep
        exact hstep
  have hzero := hfold 0 0
  rwa [BitVec.xor_self] at hzero

theorem wordAt_xor {x y : List (BitVec 8)} (h : x.length = y.length) (j : Nat) :
    wordAt w (xorBytes x y) j = wordAt w x j ^^^ wordAt w y j := by
  have hlen : ((x.drop (j * (w / 8))).take (w / 8)).length = ((y.drop (j * (w / 8))).take (w / 8)).length := by
    rw [List.length_take, List.length_take, List.length_drop, List.length_drop, h]
  rw [wordAt, wordAt, wordAt, ← wordOf_xor hlen, xorBytes, xorBytes, List.drop_zipWith, List.take_zipWith]

/-! Words that are shifted in byte by byte. -/

theorem append_shiftIn {v : Nat} (x : BitVec (v + 8)) (b : BitVec 8) : x.extractLsb' 0 v ++ b = shiftIn x b := by
  apply BitVec.eq_of_getLsbD_eq
  intro i hi
  rw [shiftIn, BitVec.getLsbD_append, BitVec.getLsbD_or, BitVec.getLsbD_shiftLeft, BitVec.getLsbD_setWidth,
    BitVec.getLsbD_extractLsb']
  by_cases h : i < 8
  · simp [h, hi]
  · have hsub : i - 8 < v := by omega
    have hge : b.getLsbD i = false := BitVec.getLsbD_of_ge b i (by omega)
    simp [h, hi, hsub, hge]

/-- Zero bytes shifted in. -/
theorem append_zeros {v n : Nat} (x : BitVec (v + 8 * n)) :
    x.extractLsb' 0 v ++ 0#(8 * n) = (List.replicate n 0).foldl shiftIn x := by
  have hzero : ∀ k, (List.replicate k (0 : BitVec 8)).foldl shiftIn (0 : BitVec (v + 8 * n)) = 0 := by
    intro k
    induction k with
    | zero => rfl
    | succ k ih =>
      have hstep : shiftIn (0 : BitVec (v + 8 * n)) 0 = 0 := by simp [shiftIn]
      rw [List.replicate_succ, List.foldl_cons, hstep, ih]
  have hor : ∀ y : BitVec (v + 8 * n), y ||| 0 = y := fun y => BitVec.or_zero
  rw [foldl_shiftIn, wordOf, hzero, hor, List.length_replicate]
  apply BitVec.eq_of_getLsbD_eq
  intro i hi
  rw [BitVec.getLsbD_append, BitVec.getLsbD_shiftLeft, BitVec.getLsbD_extractLsb', BitVec.getLsbD_zero]
  by_cases h : i < 8 * n
  · simp [h]
  · have hsub : i - 8 * n < v := by omega
    simp [h, hi, hsub]

/-- `y` has taken up the bytes of the word of a text that is not ended yet. -/
def Ending (t : List (BitVec 8)) (y : BitVec w) : Prop :=
  ∃ x, y = (t.drop (t.length / (w / 8) * (w / 8))).foldl shiftIn x

theorem Ending.push {t : List (BitVec 8)} {y : BitVec w} (h : Ending t y) (b : BitVec 8) :
    Ending (t ++ [b]) (shiftIn y b) := by
  obtain ⟨x, rfl⟩ := h
  rw [Ending, List.length_append, List.length_singleton]
  by_cases hend : (t.length + 1) / (w / 8) = t.length / (w / 8)
  · refine ⟨x, ?_⟩
    rw [hend, List.drop_append_of_le_length (Nat.div_mul_le_self _ _), List.foldl_append]
    rfl
  · have hmul : (t.length + 1) / (w / 8) * (w / 8) = t.length + 1 := by
      rw [Nat.succ_div] at hend ⊢
      by_cases hdvd : w / 8 ∣ t.length + 1
      · rw [← Nat.succ_div, Nat.div_mul_cancel hdvd]
      · rw [if_neg hdvd] at hend
        exact absurd rfl hend
    have hall : (t ++ [b]).drop (t.length + 1) = [] := List.drop_of_length_le (by simp)
    refine ⟨shiftIn ((t.drop (t.length / (w / 8) * (w / 8))).foldl shiftIn x) b, ?_⟩
    rw [hmul, hall]
    rfl

/-- The word is there with its last byte. -/
theorem Ending.word (h8 : 8 * (w / 8) = w) {t : List (BitVec 8)} {y : BitVec w} (h : Ending t y) {b : BitVec 8} {j : Nat}
    (hlen : t.length + 1 = (j + 1) * (w / 8)) (hw : 0 < w / 8) : shiftIn y b = wordAt w (t ++ [b]) j := by
  obtain ⟨x, rfl⟩ := h
  have hsucc : (j + 1) * (w / 8) = j * (w / 8) + w / 8 := Nat.succ_mul _ _
  have hdiv : t.length / (w / 8) = j := by
    rw [show t.length = w / 8 * j + (w / 8 - 1) by rw [Nat.mul_comm]; omega, Nat.mul_add_div hw,
      Nat.div_eq_of_lt (by omega), Nat.add_zero]
  have hall : (t ++ [b]).length = (j + 1) * (w / 8) := by rw [List.length_append, List.length_singleton, hlen]
  have hfold : shiftIn ((t.drop (t.length / (w / 8) * (w / 8))).foldl shiftIn x) b =
      ((t ++ [b]).drop (j * (w / 8))).foldl shiftIn x := by
    rw [hdiv, List.drop_append_of_le_length (by omega), List.foldl_append]
    rfl
  rw [hfold, wordAt_last hall]
  refine foldl_shiftIn_full ?_ x
  rw [List.length_drop, hall]
  omega

/-! The words of a key. -/

theorem wordOf_zeros (n : Nat) : wordOf w (List.replicate n 0) = 0 := by
  rw [wordOf]
  induction n with
  | zero => rfl
  | succ n ih =>
    have hstep : shiftIn (0 : BitVec w) 0 = 0 := by simp [shiftIn]
    rw [List.replicate_succ, List.foldl_cons, hstep, ih]

/-- The word of a short text that zeros follow. -/
theorem wordAt_zeros {t : List (BitVec 8)} {n j : Nat} (h : t.length ≤ j * (w / 8)) :
    wordAt w (t ++ List.replicate n 0) j = 0 := by
  rw [wordAt, List.drop_append, List.drop_of_length_le h, List.nil_append, List.drop_replicate, List.take_replicate,
    wordOf_zeros]

theorem wordAt_replicate {n j : Nat} (h : (j + 1) * (w / 8) ≤ n) (x : BitVec 8) :
    wordAt w (List.replicate n x) j = wordOf w (List.replicate (w / 8) x) := by
  rw [Nat.succ_mul] at h
  rw [wordAt, List.drop_replicate, List.take_replicate, Nat.min_eq_left (by omega)]

theorem keyBlock_short {k : List (BitVec 8)} (h : k.length ≤ 2 * w) :
    F.keyBlock k = k ++ List.replicate (2 * w - k.length) 0 := by
  rw [Family.keyBlock, if_neg (Nat.not_lt.mpr h)]

theorem keyBlock_length {k : List (BitVec 8)} (h : k.length ≤ 2 * w) : (F.keyBlock k).length = 2 * w := by
  rw [keyBlock_short h, List.length_append, List.length_replicate]
  omega

theorem keyPad_length {k : List (BitVec 8)} (h : k.length ≤ 2 * w) (x : BitVec 8) : (F.keyPad x k).length = 2 * w := by
  rw [Family.keyPad, List.length_map, keyBlock_length h]

theorem keyPad_word {k : List (BitVec 8)} (h : k.length ≤ 2 * w) (x : BitVec 8) {j : Nat}
    (hj : (j + 1) * (w / 8) ≤ 2 * w) :
    wordAt w (F.keyPad x k) j = wordAt w (F.keyBlock k) j ^^^ wordOf w (List.replicate (w / 8) x) := by
  have hpad : F.keyPad x k = xorBytes (F.keyBlock k) (List.replicate (2 * w) x) := by
    rw [xorBytes, ← keyBlock_length (F := F) h, ← List.map_const', Family.keyPad, List.zipWith_map_right,
      List.zipWith_self]
  have hlen : (F.keyBlock k).length = (List.replicate (2 * w) x).length := by
    rw [keyBlock_length h, List.length_replicate]
  rw [hpad, wordAt_xor hlen, wordAt_replicate hj]

/-! The digest of a digest behind a block, with words of 32 bits: one block more. -/

/-- The words of that block: those of the digest, the marker and the length. -/
def digestBlock (d : Nat → BitVec 32) (j : Nat) : BitVec 32 :=
  if j < 8 then d j else if j = 8 then 0x80000000 else if j = 15 then 0x300 else 0

/-- What is behind the digest. -/
def digestPad : List (BitVec 8) := 0x80 :: List.replicate 23 0 ++ octets 8 768

theorem digestPad_words {j : Nat} (hj : j < 8) :
    wordAt 32 digestPad j = if j = 0 then 0x80000000 else if j = 7 then 0x300 else 0 := by
  interval_cases j <;> rfl

theorem pad_digest {p : List (BitVec 8)} (hp : p.length = 64) (d : Nat → BitVec 32) :
    pad 32 (p ++ bytesOf d) = p ++ (bytesOf d ++ digestPad) := by
  have hlen : (p ++ bytesOf d).length = 96 := by rw [List.length_append, hp, bytesOf_length]
  rw [pad, hlen, List.append_assoc, List.append_assoc]
  rfl

theorem digest_digest {F : Family 32} {p : List (BitVec 8)} (hp : p.length = 64) (d : Nat → BitVec 32) {n : Nat}
    (hn : n < 8) :
    F.digest (p ++ bytesOf d) n = F.compress (F.chaining (block 32 p) 1) (digestBlock d) n := by
  have hlen : (p ++ (bytesOf d ++ digestPad)).length / (2 * 32) = 1 + 1 := by
    rw [List.length_append, List.length_append, hp, bytesOf_length]
    rfl
  rw [Family.digest, pad_digest hp, hlen, Family.chaining]
  apply F.compress_congr _ _ hn
  · apply F.chaining_congr
    intro k hk j hj
    exact wordAt_append _ (by rw [hp]; omega)
  · intro j hj
    rw [block, wordAt_behind (show p.length = 16 * 1 * (32 / 8) from hp), digestBlock]
    by_cases h8 : j < 8
    · rw [if_pos h8, wordAt_append _ (by rw [bytesOf_length]; omega), wordAt_bytesOf rfl d h8]
    · obtain ⟨j, rfl⟩ := Nat.exists_eq_add_of_le (Nat.le_of_not_lt h8)
      rw [wordAt_behind (show (bytesOf d).length = 8 * (32 / 8) from bytesOf_length d), digestPad_words (by omega),
        if_neg h8]
      simp only [show 8 + j = 8 ↔ j = 0 by omega, show 8 + j = 15 ↔ j = 7 by omega]

end SecureHash
