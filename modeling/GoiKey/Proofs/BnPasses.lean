import GoiKey.Proofs.BnWords
import Mathlib.Tactic.LinearCombination

/-! What the passes of the word engine compute, in numbers. -/

namespace GoiKey.Rtl.BnEngine

open Clocked Limbs

variable {c : BnCtl} {o : BnOp} {rf rf' : BitVec 11 → BitVec 16} {m : BitVec 6 → BitVec 16}
variable {t t' : BitVec 8 → BitVec 16} {k : Nat}

/-- The base. -/
def radix : Nat := 2 ^ 16

/-- R, the first number a register does not hold. -/
def bound (o : BnOp) : Nat := radix ^ words o

/-! Registers, the modulus and the accumulator as numbers. -/

def regWord (o : BnOp) (rf : BitVec 11 → BitVec 16) (r : BitVec 7) (k : Nat) : Nat :=
  (rf (rfa o.emode r (BitVec.ofNat 6 k))).toNat

def reg (o : BnOp) (rf : BitVec 11 → BitVec 16) (r : BitVec 7) : Nat :=
  value radix (regWord o rf r) (words o)

def modWordAt (m : BitVec 6 → BitVec 16) (k : Nat) : Nat := (m (BitVec.ofNat 6 k)).toNat

def modulus (o : BnOp) (m : BitVec 6 → BitVec 16) : Nat := value radix (modWordAt m) (words o)

def accWord (t : BitVec 8 → BitVec 16) (k : Nat) : Nat := (t (BitVec.ofNat 8 k)).toNat

/-- The accumulator has a word more. -/
def accum (o : BnOp) (t : BitVec 8 → BitVec 16) : Nat := value radix (accWord t) (words o + 1)

theorem regWord_lt (r : BitVec 7) (k : Nat) : regWord o rf r k < radix := BitVec.isLt _

theorem modWordAt_lt (k : Nat) : modWordAt m k < radix := BitVec.isLt _

theorem accWord_lt (k : Nat) : accWord t k < radix := BitVec.isLt _

theorem reg_lt (r : BitVec 7) : reg o rf r < bound o := value_lt fun k _ => regWord_lt r k

theorem modulus_lt : modulus o m < bound o := value_lt fun k _ => modWordAt_lt k

/-! Addresses. -/

theorem pj6 (k : Nat) : (BitVec.ofNat 7 k).setWidth 6 = BitVec.ofNat 6 k :=
  BitVec.setWidth_ofNat_of_le (by decide) k

theorem pj8 (hk : k < 64) : (BitVec.ofNat 7 k).setWidth 8 = BitVec.ofNat 8 k := by
  apply BitVec.eq_of_toNat_eq
  simp only [BitVec.toNat_setWidth, BitVec.toNat_ofNat]
  omega

theorem ofNat8_inj {i k : Nat} (hi : i < 256) (hk : k < 256) (h : BitVec.ofNat 8 i = BitVec.ofNat 8 k) : i = k := by
  have htoNat := congrArg BitVec.toNat h
  simp only [BitVec.toNat_ofNat] at htoNat
  omega

theorem ofNat6_inj {i k : Nat} (hi : i < 64) (hk : k < 64) (h : BitVec.ofNat 6 i = BitVec.ofNat 6 k) : i = k := by
  have htoNat := congrArg BitVec.toNat h
  simp only [BitVec.toNat_ofNat] at htoNat
  omega

theorem topAddress_eq (o : BnOp) : topAddress o = BitVec.ofNat 8 (words o) := by
  unfold topAddress lastWord words
  split <;> rfl

/-- The number of a register: registers of 64 words are told apart by five bits. -/
def regIndex (o : BnOp) (r : BitVec 7) : Nat := if o.emode then r.toNat else r.toNat % 32

theorem rfa_toNat (hk : k < words o) (r : BitVec 7) :
    (rfa o.emode r (BitVec.ofNat 6 k)).toNat = regIndex o r * words o + k := by
  unfold rfa words regIndex at *
  split at hk
  next he =>
    simp only [he, if_true, BitVec.toNat_append, BitVec.extractLsb'_toNat, BitVec.toNat_ofNat,
      Nat.shiftRight_zero]
    rw [Nat.shiftLeft_eq, Nat.or_comm]
    have hlow : k % 2 ^ 6 % 2 ^ 4 = k := by omega
    rw [hlow, Nat.or_comm, Nat.mul_comm, ← Nat.two_pow_add_eq_or_of_lt (by omega : k < 2 ^ 4)]
  next he =>
    simp only [he, Bool.false_eq_true, if_false, BitVec.toNat_append, BitVec.extractLsb'_toNat,
      BitVec.toNat_ofNat, Nat.shiftRight_zero]
    have hlow : k % 2 ^ 6 = k := by omega
    rw [hlow, Nat.shiftLeft_eq, Nat.mul_comm, ← Nat.two_pow_add_eq_or_of_lt (by omega : k < 2 ^ 6)]

theorem rfa_inj {i : Nat} {r r' : BitVec 7} (hi : i < words o) (hk : k < words o)
    (h : rfa o.emode r (BitVec.ofNat 6 i) = rfa o.emode r' (BitVec.ofNat 6 k)) :
    regIndex o r = regIndex o r' ∧ i = k := by
  have htoNat := congrArg BitVec.toNat h
  rw [rfa_toNat hi, rfa_toNat hk] at htoNat
  have hw := words_pos o
  have hdiv := congrArg (· / words o) htoNat
  have hmod := congrArg (· % words o) htoNat
  simp only [Nat.mul_comm _ (words o), Nat.mul_add_div hw, Nat.mul_add_mod, Nat.div_eq_of_lt hi,
    Nat.div_eq_of_lt hk, Nat.mod_eq_of_lt hi, Nat.mod_eq_of_lt hk, Nat.add_zero] at hdiv hmod
  exact ⟨hdiv, hmod⟩

/-! Words that are written. -/

theorem accWord_update {i : Nat} (hi : i < 256) (hk : k < 256) (v : BitVec 16) :
    accWord (Function.update t (BitVec.ofNat 8 k) v) i = if i = k then v.toNat else accWord t i := by
  rw [accWord, accWord, Function.update_apply]
  split
  next h => rw [if_pos (ofNat8_inj hi hk h)]
  next h => rw [if_neg fun hik => h (by rw [hik])]

theorem value_accWord_update (hk : k < 256) (v : BitVec 16) :
    value radix (accWord (Function.update t (BitVec.ofNat 8 k) v)) k = value radix (accWord t) k := by
  apply value_congr
  intro i hi
  rw [accWord_update (by omega) hk, if_neg (Nat.ne_of_lt hi)]

theorem regWord_update {i : Nat} {r d : BitVec 7} (hi : i < words o) (hk : k < words o) (v : BitVec 16) :
    regWord o (Function.update rf (rfa o.emode d (BitVec.ofNat 6 k)) v) r i
      = if regIndex o r = regIndex o d ∧ i = k then v.toNat else regWord o rf r i := by
  rw [regWord, regWord, Function.update_apply]
  split
  next h => rw [if_pos (rfa_inj hi hk h)]
  next h =>
    rw [if_neg]
    rintro ⟨hr, rfl⟩
    apply h
    apply BitVec.eq_of_toNat_eq
    rw [rfa_toNat hi, rfa_toNat hi, hr]

/-! Sums and differences of words. -/

/-- The low word of a sum and what goes on. -/
theorem split_word {d : Nat} (hd : d ≤ 20) (v : BitVec (16 + d)) :
    (v.setWidth 16).toNat + ((v.extractLsb' 16 d).setWidth 20).toNat * radix = v.toNat := by
  have hv := v.isLt
  rw [Nat.pow_add] at hv
  have hhigh : v.toNat / 2 ^ 16 < 2 ^ d := Nat.div_lt_of_lt_mul hv
  have hle : 2 ^ d ≤ 2 ^ 20 := Nat.pow_le_pow_right (by decide) hd
  simp only [radix, BitVec.toNat_setWidth, BitVec.extractLsb'_toNat, Nat.shiftRight_eq_div_pow]
  rw [Nat.mod_eq_of_lt hhigh, Nat.mod_eq_of_lt (Nat.lt_of_lt_of_le hhigh hle), Nat.mul_comm]
  exact Nat.mod_add_div _ _

variable {s : BnEngine}

theorem sumA_split (hcy : s.word.cy.toNat ≤ 1) :
    (s.sumA.setWidth 16).toNat + ((s.sumA.extractLsb' 16 1).setWidth 20).toNat * radix
      = s.word.x.toNat + s.word.y.toNat + s.word.cy.toNat := by
  have hx := s.word.x.isLt
  have hy := s.word.y.isLt
  rw [split_word (d := 1) (by decide)]
  simp only [sumA, BitVec.toNat_add, BitVec.toNat_setWidth, BitVec.extractLsb'_toNat, Nat.shiftRight_zero]
  omega

theorem sumS_split (hcy : s.word.cy.toNat ≤ 2) :
    (s.sumS.setWidth 16).toNat + ((s.sumS.extractLsb' 16 2).setWidth 20).toNat * radix + s.word.y.toNat + 1
      = s.word.x.toNat + s.word.z.toNat + radix + s.word.cy.toNat := by
  have hx := s.word.x.isLt
  have hy := s.word.y.isLt
  have hz := s.word.z.isLt
  rw [split_word (d := 2) (by decide)]
  simp only [sumS, radix, BitVec.toNat_add, BitVec.toNat_setWidth, BitVec.toNat_not, BitVec.extractLsb'_toNat,
    Nat.shiftRight_zero]
  omega

theorem dWZ_split (hcy : s.word.cy.toNat ≤ 1) :
    (s.dWZ.setWidth 16).toNat + s.word.z.toNat + s.word.cy.toNat
      = s.word.w.toNat + ((s.dWZ.extractLsb' 16 1).setWidth 20).toNat * radix := by
  have hw := s.word.w.isLt
  have hz := s.word.z.isLt
  simp only [dWZ, radix, BitVec.toNat_sub, BitVec.toNat_setWidth, BitVec.extractLsb'_toNat,
    Nat.shiftRight_zero, Nat.shiftRight_eq_div_pow]
  omega

theorem dNZ_split (hcy : s.word.cy.toNat ≤ 1) :
    (s.dNZ.setWidth 16).toNat + s.word.z.toNat + s.word.cy.toNat
      = ((s.dNZ.extractLsb' 16 1).setWidth 20).toNat * radix := by
  have hz := s.word.z.isLt
  have hzero : (0 : BitVec 17).toNat = 0 := rfl
  simp only [dNZ, radix, BitVec.toNat_sub, BitVec.toNat_setWidth, BitVec.extractLsb'_toNat, hzero,
    Nat.shiftRight_zero, Nat.shiftRight_eq_div_pow, Nat.add_zero]
  omega

/-! The modes. -/

theorem pass_leads {I : Nat → (BitVec 11 → BitVec 16) → (BitVec 6 → BitVec 16) → (BitVec 8 → BitVec 16) →
      BitVec 20 → Prop} {Q : BnEngine → Prop} (h0 : I 0 rf m t (if c.pm = .subm then 1 else 0))
    (hI : ∀ k, k < words o → ∀ rf m t cy ge s, I k rf m t cy →
      Loaded c o rf m t (BitVec.ofNat 7 k) cy ge s →
      I (k + 1) (put rf s.effect.rf) (put m s.effect.m) (put t s.effect.t) s.effect.cy)
    (hQ : ∀ rf m t cy ge s, I (words o) rf m t cy →
      Holds c.pret c (opAfter c o) rf m (put t (topWord c o cy)) s →
      s.word.ge = flagAfter c o t cy ge → Q s) :
    Leads clock Busy (Holds .eInit c o rf m t) Q := by
  intro s hs i
  obtain ⟨n, hn, rf', m', t', cy, hIk, hholds, hge⟩ := passes (I := I) s.word.ge
    (fun k hk rf m t cy s => hI k hk rf m t cy _ s) s ⟨hs, rfl, h0⟩ i
  exact ⟨n, hn, hQ _ _ _ _ _ _ hIk hholds hge⟩

/-- A carry of two bits survives the carry register. -/
theorem carry_toNat {d : Nat} {cy : BitVec 20} (hd : d ≤ 16) (h : cy.toNat < 2 ^ d) :
    ((cy.extractLsb' 0 d).setWidth 16).toNat = cy.toNat := by
  have hle : 2 ^ d ≤ 2 ^ 16 := Nat.pow_le_pow_right (by decide) hd
  simp only [BitVec.toNat_setWidth, BitVec.extractLsb'_toNat, Nat.shiftRight_zero]
  rw [Nat.mod_eq_of_lt h, Nat.mod_eq_of_lt (Nat.lt_of_lt_of_le h hle)]

/-- The accumulator with its top word. -/
theorem accum_top (t : BitVec 8 → BitVec 16) (v : BitVec 16) :
    accum o (Function.update t (topAddress o) v)
      = value radix (accWord t) (words o) + v.toNat * bound o := by
  have hw := words_le o
  rw [accum, value_succ, topAddress_eq, value_accWord_update (by omega), accWord_update (by omega) (by omega),
    if_pos rfl, bound]

theorem adds (hpm : c.pm = .add) : Leads clock Busy (Holds .eInit c o rf m t) fun s =>
    ∃ t', Holds c.pret c o rf m t' s ∧ accum o t' = reg o rf c.psb + reg o rf c.psc := by
  have hw := words_le o
  apply pass_leads (I := fun k rf' m' t' cy => (rf' = rf ∧ m' = m) ∧ cy.toNat ≤ 1 ∧
    value radix (accWord t') k + cy.toNat * radix ^ k
      = value radix (fun i => regWord o rf c.psb i + regWord o rf c.psc i) k)
  · rw [hpm]
    exact ⟨⟨rfl, rfl⟩, by decide, by simp⟩
  · rintro k hk rf' m' t' cy ge s ⟨⟨rfl, rfl⟩, hcy, hsum⟩ hs
    have hx : s.word.x.toNat = regWord o rf' c.psb k := by rw [hs.x, pj6, regWord]
    have hy : s.word.y.toNat = regWord o rf' c.psc k := by rw [hs.y, pj6, regWord]
    have hsplit := sumA_split (s := s) (by rw [hs.cy]; exact hcy)
    rw [hs.cy, hx, hy] at hsplit
    have heff : s.effect = ⟨(s.sumA.extractLsb' 16 1).setWidth 20, none, none,
        some (BitVec.ofNat 8 k, s.sumA.setWidth 16)⟩ := by
      rw [effect, hs.holds.ctl, hpm, hs.pj, pj8 (by omega)]
    rw [heff]
    refine ⟨⟨rfl, rfl⟩, ?_, ?_⟩
    · have hxlt : regWord o rf' c.psb k < radix := regWord_lt _ _
      have hylt : regWord o rf' c.psc k < radix := regWord_lt _ _
      rw [radix] at hxlt hylt hsplit
      dsimp only
      omega
    · rw [put, value_succ, value_succ, value_accWord_update (by omega), accWord_update (by omega) (by omega),
        if_pos rfl]
      exact carry_step (k := 0) hsum hsplit
  · rintro rf' m' t' cy ge s ⟨⟨rfl, rfl⟩, hcy, hsum⟩ hs -
    rw [opAfter, if_neg (by rw [hpm]; decide)] at hs
    refine ⟨_, hs, ?_⟩
    rw [topWord, hpm, put, accum_top, carry_toNat (by decide) (by omega), bound, hsum, value_add, reg, reg]

/-- The difference comes with the modulus, so that it is not negative. -/
theorem subtracts (hpm : c.pm = .subm) (hle : reg o rf c.psc ≤ reg o rf c.psb + modulus o m) :
    Leads clock Busy (Holds .eInit c o rf m t) fun s => ∃ t', Holds c.pret c o rf m t' s ∧
      accum o t' + reg o rf c.psc = reg o rf c.psb + modulus o m := by
  have hw := words_le o
  apply pass_leads (I := fun k rf' m' t' cy => (rf' = rf ∧ m' = m) ∧ cy.toNat ≤ 2 ∧
    value radix (accWord t') k + cy.toNat * radix ^ k + value radix (regWord o rf c.psc) k
      = value radix (regWord o rf c.psb) k + value radix (modWordAt m) k + radix ^ k)
  · rw [if_pos hpm]
    exact ⟨⟨rfl, rfl⟩, by decide, by simp⟩
  · rintro k hk rf' m' t' cy ge s ⟨⟨rfl, rfl⟩, hcy, hsum⟩ hs
    have hx : s.word.x.toNat = regWord o rf' c.psb k := by rw [hs.x, pj6, regWord]
    have hy : s.word.y.toNat = regWord o rf' c.psc k := by rw [hs.y, pj6, regWord]
    have hz : s.word.z.toNat = modWordAt m' k := by rw [hs.z, pj6, modWordAt]
    have hsplit := sumS_split (s := s) (by rw [hs.cy]; exact hcy)
    rw [hs.cy, hx, hy, hz] at hsplit
    have heff : s.effect = ⟨(s.sumS.extractLsb' 16 2).setWidth 20, none, none,
        some (BitVec.ofNat 8 k, s.sumS.setWidth 16)⟩ := by
      rw [effect, hs.holds.ctl, hpm, hs.pj, pj8 (by omega)]
    rw [heff]
    refine ⟨⟨rfl, rfl⟩, ?_, ?_⟩
    · have hxlt : regWord o rf' c.psb k < radix := regWord_lt _ _
      have hzlt := modWordAt_lt (m := m') k
      rw [radix] at hxlt hzlt hsplit
      dsimp only
      omega
    · rw [put, value_succ, value_succ, value_succ, value_succ, value_accWord_update (by omega),
        accWord_update (by omega) (by omega), if_pos rfl]
      linear_combination hsum + radix ^ k * hsplit
  · rintro rf' m' t' cy ge s ⟨⟨rfl, rfl⟩, hcy, hsum⟩ hs -
    rw [opAfter, if_neg (by rw [hpm]; decide)] at hs
    refine ⟨_, hs, ?_⟩
    have hlow : value radix (accWord t') (words o) < bound o := value_lt fun k _ => accWord_lt k
    rw [← bound, ← reg, ← reg, ← modulus] at hsum
    have hone : 1 ≤ cy.toNat := by
      by_contra hzero
      have hcy0 : cy.toNat = 0 := by omega
      rw [hcy0, Nat.zero_mul] at hsum
      omega
    have htop : ((cy.extractLsb' 0 2).setWidth 16 - 1 : BitVec 16).toNat = cy.toNat - 1 := by
      have hcarry : ((cy.extractLsb' 0 2).setWidth 16).toNat = cy.toNat := carry_toNat (by decide) (by omega)
      rw [BitVec.toNat_sub_of_le, hcarry]
      · rfl
      · rw [BitVec.le_def, hcarry]
        exact hone
    rw [topWord, hpm, put, accum_top, htop, Nat.sub_mul]
    have hmul : 1 * bound o ≤ cy.toNat * bound o := Nat.mul_le_mul_right _ hone
    omega

theorem copies (hpm : c.pm = .copy) : Leads clock Busy (Holds .eInit c o rf m t) fun s =>
    ∃ t', Holds c.pret c o rf m t' s ∧ accum o t' = reg o rf c.psb := by
  have hw := words_le o
  apply pass_leads (I := fun k rf' m' t' _ => (rf' = rf ∧ m' = m) ∧
    value radix (accWord t') k = value radix (regWord o rf c.psb) k)
  · exact ⟨⟨rfl, rfl⟩, rfl⟩
  · rintro k hk rf' m' t' cy ge s ⟨⟨rfl, rfl⟩, hcopy⟩ hs
    have hx : s.word.x.toNat = regWord o rf' c.psb k := by rw [hs.x, pj6, regWord]
    have heff : s.effect = ⟨s.word.cy, none, none, some (BitVec.ofNat 8 k, s.word.x)⟩ := by
      rw [effect, hs.holds.ctl, hpm, hs.pj, pj8 (by omega)]
    rw [heff]
    refine ⟨⟨rfl, rfl⟩, ?_⟩
    rw [put, value_succ, value_succ, value_accWord_update (by omega), accWord_update (by omega) (by omega),
      if_pos rfl, hcopy, hx]
  · rintro rf' m' t' cy ge s ⟨⟨rfl, rfl⟩, hcopy⟩ hs -
    rw [opAfter, if_neg (by rw [hpm]; decide)] at hs
    refine ⟨_, hs, ?_⟩
    have hzero : (0 : BitVec 16).toNat = 0 := rfl
    rw [topWord, hpm, put, accum_top, hzero, Nat.zero_mul, Nat.add_zero, hcopy, reg]

/-- The accumulator: its low words and its top word. -/
theorem accum_split (t : BitVec 8 → BitVec 16) :
    accum o t = value radix (accWord t) (words o) + (t (topAddress o)).toNat * bound o := by
  rw [accum, value_succ, topAddress_eq, accWord, bound]

/-- The low words of the accumulator less those of the modulus, with the borrow. -/
structure Difference (m : BitVec 6 → BitVec 16) (t : BitVec 8 → BitVec 16) (k : Nat) (cy : BitVec 20)
    (v : Nat) : Prop where
  carry : cy.toNat ≤ 1
  below : v < radix ^ k
  total : v + value radix (modWordAt m) k = value radix (accWord t) k + cy.toNat * radix ^ k

theorem Difference.zero : Difference m t 0 0 0 := ⟨by decide, Nat.one_pos, by simp⟩

theorem Difference.next {cy : BitVec 20} {ge : Bool} {v : Nat} (h : Difference m t k cy v)
    (hoff : c.ptoff = 0) (hk : k < words o) (hs : Loaded c o rf m t (BitVec.ofNat 7 k) cy ge s) :
    Difference m t (k + 1) ((s.dWZ.extractLsb' 16 1).setWidth 20)
      (v + (s.dWZ.setWidth 16).toNat * radix ^ k) := by
  have hw := words_le o
  have hz : s.word.z.toNat = modWordAt m k := by rw [hs.z, pj6, modWordAt]
  have hword : s.word.w.toNat = accWord t k := by
    rw [hs.w, hoff, add_zero, pj8 (by omega), accWord]
  have hsplit := dWZ_split (s := s) (by rw [hs.cy]; exact h.carry)
  rw [hs.cy, hz, hword] at hsplit
  refine ⟨?_, below_succ h.below (BitVec.isLt _), ?_⟩
  · have hzlt := modWordAt_lt (m := m) k
    have hlow : (s.dWZ.setWidth 16).toNat < radix := BitVec.isLt _
    have hcy := h.carry
    rw [radix] at hzlt hlow hsplit
    omega
  · have htotal := h.total
    rw [value_succ, value_succ]
    linear_combination htotal + radix ^ k * hsplit

/-- The last borrow tells which is less. -/
theorem Difference.borrow {cy : BitVec 20} {v : Nat} (h : Difference m t (words o) cy v) :
    (t (topAddress o) ≠ 0 ∨ cy.getLsbD 0 = false) ↔ modulus o m ≤ accum o t := by
  have hM : modulus o m < bound o := modulus_lt
  obtain ⟨hcy, hv, htotal⟩ := h
  rw [← modulus, ← bound] at htotal
  rw [← bound] at hv
  have hbit : cy.getLsbD 0 = false ↔ cy.toNat = 0 := by
    rw [BitVec.getLsbD, Nat.testBit_zero, decide_eq_false_iff_not]
    omega
  have htop : t (topAddress o) ≠ 0 ↔ 0 < (t (topAddress o)).toNat := by
    rw [Nat.pos_iff_ne_zero, ne_eq, ne_eq, BitVec.toNat_eq]
    rfl
  rw [hbit, htop, accum_split]
  rcases Nat.eq_zero_or_pos (t (topAddress o)).toNat with hzero | hpos
  · rw [hzero, Nat.zero_mul, Nat.add_zero]
    have hcases : cy.toNat = 0 ∨ cy.toNat = 1 := by omega
    rcases hcases with hc0 | hc1
    · rw [hc0] at htotal
      omega
    · rw [hc1] at htotal
      omega
  · have hmul : 1 * bound o ≤ (t (topAddress o)).toNat * bound o := Nat.mul_le_mul_right _ hpos
    omega

/-- A pass with borrows compares. -/
theorem compares (hpm : c.pm = .fge) (hoff : c.ptoff = 0) :
    Leads clock Busy (Holds .eInit c o rf m t) fun s => Holds c.pret c o rf m t s ∧
      (s.word.ge = true ↔ modulus o m ≤ accum o t) := by
  apply pass_leads (I := fun k rf' m' t' cy => (rf' = rf ∧ m' = m ∧ t' = t) ∧ ∃ v, Difference m t k cy v)
  · rw [if_neg (by rw [hpm]; decide)]
    exact ⟨⟨rfl, rfl, rfl⟩, 0, Difference.zero⟩
  · rintro k hk rf' m' t' cy ge s ⟨⟨rfl, rfl, rfl⟩, v, hv⟩ hs
    have heff : s.effect = ⟨(s.dWZ.extractLsb' 16 1).setWidth 20, none, none, none⟩ := by
      rw [effect, hs.holds.ctl, hpm]
    rw [heff]
    exact ⟨⟨rfl, rfl, rfl⟩, _, hv.next hoff hk hs⟩
  · rintro rf' m' t' cy ge s ⟨⟨rfl, rfl, rfl⟩, v, hv⟩ hs hge
    rw [opAfter, if_neg (by rw [hpm]; decide), topWord, hpm] at hs
    rw [flagAfter, if_pos hpm] at hge
    refine ⟨hs, ?_⟩
    rw [hge, decide_eq_true_iff]
    exact hv.borrow

/-- The registers but one are as they were. -/
def Kept (o : BnOp) (rf : BitVec 11 → BitVec 16) (d : BitVec 7) (rf' : BitVec 11 → BitVec 16) : Prop :=
  ∀ r, regIndex o r ≠ regIndex o d → ∀ k < words o, regWord o rf' r k = regWord o rf r k

theorem Kept.refl (d : BitVec 7) : Kept o rf d rf := fun _ _ _ _ => rfl

theorem Kept.update {d : BitVec 7} (h : Kept o rf d rf') (hk : k < words o) (v : BitVec 16) :
    Kept o rf d (Function.update rf' (rfa o.emode d (BitVec.ofNat 6 k)) v) := by
  intro r hr i hi
  rw [regWord_update hi hk, if_neg fun hand => hr hand.1]
  exact h r hr i hi

theorem Kept.reg {d r : BitVec 7} (h : Kept o rf d rf') (hr : regIndex o r ≠ regIndex o d) :
    reg o rf' r = reg o rf r := value_congr (h r hr)

theorem value_regWord_update {d : BitVec 7} (hk : k < words o) (v : BitVec 16) :
    value radix (regWord o (Function.update rf (rfa o.emode d (BitVec.ofNat 6 k)) v) d) (k + 1)
      = value radix (regWord o rf d) k + v.toNat * radix ^ k := by
  rw [value_succ, regWord_update hk hk, if_pos ⟨rfl, rfl⟩]
  congr 1
  apply value_congr
  intro i hi
  rw [regWord_update (Nat.lt_trans hi hk) hk, if_neg fun hand => Nat.ne_of_lt hi hand.2]

/-- The modulus is taken away where it fits. -/
theorem reduces (hpm : c.pm = .fwr) (hoff : c.ptoff = 0) (hsmall : accum o t < modulus o m + bound o) :
    Leads clock Busy (fun s => Holds .eInit c o rf m t s ∧ (s.word.ge = true ↔ modulus o m ≤ accum o t))
      fun s => ∃ rf', Holds c.pret c o rf' m t s ∧ Kept o rf c.pdst rf' ∧
        reg o rf' c.pdst = if modulus o m ≤ accum o t then accum o t - modulus o m else accum o t := by
  rintro s ⟨hs, hge⟩ i
  have hstep : ∀ k, k < words o → ∀ rf' m' t' cy s', ((m' = m ∧ t' = t) ∧ Kept o rf c.pdst rf' ∧
      ∃ v, Difference m t k cy v ∧
        value radix (regWord o rf' c.pdst) k = if s.word.ge then v else value radix (accWord t) k) →
      Loaded c o rf' m' t' (BitVec.ofNat 7 k) cy s.word.ge s' →
      (put m' s'.effect.m = m ∧ put t' s'.effect.t = t) ∧ Kept o rf c.pdst (put rf' s'.effect.rf) ∧
        ∃ v, Difference m t (k + 1) s'.effect.cy v ∧
          value radix (regWord o (put rf' s'.effect.rf) c.pdst) (k + 1)
            = if s.word.ge then v else value radix (accWord t) (k + 1) := by
    rintro k hk rf' m' t' cy s' ⟨⟨rfl, rfl⟩, hkept, v, hv, hreg⟩ hs'
    have hw := words_le o
    have hword : s'.word.w.toNat = accWord t' k := by
      rw [hs'.w, hoff, add_zero, pj8 (by omega), accWord]
    have heff : s'.effect = ⟨(s'.dWZ.extractLsb' 16 1).setWidth 20,
        some (rfa o.emode c.pdst (BitVec.ofNat 6 k), if s.word.ge then s'.dWZ.setWidth 16 else s'.word.w),
        none, none⟩ := by
      rw [effect, hs'.holds.ctl, hs'.holds.op, hpm, hs'.pj, pj6, hs'.ge]
    rw [heff]
    refine ⟨⟨rfl, rfl⟩, hkept.update hk _, _, hv.next hoff hk hs', ?_⟩
    rw [put, value_regWord_update hk, hreg, value_succ]
    cases s.word.ge
    · rw [if_neg Bool.false_ne_true, if_neg Bool.false_ne_true, if_neg Bool.false_ne_true, hword]
    · rw [if_pos rfl, if_pos rfl, if_pos rfl]
  obtain ⟨n, hn, rf', m', t', cy, ⟨⟨rfl, rfl⟩, hkept, v, hv, hreg⟩, hdone, -⟩ := passes
    (I := fun k rf' m' t' cy => (m' = m ∧ t' = t) ∧ Kept o rf c.pdst rf' ∧ ∃ v, Difference m t k cy v ∧
      value radix (regWord o rf' c.pdst) k = if s.word.ge then v else value radix (accWord t) k)
    s.word.ge hstep s ⟨hs, rfl, ⟨rfl, rfl⟩, Kept.refl _, 0, by rw [if_neg (by rw [hpm]; decide)]; exact Difference.zero,
      by simp⟩ i
  rw [opAfter, if_neg (by rw [hpm]; decide), topWord, hpm] at hdone
  refine ⟨n, hn, rf', hdone, hkept, ?_⟩
  rw [reg, hreg]
  obtain ⟨hcy, hbelow, htotal⟩ := hv
  rw [← modulus, ← bound] at htotal
  rw [← bound] at hbelow
  have hsplit := accum_split (o := o) t'
  have hM : modulus o m' < bound o := modulus_lt
  have htop : ∀ n, n ≤ (t' (topAddress o)).toNat → n * bound o ≤ (t' (topAddress o)).toNat * bound o :=
    fun n hn => Nat.mul_le_mul_right _ hn
  by_cases hle : modulus o m' ≤ accum o t'
  · -- The top word and the last borrow cancel.
    rw [if_pos (hge.mpr hle), if_pos hle]
    have hcancel : (t' (topAddress o)).toNat = cy.toNat := by
      have hcases : cy.toNat = 0 ∨ cy.toNat = 1 := by omega
      rcases hcases with hc0 | hc1
      · rw [hc0] at htotal ⊢
        by_contra hne
        have hone := htop 1 (by omega)
        omega
      · rw [hc1] at htotal ⊢
        by_contra hne
        rcases Nat.eq_zero_or_pos (t' (topAddress o)).toNat with hzero | hpos
        · rw [hzero] at hsplit
          omega
        · have htwo := htop 2 (by omega)
          omega
    rw [hcancel] at hsplit
    omega
  · rw [if_neg fun htrue => hle (hge.mp htrue), if_neg hle]
    have hzero : (t' (topAddress o)).toNat = 0 := by
      by_contra hne
      have hone := htop 1 (by omega)
      omega
    rw [hsplit, hzero, Nat.zero_mul, Nat.add_zero]

/-- R less the modulus. -/
theorem negates (hpm : c.pm = .negm) (hM : 0 < modulus o m) :
    Leads clock Busy (Holds .eInit c o rf m t) fun s => ∃ rf', Holds c.pret c o rf' m t s ∧
      Kept o rf c.pdst rf' ∧ reg o rf' c.pdst = bound o - modulus o m := by
  apply pass_leads (I := fun k rf' m' t' cy => (m' = m ∧ t' = t) ∧ Kept o rf c.pdst rf' ∧ cy.toNat ≤ 1 ∧
    value radix (regWord o rf' c.pdst) k + value radix (modWordAt m) k = cy.toNat * radix ^ k)
  · rw [if_neg (by rw [hpm]; decide)]
    exact ⟨⟨rfl, rfl⟩, Kept.refl _, by decide, by simp⟩
  · rintro k hk rf' m' t' cy ge s ⟨⟨rfl, rfl⟩, hkept, hcy, htotal⟩ hs
    have hz : s.word.z.toNat = modWordAt m' k := by rw [hs.z, pj6, modWordAt]
    have hsplit := dNZ_split (s := s) (by rw [hs.cy]; exact hcy)
    rw [hs.cy, hz] at hsplit
    have heff : s.effect = ⟨(s.dNZ.extractLsb' 16 1).setWidth 20,
        some (rfa o.emode c.pdst (BitVec.ofNat 6 k), s.dNZ.setWidth 16), none, none⟩ := by
      rw [effect, hs.holds.ctl, hs.holds.op, hpm, hs.pj, pj6]
    rw [heff]
    refine ⟨⟨rfl, rfl⟩, hkept.update hk _, ?_, ?_⟩
    · have hzlt := modWordAt_lt (m := m') k
      have hlow : (s.dNZ.setWidth 16).toNat < radix := BitVec.isLt _
      rw [radix] at hzlt hlow hsplit
      dsimp only
      omega
    · rw [put, value_regWord_update hk, value_succ]
      linear_combination htotal + radix ^ k * hsplit
  · rintro rf' m' t' cy ge s ⟨⟨rfl, rfl⟩, hkept, hcy, htotal⟩ hs -
    rw [opAfter, if_neg (by rw [hpm]; decide), topWord, hpm] at hs
    refine ⟨_, hs, hkept, ?_⟩
    rw [← reg, ← modulus, ← bound] at htotal
    have hcases : cy.toNat = 0 ∨ cy.toNat = 1 := by omega
    rcases hcases with hc0 | hc1
    · rw [hc0] at htotal
      omega
    · rw [hc1] at htotal
      omega

/-! The modulus. -/

theorem modWordAt_update {i : Nat} {v : BitVec 16} (hi : i < 64) (hk : k < 64) :
    modWordAt (Function.update m (BitVec.ofNat 6 k) v) i = if i = k then v.toNat else modWordAt m i := by
  rw [modWordAt, modWordAt, Function.update_apply]
  split
  next h => rw [if_pos (ofNat6_inj hi hk h)]
  next h => rw [if_neg fun hik => h (by rw [hik])]

/-- The words of a register become the modulus. -/
theorem loadsModulus (hpm : c.pm = .tom) : Leads clock Busy (Holds .eInit c o rf m t) fun s =>
    ∃ m', Holds c.pret c o rf m' t s ∧ ∀ k < words o, modWordAt m' k = regWord o rf c.psb k := by
  have hw := words_le o
  apply pass_leads (I := fun k rf' m' t' _ => (rf' = rf ∧ t' = t) ∧
    ∀ i < k, modWordAt m' i = regWord o rf c.psb i)
  · exact ⟨⟨rfl, rfl⟩, fun i hi => absurd hi (Nat.not_lt_zero i)⟩
  · rintro k hk rf' m' t' cy ge s ⟨⟨rfl, rfl⟩, hcopy⟩ hs
    have heff : s.effect = ⟨s.word.cy, none, some (BitVec.ofNat 6 k, s.word.x), none⟩ := by
      rw [effect, hs.holds.ctl, hpm, hs.pj, pj6]
    rw [heff]
    refine ⟨⟨rfl, rfl⟩, fun i hi => ?_⟩
    rw [put, modWordAt_update (by omega) (by omega)]
    split
    next heq => rw [heq, hs.x, pj6, regWord]
    next hne => exact hcopy i (by omega)
  · rintro rf' m' t' cy ge s ⟨⟨rfl, rfl⟩, hcopy⟩ hs -
    rw [opAfter, if_neg (by rw [hpm]; decide), topWord, hpm] at hs
    exact ⟨_, hs, hcopy⟩

/-- The words of the table become the modulus, and its constant is set. -/
theorem loadsTable (hpm : c.pm = .tomk) : Leads clock Busy (Holds .eInit c o rf m t) fun s =>
    ∃ m', Holds c.pret c { o with nprime := modN0 o.mselR } rf m' t s ∧
      ∀ k < words o, modWordAt m' k = (modWord o.mselR (BitVec.ofNat 4 k)).toNat := by
  have hw := words_le o
  apply pass_leads (I := fun k rf' m' t' _ => (rf' = rf ∧ t' = t) ∧
    ∀ i < k, modWordAt m' i = (modWord o.mselR (BitVec.ofNat 4 i)).toNat)
  · exact ⟨⟨rfl, rfl⟩, fun i hi => absurd hi (Nat.not_lt_zero i)⟩
  · rintro k hk rf' m' t' cy ge s ⟨⟨rfl, rfl⟩, htable⟩ hs
    have hlow : (BitVec.ofNat 7 k).setWidth 4 = BitVec.ofNat 4 k :=
      BitVec.setWidth_ofNat_of_le (by decide) k
    have heff : s.effect = ⟨s.word.cy, none,
        some (BitVec.ofNat 6 k, modWord o.mselR (BitVec.ofNat 4 k)), none⟩ := by
      rw [effect, hs.holds.ctl, hs.holds.op, hpm, hs.pj, pj6, hlow]
    rw [heff]
    refine ⟨⟨rfl, rfl⟩, fun i hi => ?_⟩
    rw [put, modWordAt_update (by omega) (by omega)]
    split
    next heq => rw [heq]
    next hne => exact htable i (by omega)
  · rintro rf' m' t' cy ge s ⟨⟨rfl, rfl⟩, htable⟩ hs -
    rw [opAfter, if_pos hpm, topWord, hpm] at hs
    exact ⟨_, hs, htable⟩

end GoiKey.Rtl.BnEngine
