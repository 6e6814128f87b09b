import Mathlib.Data.Int.ModEq
import GoiKey.Proofs.InverseWords

/-! What the passes compute modulo 65537 and in the division, in numbers. -/

namespace GoiKey.Rtl.BnInverse

open Clocked Limbs
open BnEngine (radix regWord reg regIndex regWord_lt reg_lt regWord_update)

variable {c : InvCtl} {rf rf' : BitVec 11 → BitVec 16} {s : BnInverse}

/-- The registers of 64 words. -/
def wide : BnOp where
  emode := false
  mselR := 0
  oA := 0
  oB := 0
  oC := 0
  cnt4 := 0
  bitc := 0
  ebit := false
  nprime := 0
  nn0 := 0
  nx := 0
  nit := 0

/-- The number in a register. -/
abbrev number (rf : BitVec 11 → BitVec 16) (r : BitVec 7) : Nat := reg wide rf r

/-- The registers other than this one hold what they held. -/
def Others (r : BitVec 7) (rf rf' : BitVec 11 → BitVec 16) : Prop :=
  ∀ r', regIndex wide r' ≠ regIndex wide r → number rf' r' = number rf r'

theorem pj6 (k : Nat) : (BitVec.ofNat 7 k).setWidth 6 = BitVec.ofNat 6 k :=
  BitVec.setWidth_ofNat_of_le (by decide) k

/-! FILL. -/

theorem immw_toNat {k : Nat} (hpj : s.word.pj = BitVec.ofNat 7 k) (hk : k < 64) :
    s.immw.toNat = Limbs.word radix s.ctl.pimm.toNat k := by
  have hp := s.ctl.pimm.isLt
  rw [immw, hpj]
  obtain _ | _ | k := k
  · simp [Limbs.word, radix, BitVec.extractLsb'_toNat]
  · simp [Limbs.word, radix, BitVec.extractLsb'_toNat, Nat.shiftRight_eq_div_pow]
  · have h0 : ¬BitVec.ofNat 7 (k + 2) = 0 := by
      intro h
      have hnat : (k + 2) % 128 = 0 := congrArg BitVec.toNat h
      omega
    have h1 : ¬BitVec.ofNat 7 (k + 2) = 1 := by
      intro h
      have hnat : (k + 2) % 128 = 1 := congrArg BitVec.toNat h
      omega
    rw [if_neg h0, if_neg h1, Limbs.word, Nat.div_eq_of_lt]
    · rfl
    · apply Nat.lt_of_lt_of_le hp
      rw [radix, ← Nat.pow_mul]
      exact Nat.pow_le_pow_right (by decide) (by omega)

theorem fills (hpm : c.pm = .fill) : Leads clock Busy (Holds .eInit c rf) fun s =>
    ∃ rf', Holds c.pret c rf' s ∧ number rf' c.pdst = c.pimm.toNat ∧ Others c.pdst rf rf' := by
  have hafter : afterPass c = c.pret := if_neg (by rw [hpm]; decide)
  have hpass : Leads clock Busy (Holds .eInit c rf) _ := passes (I := fun k rf' w =>
      ∀ r j, j < 64 → regWord wide rf' r j =
        if regIndex wide r = regIndex wide c.pdst ∧ j < k then Limbs.word radix c.pimm.toNat j
        else regWord wide rf r j)
    (fun r j hj => by simp) (fun k hk rf' w s hw hI hs => ?_) (fun _ _ _ _ h => h)
  · apply hpass.imp (fun _ h => h)
    rintro s ⟨rf', w, hr, hI⟩
    rw [hafter] at hr
    refine ⟨rf', hr.holds, ?_, fun r hr' => ?_⟩
    · have hwords : number rf' c.pdst = value radix (Limbs.word radix c.pimm.toNat) 64 := by
        apply value_congr
        intro j hj
        rw [hI c.pdst j hj, if_pos ⟨rfl, hj⟩]
      rw [hwords, value_word]
      apply Nat.mod_eq_of_lt
      apply Nat.lt_of_lt_of_le c.pimm.isLt
      rw [radix, ← Nat.pow_mul]
      exact Nat.pow_le_pow_right (by decide) (show 32 ≤ 16 * 64 by decide)
    · apply value_congr
      intro j hj
      rw [hI r j hj, if_neg fun h => hr' h.1]
  · intro r j hj
    have hval : s.stored = some s.immw := by rw [stored, hs.holds.ctl, hpm]
    rw [hval, put, hw, pj6]
    change regWord wide (Function.update rf' (rfa wide.emode c.pdst (BitVec.ofNat 6 k)) s.immw) r j = _
    rw [regWord_update hj hk, hI r j hj, immw_toNat (by rw [hs.word, hw]) hk, hs.holds.ctl]
    by_cases hr : regIndex wide r = regIndex wide c.pdst
    · simp only [hr, true_and]
      rcases Nat.lt_trichotomy j k with hlt | rfl | hgt
      · rw [if_neg (by omega), if_pos hlt, if_pos (by omega)]
      · rw [if_pos rfl, if_pos (by omega)]
      · rw [if_neg (by omega), if_neg (by omega), if_neg (by omega)]
    · simp only [hr, false_and, if_false]

/-! REM. -/

theorem word_toInt (x : BitVec 16) : (x.setWidth 24).toInt = x.toNat := by
  have hx := x.isLt
  rw [BitVec.toInt_setWidth]
  apply Int.bmod_eq_of_le_mul_two
  · omega
  · omega

/-- The base is -1. -/
theorem radix_pow (k : Nat) : ((radix ^ k : Nat) : Int) ≡ if k % 2 = 1 then -1 else 1 [ZMOD 65537] := by
  have hbase : (radix : Int) ≡ -1 [ZMOD 65537] := by decide
  have hpow := hbase.pow k
  rw [Int.natCast_pow]
  by_cases h : k % 2 = 1
  · rw [if_pos h, ← Odd.neg_one_pow (Nat.odd_iff.mpr h)]
    exact hpow
  · rw [if_neg h, ← Even.neg_one_pow (Nat.even_iff.mpr (by omega) : Even k)]
    exact hpow

theorem racc_next {k : Nat} {v : Int} (hk : k < 64) (hpm : s.ctl.pm = .rem) (hpj : s.word.pj = BitVec.ofNat 7 k)
    (hlo : -(65535 * k) ≤ s.word.racc.toInt) (hhi : s.word.racc.toInt ≤ 65535 * k)
    (hv : s.word.racc.toInt ≡ v [ZMOD 65537]) :
    -(65535 * (k + 1)) ≤ s.next.racc.toInt ∧ s.next.racc.toInt ≤ 65535 * (k + 1) ∧
      s.next.racc.toInt ≡ v + s.x.toNat * (radix ^ k : Nat) [ZMOD 65537] := by
  have hx := s.x.isLt
  have hodd : s.word.pj.getLsbD 0 = decide (k % 2 = 1) := by
    rw [hpj, BitVec.getLsbD_ofNat]
    simp [Nat.testBit_zero]
  have hpow := (radix_pow k).mul_left s.x.toNat
  simp only [BnInverse.next, hpm, hodd]
  by_cases h : k % 2 = 1
  · simp only [h, decide_true, if_true] at hpow ⊢
    have hnext : (s.word.racc - s.x.setWidth 24).toInt = s.word.racc.toInt - s.x.toNat := by
      rw [BitVec.toInt_sub, word_toInt]
      apply Int.bmod_eq_of_le_mul_two <;> omega
    rw [hnext, Int.sub_eq_add_neg]
    rw [Int.mul_neg_one] at hpow
    exact ⟨by omega, by omega, hv.add hpow.symm⟩
  · simp only [h, decide_false, Bool.false_eq_true, if_false] at hpow ⊢
    have hnext : (s.word.racc + s.x.setWidth 24).toInt = s.word.racc.toInt + s.x.toNat := by
      rw [BitVec.toInt_add, word_toInt]
      apply Int.bmod_eq_of_le_mul_two <;> omega
    rw [hnext]
    rw [Int.mul_one] at hpow
    exact ⟨by omega, by omega, hv.add hpow.symm⟩

theorem modulus_toInt : (65537#24).toInt = 65537 := by decide

section Reduce

variable {w : InvWord}

theorem reduced (hlo : 0 ≤ w.racc.toInt) (hhi : w.racc.toInt < 65537) : Leads clock Busy (Round .eRed c rf w) fun s =>
    Holds c.pret c rf s ∧ (s.peRes.toNat : Int) = w.racc.toInt % 65537 := by
  apply Leads.edge fun s h => h.holds.busy (by decide)
  intro s i h
  obtain ⟨ht, -⟩ := h.holds.tick (by decide) i
  have hneg : s.word.racc.slt 0 = false := by
    rw [h.word, BitVec.slt]
    simpa using hlo
  have hbig : (65537#24).sle s.word.racc = false := by
    rw [h.word, BitVec.sle, modulus_toInt]
    simpa using hhi
  simp only [clock, fsm, h.holds.st, hneg, hbig, Bool.false_eq_true, if_false]
  refine ⟨ht.move (by rw [h.holds.ctl]) ht.ctl ⟨rfl, rfl⟩, ?_⟩
  have hnat : (w.racc.toNat : Int) = w.racc.toInt := (BitVec.toInt_eq_toNat_of_lt (by
    have hlt := w.racc.isLt
    have hint := w.racc.toInt_eq_toNat_cond
    split at hint <;> omega)).symm
  rw [h.word, BitVec.extractLsb'_toNat, Nat.shiftRight_zero, Nat.mod_eq_of_lt (by omega), hnat]
  exact (Int.emod_eq_of_lt hlo hhi).symm

theorem raised (hlo : w.racc.toInt < 0) :
    Leads clock Busy (Round .eRed c rf w) (Round .eRed c rf { w with racc := w.racc + 65537#24 }) := by
  apply Leads.edge fun s h => h.holds.busy (by decide)
  intro s i h
  obtain ⟨ht, -⟩ := h.holds.tick (by decide) i
  have hneg : s.word.racc.slt 0 = true := by
    rw [h.word, BitVec.slt]
    simpa using hlo
  simp only [clock, fsm, h.holds.st, hneg, if_true]
  exact ⟨ht.move h.holds.st ht.ctl ⟨rfl, rfl⟩, by rw [← h.word]; rfl⟩

theorem lowered (hhi : 65537 ≤ w.racc.toInt) :
    Leads clock Busy (Round .eRed c rf w) (Round .eRed c rf { w with racc := w.racc - 65537#24 }) := by
  apply Leads.edge fun s h => h.holds.busy (by decide)
  intro s i h
  obtain ⟨ht, -⟩ := h.holds.tick (by decide) i
  have hneg : s.word.racc.slt 0 = false := by
    rw [h.word, BitVec.slt]
    simpa using Int.le_trans (by decide) hhi
  have hbig : (65537#24).sle s.word.racc = true := by
    rw [h.word, BitVec.sle, modulus_toInt]
    simpa using hhi
  simp only [clock, fsm, h.holds.st, hneg, hbig, Bool.false_eq_true, if_false, if_true]
  exact ⟨ht.move h.holds.st ht.ctl ⟨rfl, rfl⟩, by rw [← h.word]; rfl⟩

/-- The sum of the words is brought below the modulus, a modulus at a time. -/
theorem reduces (n : Nat) (hlo : -(65537 * n) ≤ w.racc.toInt) (hhi : w.racc.toInt < 65537 * (n + 1)) (hn : n < 100) :
    Leads clock Busy (Round .eRed c rf w) fun s =>
      Holds c.pret c rf s ∧ (s.peRes.toNat : Int) = w.racc.toInt % 65537 := by
  induction n generalizing w with
  | zero => exact reduced (by omega) (by omega)
  | succ n ih =>
    rcases Int.lt_or_le w.racc.toInt 0 with hneg | hpos
    · have hint : (w.racc + 65537#24).toInt = w.racc.toInt + 65537 := by
        rw [BitVec.toInt_add, modulus_toInt]
        apply Int.bmod_eq_of_le_mul_two <;> omega
      have hnext := ih (w := { w with racc := w.racc + 65537#24 }) (by dsimp only; omega) (by dsimp only; omega)
        (by omega)
      rw [hint, Int.add_emod_right] at hnext
      exact (raised hneg).trans hnext
    · rcases Int.lt_or_le w.racc.toInt 65537 with hlt | hbig
      · exact reduced hpos hlt
      · have hint : (w.racc - 65537#24).toInt = w.racc.toInt - 65537 := by
          rw [BitVec.toInt_sub, modulus_toInt]
          apply Int.bmod_eq_of_le_mul_two <;> omega
        have hnext := ih (w := { w with racc := w.racc - 65537#24 }) (by dsimp only; omega) (by dsimp only; omega)
          (by omega)
        rw [hint, Int.sub_emod_right] at hnext
        exact (lowered hbig).trans hnext

end Reduce

/-- The remainder of a register modulo 65537. -/
theorem rems (hpm : c.pm = .rem) : Leads clock Busy (Holds .eInit c rf) fun s =>
    Holds c.pret c rf s ∧ s.peRes.toNat = number rf c.psb % 65537 := by
  have hafter : afterPass c = .eRed := if_pos hpm
  have hpass : Leads clock Busy (Holds .eInit c rf) _ := passes (I := fun k rf' w =>
      rf' = rf ∧ -(65535 * (k : Int)) ≤ w.racc.toInt ∧ w.racc.toInt ≤ 65535 * k ∧
        w.racc.toInt ≡ (value radix (regWord wide rf c.psb) k : Nat) [ZMOD 65537])
    ⟨rfl, by decide, by decide, by simp⟩ (fun k hk rf' w s hw hI hs => ?_) (fun _ _ _ _ h => h)
  · apply hpass.trans
    rintro s ⟨rf', w, hr, rfl, hlo, hhi, hv⟩ i
    rw [hafter] at hr
    obtain ⟨n, hn, hh, hres⟩ := reduces 64 (by omega) (by omega) (by decide) s hr i
    refine ⟨n, hn, hh, ?_⟩
    have hmod : (number rf' c.psb : Int) % 65537 = w.racc.toInt % 65537 := hv.symm
    omega
  · obtain ⟨rfl, hlo, hhi, hv⟩ := hI
    have hval : s.stored = none := by rw [stored, hs.holds.ctl, hpm]
    have hx : s.x.toNat = regWord wide rf' c.psb k := by
      rw [hs.x, hw, pj6]
      rfl
    obtain ⟨h1, h2, h3⟩ := racc_next (v := (value radix (regWord wide rf' c.psb) k : Nat)) hk
      (by rw [hs.holds.ctl, hpm]) (hs.pj.trans hw) (by rw [hs.word]; exact hlo)
      (by rw [hs.word]; exact hhi) (by rw [hs.word]; exact hv)
    rw [hval]
    refine ⟨rfl, by push_cast; exact h1, by push_cast; exact h2, ?_⟩
    rw [value_succ, ← hx]
    push_cast at h3 ⊢
    exact h3

/-! DP. -/

theorem kadd_toNat {x K : Nat} (hkp : s.prod.kp.toNat = K * x) (hx : x < radix) (hK : K ≤ 65536)
    (hcy : s.word.cy.toNat ≤ 65536) :
    s.kadd.toNat = K * x + s.word.cy.toNat + (if s.word.pj = 0 then 1 else 0) := by
  have hprod : K * x ≤ 65536 * 65535 := Nat.mul_le_mul hK (by rw [radix] at hx; omega)
  have hbit : (BitVec.ofBool (s.word.pj = 0)).toNat = if s.word.pj = 0 then 1 else 0 := by
    by_cases h : s.word.pj = 0
    · rw [decide_eq_true h, if_pos h]
      rfl
    · rw [decide_eq_false h, if_neg h]
      rfl
  rw [kadd, BitVec.toNat_add, BitVec.toNat_add, BitVec.toNat_setWidth, BitVec.toNat_setWidth, hbit, hkp]
  split <;> omega

/-- What a word of the quotient is, with what it carries on. -/
theorem divide_word {x K : Nat} (hkp : s.prod.kp.toNat = K * x) (hx : x < radix) (hK : K ≤ 65536)
    (hcy : s.word.cy.toNat ≤ 65536) (hcc : s.word.cc.toNat ≤ 1) :
    ((s.kadd.extractLsb' 16 18).setWidth 20).toNat ≤ 65536 ∧ (s.dps.extractLsb' 16 2).toNat ≤ 1 ∧
      (s.dpd.setWidth 16).toNat + s.word.pv.toNat + s.word.cc.toNat
          + ((s.kadd.extractLsb' 16 18).setWidth 20).toNat * radix
        = K * x + s.word.cy.toNat + (if s.word.pj = 0 then 1 else 0) + (s.dps.extractLsb' 16 2).toNat * radix := by
  have hkadd := kadd_toNat hkp hx hK hcy
  have hprod : K * x ≤ 65536 * 65535 := Nat.mul_le_mul hK (by rw [radix] at hx; omega)
  have hpv := s.word.pv.isLt
  have hhigh : ((s.kadd.extractLsb' 16 18).setWidth 20).toNat = s.kadd.toNat / 65536 := by
    simp only [BitVec.toNat_setWidth, BitVec.extractLsb'_toNat, Nat.shiftRight_eq_div_pow]
    split at hkadd <;> omega
  have hd : (s.dpd.setWidth 16).toNat
      = (s.kadd.toNat % 65536 + 131072 - s.word.pv.toNat - s.word.cc.toNat) % 65536 := by
    simp only [dpd, BitVec.toNat_setWidth, BitVec.toNat_sub, BitVec.extractLsb'_toNat, Nat.shiftRight_zero]
    omega
  have hdps : s.dps.toNat = (s.dpd.setWidth 16).toNat + s.word.pv.toNat + s.word.cc.toNat := by
    have hlow : (s.dpd.extractLsb' 0 16).toNat = (s.dpd.setWidth 16).toNat := by
      simp only [BitVec.toNat_setWidth, BitVec.extractLsb'_toNat, Nat.shiftRight_zero]
    have hlt := (s.dpd.setWidth 16).isLt
    simp only [dps, BitVec.toNat_add, BitVec.toNat_setWidth] at hlow ⊢
    omega
  have hcarry : (s.dps.extractLsb' 16 2).toNat = s.dps.toNat / 65536 % 4 := by
    simp only [BitVec.extractLsb'_toNat, Nat.shiftRight_eq_div_pow]
  have hlt := (s.dpd.setWidth 16).isLt
  rw [hhigh, hcarry, hdps, ← hkadd]
  generalize (s.dpd.setWidth 16).toNat = d at *
  generalize s.kadd.toNat = ka at *
  refine ⟨by split at hkadd <;> omega, by omega, ?_⟩
  rw [radix]
  omega

/-- Division by 65537 from the low end: exact when there is no remainder. -/
theorem divides (hpm : c.pm = .dp) (hK : c.pk.toNat ≤ 65536) : Leads clock Busy (Holds .eInit c rf) fun s =>
    ∃ rf', Holds c.pret c rf' s ∧
      number rf' c.pdst * 65537 ≡ 1 + c.pk.toNat * number rf c.psb [MOD radix ^ 64] ∧ Others c.pdst rf rf' := by
  have hafter : afterPass c = c.pret := if_neg (by rw [hpm]; decide)
  have hpass : Leads clock Busy (Holds .eInit c rf) _ := passes (I := fun k rf' w =>
      (∀ r j, j < 64 → ¬(regIndex wide r = regIndex wide c.pdst ∧ j < k) → regWord wide rf' r j = regWord wide rf r j) ∧
      w.cc.toNat ≤ 1 ∧ w.cy.toNat ≤ 65536 ∧
      value radix (regWord wide rf' c.pdst) k * (1 + radix) + w.cy.toNat * radix ^ k
        = (if k = 0 then 0 else 1) + c.pk.toNat * value radix (regWord wide rf c.psb) k
          + (w.cc.toNat + w.pv.toNat) * radix ^ k)
    ⟨fun _ _ _ _ => rfl, by decide, by decide, by simp⟩ (fun k hk rf' w s hw hI hs => ?_) (fun _ _ _ _ h => h)
  · apply hpass.imp (fun _ h => h)
    rintro s ⟨rf', w, hr, hkeep, -, -, hsum⟩
    rw [hafter] at hr
    refine ⟨rf', hr.holds, ?_, fun r hr' => ?_⟩
    · have hmod := congrArg (· % radix ^ 64) hsum
      simp only [Nat.add_mul_mod_self_right] at hmod
      exact hmod
    · apply value_congr
      intro j hj
      exact hkeep r j hj fun h => hr' h.1
  · obtain ⟨hkeep, hcc, hcy, hsum⟩ := hI
    have hval : s.stored = some (s.dpd.setWidth 16) := by rw [stored, hs.holds.ctl, hpm]
    have hnext : s.next = { s.word with
        cy := (s.kadd.extractLsb' 16 18).setWidth 20, cc := s.dps.extractLsb' 16 2, pv := s.dpd.setWidth 16 } := by
      rw [BnInverse.next, hs.holds.ctl, hpm]
    have hx : s.x.toNat = regWord wide rf c.psb k := by
      rw [← hkeep c.psb k hk (by simp), hs.x, hw, pj6]
      rfl
    have hkp : s.prod.kp.toNat = c.pk.toNat * regWord wide rf c.psb k := by
      have hxlt := s.x.isLt
      have hprod : c.pk.toNat * s.x.toNat ≤ 65536 * 65535 := Nat.mul_le_mul hK (by omega)
      rw [hs.kp, BitVec.toNat_mul, BitVec.toNat_setWidth, BitVec.toNat_setWidth, BitVec.toNat_setWidth, ← hx,
        Nat.mod_eq_of_lt (by omega : c.pk.toNat < 2 ^ 34), Nat.mod_eq_of_lt (by omega : s.x.toNat < 2 ^ 17),
        Nat.mod_eq_of_lt (by omega : s.x.toNat < 2 ^ 34), Nat.mod_eq_of_lt (by omega)]
    obtain ⟨hcy', hcc', hstep⟩ := divide_word hkp (regWord_lt c.psb k) hK (by rw [hs.word]; exact hcy)
      (by rw [hs.word]; exact hcc)
    have hzero : s.word.pj = 0 ↔ k = 0 := by
      rw [hs.word, hw]
      constructor
      · intro h
        have hnat : k % 128 = 0 := congrArg BitVec.toNat h
        omega
      · rintro rfl
        rfl
    have hword : ∀ r j, j < 64 → regWord wide (put c rf' w.pj s.stored) r j =
        if regIndex wide r = regIndex wide c.pdst ∧ j = k then (s.dpd.setWidth 16).toNat else regWord wide rf' r j := by
      intro r j hj
      rw [hval, put, hw, pj6]
      exact regWord_update hj hk _
    rw [hnext]
    refine ⟨fun r j hj hnot => ?_, hcc', hcy', ?_⟩
    · rw [hword r j hj, if_neg fun h => hnot ⟨h.1, by omega⟩]
      exact hkeep r j hj fun h => hnot ⟨h.1, by omega⟩
    · have hlow : value radix (regWord wide (put c rf' w.pj s.stored) c.pdst) k = value radix (regWord wide rf' c.pdst) k := by
        apply value_congr
        intro j hj
        rw [hword c.pdst j (by omega), if_neg fun h => by omega]
      rw [value_succ, value_succ, hlow, hword c.pdst k hk, if_pos ⟨rfl, rfl⟩, if_neg (Nat.succ_ne_zero k)]
      rw [hs.word] at hstep
      simp only [← hs.word, hzero] at hstep
      dsimp only
      rw [hs.word] at hstep
      generalize (s.dpd.setWidth 16).toNat = d at *
      generalize ((s.kadd.extractLsb' 16 18).setWidth 20).toNat = hi at *
      generalize (s.dps.extractLsb' 16 2).toNat = cc' at *
      have hone : (if k = 0 then 0 else 1) + (if k = 0 then 1 else 0) * radix ^ k = 1 := by
        by_cases h : k = 0 <;> simp [h]
      linear_combination hsum + radix ^ k * hstep + hone

end GoiKey.Rtl.BnInverse
