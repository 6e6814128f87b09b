import Mathlib.FieldTheory.Finite.Basic
import Mathlib.Tactic.NormNum.Prime
import GoiKey.Proofs.InversePasses

/-! RKINV and RDP: the inverse of 65537. -/

namespace GoiKey.Rtl.BnInverse

open Clocked Limbs
open BnEngine (radix regWord reg regIndex regWord_lt reg_lt)

variable {c : InvCtl} {rf rf' : BitVec 11 → BitVec 16} {s : BnInverse} {i : InvIn}

/-! Products modulo 65537. -/

theorem kmod_toNat {p : Nat} (hkp : s.prod.kp.toNat = p) (hp : p ≤ 65536 * 65536) : s.kmod.toNat = p % 65537 := by
  have hlow : ((s.prod.kp.extractLsb' 0 16).setWidth 19).toNat = p % 65536 := by
    simp only [BitVec.toNat_setWidth, BitVec.extractLsb'_toNat, Nat.shiftRight_zero, hkp]
    omega
  have hhigh : ((s.prod.kp.extractLsb' 16 18).setWidth 19).toNat = p / 65536 := by
    simp only [BitVec.toNat_setWidth, BitVec.extractLsb'_toNat, Nat.shiftRight_eq_div_pow, hkp]
    omega
  have hdiff : s.kdiff.toInt = (p % 65536 : Nat) - (p / 65536 : Nat) := by
    rw [kdiff, BitVec.toInt_sub, BitVec.toInt_eq_toNat_of_lt (by rw [hlow]; omega),
      BitVec.toInt_eq_toNat_of_lt (by rw [hhigh]; omega), hlow, hhigh]
    apply Int.bmod_eq_of_le_mul_two <;> omega
  have hnat : s.kdiff.toNat = if p % 65536 < p / 65536 then p % 65536 + 524288 - p / 65536
      else p % 65536 - p / 65536 := by
    rw [kdiff, BitVec.toNat_sub, hlow, hhigh]
    split <;> omega
  have hslt : s.kdiff.slt 0 = decide (p % 65536 < p / 65536) := by
    rw [BitVec.slt, hdiff]
    simp
    omega
  rw [kmod, hslt]
  by_cases h : p % 65536 < p / 65536
  · rw [if_pos h] at hnat
    have hmod : p % 65537 = p % 65536 + 65537 - p / 65536 := by omega
    have hc : 65537 % 2 ^ 19 = 65537 := by decide
    rw [hmod]
    simp only [h, decide_true, if_true, BitVec.toNat_setWidth, BitVec.toNat_add, hnat, BitVec.toNat_ofNat, hc]
    omega
  · rw [if_neg h] at hnat
    simp only [h, decide_false, Bool.false_eq_true, if_false, BitVec.extractLsb'_toNat, Nat.shiftRight_zero, hnat]
    omega

/-- A product is on its way through the multiplier. -/
structure Powering (c : InvCtl) (rf : BitVec 11 → BitVec 16) (x n : Nat) (phase : Bool) (a b : Nat) (s : BnInverse) :
    Prop where
  holds : Holds .ki1 c rf s
  kx : s.power.kx.toNat = x
  kn : s.power.kn = BitVec.ofNat 5 n
  phase : s.power.kphase = phase
  ka : s.prod.ka.toNat = a
  kb : s.prod.kb.toNat = b

/-- The product is there. -/
structure Multiplied (c : InvCtl) (rf : BitVec 11 → BitVec 16) (x n : Nat) (phase : Bool) (r : Nat) (s : BnInverse) :
    Prop where
  holds : Holds .ki2 c rf s
  kx : s.power.kx.toNat = x
  kn : s.power.kn = BitVec.ofNat 5 n
  phase : s.power.kphase = phase
  kmod : s.kmod.toNat = r

variable {x n a b r : Nat} {phase : Bool}

theorem multiplies (ha : a ≤ 65536) (hb : b ≤ 65536) :
    Leads clock Busy (Powering c rf x n phase a b) (Multiplied c rf x n phase (a * b % 65537)) := by
  apply Leads.edge fun s h => h.holds.busy (by decide)
  intro s i h
  obtain ⟨ht, -⟩ := h.holds.tick (by decide) i
  have hprod : a * b ≤ 65536 * 65536 := Nat.mul_le_mul ha hb
  simp only [clock, fsm, h.holds.st]
  refine ⟨ht.move rfl ht.ctl ⟨rfl, rfl⟩, h.kx, h.kn, h.phase, kmod_toNat ?_ hprod⟩
  change (s.prod.ka.setWidth 34 * s.prod.kb.setWidth 34).toNat = a * b
  rw [BitVec.toNat_mul, BitVec.toNat_setWidth, BitVec.toNat_setWidth, h.ka, h.kb]
  rw [Nat.mod_eq_of_lt (by omega : a < 2 ^ 34), Nat.mod_eq_of_lt (by omega : b < 2 ^ 34), Nat.mod_eq_of_lt (by omega)]

/-- The square is multiplied by the number. -/
theorem squared : Leads clock Busy (Multiplied c rf x n false r) (Powering c rf x n true r x) := by
  apply Leads.edge fun s h => h.holds.busy (by decide)
  intro s i h
  obtain ⟨ht, -⟩ := h.holds.tick (by decide) i
  simp only [clock, fsm, h.holds.st, ki2, h.phase, Bool.not_false, if_true]
  exact ⟨ht.move rfl ht.ctl ⟨rfl, rfl⟩, h.kx, h.kn, rfl, h.kmod, h.kx⟩

/-- The next bit of the exponent. -/
theorem another (hn : n < 14) : Leads clock Busy (Multiplied c rf x n true r) (Powering c rf x (n + 1) false r r) := by
  apply Leads.edge fun s h => h.holds.busy (by decide)
  intro s i h
  obtain ⟨ht, -⟩ := h.holds.tick (by decide) i
  have hlast : ¬s.power.kn = 14 := by
    rw [h.kn]
    intro heq
    have hnat : n % 32 = 14 := congrArg BitVec.toNat heq
    omega
  simp only [clock, fsm, h.holds.st, ki2, h.phase, Bool.not_true, Bool.false_eq_true, if_false, hlast]
  refine ⟨ht.move rfl ht.ctl ⟨rfl, rfl⟩, h.kx, ?_, rfl, h.kmod, h.kmod⟩
  change s.power.kn + 1 = _
  rw [h.kn]
  exact (BitVec.ofNat_add ..).symm

/-- The last one. -/
theorem powered : Leads clock Busy (Multiplied c rf x 14 true r) fun s => Holds .ki3 c rf s ∧ s.power.kr.toNat = r := by
  apply Leads.edge fun s h => h.holds.busy (by decide)
  intro s i h
  obtain ⟨ht, -⟩ := h.holds.tick (by decide) i
  have hlast : s.power.kn = 14 := h.kn
  simp only [clock, fsm, h.holds.st, ki2, h.phase, Bool.not_true, Bool.false_eq_true, if_false, hlast, if_true]
  exact ⟨ht.move rfl ht.ctl ⟨rfl, rfl⟩, h.kmod⟩

theorem mod_le (y : Nat) : y % 65537 ≤ 65536 := by omega

/-- A square and a product: the exponent is doubled and gets a one. -/
theorem power_step (n : Nat) : x ^ (2 ^ (n + 1) - 1) % 65537 * (x ^ (2 ^ (n + 1) - 1) % 65537) % 65537 * x % 65537
    = x ^ (2 ^ (n + 2) - 1) % 65537 := by
  have hexp : 2 ^ (n + 2) - 1 = (2 ^ (n + 1) - 1) + (2 ^ (n + 1) - 1) + 1 := by
    have hpos : 0 < 2 ^ (n + 1) := Nat.two_pow_pos _
    have hpow : 2 ^ (n + 2) = 2 * 2 ^ (n + 1) := by ring
    omega
  rw [hexp]
  generalize 2 ^ (n + 1) - 1 = e
  rw [pow_add x (e + e) 1, pow_add x e e, pow_one, Nat.mod_mul_mod]
  exact ((Nat.mod_modEq _ 65537).mul (Nat.mod_modEq _ 65537)).mul_right x

/-- After fifteen bits the power is that of 65535. -/
theorem powers (hx : x ≤ 65536) : Leads clock Busy (Powering c rf x 0 false x x) fun s =>
    Holds .ki3 c rf s ∧ s.power.kr.toNat = x ^ 65535 % 65537 := by
  have hround : ∀ n, Leads clock Busy
      (Powering c rf x n false (x ^ (2 ^ (n + 1) - 1) % 65537) (x ^ (2 ^ (n + 1) - 1) % 65537))
      (Multiplied c rf x n true (x ^ (2 ^ (n + 2) - 1) % 65537)) := by
    intro n
    rw [← power_step n]
    exact (multiplies (mod_le _) (mod_le _)).trans (squared.trans (multiplies (mod_le _) hx))
  have hloop : Leads clock Busy
      (Powering c rf x 0 false (x ^ (2 ^ (0 + 1) - 1) % 65537) (x ^ (2 ^ (0 + 1) - 1) % 65537))
      (Powering c rf x 14 false (x ^ (2 ^ (14 + 1) - 1) % 65537) (x ^ (2 ^ (14 + 1) - 1) % 65537)) :=
    Leads.loop (I := fun n =>
      Powering c rf x n false (x ^ (2 ^ (n + 1) - 1) % 65537) (x ^ (2 ^ (n + 1) - 1) % 65537))
      fun n hn => (hround n).trans (another hn)
  have hfirst : x ^ (2 ^ (0 + 1) - 1) % 65537 = x := by
    rw [show 2 ^ (0 + 1) - 1 = 1 from rfl, pow_one]
    omega
  rw [hfirst] at hloop
  exact hloop.trans ((hround 14).trans powered)

/-- Its negative inverse, as Fermat has it. -/
theorem fermat {x : Nat} (hx : ¬65537 ∣ x) : x ^ 65535 % 65537 * x ≡ 1 [MOD 65537] := by
  have hprime : Nat.Prime 65537 := by norm_num
  have hcop : Nat.Coprime x 65537 := ((Nat.Prime.coprime_iff_not_dvd hprime).mpr hx).symm
  have htot : Nat.totient 65537 = 65536 := Nat.totient_prime hprime
  have hpow := Nat.ModEq.pow_totient hcop
  rw [htot] at hpow
  calc x ^ 65535 % 65537 * x ≡ x ^ 65535 * x [MOD 65537] := (Nat.mod_modEq _ _).mul_right x
    _ = x ^ 65536 := (pow_succ x 65535).symm
    _ ≡ 1 [MOD 65537] := hpow

/-! The operations. -/

/-- A register of an operation. -/
def user (r : BitVec 6) : BitVec 7 := (r.setWidth 5).setWidth 7

/-- What RKINV leaves for this number. -/
def factor (x : Nat) : Nat := 65537 - (x % 65537) ^ 65535 % 65537

theorem factor_le {x : Nat} (hx : ¬65537 ∣ x) : factor x ≤ 65536 := by
  have hnot : ¬65537 ∣ x % 65537 := fun h => hx ((Nat.dvd_mod_iff dvd_rfl).mp h)
  have hpos : (x % 65537) ^ 65535 % 65537 ≠ 0 := by
    intro hzero
    have hone := fermat hnot
    rw [hzero, Nat.zero_mul] at hone
    exact absurd hone (by decide)
  rw [factor]
  omega

/-- The sum that RDP divides can be divided. -/
theorem factor_dvd {x : Nat} (hx : ¬65537 ∣ x) : 65537 ∣ 1 + factor x * x := by
  have hnot : ¬65537 ∣ x % 65537 := fun h => hx ((Nat.dvd_mod_iff dvd_rfl).mp h)
  have hinv : (x % 65537) ^ 65535 % 65537 * x ≡ 1 [MOD 65537] :=
    ((Nat.mod_modEq x 65537).symm.mul_left _).trans (fermat hnot)
  have hle := mod_le ((x % 65537) ^ 65535)
  have hsum : 1 + factor x * x + (x % 65537) ^ 65535 % 65537 * x = 1 + 65537 * x := by
    rw [factor, Nat.add_assoc, ← Nat.add_mul, Nat.sub_add_cancel (by omega)]
  have hmod : 1 + factor x * x + 1 ≡ 1 [MOD 65537] := by
    calc 1 + factor x * x + 1 ≡ 1 + factor x * x + (x % 65537) ^ 65535 % 65537 * x [MOD 65537] := hinv.symm.add_left _
      _ = 1 + 65537 * x := hsum
      _ ≡ 1 [MOD 65537] := by simp [Nat.ModEq]
  exact (Nat.modEq_zero_iff_dvd).mp (Nat.ModEq.add_right_cancel' 1 (by simpa using hmod))

/-- The end of an operation. -/
structure Answered (rf : BitVec 11 → BitVec 16) (s : BnInverse) : Prop where
  done : s.done = true
  idle : ∃ c, Holds .idle c rf s

theorem answers : Leads clock Busy (Holds .fin c rf) (Answered rf) := by
  apply Leads.edge fun s h => h.busy (by decide)
  intro s i h
  obtain ⟨ht, -⟩ := h.tick (by decide) i
  simp only [clock, fsm, h.st]
  exact ⟨rfl, c, ht.move rfl ht.ctl ⟨rfl, rfl⟩⟩

/-- Idle, and nothing is written from outside. -/
theorem Holds.tickIdle (h : Holds .idle c rf s) (hx : i.x.we = false) : Holds .idle c rf (s.tick i) := by
  refine ⟨h.st, h.ctl, ?_, ?_⟩
  · simp only [BnInverse.tick, h.st, if_true, BlockRam.clockExternal, hx, Bool.false_eq_true, if_false, h.rf]
  · simp only [BnInverse.tick, h.st, if_true, BlockRam.clockExternal]

theorem Holds.waits (h : Holds .idle c rf s) (hx : i.x.we = false) (hno : i.start = none) :
    Holds .idle c rf (s.clock i) := by
  have ht := h.tickIdle hx
  simp only [clock, fsm, h.st, hno, Option.elim_none]
  exact ht

section Kinv

variable {p q : BitVec 6}

/-- The register is looked at modulo 65537. -/
theorem kinv_begins (h : Holds .idle c rf s) (hx : i.x.we = false) (hask : i.start = some (.kinv p q)) :
    ∃ c', c'.pm = .rem ∧ c'.psb = user q ∧ c'.pret = .ki0 ∧ c'.oA = p.setWidth 5 ∧ Holds .eInit c' rf (s.clock i) := by
  have ht := h.tickIdle hx
  simp only [clock, fsm, h.st, hask, Option.elim_some]
  exact ⟨_, rfl, rfl, rfl, rfl, ht.move rfl rfl ⟨rfl, rfl⟩⟩

theorem kinv_starts {x : Nat} : Leads clock Busy (fun s => Holds .ki0 c rf s ∧ s.peRes.toNat = x)
    (Powering c rf x 0 false x x) := by
  apply Leads.edge fun s h => h.1.busy (by decide)
  rintro s i ⟨h, hres⟩
  obtain ⟨ht, -⟩ := h.tick (by decide) i
  simp only [clock, fsm, h.st]
  exact ⟨ht.move rfl ht.ctl ⟨rfl, rfl⟩, hres, rfl, rfl, hres, hres⟩

theorem kinv_negates {r : Nat} (hr : r ≤ 65536) : Leads clock Busy (fun s => Holds .ki3 c rf s ∧ s.power.kr.toNat = r)
    fun s => Holds .ki4 c rf s ∧ s.power.kK.toNat = 65537 - r := by
  apply Leads.edge fun s h => h.1.busy (by decide)
  rintro s i ⟨h, hres⟩
  obtain ⟨ht, -⟩ := h.tick (by decide) i
  simp only [clock, fsm, h.st]
  refine ⟨ht.move rfl ht.ctl ⟨rfl, rfl⟩, ?_⟩
  rw [BitVec.toNat_sub, hres, BitVec.toNat_ofNat]
  omega

theorem kinv_fills {k : Nat} : Leads clock Busy (fun s => Holds .ki4 c rf s ∧ s.power.kK.toNat = k)
    fun s => ∃ c', c'.pm = .fill ∧ c'.pdst = c.oA.setWidth 7 ∧ c'.pimm.toNat = k ∧ c'.pret = .fin ∧
      Holds .eInit c' rf s := by
  apply Leads.edge fun s h => h.1.busy (by decide)
  rintro s i ⟨h, hk⟩
  obtain ⟨ht, -⟩ := h.tick (by decide) i
  have hlt := s.power.kK.isLt
  simp only [clock, fsm, h.st]
  refine ⟨_, rfl, by rw [pass, h.ctl], ?_, rfl, ht.move rfl rfl ⟨rfl, rfl⟩⟩
  rw [pass, BitVec.toNat_setWidth, hk]
  omega

end Kinv

/-- RKINV leaves the factor, and the other registers as they are. -/
theorem kinv_leaves {p q : BitVec 6} (hpm : c.pm = .rem) (hpsb : c.psb = user q) (hret : c.pret = .ki0)
    (hoA : c.oA = p.setWidth 5) : Leads clock Busy (Holds .eInit c rf) fun s =>
      ∃ rf', Answered rf' s ∧ number rf' (user p) = factor (number rf (user q)) ∧ Others (user p) rf rf' := by
  have hle := mod_le (number rf (user q))
  have hrem : Leads clock Busy (Holds .eInit c rf) fun s =>
      Holds .ki0 c rf s ∧ s.peRes.toNat = number rf (user q) % 65537 := by
    have h : Leads clock Busy (Holds .eInit c rf) _ := rems hpm
    rwa [hret, hpsb] at h
  apply hrem.trans (kinv_starts.trans ((powers hle).trans ((kinv_negates (mod_le _)).trans (kinv_fills.trans _))))
  apply Leads.exists
  rintro c' s ⟨hpm', hdst, himm, hret', hs⟩ i
  obtain ⟨n, hn, rf', hfin, hnum, hothers⟩ := fills hpm' s hs i
  rw [hret'] at hfin
  rw [hdst, hoA] at hnum hothers
  obtain ⟨m, hm, hans⟩ := answers _ hfin fun k => i (n + k)
  refine ⟨n + m, fun d hd => ?_, rf', ?_, hnum.trans himm, hothers⟩
  · rcases Nat.lt_or_ge d n with hlt | hge
    · exact hn d hlt
    · obtain ⟨e, rfl⟩ := Nat.exists_eq_add_of_le hge
      rw [after_add]
      exact hm e (by omega)
  · rw [after_add]
    exact hans

/-! RDP. -/

theorem dp_begins {d p k : BitVec 6} (h : Holds .idle c rf s) (hx : i.x.we = false)
    (hask : i.start = some (.dp d p k)) : ∃ c', c'.oA = d.setWidth 5 ∧ c'.oB = p.setWidth 5 ∧ c'.oC = k.setWidth 5 ∧
      Holds .dp0 c' rf (s.clock i) := by
  have ht := h.tickIdle hx
  simp only [clock, fsm, h.st, hask, Option.elim_some]
  exact ⟨_, rfl, rfl, rfl, ht.move rfl rfl ⟨rfl, rfl⟩⟩

/-- A word of a register is fetched in two clocks. -/
theorem dp_fetches : Leads clock Busy (Holds .dp0 c rf) fun s =>
    Holds .dp4 c rf s ∧ s.power.kK.extractLsb' 0 16 = rf (c.oC ++ 0#6) ∧ s.rf.rq = rf (c.oC ++ 1#6) := by
  have h0 : Leads clock Busy (Holds .dp0 c rf) fun s => Holds .dp1 c rf s ∧ s.rf.ra = c.oC ++ 0#6 := by
    apply Leads.edge fun s h => h.busy (by decide)
    intro s i h
    obtain ⟨ht, -⟩ := h.tick (by decide) i
    simp only [clock, fsm, h.st]
    exact ⟨ht.move rfl ht.ctl ⟨rfl, rfl⟩, by rw [BlockRam.read, h.ctl]⟩
  have h1 : Leads clock Busy (fun s => Holds .dp1 c rf s ∧ s.rf.ra = c.oC ++ 0#6) fun s =>
      Holds .dp2 c rf s ∧ s.rf.rq = rf (c.oC ++ 0#6) := by
    apply Leads.edge fun s h => h.1.busy (by decide)
    rintro s i ⟨h, hra⟩
    obtain ⟨ht, -, hrq⟩ := h.tick (by decide) i
    simp only [clock, fsm, h.st]
    exact ⟨ht.move rfl ht.ctl ⟨rfl, rfl⟩, by rw [hrq, hra]⟩
  have h2 : Leads clock Busy (fun s => Holds .dp2 c rf s ∧ s.rf.rq = rf (c.oC ++ 0#6)) fun s =>
      Holds .dp3 c rf s ∧ s.power.kK.extractLsb' 0 16 = rf (c.oC ++ 0#6) ∧ s.rf.ra = c.oC ++ 1#6 := by
    apply Leads.edge fun s h => h.1.busy (by decide)
    rintro s i ⟨h, hrq⟩
    obtain ⟨ht, -⟩ := h.tick (by decide) i
    simp only [clock, fsm, h.st]
    refine ⟨ht.move rfl ht.ctl ⟨rfl, rfl⟩, ?_, by rw [BlockRam.read, h.ctl]⟩
    rw [hrq]
    apply BitVec.eq_of_toNat_eq
    rw [BitVec.extractLsb'_toNat, Nat.shiftRight_zero, BitVec.toNat_append, Nat.or_mod_two_pow, Nat.shiftLeft_eq,
      Nat.mul_mod_left, Nat.zero_or, Nat.mod_eq_of_lt (BitVec.isLt _)]
  have h3 : Leads clock Busy (fun s => Holds .dp3 c rf s ∧ s.power.kK.extractLsb' 0 16 = rf (c.oC ++ 0#6) ∧
      s.rf.ra = c.oC ++ 1#6) fun s =>
      Holds .dp4 c rf s ∧ s.power.kK.extractLsb' 0 16 = rf (c.oC ++ 0#6) ∧ s.rf.rq = rf (c.oC ++ 1#6) := by
    apply Leads.edge fun s h => h.1.busy (by decide)
    rintro s i ⟨h, hk, hra⟩
    obtain ⟨ht, -, hrq⟩ := h.tick (by decide) i
    simp only [clock, fsm, h.st]
    exact ⟨ht.move rfl ht.ctl ⟨rfl, rfl⟩, hk, by rw [hrq, hra]⟩
  exact h0.trans (h1.trans (h2.trans h3))

/-- The low bits of a register. -/
theorem register_low (rf : BitVec 11 → BitVec 16) (k : BitVec 6) (hk : number rf (user k) < 2 ^ 17) :
    (BitVec.ofBool ((rf (k.setWidth 5 ++ 1#6)).getLsbD 0) ++ rf (k.setWidth 5 ++ 0#6)).toNat = number rf (user k) := by
  have hw : ∀ j : Nat, j < 64 → regWord wide rf (user k) j = number rf (user k) / radix ^ j % radix := by
    intro j hj
    have hval : number rf (user k) = value radix (regWord wide rf (user k)) 64 := rfl
    rw [hval]
    generalize hf : regWord wide rf (user k) = f
    exact (value_div_mod (w := f) (n := 64) (k := j) (fun i _ => hf ▸ regWord_lt _ _) hj).symm
  have haddr : ∀ w : BitVec 6, rfa false (user k) w = k.setWidth 5 ++ w := by
    intro w
    have hlow : (user k).extractLsb' 0 5 = k.setWidth 5 := by
      apply BitVec.eq_of_toNat_eq
      simp [user]
    simp [rfa, hlow]
  have h0 : (rf (k.setWidth 5 ++ 0#6)).toNat = number rf (user k) % 65536 := by
    have h := hw 0 (by decide)
    rw [pow_zero, Nat.div_one] at h
    rw [← haddr]
    exact h
  have h1 : (rf (k.setWidth 5 ++ 1#6)).toNat = number rf (user k) / 65536 % 65536 := by
    have h := hw 1 (by decide)
    rw [pow_one] at h
    rw [← haddr]
    exact h
  have hbit : ((rf (k.setWidth 5 ++ 1#6)).getLsbD 0).toNat = number rf (user k) / 65536 := by
    rw [BitVec.getLsbD, h1, Nat.toNat_testBit]
    omega
  rw [BitVec.toNat_append, BitVec.toNat_ofBool, hbit, h0, Nat.shiftLeft_eq, Nat.mul_comm,
    ← Nat.two_pow_add_eq_or_of_lt (by omega)]
  omega

theorem dp_divides {k : BitVec 6} (hoC : c.oC = k.setWidth 5) (hk : number rf (user k) < 2 ^ 17) :
    Leads clock Busy (fun s => Holds .dp4 c rf s ∧ s.power.kK.extractLsb' 0 16 = rf (c.oC ++ 0#6) ∧
      s.rf.rq = rf (c.oC ++ 1#6)) fun s => ∃ c', c'.pm = .dp ∧ c'.pdst = c.oA.setWidth 7 ∧ c'.psb = c.oB.setWidth 7 ∧
        c'.pk.toNat = number rf (user k) ∧ c'.pret = .fin ∧ Holds .eInit c' rf s := by
  apply Leads.edge fun s h => h.1.busy (by decide)
  rintro s i ⟨h, hlow, hrq⟩
  obtain ⟨ht, -⟩ := h.tick (by decide) i
  simp only [clock, fsm, h.st]
  refine ⟨_, rfl, by rw [pass, h.ctl], by rw [pass, h.ctl], ?_, rfl, ht.move rfl rfl ⟨rfl, rfl⟩⟩
  rw [pass, hlow, hrq, hoC]
  exact register_low rf k hk

theorem reg_bound (rf : BitVec 11 → BitVec 16) (r : BitVec 7) : number rf r < radix ^ 64 := reg_lt r

/-- An exact quotient is the one that the low end determines. -/
theorem quotient_unique {q n : Nat} (hq : q < radix ^ 64) (hn : n < 65537 * radix ^ 64) (hdvd : 65537 ∣ n)
    (hmod : q * 65537 ≡ n [MOD radix ^ 64]) : q * 65537 = n := by
  obtain ⟨t, rfl⟩ := hdvd
  have hcop : Nat.gcd (radix ^ 64) 65537 = 1 := by
    rw [radix, ← Nat.pow_mul]
    exact Nat.Coprime.pow_left _ (by decide)
  rw [Nat.mul_comm 65537 t] at hmod ⊢
  have heq : q ≡ t [MOD radix ^ 64] := Nat.ModEq.cancel_right_of_coprime hcop hmod
  have ht : t < radix ^ 64 := Nat.lt_of_mul_lt_mul_left hn
  rw [heq.eq_of_lt_of_lt hq ht]

/-- RDP divides one more than the product of its registers, when that can be done. -/
theorem dp_leaves {d p k : BitVec 6} (hoA : c.oA = d.setWidth 5) (hoB : c.oB = p.setWidth 5)
    (hoC : c.oC = k.setWidth 5) (hk : number rf (user k) ≤ 65536)
    (hdvd : 65537 ∣ 1 + number rf (user k) * number rf (user p)) : Leads clock Busy (Holds .dp0 c rf) fun s =>
      ∃ rf', Answered rf' s ∧ number rf' (user d) * 65537 = 1 + number rf (user k) * number rf (user p) := by
  apply (dp_fetches.trans (dp_divides hoC (by omega))).trans
  apply Leads.exists
  rintro c' s ⟨hpm, hdst, hpsb, hpk, hret, hs⟩ i
  obtain ⟨n, hn, rf', hfin, hmod, -⟩ := divides hpm (by omega) s hs i
  rw [hret] at hfin
  rw [hpk, hdst, hpsb, hoA, hoB] at hmod
  obtain ⟨m, hm, hans⟩ := answers _ hfin fun k => i (n + k)
  refine ⟨n + m, fun e he => ?_, rf', ?_, ?_⟩
  · rcases Nat.lt_or_ge e n with hlt | hge
    · exact hn e hlt
    · obtain ⟨e, rfl⟩ := Nat.exists_eq_add_of_le hge
      rw [after_add]
      exact hm e (by omega)
  · rw [after_add]
    exact hans
  · have hprod : number rf (user k) * number rf (user p) ≤ 65536 * number rf (user p) := Nat.mul_le_mul_right _ hk
    have hbound := reg_bound rf (user p)
    exact quotient_unique (reg_bound rf' _) (by generalize radix ^ 64 = b at *; omega) hdvd hmod

/-! The two after each other. -/

/-- An operation that begins on clock 0 is done. -/
structure DoneAt (s : BnInverse) (i : Nat → InvIn) (n : Nat) : Prop where
  busy : ∀ k, 0 < k → k < n → Busy (after clock s i k)
  done : (after clock s i n).done = true

/-- From the state that a request leaves. -/
theorem DoneAt.of {P Q : BnInverse → Prop} {i : Nat → InvIn} (hs : P (s.clock (i 0))) (hl : Leads clock Busy P Q)
    (hQ : ∀ t, Q t → t.done = true) : ∃ n, DoneAt s i n ∧ Q (after clock s i n) := by
  obtain ⟨n, hn, hq⟩ := hl _ hs fun k => i (1 + k)
  have hafter : ∀ k, after clock s i (k + 1) = after clock (s.clock (i 0)) (fun k => i (1 + k)) k := by
    intro k
    rw [Nat.add_comm, after_add]
    rfl
  rw [← hafter] at hq
  refine ⟨n + 1, ⟨fun k hk hlt => ?_, hQ _ hq⟩, hq⟩
  obtain ⟨k, rfl⟩ := Nat.exists_eq_succ_of_ne_zero (Nat.pos_iff_ne_zero.mp hk)
  rw [Nat.succ_eq_add_one, hafter]
  exact hn k (by omega)

theorem kinv_done {p q : BitVec 6} {i : Nat → InvIn} (h : Holds .idle c rf s) (hx : (i 0).x.we = false)
    (hask : (i 0).start = some (.kinv p q)) : ∃ n, DoneAt s i n ∧ ∃ rf', Answered rf' (after clock s i n) ∧
      number rf' (user p) = factor (number rf (user q)) ∧ Others (user p) rf rf' := by
  obtain ⟨c', hpm, hpsb, hret, hoA, hs⟩ := kinv_begins h hx hask
  apply DoneAt.of hs (kinv_leaves hpm hpsb hret hoA)
  rintro t ⟨_, ht, -⟩
  exact ht.done

theorem dp_done {d p k : BitVec 6} {i : Nat → InvIn} (h : Holds .idle c rf s) (hx : (i 0).x.we = false)
    (hask : (i 0).start = some (.dp d p k)) (hk : number rf (user k) ≤ 65536)
    (hdvd : 65537 ∣ 1 + number rf (user k) * number rf (user p)) : ∃ n, DoneAt s i n ∧
      ∃ rf', Answered rf' (after clock s i n) ∧
        number rf' (user d) * 65537 = 1 + number rf (user k) * number rf (user p) := by
  obtain ⟨c', hoA, hoB, hoC, hs⟩ := dp_begins h hx hask
  apply DoneAt.of hs (dp_leaves hoA hoB hoC hk hdvd)
  rintro t ⟨_, ht, -⟩
  exact ht.done

/-- Between two requests the registers stay. -/
theorem Holds.later {i : Nat → InvIn} {n m : Nat} (h : Holds .idle c rf (after clock s i n)) (hle : n ≤ m)
    (hx : ∀ j, n ≤ j → j < m → (i j).x.we = false) (hno : ∀ j, n ≤ j → j < m → (i j).start = none) :
    Holds .idle c rf (after clock s i m) := by
  induction m, hle using Nat.le_induction with
  | base => exact h
  | succ m hm ih =>
    rw [after_succ]
    exact (ih (fun j hj hlt => hx j hj (by omega)) fun j hj hlt => hno j hj (by omega)).waits
      (hx m hm (Nat.lt_succ_self m)) (hno m hm (Nat.lt_succ_self m))

/-- A quotient of this form is the inverse. -/
theorem inverse_iff {x q K : Nat} (hx : 2 ≤ x) (hdvd : ¬65537 ∣ x) (hK : K ≤ 65536) (hq : q * 65537 = 1 + K * x)
    (y : Nat) : y = q ↔ y < x ∧ 65537 * y ≡ 1 [MOD x] := by
  have hlt : q < x := by
    have hprod : K * x ≤ 65536 * x := Nat.mul_le_mul_right x hK
    omega
  have hone : 65537 * q ≡ 1 [MOD x] := by
    rw [Nat.mul_comm, hq, Nat.ModEq, Nat.add_mul_mod_self_right]
  constructor
  · rintro rfl
    exact ⟨hlt, hone⟩
  · rintro ⟨hy, hinv⟩
    have hprime : Nat.Prime 65537 := by norm_num
    have hcop : Nat.gcd x 65537 = 1 := ((Nat.Prime.coprime_iff_not_dvd hprime).mpr hdvd).symm
    have heq : y ≡ q [MOD x] := Nat.ModEq.cancel_left_of_coprime hcop (hinv.trans hone.symm)
    exact heq.eq_of_lt_of_lt hy hlt

/-- RKINV and then RDP leave the inverse of 65537 modulo an even number that 65537 does not
divide, and no other number is it. -/
theorem inverse_computed {i : Nat → InvIn} {a p d : BitVec 6} (h : Holds .idle c rf s)
    (hask : (i 0).start = some (.kinv a p)) (hx : (i 0).x.we = false) (hne : a.setWidth 5 ≠ p.setWidth 5)
    (heven : number rf (user p) % 2 = 0) (hdvd : ¬65537 ∣ number rf (user p)) :
    ∃ n, DoneAt s i n ∧ ∀ m, n ≤ m → (∀ j, n ≤ j → j < m → (i j).start = none) →
      (∀ j, n ≤ j → j ≤ m → (i j).x.we = false) → (i m).start = some (.dp d p a) →
      ∃ n', DoneAt (after clock s i m) (fun k => i (m + k)) n' ∧
        ∀ y, y = number (after clock s i (m + n')).rf.mem (user d) ↔
          y < number rf (user p) ∧ 65537 * y ≡ 1 [MOD number rf (user p)] := by
  obtain ⟨n, hdone, rf', ⟨-, c', hidle⟩, hnum, hothers⟩ := kinv_done h hx hask
  refine ⟨n, hdone, fun m hm hno hx' hask' => ?_⟩
  have hindex : regIndex wide (user p) ≠ regIndex wide (user a) := by
    intro heq
    apply hne
    apply BitVec.eq_of_toNat_eq
    have huser : ∀ r : BitVec 6, regIndex wide (user r) = (r.setWidth 5).toNat := by decide
    rw [← huser, ← huser, heq]
  have hp : number rf' (user p) = number rf (user p) := hothers _ hindex
  have hlater := hidle.later hm (fun j hj hlt => hx' j hj (by omega)) hno
  have hK : number rf' (user a) ≤ 65536 := hnum ▸ factor_le hdvd
  have hsum : 65537 ∣ 1 + number rf' (user a) * number rf' (user p) := by
    rw [hnum, hp]
    exact factor_dvd hdvd
  obtain ⟨n', hdone', rf'', ⟨-, _, hidle'⟩, hquot⟩ := dp_done (i := fun k => i (m + k)) hlater
    (hx' m hm (Nat.le_refl m)) hask' hK hsum
  refine ⟨n', hdone', fun y => ?_⟩
  rw [after_add, hidle'.rf]
  rw [hp] at hquot
  have hzero : number rf (user p) ≠ 0 := fun h0 => hdvd (h0 ▸ Nat.dvd_zero _)
  exact inverse_iff (by omega) hdvd hK hquot y

/-- An engine at rest with six in register 1. -/
def atRest : BnInverse where
  st := .idle
  ctl := ⟨.idle, .fill, 0, 0, 0, 0, 0, 0, 0⟩
  word := ⟨0, 0, 0, 0, 0⟩
  x := 0
  prod := ⟨0, 0, 0⟩
  power := ⟨0, 0, 0, false, 0⟩
  peRes := 0
  rf := ⟨fun a => if a = 64 then 6 else 0, 0, 0, false, 0, 0⟩
  done := false

/-- The factor into register 2, and then the inverse into register 3. -/
def asking (n : Nat) : InvIn := ⟨some (if n = 0 then .kinv 2 1 else .dp 3 1 2), ⟨0, false, 0, 0⟩⟩

theorem inverse_computed_six : ∃ n, DoneAt atRest asking n ∧ ∀ m, n ≤ m →
    (∀ j, n ≤ j → j < m → (asking j).start = none) → (∀ j, n ≤ j → j ≤ m → (asking j).x.we = false) →
    (asking m).start = some (.dp 3 1 2) →
      ∃ n', DoneAt (after clock atRest asking m) (fun k => asking (m + k)) n' ∧
        ∀ y, y = number (after clock atRest asking (m + n')).rf.mem (user 3) ↔
          y < number atRest.rf.mem (user 1) ∧ 65537 * y ≡ 1 [MOD number atRest.rf.mem (user 1)] :=
  have h : Holds .idle atRest.ctl atRest.rf.mem atRest := ⟨rfl, rfl, rfl, rfl⟩
  inverse_computed h rfl rfl (by decide) (by decide +kernel) (by decide +kernel)

end GoiKey.Rtl.BnInverse
