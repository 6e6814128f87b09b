import GoiKey.Proofs.BnOperations

/-!
R^2 by squaring in Montgomery form, and the exponentiation, bit by bit from the top.
-/

namespace GoiKey.Rtl.BnEngine

open Clocked Limbs Montgomery

variable {c : BnCtl} {o : BnOp} {rf rf' rf'' : BitVec 11 → BitVec 16} {m : BitVec 6 → BitVec 16}
variable {t : BitVec 8 → BitVec 16} {s : BnEngine}

/-! Registers that stay. -/

/-- The registers whose numbers meet `P` are as they were. -/
def Same (o : BnOp) (P : Nat → Prop) (rf rf' : BitVec 11 → BitVec 16) : Prop :=
  ∀ r, P (regIndex o r) → ∀ k < words o, regWord o rf' r k = regWord o rf r k

theorem Same.refl (P : Nat → Prop) : Same o P rf rf := fun _ _ _ _ => rfl

theorem Same.kept {P : Nat → Prop} {d : BitVec 7} (h : Same o P rf rf') (hk : Kept o rf' d rf'')
    (hd : ∀ j, P j → j ≠ regIndex o d) : Same o P rf rf'' := by
  intro r hr k hkw
  rw [hk r (hd _ hr) k hkw]
  exact h r hr k hkw

theorem Same.reg {P : Nat → Prop} {r : BitVec 7} (h : Same o P rf rf') (hr : P (regIndex o r)) :
    reg o rf' r = reg o rf r := value_congr (h r hr)

/-! Numbers in Montgomery form. -/

theorem Inverse.coprime (h : Inverse o m) : Nat.gcd (modulus o m) (bound o) = 1 := by
  have hradix : Nat.Coprime (modulus o m) radix := by
    have hM : Nat.gcd (modulus o m) radix ∣ modulus o m * o.nprime.toNat :=
      Dvd.dvd.mul_right (Nat.gcd_dvd_left _ _) _
    have hone := (Nat.dvd_add_right hM).mp ((Nat.gcd_dvd_right (modulus o m) radix).trans h)
    exact Nat.dvd_one.mp hone
  exact Nat.Coprime.pow_right _ hradix

theorem bound_rsa (h : o.emode = false) : bound o = 2 ^ 2 ^ 10 := by
  have hw : words o = 64 := by rw [words, h]; rfl
  have hbits : 16 * 64 = 2 ^ 10 := by decide
  rw [bound, hw, radix, ← Nat.pow_mul, hbits]

/-- A register holds a number in Montgomery form, reduced. -/
def Represents (o : BnOp) (rf : BitVec 11 → BitVec 16) (m : BitVec 6 → BitVec 16) (r : BitVec 7) (x : Nat) : Prop :=
  reg o rf r < modulus o m ∧ reg o rf r ≡ x * bound o [MOD modulus o m]

/-- A composite is set up in the middle of an operation. -/
theorem composes {n : BnEngine} {st : BnState} {kind : CKind} {d a b : BitVec 7} {ret : BnState}
    (h : Holds st c o rf m t n) :
    Holds .cGo (n.compose kind d a b ret).ctl o rf m t (n.compose kind d a b ret) :=
  ⟨rfl, rfl, h.op, h.rf, h.m, h.t, h.still.pipe, h.still.rf, h.still.m, h.still.t⟩

/-- A multiplication of numbers in Montgomery form, from a register below the modulus. -/
theorem multiplies_form {d a b : BitVec 7} {ret : BnState} {α β : Nat} (hinv : Inverse o m)
    (hc : c.ckind = .mul ∧ c.cdst = d ∧ c.cs1 = a ∧ c.cs2 = b ∧ c.cret = ret)
    (ha : Represents o rf m a α) (hb : reg o rf b ≡ β * bound o [MOD modulus o m]) :
    Leads clock Busy (Holds .cGo c o rf m t) fun s => ∃ c rf' t, Holds ret c o rf' m t s ∧ Kept o rf d rf' ∧
      Represents o rf' m d (α * β) := by
  obtain ⟨hkind, rfl, rfl, rfl, rfl⟩ := hc
  have hb' : reg o rf c.cs2 < bound o := reg_lt _
  have hM : 0 < modulus o m := Nat.zero_lt_of_lt ha.1
  have hproduct : reg o rf c.cs1 * reg o rf c.cs2 < bound o * modulus o m := by
    rw [Nat.mul_comm]
    exact Nat.mul_lt_mul'' hb' ha.1
  apply (multiplies_modulus hkind hinv hproduct).imp (fun _ h => h)
  rintro s ⟨c', rf', t', hs, hkept, x, hx, hreg⟩
  refine ⟨c', rf', t', hs, hkept, ?_, ?_⟩
  · rw [hreg]
    exact Nat.mod_lt _ hM
  · rw [hreg]
    exact (Nat.mod_modEq _ _).trans (product_form hinv.coprime hx ha.2 hb)

/-! R^2. -/

/-- The register `tmp2` after some squarings of 2R. -/
def Squaring (o : BnOp) (rf : BitVec 11 → BitVec 16) (m : BitVec 6 → BitVec 16) (k : Nat) (s : BnEngine) : Prop :=
  ∃ c rf' t, Holds (if k = 10 then .r22 else .r21) c { o with cnt4 := BitVec.ofNat 4 k } rf' m t s ∧
    Kept o rf tmp2 rf' ∧ Represents o rf' m tmp2 (2 ^ 2 ^ k)

theorem Squaring.next (hinv : Inverse o m) {k : Nat} (hk : k < 10) :
    Leads clock Busy (Squaring o rf m k) (Squaring o rf m (k + 1)) := by
  rintro s ⟨c, rf', t, hs, hkept, hform⟩ i
  rw [if_neg (by omega)] at hs
  let o₁ : BnOp := { o with cnt4 := BitVec.ofNat 4 (k + 1) }
  let ret : BnState := if k + 1 = 10 then .r22 else .r21
  have hset : Leads clock Busy (Holds .r21 c { o with cnt4 := BitVec.ofNat 4 k } rf' m t) fun s => ∃ c,
      (c.ckind = .mul ∧ c.cdst = tmp2 ∧ c.cs1 = tmp2 ∧ c.cs2 = tmp2 ∧ c.cret = ret) ∧
      Holds .cGo c o₁ rf' m t s := by
    apply Leads.edge fun s h => h.busy (by decide)
    intro s x h
    obtain ⟨ht, -⟩ := h.tick (i := x) (by decide)
    have hret : (if BitVec.ofNat 4 k = 9 then BnState.r22 else BnState.r21) = ret := by
      have hiff : (BitVec.ofNat 4 k = 9) ↔ k + 1 = 10 := by
        constructor
        · intro heq
          have htoNat := congrArg BitVec.toNat heq
          rw [BitVec.toNat_ofNat, Nat.mod_eq_of_lt (by omega)] at htoNat
          have hnine : (9 : BitVec 4).toNat = 9 := rfl
          omega
        · intro heq
          obtain rfl : k = 9 := by omega
          rfl
      simp only [hiff, ret]
    simp only [clock, fsm, h.st, h.op]
    refine ⟨_, ⟨rfl, rfl, rfl, rfl, hret⟩, composes (ht.move ht.st ht.ctl ?_ rfl ⟨rfl, rfl⟩ ⟨rfl, rfl⟩ ⟨rfl, rfl⟩)⟩
    rw [ht.op]
    simp only [o₁, BitVec.ofNat_add]
    rfl
  suffices hlead : Leads clock Busy (Holds .r21 c { o with cnt4 := BitVec.ofNat 4 k } rf' m t)
      (Squaring o rf m (k + 1)) from hlead s hs i
  apply hset.trans
  rintro s ⟨c₁, hc, hs⟩ i
  obtain ⟨n, hn, c₂, rf'', t', hs', hkept', hform'⟩ :=
    multiplies_form (o := o₁) hinv hc hform hform.2 s hs i
  refine ⟨n, hn, c₂, rf'', t', hs', ?_, ?_⟩
  · intro r hr j hj
    exact (hkept' r hr j hj).trans (hkept r hr j hj)
  · have hpow : 2 ^ 2 ^ k * 2 ^ 2 ^ k = 2 ^ 2 ^ (k + 1) := by
      rw [← Nat.pow_add]
      congr 1
      omega
    rw [← hpow]
    exact hform'

/-- An operation has put a number into a register; of the others those that meet `P` are as they were. -/
def Computes (o : BnOp) (rf : BitVec 11 → BitVec 16) (m : BitVec 6 → BitVec 16) (P : Nat → Prop)
    (d : BitVec 7) (v : Nat → Prop) (s : BnEngine) : Prop :=
  ∃ o' rf', Idle o' rf' m s ∧ (o'.emode = o.emode ∧ o'.nprime = o.nprime) ∧ Same o P rf rf' ∧ v (reg o rf' d)

/-- The last subtraction of an operation in several parts. -/
theorem lasts {d b : BitVec 7} {x : Nat} {q : Request} {P : Nat → Prop}
    (hc : c.ckind = .csub ∧ c.cdst = d ∧ c.cs1 = b ∧ c.cret = ending q) (hsame : Same o P rf rf')
    (hb : Represents o rf' m b x) (hd : ∀ j, P j → j ≠ regIndex o d) :
    Leads clock Busy (Holds .cGo c o rf' m t) fun s => answered s q = true ∧
      Computes o rf m P d (fun y => y < modulus o m ∧ y ≡ x * bound o [MOD modulus o m]) s := by
  obtain ⟨hkind, rfl, rfl, hret⟩ := hc
  have hlt := hb.1
  have hcsub := copies_modulus (m := m) (t := t) hkind (Nat.lt_of_lt_of_le hlt (by omega))
  rw [hret] at hcsub
  have hvalue : ∀ y, y = reg o rf' c.cs1 → y % modulus o m < modulus o m ∧
      y % modulus o m ≡ x * bound o [MOD modulus o m] := by
    rintro y rfl
    exact ⟨Nat.mod_lt _ (Nat.zero_lt_of_lt hlt), (Nat.mod_modEq _ _).trans hb.2⟩
  apply (hcsub.trans (Settled.ends (q := q) (w := fun y => y < modulus o m ∧
    y ≡ x * bound o [MOD modulus o m]) hvalue)).imp (fun _ h => h)
  rintro s ⟨hanswer, rf'', hidle, hkept, hv⟩
  exact ⟨hanswer, o, rf'', hidle, ⟨rfl, rfl⟩, hsame.kept hkept hd, hv⟩

/-- R^2 is worked out. -/
theorem r2_completes {i : Nat → BnIn} {r : BitVec 6} (h : Holds .idle c o rf m t s)
    (hx : Asked (i 0) (.rsa (.r2 r))) (hinv : Inverse o m)
    (hmax : bound (setting o (.rsa (.r2 r))) < 2 * modulus (setting o (.rsa (.r2 r))) m)
    (honem : reg (setting o (.rsa (.r2 r))) (operands s (i 0)) onem
      = bound (setting o (.rsa (.r2 r))) - modulus (setting o (.rsa (.r2 r))) m) :
    Completes s i (.rsa (.r2 r)) (Computes (setting o (.rsa (.r2 r))) (operands s (i 0)) m
      (fun j => j ≠ 19 ∧ j ≠ regIndex (setting o (.rsa (.r2 r))) (user r)) (user r) fun x =>
        x < modulus (setting o (.rsa (.r2 r))) m ∧
        x ≡ bound (setting o (.rsa (.r2 r))) * bound (setting o (.rsa (.r2 r)))
          [MOD modulus (setting o (.rsa (.r2 r))) m]) := by
  let o₁ : BnOp := { setting o (.rsa (.r2 r)) with oA := r.setWidth 5 }
  let o₀ : BnOp := { o₁ with cnt4 := 0 }
  let rf₁ := operands s (i 0)
  have hM : modulus o₁ m < bound o₁ := modulus_lt
  have hmax' : bound o₁ < 2 * modulus o₁ m := hmax
  have honem' : reg o₁ rf₁ onem = bound o₁ - modulus o₁ m := honem
  have hbegun : ∃ c₁, (c₁.ckind = .addm ∧ c₁.cdst = tmp2 ∧ c₁.cs1 = onem ∧ c₁.cs2 = onem ∧ c₁.cret = .r21) ∧
      Holds .cGo c₁ o₀ rf₁ m t (s.clock (i 0)) := by
    have ht := h.tickIdle (x := i 0)
    obtain ⟨hecc, hrsa⟩ := hx
    simp only [clock, fsm, h.st, start, hecc, hrsa, startRsa]
    refine ⟨_, ⟨rfl, rfl, rfl, rfl, rfl⟩,
      composes (ht.move ht.st ht.ctl ?_ rfl ⟨rfl, rfl⟩ ⟨rfl, rfl⟩ ⟨rfl, rfl⟩)⟩
    rw [ht.op]
    rfl
  obtain ⟨c₁, ⟨hkind, hdst, hs1, hs2, hret⟩, hbegun⟩ := hbegun
  apply completes hbegun
  have hsmall : reg o₀ rf₁ c₁.cs1 + reg o₀ rf₁ c₁.cs2 < 2 * modulus o₀ m := by
    rw [hs1, hs2]
    have honem₀ : reg o₀ rf₁ onem = bound o₁ - modulus o₁ m := honem'
    have hM₀ : modulus o₀ m = modulus o₁ m := rfl
    rw [honem₀, hM₀]
    omega
  have hdouble : Leads clock Busy (Holds .cGo c₁ o₀ rf₁ m t) (Squaring o₁ rf₁ m 0) := by
    apply (adds_modulus hkind hsmall).imp (fun _ h => h)
    rintro s ⟨c', rf', t', hs, hkept, x, hx, hreg⟩
    rw [hdst] at hkept hreg
    rw [hret] at hs
    have hreg₁ : reg o₁ rf' tmp2 = x % modulus o₁ m := hreg
    refine ⟨c', rf', t', hs, hkept, ?_, ?_⟩
    · rw [hreg₁]
      exact Nat.mod_lt _ (by omega)
    · have hsum : x + 2 * modulus o₁ m = 2 ^ 2 ^ 0 * bound o₁ := by
        rw [hx, hs1, hs2]
        have honem₀ : reg o₀ rf₁ onem = bound o₁ - modulus o₁ m := honem'
        rw [honem₀]
        omega
      have hself : x ≡ x + 2 * modulus o₁ m [MOD modulus o₁ m] := by
        rw [Nat.ModEq, Nat.add_mul_mod_self_right]
      rw [hreg₁, ← hsum]
      exact (Nat.mod_modEq _ _).trans hself
  have hinv₁ : Inverse o₁ m := hinv.setting (.rsa (.r2 r))
  have hsquare : Leads clock Busy (Squaring o₁ rf₁ m 0) (Squaring o₁ rf₁ m 10) :=
    Leads.loop fun k hk => Squaring.next hinv₁ hk
  apply hdouble.trans (hsquare.trans ?_)
  rintro s ⟨c', rf', t', hs, hkept, hform⟩ j
  rw [if_pos rfl] at hs
  let o₂ : BnOp := { o₁ with cnt4 := BitVec.ofNat 4 10 }
  have hset : Leads clock Busy (Holds .r22 c' o₂ rf' m t') fun s => ∃ c,
      (c.ckind = .csub ∧ c.cdst = user r ∧ c.cs1 = tmp2 ∧ c.cret = ending (.rsa (.r2 r))) ∧
      Holds .cGo c o₂ rf' m t' s := by
    apply Leads.edge fun s h => h.busy (by decide)
    intro s x h
    obtain ⟨ht, -⟩ := h.tick (i := x) (by decide)
    simp only [clock, fsm, h.st, h.op]
    exact ⟨_, ⟨rfl, rfl, rfl, rfl⟩, composes ht⟩
  have hsame : Same o₂ (fun j => j ≠ 19 ∧ j ≠ regIndex o₂ (user r)) rf₁ rf' := by
    intro r' hr' k hk
    exact hkept r' hr'.1 k hk
  have hsquared : 2 ^ 2 ^ 10 = bound o₁ := (bound_rsa rfl).symm
  suffices hlead : Leads clock Busy (Holds .r22 c' o₂ rf' m t') fun s => answered s (.rsa (.r2 r)) = true ∧
      Computes o₂ rf₁ m (fun j => j ≠ 19 ∧ j ≠ regIndex o₂ (user r)) (user r)
        (fun y => y < modulus o₂ m ∧ y ≡ bound o₁ * bound o₂ [MOD modulus o₂ m]) s from hlead s hs j
  apply hset.trans
  rintro s ⟨c'', hc, hs⟩ j
  rw [← hsquared]
  exact lasts hc hsame hform (fun j hj => hj.2) s hs j

/-! The exponentiation. -/

/-- The low bits of a number are those of the number. -/
theorem bit_mod (e : Nat) {j k : Nat} (h : j < k) : e % 2 ^ k / 2 ^ j % 2 = e / 2 ^ j % 2 := by
  have hsplit : 2 ^ k = 2 ^ j * 2 * 2 ^ (k - j - 1) := by
    rw [← Nat.pow_succ, ← Nat.pow_add]
    congr 1
    omega
  rw [← Nat.mod_mul_right_div_self, ← Nat.mod_mul_right_div_self (n := 2 ^ j) e,
    Nat.mod_mod_of_dvd _ (Dvd.intro _ hsplit.symm)]

/-- A bit of a register. -/
theorem reg_bit {r : BitVec 7} {j : Nat} (hj : j < 16 * words o) :
    reg o rf r / 2 ^ j % 2 = regWord o rf r (j / 16) / 2 ^ (j % 16) % 2 := by
  have hword := value_div_mod (β := radix) (w := regWord o rf r) (n := words o) (k := j / 16)
    (fun i _ => regWord_lt r i) (by omega)
  have hpow : 2 ^ j = radix ^ (j / 16) * 2 ^ (j % 16) := by
    rw [radix, ← Nat.pow_mul, ← Nat.pow_add, Nat.div_add_mod]
  have hlow := bit_mod (reg o rf r / radix ^ (j / 16)) (Nat.mod_lt j (by decide : 0 < 16))
  rw [hpow, ← Nat.div_div_eq_div_mul, ← hlow, ← radix, reg, hword]

/-- The part of an exponent above a bit, with that bit. -/
theorem exponent_bit (e j : Nat) : e / 2 ^ j = e / 2 ^ (j + 1) + e / 2 ^ (j + 1) + e / 2 ^ j % 2 := by
  have hdiv : e / 2 ^ (j + 1) = e / 2 ^ j / 2 := by rw [Nat.pow_succ, Nat.div_div_eq_div_mul]
  rw [hdiv]
  omega

/-- What the exponentiation works with: the base, the exponent, and the number of its top bit. -/
structure Power where
  base : Nat
  exponent : Nat
  top : Nat

theorem regIndex_acc : regIndex o acc = 17 := by
  unfold regIndex
  split <;> rfl

theorem regIndex_tmp : regIndex o tmp = 18 := by
  unfold regIndex
  split <;> rfl

/-- The registers an exponentiation leaves alone. -/
def Spared (j : Nat) : Prop := j ≠ 17 ∧ j ≠ 18

/-- The exponentiation before, or after, it has looked at a bit: `n` bits are done. -/
def Scan (st : BnState) (o : BnOp) (rf : BitVec 11 → BitVec 16) (m : BitVec 6 → BitVec 16) (p : Power)
    (j n : Nat) (s : BnEngine) : Prop :=
  ∃ c rf' t b, Holds st c { o with
      bitc := BitVec.ofNat 10 j
      ebit := b } rf' m t s ∧
    Same o Spared rf rf' ∧ Represents o rf' m acc (p.base ^ (p.exponent / 2 ^ (p.top + 1 - n)))

/-- The bit is read, and the accumulator squared. -/
theorem Scan.squares {p : Power} {n : Nat} (hinv : Inverse o m) (hmode : o.emode = false) (hn : n ≤ p.top)
    (htop : p.top < 1024) (hc : Spared (regIndex o (o.oC.setWidth 7)))
    (hbit : ∀ j ≤ p.top, reg o rf (o.oC.setWidth 7) / 2 ^ j % 2 = p.exponent / 2 ^ j % 2) :
    Leads clock Busy (Scan .ex0 o rf m p (p.top - n) n) fun s => ∃ c rf' t, Holds .ex3 c { o with
        bitc := BitVec.ofNat 10 (p.top - n)
        ebit := decide (p.exponent / 2 ^ (p.top - n) % 2 = 1) } rf' m t s ∧
      Same o Spared rf rf' ∧ Represents o rf' m acc
        (p.base ^ (p.exponent / 2 ^ (p.top + 1 - n)) * p.base ^ (p.exponent / 2 ^ (p.top + 1 - n))) := by
  rintro s ⟨c, rf', t, b, hs, hsame, hform⟩ i
  let j : Nat := p.top - n
  let o₁ : BnOp := { o with
    bitc := BitVec.ofNat 10 j
    ebit := b }
  let o₂ : BnOp := { o with
    bitc := BitVec.ofNat 10 j
    ebit := decide (p.exponent / 2 ^ j % 2 = 1) }
  have hj : j ≤ p.top := Nat.sub_le _ _
  have haddress : o.oC ++ (BitVec.ofNat 10 j).extractLsb' 4 6
      = rfa o.emode (o.oC.setWidth 7) (BitVec.ofNat 6 (j / 16)) := by
    have hreg : (o.oC.setWidth 7).extractLsb' 0 5 = o.oC := by
      apply BitVec.eq_of_toNat_eq
      have hlt := o.oC.isLt
      simp only [BitVec.extractLsb'_toNat, BitVec.toNat_setWidth, Nat.shiftRight_zero]
      omega
    have hword : (BitVec.ofNat 10 j).extractLsb' 4 6 = BitVec.ofNat 6 (j / 16) := by
      apply BitVec.eq_of_toNat_eq
      simp only [BitVec.extractLsb'_toNat, BitVec.toNat_ofNat, Nat.shiftRight_eq_div_pow]
      omega
    rw [rfa, hmode, if_neg Bool.false_ne_true, hreg, hword]
  have hread : (rf' (rfa o.emode (o.oC.setWidth 7) (BitVec.ofNat 6 (j / 16)))).getLsbD
      ((BitVec.ofNat 10 j).extractLsb' 0 4).toNat = decide (p.exponent / 2 ^ j % 2 = 1) := by
    have hw : words o = 64 := by rw [words, hmode]; rfl
    have hplace : ((BitVec.ofNat 10 j).extractLsb' 0 4).toNat = j % 16 := by
      simp only [BitVec.extractLsb'_toNat, BitVec.toNat_ofNat, Nat.shiftRight_zero]
      omega
    have hkept := hsame (o.oC.setWidth 7) hc (j / 16) (by omega)
    rw [BitVec.getLsbD, hplace, Nat.testBit_eq_decide_div_mod_eq, ← regWord, hkept, ← reg_bit (by omega),
      hbit j hj]
  have h0 : Leads clock Busy (Holds .ex0 c o₁ rf' m t) fun s => Holds .ex1 c o₁ rf' m t s ∧
      s.rf.ra = rfa o.emode (o.oC.setWidth 7) (BitVec.ofNat 6 (j / 16)) := by
    apply Leads.edge fun s h => h.busy (by decide)
    intro s x h
    obtain ⟨ht, -⟩ := h.tick (i := x) (by decide)
    simp only [clock, fsm, h.st, h.op]
    exact ⟨ht.move rfl ht.ctl ht.op rfl ⟨rfl, rfl⟩ ⟨rfl, rfl⟩ ⟨rfl, rfl⟩, haddress⟩
  have h1 : Leads clock Busy (fun s => Holds .ex1 c o₁ rf' m t s ∧
      s.rf.ra = rfa o.emode (o.oC.setWidth 7) (BitVec.ofNat 6 (j / 16))) fun s =>
      Holds .ex2 c o₁ rf' m t s ∧ s.rf.rq = rf' (rfa o.emode (o.oC.setWidth 7) (BitVec.ofNat 6 (j / 16))) := by
    apply Leads.edge fun s h => h.1.busy (by decide)
    rintro s x ⟨h, hra⟩
    obtain ⟨ht, -, -, -, -, -, hrq, -⟩ := h.tick (i := x) (by decide)
    simp only [clock, fsm, h.st]
    exact ⟨ht.move rfl ht.ctl ht.op rfl ⟨rfl, rfl⟩ ⟨rfl, rfl⟩ ⟨rfl, rfl⟩, hrq.trans (congrArg rf' hra)⟩
  have h2 : Leads clock Busy (fun s => Holds .ex2 c o₁ rf' m t s ∧
      s.rf.rq = rf' (rfa o.emode (o.oC.setWidth 7) (BitVec.ofNat 6 (j / 16)))) fun s => ∃ c,
      (c.ckind = .mul ∧ c.cdst = acc ∧ c.cs1 = acc ∧ c.cs2 = acc ∧ c.cret = .ex3) ∧
      Holds .cGo c o₂ rf' m t s := by
    apply Leads.edge fun s h => h.1.busy (by decide)
    rintro s x ⟨h, hrq⟩
    obtain ⟨ht, -⟩ := h.tick (i := x) (by decide)
    simp only [clock, fsm, h.st, h.op]
    refine ⟨_, ⟨rfl, rfl, rfl, rfl, rfl⟩,
      composes (ht.move ht.st ht.ctl ?_ rfl ⟨rfl, rfl⟩ ⟨rfl, rfl⟩ ⟨rfl, rfl⟩)⟩
    rw [ht.op, hrq, hread]
  suffices hlead : Leads clock Busy (Holds .ex0 c o₁ rf' m t) fun s => ∃ c rf' t, Holds .ex3 c o₂ rf' m t s ∧
      Same o Spared rf rf' ∧ Represents o rf' m acc (p.base ^ (p.exponent / 2 ^ (p.top + 1 - n))
        * p.base ^ (p.exponent / 2 ^ (p.top + 1 - n))) from hlead s hs i
  apply h0.trans (h1.trans (h2.trans ?_))
  rintro s ⟨c', hc', hs⟩ i
  obtain ⟨k, hk, c'', rf'', t', hs', hkept, hform'⟩ := multiplies_form (o := o₂) hinv hc' hform hform.2 s hs i
  exact ⟨k, hk, c'', rf'', t', hs', hsame.kept hkept fun j hj => by rw [regIndex_acc]; exact hj.1, hform'⟩

/-- The accumulator is multiplied by the base where the bit is set. -/
theorem Scan.multiplies {p : Power} {n : Nat} (hinv : Inverse o m) (hn : n ≤ p.top)
    (hb : Spared (regIndex o (o.oB.setWidth 7)))
    (hbase : reg o rf (o.oB.setWidth 7) ≡ p.base * bound o [MOD modulus o m]) :
    Leads clock Busy (fun s => ∃ c rf' t, Holds .ex3 c { o with
        bitc := BitVec.ofNat 10 (p.top - n)
        ebit := decide (p.exponent / 2 ^ (p.top - n) % 2 = 1) } rf' m t s ∧
      Same o Spared rf rf' ∧ Represents o rf' m acc
        (p.base ^ (p.exponent / 2 ^ (p.top + 1 - n)) * p.base ^ (p.exponent / 2 ^ (p.top + 1 - n))))
      (Scan .ex4 o rf m p (p.top - n) (n + 1)) := by
  rintro s ⟨c, rf', t, hs, hsame, hform⟩ i
  let j : Nat := p.top - n
  let bit : Bool := decide (p.exponent / 2 ^ j % 2 = 1)
  let o₁ : BnOp := { o with
    bitc := BitVec.ofNat 10 j
    ebit := bit }
  let dst : BitVec 7 := if bit then acc else tmp
  have hset : Leads clock Busy (Holds .ex3 c o₁ rf' m t) fun s => ∃ c,
      (c.ckind = .mul ∧ c.cdst = dst ∧ c.cs1 = acc ∧ c.cs2 = o.oB.setWidth 7 ∧ c.cret = .ex4) ∧
      Holds .cGo c o₁ rf' m t s := by
    apply Leads.edge fun s h => h.busy (by decide)
    intro s x h
    obtain ⟨ht, -⟩ := h.tick (i := x) (by decide)
    simp only [clock, fsm, h.st, h.op]
    exact ⟨_, ⟨rfl, rfl, rfl, rfl, rfl⟩, composes ht⟩
  suffices hlead : Leads clock Busy (Holds .ex3 c o₁ rf' m t) (Scan .ex4 o rf m p j (n + 1)) from hlead s hs i
  apply hset.trans
  rintro s ⟨c', hc', hs⟩ i
  have hbase' : reg o rf' (o.oB.setWidth 7) ≡ p.base * bound o [MOD modulus o m] := by
    rw [hsame.reg hb]
    exact hbase
  obtain ⟨k, hk, c'', rf'', t', hs', hkept, hform'⟩ := multiplies_form (o := o₁) hinv hc' hform hbase' s hs i
  have hkept' : Kept o rf' dst rf'' := hkept
  have hform'' : Represents o rf'' m dst (p.base ^ (p.exponent / 2 ^ (p.top + 1 - n))
      * p.base ^ (p.exponent / 2 ^ (p.top + 1 - n)) * p.base) := hform'
  have hdst : ∀ j, Spared j → j ≠ regIndex o dst := by
    intro j hj
    simp only [dst]
    split
    · rw [regIndex_acc]
      exact hj.1
    · rw [regIndex_tmp]
      exact hj.2
  refine ⟨k, hk, c'', rf'', t', bit, hs', hsame.kept hkept' hdst, ?_⟩
  have hsplit := exponent_bit p.exponent j
  have hj : p.top + 1 - n = j + 1 := Nat.sub_add_comm hn
  have hj' : p.top + 1 - (n + 1) = j := Nat.add_sub_add_right _ _ _
  rw [hj] at hform hform''
  rw [hj', hsplit, Nat.pow_add, Nat.pow_add]
  by_cases hbit : p.exponent / 2 ^ j % 2 = 1
  · have hdst' : dst = acc := if_pos (decide_eq_true hbit)
    rw [hdst'] at hform''
    rw [hbit, Nat.pow_one]
    exact hform''
  · -- The product is thrown away.
    have hzero : p.exponent / 2 ^ j % 2 = 0 := by omega
    have hdst' : dst = tmp := if_neg (by rw [show bit = false from decide_eq_false hbit]; decide)
    have hacc : reg o rf'' acc = reg o rf' acc := by
      apply hkept'.reg
      rw [hdst', regIndex_acc, regIndex_tmp]
      decide
    rw [hzero, Nat.pow_zero, Nat.mul_one]
    rw [Represents] at hform ⊢
    rw [hacc]
    exact hform

/-- The next bit. -/
theorem Scan.next {p : Power} {j n : Nat} (hj : 0 < j) (hj' : j < 1024) :
    Leads clock Busy (Scan .ex4 o rf m p j n) (Scan .ex0 o rf m p (j - 1) n) := by
  apply Leads.edge
  · rintro s ⟨c, rf', t, b, hs, -⟩
    exact hs.busy (by decide)
  rintro s x ⟨c, rf', t, b, h, hsame, hform⟩
  obtain ⟨ht, -⟩ := h.tick (i := x) (by decide)
  have hmore : ¬BitVec.ofNat 10 j = 0 := by
    intro heq
    have htoNat := congrArg BitVec.toNat heq
    rw [BitVec.toNat_ofNat, Nat.mod_eq_of_lt hj'] at htoNat
    have hzero : (0 : BitVec 10).toNat = 0 := rfl
    omega
  have hpred : BitVec.ofNat 10 j - 1 = BitVec.ofNat 10 (j - 1) := by
    obtain ⟨k, rfl⟩ := Nat.exists_eq_add_of_le' hj
    rw [BitVec.ofNat_add, Nat.add_sub_cancel]
    exact add_sub_cancel_right _ _
  refine ⟨c, rf', t, b, ?_, hsame, hform⟩
  simp only [clock, fsm, h.st, h.op, if_neg hmore]
  exact ht.move rfl ht.ctl (by rw [ht.op, hpred]) rfl ⟨rfl, rfl⟩ ⟨rfl, rfl⟩ ⟨rfl, rfl⟩

/-- The number of the top bit that an exponentiation looks at. -/
def topBit (d : BitVec 6) : Nat := if d ≠ 0 then 16 * d.toNat + 15 else 1023

theorem topBit_lt (d : BitVec 6) : topBit d < 1024 := by
  have hd := d.isLt
  unfold topBit
  split <;> omega

theorem topBit_eq (d : BitVec 6) : (if d ≠ 0 then d ++ 0xF#4 else 1023) = BitVec.ofNat 10 (topBit d) := by
  have hd := d.isLt
  unfold topBit
  split
  · apply BitVec.eq_of_toNat_eq
    rw [BitVec.toNat_append, Nat.shiftLeft_eq, Nat.mul_comm, ← Nat.two_pow_add_eq_or_of_lt (by decide)]
    simp only [BitVec.toNat_ofNat]
    omega
  · rfl

/-- The exponentiation of a number in Montgomery form, by the low bits of a register. -/
theorem exp_completes {i : Nat → BnIn} {a b e d : BitVec 6} {β : Nat} (h : Holds .idle c o rf m t s)
    (hx : Asked (i 0) (.rsa (.exp a b e d))) (hinv : Inverse o m)
    (hmax : bound (setting o (.rsa (.exp a b e d))) < 2 * modulus (setting o (.rsa (.exp a b e d))) m)
    (honem : reg (setting o (.rsa (.exp a b e d))) (operands s (i 0)) onem
      = bound (setting o (.rsa (.exp a b e d))) - modulus (setting o (.rsa (.exp a b e d))) m)
    (hb : Spared (regIndex (setting o (.rsa (.exp a b e d))) (user b)))
    (he : Spared (regIndex (setting o (.rsa (.exp a b e d))) (user e)))
    (hbase : reg (setting o (.rsa (.exp a b e d))) (operands s (i 0)) (user b)
      ≡ β * bound (setting o (.rsa (.exp a b e d))) [MOD modulus (setting o (.rsa (.exp a b e d))) m]) :
    Completes s i (.rsa (.exp a b e d)) (Computes (setting o (.rsa (.exp a b e d))) (operands s (i 0)) m
      (fun j => Spared j ∧ j ≠ regIndex (setting o (.rsa (.exp a b e d))) (user a)) (user a) fun x =>
        x < modulus (setting o (.rsa (.exp a b e d))) m ∧
        x ≡ β ^ (reg (setting o (.rsa (.exp a b e d))) (operands s (i 0)) (user e) % 2 ^ (topBit d + 1))
          * bound (setting o (.rsa (.exp a b e d))) [MOD modulus (setting o (.rsa (.exp a b e d))) m]) := by
  let o₁ : BnOp := { setting o (.rsa (.exp a b e d)) with
    oA := a.setWidth 5
    oB := b.setWidth 5
    oC := e.setWidth 5 }
  let o₀ : BnOp := { o₁ with bitc := BitVec.ofNat 10 (topBit d) }
  let rf₁ := operands s (i 0)
  let p : Power := ⟨β, reg o₁ rf₁ (user e) % 2 ^ (topBit d + 1), topBit d⟩
  have hM : modulus o₁ m < bound o₁ := modulus_lt
  have hmax' : bound o₁ < 2 * modulus o₁ m := hmax
  have honem' : reg o₁ rf₁ onem = bound o₁ - modulus o₁ m := honem
  have hinv₁ : Inverse o₁ m := hinv.setting (.rsa (.exp a b e d))
  have hbegun : ∃ c₁, (c₁.ckind = .csub ∧ c₁.cdst = acc ∧ c₁.cs1 = onem ∧ c₁.cret = .ex0) ∧
      Holds .cGo c₁ o₀ rf₁ m t (s.clock (i 0)) := by
    have ht := h.tickIdle (x := i 0)
    obtain ⟨hecc, hrsa⟩ := hx
    simp only [clock, fsm, h.st, start, hecc, hrsa, startRsa]
    refine ⟨_, ⟨rfl, rfl, rfl, rfl⟩,
      composes (ht.move ht.st ht.ctl ?_ rfl ⟨rfl, rfl⟩ ⟨rfl, rfl⟩ ⟨rfl, rfl⟩)⟩
    rw [ht.op, topBit_eq]
    rfl
  obtain ⟨c₁, ⟨hkind, hdst, hs1, hret⟩, hbegun⟩ := hbegun
  apply completes hbegun
  have hsmall : reg o₀ rf₁ c₁.cs1 < 2 * modulus o₀ m := by
    have honem₀ : reg o₀ rf₁ onem = bound o₁ - modulus o₁ m := honem'
    have hM₀ : modulus o₀ m = modulus o₁ m := rfl
    rw [hs1, honem₀, hM₀]
    omega
  have hone : Leads clock Busy (Holds .cGo c₁ o₀ rf₁ m t) (Scan .ex0 o₁ rf₁ m p (p.top - 0) 0) := by
    apply (copies_modulus hkind hsmall).imp (fun _ h => h)
    rintro s ⟨c', rf', t', hs, hkept, x, hx, hreg⟩
    rw [hdst] at hkept hreg
    rw [hret] at hs
    have hreg₁ : reg o₁ rf' acc = x % modulus o₁ m := hreg
    have hsame : Same o₁ Spared rf₁ rf' := (Same.refl Spared).kept hkept fun j hj => hj.1
    refine ⟨c', rf', t', o₁.ebit, hs, hsame, ?_, ?_⟩
    · rw [hreg₁]
      exact Nat.mod_lt _ (by omega)
    · have hnone : p.exponent / 2 ^ (p.top + 1 - 0) = 0 := Nat.div_eq_of_lt (Nat.mod_lt _ (Nat.two_pow_pos _))
      have hx' : x + modulus o₁ m = bound o₁ := by
        rw [hx, hs1]
        have honem₀ : reg o₀ rf₁ onem = bound o₁ - modulus o₁ m := honem'
        rw [honem₀]
        omega
      rw [hnone, Nat.pow_zero, Nat.one_mul, hreg₁, ← hx']
      exact (Nat.mod_modEq _ _).trans (Nat.add_modEq_right).symm
  have hround : ∀ n ≤ p.top, Leads clock Busy (Scan .ex0 o₁ rf₁ m p (p.top - n) n)
      (Scan .ex4 o₁ rf₁ m p (p.top - n) (n + 1)) := by
    intro n hn
    have hbits : ∀ j ≤ p.top, reg o₁ rf₁ (user e) / 2 ^ j % 2 = p.exponent / 2 ^ j % 2 := by
      intro j hj
      exact (bit_mod _ (Nat.lt_succ_of_le hj)).symm
    exact (Scan.squares hinv₁ rfl hn (topBit_lt d) he hbits).trans (Scan.multiplies hinv₁ hn hb hbase)
  have hloop : Leads clock Busy (Scan .ex0 o₁ rf₁ m p (p.top - 0) 0) (Scan .ex0 o₁ rf₁ m p (p.top - p.top) p.top) := by
    apply Leads.loop (I := fun n => Scan .ex0 o₁ rf₁ m p (p.top - n) n)
    intro n hn
    have htop := topBit_lt d
    have hnext : Leads clock Busy (Scan .ex4 o₁ rf₁ m p (p.top - n) (n + 1))
        (Scan .ex0 o₁ rf₁ m p (p.top - n - 1) (n + 1)) := Scan.next (Nat.sub_pos_of_lt hn) (Nat.lt_of_le_of_lt (Nat.sub_le _ _) htop)
    exact (hround n (Nat.le_of_lt hn)).trans hnext
  apply hone.trans (hloop.trans ((hround p.top (Nat.le_refl _)).trans ?_))
  rintro s ⟨c', rf', t', bit, hs, hsame, hform⟩ j
  rw [Nat.sub_self] at hs
  rw [Nat.sub_self, Nat.pow_zero, Nat.div_one] at hform
  let o₂ : BnOp := { o₁ with
    bitc := BitVec.ofNat 10 0
    ebit := bit }
  have hset : Leads clock Busy (Holds .ex4 c' o₂ rf' m t') fun s => ∃ c,
      (c.ckind = .csub ∧ c.cdst = user a ∧ c.cs1 = acc ∧ c.cret = ending (.rsa (.exp a b e d))) ∧
      Holds .cGo c o₂ rf' m t' s := by
    apply Leads.edge fun s h => h.busy (by decide)
    intro s x h
    obtain ⟨ht, -⟩ := h.tick (i := x) (by decide)
    have hzero : o₂.bitc = 0 := rfl
    simp only [clock, fsm, h.st, h.op, if_pos hzero]
    exact ⟨_, ⟨rfl, rfl, rfl, rfl⟩, composes ht⟩
  have hsame' : Same o₂ (fun j => Spared j ∧ j ≠ regIndex o₂ (user a)) rf₁ rf' := by
    intro r' hr' k hk
    exact hsame r' hr'.1 k hk
  suffices hlead : Leads clock Busy (Holds .ex4 c' o₂ rf' m t') fun s =>
      answered s (.rsa (.exp a b e d)) = true ∧ Computes o₂ rf₁ m
        (fun j => Spared j ∧ j ≠ regIndex o₂ (user a)) (user a)
        (fun y => y < modulus o₂ m ∧ y ≡ p.base ^ p.exponent * bound o₂ [MOD modulus o₂ m]) s from
    hlead s hs j
  apply hset.trans
  rintro s ⟨c'', hc, hs⟩ j
  exact lasts hc hsame' hform (fun j hj => hj.2) s hs j

/-! Operations one after another. -/

/-- Nothing is asked for, and nothing is written by the other port. -/
def Quiet (x : BnIn) : Prop := x.ecc = none ∧ x.rsa = none ∧ x.x.we = false

/-- A client asks for one operation after another, each when it likes, and the engine serves it: in the end `Q`
holds. -/
def Serves : List Request → (BnEngine → Prop) → BnEngine → Prop
  | [], Q, s => Q s
  | q :: qs, Q, s => ∀ (w : Nat) (i : Nat → BnIn), (∀ k < w, Quiet (i k)) → Asked (i w) q →
      (i w).x.we = false → Completes (after clock s i w) (fun k => i (w + k)) q (Serves qs Q)

theorem Completes.imp {i : Nat → BnIn} {q : Request} {Q Q' : BnEngine → Prop} (h : Completes s i q Q)
    (hQ : ∀ s, Q s → Q' s) : Completes s i q Q' := by
  obtain ⟨n, hn, hanswer, hq⟩ := h
  exact ⟨n, hn, hanswer, hQ _ hq⟩

theorem operands_quiet {x : BnIn} (h : Holds .idle c o rf m t s) (hx : x.x.we = false) : operands s x = rf := by
  rw [operands, BnEngine.tick, if_pos h.st, ← h.rf]
  exact if_neg (by rw [hx]; decide)

/-- The engine waits. -/
theorem Idle.waits {x : BnIn} (h : Idle o rf m s) (hx : Quiet x) : Idle o rf m (s.clock x) := by
  obtain ⟨c, t, h⟩ := h
  obtain ⟨hecc, hrsa, hwe⟩ := hx
  have ht := h.tickIdle (x := x)
  rw [operands_quiet h hwe] at ht
  refine ⟨c, t, ?_⟩
  simp only [clock, fsm, h.st, start, hecc, hrsa]
  exact ht

/-- The rule for a client: an operation is asked for in an idle state. -/
theorem Serves.cons {q : Request} {qs : List Request} {Q : BnEngine → Prop} (hs : Idle o rf m s)
    (h : ∀ s c t i, Holds .idle c o rf m t s → Asked (i 0) q → operands s (i 0) = rf →
      Completes s i q (Serves qs Q)) : Serves (q :: qs) Q s := by
  intro w i hquiet hasked hwe
  have hwait : ∀ k ≤ w, Idle o rf m (after clock s i k) := by
    intro k hk
    induction k with
    | zero => exact hs
    | succ k ih => exact (ih (Nat.le_of_succ_le hk)).waits (hquiet k hk)
  obtain ⟨c, t, hidle⟩ := hwait w (Nat.le_refl w)
  exact h _ c t (fun k => i (w + k)) hidle hasked (operands_quiet hidle hwe)

/-- The geometry of the operations on registers of 64 words. -/
def wide (o : BnOp) : BnOp := { o with emode := false }

/-- The register an operand names. -/
def name (r : BitVec 6) : Nat := r.toNat % 32

theorem regIndex_user (o : BnOp) (r : BitVec 6) : regIndex (wide o) (user r) = name r := by
  have hr := r.isLt
  rw [regIndex, wide, if_neg Bool.false_ne_true, user, name]
  simp only [BitVec.toNat_setWidth]
  omega

/-- The registers of a client are not in each other's way, nor in that of the engine's own. -/
structure Apart (r2 x b e one : BitVec 6) : Prop where
  own : ∀ r ∈ [r2, x, b, e, one], name r < 16
  base : name b ≠ name r2
  exponent : name e ≠ name r2 ∧ name e ≠ name x
  one : name one ≠ name r2 ∧ name one ≠ name x

/-- A client selects a modulus with its top bit set, has R^2 worked out, brings the base into Montgomery form,
raises it and takes the power out of it: that is the power of the base. -/
theorem exponentiates {p r2 x b e one : BitVec 6} (hs : Idle o rf m s) (hapart : Apart r2 x b e one)
    (hodd : reg (wide o) rf (user p) % 2 = 1) (htop : bound (wide o) ≤ 2 * reg (wide o) rf (user p))
    (hbase : reg (wide o) rf (user b) < reg (wide o) rf (user p)) (hone : reg (wide o) rf (user one) = 1) :
    Serves [.rsa (.msel p), .rsa (.r2 r2), .rsa (.mul x b r2), .rsa (.exp x x e 0), .rsa (.mul x x one)]
      (fun s' => ∃ o' rf' m', Idle o' rf' m' s' ∧ reg (wide o) rf' (user x)
        = reg (wide o) rf (user b) ^ reg (wide o) rf (user e) % reg (wide o) rf (user p)) s := by
  let M : Nat := reg (wide o) rf (user p)
  have hlt : ∀ r ∈ [r2, x, b, e, one], regIndex (wide o) (user r) < 16 := by
    intro r hr
    rw [regIndex_user]
    exact hapart.own r hr
  apply Serves.cons hs
  intro s c t i h hx hrf
  apply (select_completes h hx (by rw [hrf]; exact hodd)).imp
  rintro s ⟨o₁, rf₁, m₁, hidle₁, hmode₁, hmod₁, hinv₁, hkept₁, honem₁⟩
  rw [hrf] at hmod₁ hkept₁ honem₁
  have hmode : (wide o).emode = o₁.emode := hmode₁.symm
  have hM : modulus (wide o) m₁ = M := (modulus_congr hmode m₁).trans hmod₁
  have honem : reg (wide o) rf₁ onem = bound (wide o) - modulus (wide o) m₁ := by
    rw [reg_congr hmode, honem₁, bound_congr hmode, hM]
    rfl
  have hkept : Kept (wide o) rf onem rf₁ := hkept₁.congr hmode₁.symm
  have hmax : bound (wide o) < 2 * modulus (wide o) m₁ := by
    rw [hM]
    apply Nat.lt_of_le_of_ne htop
    -- An odd modulus is not half of R.
    intro heq
    have hR : bound (wide o) = 4 * 2 ^ 1022 := by
      have hsplit : 2 ^ 10 = 2 + 1022 := by decide
      rw [bound_rsa rfl, hsplit, Nat.pow_add]
    have hodd' : M % 2 = 1 := hodd
    omega
  have h16 : regIndex (wide o) onem = 16 := rfl
  have hclient : ∀ r ∈ [r2, x, b, e, one], regIndex (wide o) (user r) ≠ regIndex (wide o) onem := by
    intro r hr
    have hown := hlt r hr
    omega
  have hb₁ : reg (wide o) rf₁ (user b) = reg (wide o) rf (user b) := hkept.reg (hclient b (by simp))
  have he₁ : reg (wide o) rf₁ (user e) = reg (wide o) rf (user e) := hkept.reg (hclient e (by simp))
  have hone₁ : reg (wide o) rf₁ (user one) = 1 := (hkept.reg (hclient one (by simp))).trans hone
  clear hkept₁ honem₁ hmod₁
  -- R^2 is worked out.
  apply Serves.cons hidle₁
  intro s c t i h hx hrf
  apply (r2_completes h hx hinv₁ hmax (by rw [hrf]; exact honem)).imp
  rintro s ⟨o₂, rf₂, hidle₂, ⟨-, hnprime₂⟩, hsame₂, hr2⟩
  rw [hrf] at hsame₂
  have hinv₂ : Inverse o₂ m₁ := hinv₁.of_nprime hnprime₂
  have hsame : Same (wide o) (fun j => j ≠ 19 ∧ j ≠ regIndex (wide o) (user r2)) rf₁ rf₂ := hsame₂
  have hr2' : reg (wide o) rf₂ (user r2) ≡ bound (wide o) * bound (wide o) [MOD modulus (wide o) m₁] := hr2.2
  have hother : ∀ r ∈ [x, b, e, one], name r ≠ name r2 → reg (wide o) rf₂ (user r) = reg (wide o) rf₁ (user r) := by
    intro r hr hne
    apply hsame.reg
    have hown := hlt r (List.mem_cons_of_mem _ hr)
    refine ⟨by omega, ?_⟩
    rw [regIndex_user, regIndex_user]
    exact hne
  have hb₂ := (hother b (by simp) hapart.base).trans hb₁
  have he₂ := (hother e (by simp) hapart.exponent.1).trans he₁
  have hone₂ := (hother one (by simp) hapart.one.1).trans hone₁
  have honem₂ : reg (wide o) rf₂ onem = bound (wide o) - modulus (wide o) m₁ := by
    have hown := hlt r2 (by simp)
    rw [← honem]
    apply hsame.reg
    exact ⟨by omega, by omega⟩
  clear hb₁ he₁ hone₁ hother hsame hsame₂ hkept hclient
  have hwide : Inverse (wide o₁) m₁ := hinv₁.of_nprime rfl
  have hcoprime : Nat.gcd (modulus (wide o) m₁) (bound (wide o)) = 1 := hwide.coprime
  -- The base is brought into Montgomery form.
  apply Serves.cons hidle₂
  intro s c t i h hx hrf
  have hbase₂ : reg (wide o) rf₂ (user b) < modulus (wide o) m₁ := by
    rw [hb₂, hM]
    exact hbase
  apply (mul_completes h hx rfl hinv₂ (Or.inl (by rw [hrf]; exact hbase₂))).imp
  rintro s ⟨rf₃, hidle₃, hkept₃, -, hx₃⟩
  rw [hrf] at hkept₃ hx₃
  have hkept : Kept (wide o) rf₂ (user x) rf₃ := hkept₃
  have hform : reg (wide o) rf₃ (user x) ≡ reg (wide o) rf (user b) * bound (wide o) [MOD modulus (wide o) m₁] := by
    apply into_form hcoprime ?_ hr2'
    rw [← hb₂]
    exact hx₃
  have hother₃ : ∀ r, regIndex (wide o) r ≠ name x → reg (wide o) rf₃ r = reg (wide o) rf₂ r := by
    intro r hne
    apply hkept.reg
    rw [regIndex_user]
    exact hne
  have hname : ∀ r ∈ [r2, x, b, e, one], name r < 16 := hapart.own
  have hxown := hname x (by simp)
  have he₃ : reg (wide o) rf₃ (user e) = reg (wide o) rf (user e) :=
    (hother₃ _ (by rw [regIndex_user]; exact hapart.exponent.2)).trans he₂
  have hone₃ : reg (wide o) rf₃ (user one) = 1 :=
    (hother₃ _ (by rw [regIndex_user]; exact hapart.one.2)).trans hone₂
  have honem₃ : reg (wide o) rf₃ onem = bound (wide o) - modulus (wide o) m₁ :=
    (hother₃ _ (by omega)).trans honem₂
  -- The power.
  apply Serves.cons hidle₃
  intro s c t i h hx hrf
  have hspared : ∀ r ∈ [r2, x, b, e, one], Spared (regIndex (wide o) (user r)) := by
    intro r hr
    have hown := hlt r hr
    exact ⟨by omega, by omega⟩
  apply (exp_completes (β := reg (wide o) rf (user b)) h hx (hinv₂.setting _) hmax (by rw [hrf]; exact honem₃)
    (hspared x (by simp)) (hspared e (by simp)) (by rw [hrf]; exact hform)).imp
  rintro s ⟨o₄, rf₄, hidle₄, ⟨-, hnprime₄⟩, hsame₄, hx₄⟩
  rw [hrf] at hsame₄ hx₄
  have hsame : Same (wide o) (fun j => Spared j ∧ j ≠ regIndex (wide o) (user x)) rf₃ rf₄ := hsame₄
  have hone₄ : reg (wide o) rf₄ (user one) = 1 := by
    refine (hsame.reg ⟨hspared one (by simp), ?_⟩).trans hone₃
    rw [regIndex_user, regIndex_user]
    exact hapart.one.2
  have hexponent : reg (wide o) rf₃ (user e) % 2 ^ (topBit 0 + 1) = reg (wide o) rf (user e) := by
    have hlt : reg (wide o) rf (user e) < bound (wide o) := reg_lt _
    rw [bound_rsa rfl] at hlt
    rw [he₃]
    exact Nat.mod_eq_of_lt hlt
  have hpower : reg (wide o) rf₄ (user x) ≡ reg (wide o) rf (user b) ^ reg (wide o) rf (user e) * bound (wide o)
      [MOD modulus (wide o) m₁] := by
    rw [← hexponent]
    exact hx₄.2
  -- Out of Montgomery form.
  apply Serves.cons hidle₄
  intro s c t i h hx hrf
  have hinv₄ : Inverse o₄ m₁ := hinv₂.of_nprime hnprime₄
  apply (mul_completes h hx rfl hinv₄ (Or.inl (by rw [hrf]; exact hx₄.1))).imp
  rintro s ⟨rf₅, hidle₅, -, hlt₅, hx₅⟩
  rw [hrf] at hx₅
  refine ⟨_, rf₅, m₁, hidle₅, ?_⟩
  have hresult : reg (wide o) rf₅ (user x) ≡ reg (wide o) rf (user b) ^ reg (wide o) rf (user e)
      [MOD modulus (wide o) m₁] := by
    apply out_of_form hcoprime ?_ hpower
    rw [← hone₄]
    exact hx₅
  have hreduced : reg (wide o) rf₅ (user x) < modulus (wide o) m₁ := hlt₅
  rw [hM] at hresult hreduced
  exact (Nat.mod_eq_of_lt hreduced).symm.trans hresult

/-- The largest modulus, two, five and one in the registers 0 to 3. -/
def wideAtRest : BnEngine :=
  { atRest with rf.mem := fun a => if a < 64 then 0xFFFF else if a = 64 then 2 else if a = 128 then 5
      else if a = 192 then 1 else 0 }

theorem exponentiates_small :
    Serves [.rsa (.msel 0), .rsa (.r2 4), .rsa (.mul 5 1 4), .rsa (.exp 5 5 2 0), .rsa (.mul 5 5 3)]
      (fun s' => ∃ o' rf' m', Idle o' rf' m' s' ∧ reg (wide wideAtRest.op) rf' (user 5) = 2 ^ 5 % (2 ^ 1024 - 1))
      wideAtRest := by
  have hidle : Idle wideAtRest.op wideAtRest.rf.mem wideAtRest.m.mem wideAtRest :=
    ⟨wideAtRest.ctl, wideAtRest.t.mem, rfl, rfl, rfl, rfl, rfl, rfl, ⟨rfl, rfl, rfl, rfl, rfl, rfl, rfl⟩, rfl, rfl, rfl⟩
  have hp : reg (wide wideAtRest.op) wideAtRest.rf.mem (user 0) = 2 ^ 1024 - 1 := by decide +kernel
  have hb : reg (wide wideAtRest.op) wideAtRest.rf.mem (user 1) = 2 := by decide +kernel
  have he : reg (wide wideAtRest.op) wideAtRest.rf.mem (user 2) = 5 := by decide +kernel
  have hapart : Apart 4 5 1 2 3 := ⟨by decide, by decide, by decide, by decide⟩
  rw [← hp, ← hb, ← he]
  exact exponentiates hidle hapart (by rw [hp]; decide +kernel) (by decide +kernel)
    (by rw [hb, hp]; decide +kernel) (by decide +kernel)

end GoiKey.Rtl.BnEngine
