import GoiKey.Proofs.BnRows

/-!
The Montgomery multiplication: row after row, and the composites that end in a
subtraction of the modulus.
-/

namespace GoiKey.Rtl.BnEngine

open Clocked Limbs Montgomery

variable {c : BnCtl} {o : BnOp} {rf : BitVec 11 → BitVec 16} {m : BitVec 6 → BitVec 16}
variable {t : BitVec 8 → BitVec 16} {i : Nat}

/-! What a row comes to. -/

/-- The constant of the modulus makes its digits. -/
def Inverse (o : BnOp) (m : BitVec 6 → BitVec 16) : Prop := radix ∣ modulus o m * o.nprime.toNat + 1

theorem radix_pos : 0 < radix := by decide

theorem digit_toNat (t : BitVec 8 → BitVec 16) (b : BitVec 16) :
    (digit c o rf t b).toNat = (accum o t + reg o rf c.msa * b.toNat) * o.nprime.toNat % radix := by
  have haccum : accum o t % radix = (t 0).toNat % radix := value_mod _ (Nat.succ_pos _)
  have hreg : reg o rf c.msa % radix = (rf (rfa o.emode c.msa 0)).toNat % radix := value_mod _ (words_pos o)
  have hdigit : (digit c o rf t b).toNat
      = ((t 0).toNat + (rf (rfa o.emode c.msa 0)).toNat * b.toNat) % radix * o.nprime.toNat % radix := by
    rw [digit, BitVec.toNat_setWidth, product_toNat, BitVec.toNat_add, BitVec.toNat_setWidth, product_toNat,
      Nat.add_mod_mod]
    rfl
  rw [hdigit, Nat.mod_mul_mod]
  apply Nat.ModEq.mul_right
  exact Nat.ModEq.add haccum.symm (Nat.ModEq.mul_right _ hreg.symm)

/-- A row adds multiples of the operand and of the modulus and shifts. -/
theorem row_accum (hinv : Inverse o m) {b : BitVec 16} {t' : BitVec 8 → BitVec 16}
    (hbound : accum o t < reg o rf c.msa + modulus o m)
    (hout : ∀ k ≤ words o, accWord t' k = RowData.out ⟨c, o, rf, m, t, b, digit c o rf t b⟩ k) :
    accum o t' * radix = accum o t + reg o rf c.msa * b.toNat + modulus o m * (digit c o rf t b).toNat := by
  let r : RowData := ⟨c, o, rf, m, t, b, digit c o rf t b⟩
  have htotal : value radix (fun i => accWord t i + r.a i * b.toNat + r.n i * r.q.toNat) (words o + 1)
      = accum o t + reg o rf c.msa * b.toNat + modulus o m * r.q.toNat := by
    have hsum := value_add (β := radix) (fun i => accWord t i + r.a i * b.toNat) (fun i => r.n i * r.q.toNat)
      (words o + 1)
    have hsum' := value_add (β := radix) (accWord t) (fun i => r.a i * b.toNat) (words o + 1)
    have ha : value radix r.a (words o + 1) = reg o rf c.msa := by
      rw [value_succ, RowData.a, if_neg (Nat.lt_irrefl _), Nat.zero_mul, Nat.add_zero]
      exact value_congr fun i hi => if_pos hi
    have hn : value radix r.n (words o + 1) = modulus o m := by
      rw [value_succ, RowData.n, if_neg (Nat.lt_irrefl _), Nat.zero_mul, Nat.add_zero]
      exact value_congr fun i hi => if_pos hi
    rw [hsum, hsum', value_mul, value_mul, ha, hn, accum]
  have hdvd : radix ∣ value radix (fun i => accWord t i + r.a i * b.toNat + r.n i * r.q.toNat) (words o + 1) := by
    have hq : r.q.toNat = (accum o t + reg o rf c.msa * b.toNat) * o.nprime.toNat % radix := digit_toNat t b
    rw [htotal, hq]
    exact digit_vanishes hinv
  have hshift := row_shift (words o) hdvd
  rw [htotal] at hshift
  have hlow : value radix (accWord t') (words o)
      = value radix (fun i => sum₂ radix (accWord t) r.a r.n b.toNat r.q.toNat (i + 1) % radix) (words o) := by
    apply value_congr
    intro k hk
    rw [hout k (Nat.le_of_lt hk), RowData.out, if_neg (Nat.ne_of_lt hk)]
    rfl
  have hfit := row_bound radix_pos hshift hbound b.isLt r.q.isLt
  -- The carries are a bit: the accumulator has room for them.
  have hcarry : r.c1 (words o + 1) + r.c2 (words o + 1) < radix := by
    have hA : reg o rf c.msa < bound o := reg_lt _
    have hM : modulus o m < bound o := modulus_lt
    have hle : (r.c1 (words o + 1) + r.c2 (words o + 1)) * bound o < 2 * bound o := by
      calc (r.c1 (words o + 1) + r.c2 (words o + 1)) * bound o
          ≤ value radix (fun i => sum₂ radix (accWord t) r.a r.n b.toNat r.q.toNat (i + 1) % radix) (words o)
            + (r.c1 (words o + 1) + r.c2 (words o + 1)) * bound o := Nat.le_add_left _ _
        _ < reg o rf c.msa + modulus o m := hfit
        _ < 2 * bound o := by omega
    have htwo : r.c1 (words o + 1) + r.c2 (words o + 1) < 2 := Nat.lt_of_mul_lt_mul_right hle
    have hradix : 2 < radix := by decide
    omega
  have htop : accWord t' (words o) = r.c1 (words o + 1) + r.c2 (words o + 1) := by
    rw [hout _ (Nat.le_refl _), RowData.out, if_pos rfl]
    exact Nat.mod_eq_of_lt hcarry
  rw [← hshift, accum, value_succ, hlow, htop]
  rfl

/-! The accumulator is cleared. -/

structure Clearing (c : BnCtl) (o : BnOp) (rf : BitVec 11 → BitVec 16) (m : BitVec 6 → BitVec 16) (k : Nat)
    (s : BnEngine) : Prop where
  st : s.st = .mZ
  ctl : s.ctl = c
  op : s.op = o
  rf : s.rf.mem = rf
  m : s.m.mem = m
  rfWe : s.rf.we = false
  mWe : s.m.we = false
  pipe : Empty s.pipe
  mi : s.mul.mi = BitVec.ofNat 7 0
  mz : s.mul.mz = BitVec.ofNat 8 k
  cleared : ∀ i < k, accWord s.t.written i = 0

/-- A word is cleared; the memories otherwise stay. -/
theorem Clearing.clears {k : Nat} {s : BnEngine} {x : BnIn} (h : Clearing c o rf m k s) (hk : k < 256) :
    ((s.tick x).rf.mem = rf ∧ (s.tick x).rf.we = false) ∧ ((s.tick x).m.mem = m ∧ (s.tick x).m.we = false) ∧
      Empty (s.tick x).pipe ∧
      ∀ i < k + 1, accWord ((s.tick x).t.write (BitVec.ofNat 8 k) 0).written i = 0 := by
  have hbusy : s.st ≠ .idle := by
    rw [h.st]
    decide
  have hrf : (s.tick x).rf = s.rf.clock := by rw [BnEngine.tick, if_neg hbusy]
  have ht : (s.tick x).t = s.t.clock := by rw [BnEngine.tick, h.pipe.out]
  refine ⟨⟨?_, ?_⟩, ⟨?_, rfl⟩, h.pipe.clock _ _ _ _, fun i hi => ?_⟩
  · rw [hrf, ← h.rf]
    exact if_neg (by rw [h.rfWe]; decide)
  · rw [hrf]
    rfl
  · rw [← h.m]
    exact if_neg (by rw [h.mWe]; decide)
  · have hwritten : ((s.tick x).t.write (BitVec.ofNat 8 k) 0).written
        = Function.update s.t.written (BitVec.ofNat 8 k) 0 := by
      rw [ht]
      rfl
    rw [hwritten, accWord_update (by omega) hk]
    split
    next heq => rfl
    next hne => exact h.cleared i (by omega)

theorem Clearing.next {k : Nat} (hk : k < words o + 1) :
    Leads clock Busy (Clearing c o rf m k) (Clearing c o rf m (k + 1)) := by
  have hw := words_le o
  apply Leads.edge fun s h => by rw [Busy, h.st]; decide
  intro s x h
  obtain ⟨hrf, hm, hpipe, hcleared⟩ := h.clears (x := x) (by omega)
  have hmore : ¬BitVec.ofNat 8 k = s.tnw + 1 := by
    rw [tnw_eq h.op, topAddress_eq]
    intro heq
    have hsucc : BitVec.ofNat 8 (words o) + 1 = BitVec.ofNat 8 (words o + 1) := (BitVec.ofNat_add _ 1).symm
    have hinj := ofNat8_inj (by omega) (by omega) (heq.trans hsucc)
    omega
  simp only [clock, fsm, h.st, h.mz, if_neg hmore]
  exact ⟨rfl, h.ctl, h.op, hrf.1, hm.1, hrf.2, hm.2, hpipe, h.mi, (BitVec.ofNat_add k 1).symm, hcleared⟩

/-- An accumulator of zeros. -/
theorem accum_zero (h : ∀ i < words o + 2, accWord t i = 0) : accum o t = 0 := by
  have hzero : value radix (accWord t) (words o + 1) = value radix (fun _ => 0) (words o + 1) :=
    value_congr fun i hi => h i (by omega)
  rw [accum, hzero]
  exact value_of_zeros (n := 0) (fun _ _ => rfl) (Nat.zero_le _)

theorem clears : Leads clock Busy (Holds .mInit c o rf m t) fun s => ∃ t, accum o t = 0 ∧
    RowStart c o rf m t 0 s := by
  have hw := words_le o
  have hinit : Leads clock Busy (Holds .mInit c o rf m t) (Clearing c o rf m 0) := by
    apply Leads.edge fun s h => h.busy (by decide)
    intro s x h
    obtain ⟨ht, -⟩ := h.tick (i := x) (by decide)
    simp only [clock, fsm, h.st]
    exact ⟨rfl, ht.ctl, ht.op, ht.rf, ht.m, ht.still.rf, ht.still.m, ht.still.pipe, rfl, rfl,
      fun i hi => absurd hi (Nat.not_lt_zero i)⟩
  have hall : Leads clock Busy (Clearing c o rf m 0) (Clearing c o rf m (words o + 1)) :=
    Leads.loop fun k hk => Clearing.next hk
  apply hinit.trans (hall.trans ?_)
  apply Leads.edge fun s h => by rw [Busy, h.st]; decide
  intro s x h
  obtain ⟨hrf, hm, hpipe, hcleared⟩ := h.clears (x := x) (by omega)
  have hlast : BitVec.ofNat 8 (words o + 1) = s.tnw + 1 := by
    rw [tnw_eq h.op, topAddress_eq]
    exact BitVec.ofNat_add _ 1
  simp only [clock, fsm, h.st, h.mz, if_pos hlast]
  exact ⟨_, accum_zero hcleared, rfl, h.ctl, h.op, hrf.1, hm.1, rfl, hrf.2, hm.2, hpipe, h.mi⟩

/-! Row after row. -/

/-- Some rows are done. -/
def Rows (c : BnCtl) (o : BnOp) (rf : BitVec 11 → BitVec 16) (m : BitVec 6 → BitVec 16) (i : Nat)
    (s : BnEngine) : Prop :=
  ∃ t, Accumulated radix (reg o rf c.msa) (modulus o m) (regWord o rf c.msb) i (accum o t) ∧
    RowStart c o rf m t i s

/-- The last of some rows is done. -/
def RowsEnd (c : BnCtl) (o : BnOp) (rf : BitVec 11 → BitVec 16) (m : BitVec 6 → BitVec 16) (i : Nat)
    (s : BnEngine) : Prop :=
  ∃ t, Accumulated radix (reg o rf c.msa) (modulus o m) (regWord o rf c.msb) (i + 1) (accum o t) ∧
    RowEnd c o rf m t i s

theorem Rows.row (hinv : Inverse o m) : Leads clock Busy (Rows c o rf m i) (RowsEnd c o rf m i) := by
  rintro s ⟨t, hacc, hs⟩ x
  obtain ⟨n, hn, t', hout, hend⟩ := rows s hs x
  have hrow := row_accum hinv hacc.bound hout
  exact ⟨n, hn, t', hacc.row radix_pos (regWord_lt _ _) (BitVec.isLt _) hrow, hend⟩

theorem RowsEnd.next (hi : i < words o - 1) : Leads clock Busy (RowsEnd c o rf m i) (Rows c o rf m (i + 1)) := by
  have hw := words_le o
  apply Leads.edge
  · rintro s ⟨t, -, h⟩
    exact h.holds.busy (by decide)
  rintro s x ⟨t, hacc, h⟩
  obtain ⟨ht, -⟩ := h.holds.tick (i := x) (by decide)
  have hmore : ¬BitVec.ofNat 7 i = s.nlast.setWidth 7 := by
    rw [BnEngine.nlast, h.holds.op, ← lastWord, lastWord_eq]
    intro heq
    have hinj := ofNat7_inj (by omega) (by omega) heq
    omega
  refine ⟨t, hacc, ?_⟩
  simp only [clock, fsm, h.holds.st, h.mi, if_neg hmore]
  refine ⟨rfl, ht.ctl, ht.op, ht.rf, ht.m, ?_, ht.still.rf, ht.still.m, ht.still.pipe,
    (BitVec.ofNat_add i 1).symm⟩
  rw [BlockRam.written, ht.still.t, if_neg Bool.false_ne_true, ht.t]

theorem RowsEnd.last (hi : i = words o - 1) : Leads clock Busy (RowsEnd c o rf m i) fun s => ∃ t,
    Accumulated radix (reg o rf c.msa) (modulus o m) (regWord o rf c.msb) (words o) (accum o t) ∧
    Holds c.mret c o rf m t s := by
  have hpos := words_pos o
  apply Leads.edge
  · rintro s ⟨t, -, h⟩
    exact h.holds.busy (by decide)
  rintro s x ⟨t, hacc, h⟩
  obtain ⟨ht, -⟩ := h.holds.tick (i := x) (by decide)
  have hlast : BitVec.ofNat 7 i = s.nlast.setWidth 7 := by
    rw [BnEngine.nlast, h.holds.op, ← lastWord, lastWord_eq, hi]
  rw [hi, Nat.sub_add_cancel hpos] at hacc
  refine ⟨t, hacc, ?_⟩
  simp only [clock, fsm, h.holds.st, h.mi, if_pos hlast]
  exact ht.move (by rw [h.holds.ctl]) ht.ctl ht.op rfl ⟨rfl, rfl⟩ ⟨rfl, rfl⟩ ⟨rfl, rfl⟩

/-- The multiplication leaves the product over R, below two moduli. -/
theorem multiplies (hinv : Inverse o m)
    (hsmall : reg o rf c.msa * reg o rf c.msb < bound o * modulus o m) :
    Leads clock Busy (Holds .mInit c o rf m t) fun s => ∃ t, Holds c.mret c o rf m t s ∧
      accum o t < 2 * modulus o m ∧
      accum o t * bound o ≡ reg o rf c.msa * reg o rf c.msb [MOD modulus o m] := by
  have hpos := words_pos o
  have hM : 0 < modulus o m := by
    apply Nat.pos_of_ne_zero
    intro hzero
    rw [hzero, Nat.mul_zero] at hsmall
    exact absurd hsmall (Nat.not_lt_zero _)
  have hstart : Leads clock Busy (Holds .mInit c o rf m t) (Rows c o rf m 0) := by
    apply clears.imp (fun _ h => h)
    rintro s ⟨t, hzero, hs⟩
    refine ⟨t, ?_, hs⟩
    rw [hzero]
    exact Accumulated.zero (Nat.add_pos_right _ hM)
  have hall : Leads clock Busy (Rows c o rf m 0) (Rows c o rf m (words o - 1)) :=
    Leads.loop fun k hk => (Rows.row hinv).trans (RowsEnd.next hk)
  apply hstart.trans (hall.trans ((Rows.row hinv).trans ((RowsEnd.last rfl).imp (fun _ h => h) ?_)))
  rintro s ⟨t, hacc, hs⟩
  exact ⟨t, hs, hacc.product hsmall⟩

/-! The composites. -/

/-- The first part of a composite is done: a number below two moduli is in the accumulator. -/
structure Settling (d : BitVec 7) (ret : BnState) (o : BnOp) (rf : BitVec 11 → BitVec 16)
    (m : BitVec 6 → BitVec 16) (v : Nat → Prop) (s : BnEngine) : Prop where
  small : ∃ c t, Holds .cFge c o rf m t s ∧ (c.cdst = d ∧ c.cret = ret ∧ c.ptoff = 0) ∧
    accum o t < 2 * modulus o m ∧ v (accum o t)

/-- A composite is done. -/
def Settled (d : BitVec 7) (ret : BnState) (o : BnOp) (rf : BitVec 11 → BitVec 16) (m : BitVec 6 → BitVec 16)
    (v : Nat → Prop) (s : BnEngine) : Prop :=
  ∃ c rf' t, Holds ret c o rf' m t s ∧ Kept o rf d rf' ∧ ∃ x, v x ∧ reg o rf' d = x % modulus o m

/-- A number below two moduli is reduced by one subtraction at most. -/
theorem reduced_mod {x M : Nat} (h : x < 2 * M) : (if M ≤ x then x - M else x) = x % M := by
  split
  next hle =>
    rw [Nat.mod_eq_sub_mod hle]
    exact (Nat.mod_eq_of_lt (by omega)).symm
  next hlt => exact (Nat.mod_eq_of_lt (by omega)).symm

theorem settles {d : BitVec 7} {ret : BnState} {v : Nat → Prop} :
    Leads clock Busy (Settling d ret o rf m v) (Settled d ret o rf m v) := by
  rintro s ⟨c, t, hs, ⟨rfl, rfl, hoff⟩, hsmall, hv⟩ i
  have hM : modulus o m < bound o := modulus_lt
  let c₁ : BnCtl := { c with
    pm := .fge
    pret := .cFwr }
  let c₂ : BnCtl := { c with
    pm := .fwr
    pdst := c.cdst
    pret := c.cret }
  have hfge : Leads clock Busy (Holds .cFge c o rf m t) (Holds .eInit c₁ o rf m t) := by
    apply Leads.edge fun s h => h.busy (by decide)
    intro s x h
    obtain ⟨ht, -⟩ := h.tick (i := x) (by decide)
    simp only [clock, fsm, h.st]
    exact ht.move rfl (by rw [ht.ctl]) ht.op rfl ⟨rfl, rfl⟩ ⟨rfl, rfl⟩ ⟨rfl, rfl⟩
  have hfwr : Leads clock Busy
      (fun s => Holds .cFwr c₁ o rf m t s ∧ (s.word.ge = true ↔ modulus o m ≤ accum o t))
      (fun s => Holds .eInit c₂ o rf m t s ∧ (s.word.ge = true ↔ modulus o m ≤ accum o t)) := by
    apply Leads.edge fun s h => h.1.busy (by decide)
    rintro s x ⟨h, hge⟩
    obtain ⟨ht, hw, -⟩ := h.tick (i := x) (by decide)
    simp only [clock, fsm, h.st]
    exact ⟨ht.move rfl (by rw [ht.ctl, h.ctl]) ht.op rfl ⟨rfl, rfl⟩ ⟨rfl, rfl⟩ ⟨rfl, rfl⟩, by rw [hw]; exact hge⟩
  have hroom : accum o t < modulus o m + bound o := by omega
  obtain ⟨n, hn, rf', hdone, hkept, hreg⟩ := (hfge.trans ((compares (c := c₁) rfl hoff).trans (hfwr.trans (reduces (c := c₂) rfl hoff hroom)))) s hs i
  rw [reduced_mod hsmall] at hreg
  exact ⟨n, hn, c₂, rf', t, hdone, hkept, accum o t, hv, hreg⟩

/-- What `cGo` sets up. -/
theorem goes {c' : BnCtl} {st : BnState} (hgo : ∀ s n : BnEngine, s.ctl = c → n.ctl = c →
      s.cGo n = { n with
        st := st
        ctl := c' }) :
    Leads clock Busy (Holds .cGo c o rf m t) (Holds st c' o rf m t) := by
  apply Leads.edge fun s h => h.busy (by decide)
  intro s x h
  obtain ⟨ht, -⟩ := h.tick (i := x) (by decide)
  simp only [clock, fsm, h.st]
  rw [hgo s _ h.ctl ht.ctl]
  exact ht.move rfl rfl ht.op rfl ⟨rfl, rfl⟩ ⟨rfl, rfl⟩ ⟨rfl, rfl⟩

theorem multiplies_modulus (hk : c.ckind = .mul) (hinv : Inverse o m)
    (hsmall : reg o rf c.cs1 * reg o rf c.cs2 < bound o * modulus o m) :
    Leads clock Busy (Holds .cGo c o rf m t) (Settled c.cdst c.cret o rf m fun x =>
      x * bound o ≡ reg o rf c.cs1 * reg o rf c.cs2 [MOD modulus o m]) := by
  let c' : BnCtl := { c with
    psb := c.cs1
    psc := c.cs2
    ptoff := 0
    pdst := c.cdst
    msa := c.cs1
    msb := c.cs2
    mret := .cFge
    ckind := .mul }
  have hgo : Leads clock Busy (Holds .cGo c o rf m t) (Holds .mInit c' o rf m t) := by
    apply goes
    rintro s n hs rfl
    simp only [cGo, hs, hk]
    rfl
  apply hgo.trans (Leads.trans ?_ settles)
  apply (multiplies (c := c') hinv hsmall).imp (fun _ h => h)
  rintro s ⟨t', hs, hlt, hmod⟩
  exact ⟨c', t', hs, ⟨rfl, rfl, rfl⟩, hlt, hmod⟩

theorem adds_modulus (hk : c.ckind = .addm) (hsmall : reg o rf c.cs1 + reg o rf c.cs2 < 2 * modulus o m) :
    Leads clock Busy (Holds .cGo c o rf m t) (Settled c.cdst c.cret o rf m fun x =>
      x = reg o rf c.cs1 + reg o rf c.cs2) := by
  let c' : BnCtl := { c with
    psb := c.cs1
    psc := c.cs2
    ptoff := 0
    pdst := c.cdst
    pm := .add
    pret := .cFge
    ckind := .addm }
  have hgo : Leads clock Busy (Holds .cGo c o rf m t) (Holds .eInit c' o rf m t) := by
    apply goes
    rintro s n hs rfl
    simp only [cGo, hs, hk]
    rfl
  apply hgo.trans (Leads.trans ?_ settles)
  apply (adds (c := c') rfl).imp (fun _ h => h)
  rintro s ⟨t', hs, hsum⟩
  exact ⟨c', t', hs, ⟨rfl, rfl, rfl⟩, by rw [hsum]; exact hsmall, hsum⟩

theorem subtracts_modulus (hk : c.ckind = .subm) (hle : reg o rf c.cs2 ≤ reg o rf c.cs1 + modulus o m)
    (hsmall : reg o rf c.cs1 < reg o rf c.cs2 + modulus o m) :
    Leads clock Busy (Holds .cGo c o rf m t) (Settled c.cdst c.cret o rf m fun x =>
      x + reg o rf c.cs2 = reg o rf c.cs1 + modulus o m) := by
  let c' : BnCtl := { c with
    psb := c.cs1
    psc := c.cs2
    ptoff := 0
    pdst := c.cdst
    pm := .subm
    pret := .cFge
    ckind := .subm }
  have hgo : Leads clock Busy (Holds .cGo c o rf m t) (Holds .eInit c' o rf m t) := by
    apply goes
    rintro s n hs rfl
    simp only [cGo, hs, hk]
    rfl
  apply hgo.trans (Leads.trans ?_ settles)
  apply (subtracts (c := c') rfl hle).imp (fun _ h => h)
  rintro s ⟨t', hs, hdiff⟩
  have hdiff' : accum o t' + reg o rf c.cs2 = reg o rf c.cs1 + modulus o m := hdiff
  exact ⟨c', t', hs, ⟨rfl, rfl, rfl⟩, by omega, hdiff'⟩

theorem copies_modulus (hk : c.ckind = .csub) (hsmall : reg o rf c.cs1 < 2 * modulus o m) :
    Leads clock Busy (Holds .cGo c o rf m t) (Settled c.cdst c.cret o rf m fun x => x = reg o rf c.cs1) := by
  let c' : BnCtl := { c with
    psb := c.cs1
    psc := c.cs2
    ptoff := 0
    pdst := c.cdst
    pm := .copy
    pret := .cFge
    ckind := .csub }
  have hgo : Leads clock Busy (Holds .cGo c o rf m t) (Holds .eInit c' o rf m t) := by
    apply goes
    rintro s n hs rfl
    simp only [cGo, hs, hk]
    rfl
  apply hgo.trans (Leads.trans ?_ settles)
  apply (copies (c := c') rfl).imp (fun _ h => h)
  rintro s ⟨t', hs, hcopy⟩
  exact ⟨c', t', hs, ⟨rfl, rfl, rfl⟩, by rw [hcopy]; exact hsmall, hcopy⟩

end GoiKey.Rtl.BnEngine
