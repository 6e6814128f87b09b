import GoiKey.Lib.Montgomery
import GoiKey.Proofs.BnPasses

/-!
A row of the Montgomery multiplication: the digit, and the words through the pipeline.
-/

namespace GoiKey.Rtl.BnEngine

open Clocked Limbs Montgomery

/-! The digit of a row. -/

/-- A row may begin; the last write to the accumulator may still be on its way. -/
structure RowStart (c : BnCtl) (o : BnOp) (rf : BitVec 11 → BitVec 16) (m : BitVec 6 → BitVec 16)
    (t : BitVec 8 → BitVec 16) (i : Nat) (s : BnEngine) : Prop where
  st : s.st = .mR0
  ctl : s.ctl = c
  op : s.op = o
  rf : s.rf.mem = rf
  m : s.m.mem = m
  t : s.t.written = t
  rfWe : s.rf.we = false
  mWe : s.m.we = false
  pipe : Empty s.pipe
  mi : s.mul.mi = BitVec.ofNat 7 i

variable {c : BnCtl} {o : BnOp} {rf : BitVec 11 → BitVec 16} {m : BitVec 6 → BitVec 16}
variable {t : BitVec 8 → BitVec 16} {i : Nat}

/-- The word of the second operand a row multiplies by. -/
def rowWord (c : BnCtl) (o : BnOp) (rf : BitVec 11 → BitVec 16) (i : Nat) : BitVec 16 :=
  rf (rfa o.emode c.msb (BitVec.ofNat 6 i))

/-- The digit of a row: a multiple of the modulus clears the low word. -/
def digit (c : BnCtl) (o : BnOp) (rf : BitVec 11 → BitVec 16) (t : BitVec 8 → BitVec 16)
    (b : BitVec 16) : BitVec 16 :=
  ((t 0 + ((rf (rfa o.emode c.msa 0)).setWidth 32 * b.setWidth 32).setWidth 16).setWidth 32
    * o.nprime.setWidth 32).setWidth 16

/-- The words may go through the pipeline. -/
structure Ready (c : BnCtl) (o : BnOp) (rf : BitVec 11 → BitVec 16) (m : BitVec 6 → BitVec 16)
    (t : BitVec 8 → BitVec 16) (i : Nat) (b q : BitVec 16) (s : BnEngine) : Prop where
  holds : Holds .mS c o rf m t s
  mi : s.mul.mi = BitVec.ofNat 7 i
  count : s.mul.mk = 0
  bi : s.pipe.bi = b
  mreg : s.pipe.mreg = q
  c1 : s.pipe.c1 = 0
  c2 : s.pipe.c2 = 0

/-- The digit is worked out: `P` says which of its parts are there. -/
def Digits (st : BnState) (c : BnCtl) (o : BnOp) (rf : BitVec 11 → BitVec 16) (m : BitVec 6 → BitVec 16)
    (t : BitVec 8 → BitVec 16) (i : Nat) (P : BnEngine → Prop) (s : BnEngine) : Prop :=
  Holds st c o rf m t s ∧ s.mul.mi = BitVec.ofNat 7 i ∧ P s

theorem Digits.busy {st : BnState} {P : BnEngine → Prop} {s : BnEngine} (h : Digits st c o rf m t i P s)
    (hst : st ≠ .idle) : Busy s := h.1.busy hst

theorem digits : Leads clock Busy (RowStart c o rf m t i)
    (Ready c o rf m t i (rowWord c o rf i) (digit c o rf t (rowWord c o rf i))) := by
  have h0 : Leads clock Busy (RowStart c o rf m t i) (Digits .mR1 c o rf m t i fun s =>
      s.rf.ra = rfa o.emode c.msb (BitVec.ofNat 6 i)) := by
    apply Leads.edge fun s h => by rw [Busy, h.st]; decide
    intro s x h
    have hbusy : s.st ≠ .idle := by
      rw [h.st]
      decide
    have hrf : (s.tick x).rf.mem = rf := by
      rw [BnEngine.tick, if_neg hbusy, ← h.rf]
      exact if_neg (by rw [h.rfWe]; decide)
    have hm : (s.tick x).m.mem = m := by
      rw [← h.m]
      exact if_neg (by rw [h.mWe]; decide)
    have ht : (s.tick x).t = s.t.clock := by rw [BnEngine.tick, h.pipe.out]
    simp only [clock, fsm, h.st]
    refine ⟨⟨rfl, h.ctl, h.op, hrf, hm, ?_, ⟨h.pipe.clock _ _ _ _, ?_, rfl, ?_⟩⟩, h.mi, ?_⟩
    · rw [ht, ← h.t]
      rfl
    · rw [BlockRam.read, BnEngine.tick, if_neg hbusy]
      rfl
    · rw [ht]
      rfl
    · rw [BlockRam.read, h.op, h.ctl, h.mi, pj6]
  have h1 : Leads clock Busy (Digits .mR1 c o rf m t i fun s =>
      s.rf.ra = rfa o.emode c.msb (BitVec.ofNat 6 i)) (Digits .mR2 c o rf m t i fun s =>
      s.rf.rq = rowWord c o rf i) := by
    apply Leads.edge fun s h => h.busy (by decide)
    rintro s x ⟨h, hmi, hra⟩
    obtain ⟨ht, -, hmul, -, -, -, hrq, -⟩ := h.tick (i := x) (by decide)
    simp only [clock, fsm, h.st]
    exact ⟨ht.move rfl ht.ctl ht.op rfl ⟨rfl, rfl⟩ ⟨rfl, rfl⟩ ⟨rfl, rfl⟩, hmi, hrq.trans (congrArg rf hra)⟩
  have h2 : Leads clock Busy (Digits .mR2 c o rf m t i fun s =>
      s.rf.rq = rowWord c o rf i) (Digits .mR3 c o rf m t i fun s =>
      s.pipe.bi = rowWord c o rf i ∧ s.rf.ra = rfa o.emode c.msa 0 ∧ s.t.ra = 0) := by
    apply Leads.edge fun s h => h.busy (by decide)
    rintro s x ⟨h, hmi, hrq⟩
    obtain ⟨⟨-, hctl, hop, hrf, hm, ht, hstill⟩, -⟩ := h.tick (i := x) (by decide)
    obtain ⟨h1, h2, h3, h4, h5, h6, h7⟩ := hstill.pipe
    simp only [clock, fsm, h.st]
    refine ⟨⟨rfl, hctl, hop, hrf, hm, ht, ⟨⟨h1, h2, h3, h4, h5, h6, h7⟩, hstill.rf, hstill.m, hstill.t⟩⟩, hmi, hrq,
      ?_, rfl⟩
    rw [BlockRam.read, h.op, h.ctl]
  have h3 : Leads clock Busy (Digits .mR3 c o rf m t i fun s =>
      s.pipe.bi = rowWord c o rf i ∧ s.rf.ra = rfa o.emode c.msa 0 ∧ s.t.ra = 0)
      (Digits .mR4 c o rf m t i fun s => s.pipe.bi = rowWord c o rf i ∧
        s.rf.rq = rf (rfa o.emode c.msa 0) ∧ s.t.rq = t 0) := by
    apply Leads.edge fun s h => h.busy (by decide)
    rintro s x ⟨h, hmi, hbi, hra, hta⟩
    obtain ⟨ht, -, -, -, -, -, hrq, -, htq⟩ := h.tick (i := x) (by decide)
    simp only [clock, fsm, h.st]
    exact ⟨ht.move rfl ht.ctl ht.op rfl ⟨rfl, rfl⟩ ⟨rfl, rfl⟩ ⟨rfl, rfl⟩, hmi, hbi, hrq.trans (congrArg rf hra),
      htq.trans (congrArg t hta)⟩
  have h4 : Leads clock Busy (Digits .mR4 c o rf m t i fun s =>
      s.pipe.bi = rowWord c o rf i ∧ s.rf.rq = rf (rfa o.emode c.msa 0) ∧ s.t.rq = t 0)
      (Digits .mR5 c o rf m t i fun s => s.pipe.bi = rowWord c o rf i ∧
        s.mul.t0v = t 0 ∧ s.prod.m3a = rf (rfa o.emode c.msa 0) ∧
        s.prod.m3b = rowWord c o rf i) := by
    apply Leads.edge fun s h => h.busy (by decide)
    rintro s x ⟨h, hmi, hbi, hrq, htq⟩
    obtain ⟨ht, -⟩ := h.tick (i := x) (by decide)
    simp only [clock, fsm, h.st]
    exact ⟨ht.move rfl ht.ctl ht.op rfl ⟨rfl, rfl⟩ ⟨rfl, rfl⟩ ⟨rfl, rfl⟩, hmi, hbi, htq, hrq, hbi⟩
  have h5 : Leads clock Busy (Digits .mR5 c o rf m t i fun s =>
      s.pipe.bi = rowWord c o rf i ∧ s.mul.t0v = t 0 ∧
        s.prod.m3a = rf (rfa o.emode c.msa 0) ∧ s.prod.m3b = rowWord c o rf i)
      (Digits .mR6 c o rf m t i fun s => s.pipe.bi = rowWord c o rf i ∧
        s.mul.t0v = t 0 ∧ s.prod.m3p = (rf (rfa o.emode c.msa 0)).setWidth 32
          * (rowWord c o rf i).setWidth 32) := by
    apply Leads.edge fun s h => h.busy (by decide)
    rintro s x ⟨h, hmi, hbi, ht0, ha, hb⟩
    obtain ⟨ht, -⟩ := h.tick (i := x) (by decide)
    simp only [clock, fsm, h.st]
    refine ⟨ht.move rfl ht.ctl ht.op rfl ⟨rfl, rfl⟩ ⟨rfl, rfl⟩ ⟨rfl, rfl⟩, hmi, hbi, ht0, ?_⟩
    rw [← ha, ← hb]
    rfl
  have h6 : Leads clock Busy (Digits .mR6 c o rf m t i fun s =>
      s.pipe.bi = rowWord c o rf i ∧ s.mul.t0v = t 0 ∧
        s.prod.m3p = (rf (rfa o.emode c.msa 0)).setWidth 32
          * (rowWord c o rf i).setWidth 32)
      (Digits .mR7 c o rf m t i fun s => s.pipe.bi = rowWord c o rf i ∧
        s.prod.m3a = t 0 + ((rf (rfa o.emode c.msa 0)).setWidth 32
          * (rowWord c o rf i).setWidth 32).setWidth 16 ∧ s.prod.m3b = o.nprime) := by
    apply Leads.edge fun s h => h.busy (by decide)
    rintro s x ⟨h, hmi, hbi, ht0, hp⟩
    obtain ⟨ht, -⟩ := h.tick (i := x) (by decide)
    simp only [clock, fsm, h.st]
    refine ⟨ht.move rfl ht.ctl ht.op rfl ⟨rfl, rfl⟩ ⟨rfl, rfl⟩ ⟨rfl, rfl⟩, hmi, hbi, ?_, by rw [h.op]⟩
    rw [ht0, hp]
  have h7 : Leads clock Busy (Digits .mR7 c o rf m t i fun s =>
      s.pipe.bi = rowWord c o rf i ∧
        s.prod.m3a = t 0 + ((rf (rfa o.emode c.msa 0)).setWidth 32
          * (rowWord c o rf i).setWidth 32).setWidth 16 ∧ s.prod.m3b = o.nprime)
      (Digits .mR8 c o rf m t i fun s => s.pipe.bi = rowWord c o rf i ∧
        s.prod.m3p.setWidth 16 = digit c o rf t (rowWord c o rf i)) := by
    apply Leads.edge fun s h => h.busy (by decide)
    rintro s x ⟨h, hmi, hbi, ha, hb⟩
    obtain ⟨ht, -⟩ := h.tick (i := x) (by decide)
    simp only [clock, fsm, h.st]
    refine ⟨ht.move rfl ht.ctl ht.op rfl ⟨rfl, rfl⟩ ⟨rfl, rfl⟩ ⟨rfl, rfl⟩, hmi, hbi, ?_⟩
    rw [digit, ← ha, ← hb]
    rfl
  have h8 : Leads clock Busy (Digits .mR8 c o rf m t i fun s =>
      s.pipe.bi = rowWord c o rf i ∧
        s.prod.m3p.setWidth 16 = digit c o rf t (rowWord c o rf i))
      (Ready c o rf m t i (rowWord c o rf i) (digit c o rf t (rowWord c o rf i))) := by
    apply Leads.edge fun s h => h.busy (by decide)
    rintro s x ⟨h, hmi, hbi, hq⟩
    obtain ⟨⟨-, hctl, hop, hrf, hm, ht, hstill⟩, -⟩ := h.tick (i := x) (by decide)
    obtain ⟨h1, h2, h3, h4, h5, h6, h7⟩ := hstill.pipe
    simp only [clock, fsm, h.st]
    exact ⟨⟨rfl, hctl, hop, hrf, hm, ht, ⟨⟨h1, h2, h3, h4, h5, h6, h7⟩, hstill.rf, hstill.m, hstill.t⟩⟩,
      hmi, rfl, hbi, hq, rfl, rfl⟩
  exact h0.trans (h1.trans (h2.trans (h3.trans (h4.trans (h5.trans (h6.trans (h7.trans h8)))))))

/-! The words of a row. -/

/-- What a row works on. -/
structure RowData where
  ctl : BnCtl
  op : BnOp
  rf : BitVec 11 → BitVec 16
  m : BitVec 6 → BitVec 16
  t : BitVec 8 → BitVec 16
  b : BitVec 16
  q : BitVec 16

namespace RowData

variable (r : RowData)

/-- The operands, with a word of zeros above. -/
def a (k : Nat) : Nat := if k < words r.op then regWord r.op r.rf r.ctl.msa k else 0

def n (k : Nat) : Nat := if k < words r.op then modWordAt r.m k else 0

def c1 (k : Nat) : Nat := carry₁ radix (accWord r.t) r.a r.b.toNat k

def s2 (k : Nat) : Nat := sum₁ radix (accWord r.t) r.a r.b.toNat k

def c2 (k : Nat) : Nat := carry₂ radix (accWord r.t) r.a r.n r.b.toNat r.q.toNat k

def w3 (k : Nat) : Nat := sum₂ radix (accWord r.t) r.a r.n r.b.toNat r.q.toNat k

/-- The accumulator after the row. -/
def out (k : Nat) : Nat :=
  if k = words r.op then (r.c1 (words r.op + 1) + r.c2 (words r.op + 1)) % radix else r.w3 (k + 1) % radix

theorem a_lt (k : Nat) : r.a k < radix := by
  unfold a
  split
  · exact regWord_lt _ _
  · decide

theorem n_lt (k : Nat) : r.n k < radix := by
  unfold n
  split
  · exact modWordAt_lt _
  · decide

theorem c1_lt (k : Nat) : r.c1 k < radix ∧ r.s2 k < radix * radix :=
  sum₁_lt (fun i => accWord_lt i) r.a_lt r.b.isLt k

theorem c2_lt (k : Nat) : r.c2 k < radix ∧ r.w3 k < radix * radix := sum₂_lt r.n_lt r.q.isLt k

end RowData

/-- The pipeline and the memories, some clocks after the first word was sent for. -/
structure Back (r : RowData) (n : Nat) (p : BnPipe) (ram : BlockRam 11) (mram : BlockRam 6)
    (tram : BlockRam 8) : Prop where
  bi : p.bi = r.b
  mreg : p.mreg = r.q
  rf : ram.mem = r.rf ∧ ram.we = false
  m : mram.mem = r.m ∧ mram.we = false
  vq1 : p.vq1 = decide (2 ≤ n ∧ n ≤ words r.op + 2)
  fetched : ∀ k, n = k + 2 → k ≤ words r.op → p.jq1 = BitVec.ofNat 7 k ∧
    (k < words r.op → ram.rq.toNat = r.a k ∧ mram.rq.toNat = r.n k) ∧ tram.rq.toNat = accWord r.t k
  vq2 : p.vq2 = decide (3 ≤ n ∧ n ≤ words r.op + 3)
  v0 : p.v0 = decide (3 ≤ n ∧ n ≤ words r.op + 3)
  operands : ∀ k, n = k + 3 → k ≤ words r.op → p.j0 = BitVec.ofNat 7 k ∧ p.aq.toNat = r.a k ∧
    p.nq.toNat = r.n k ∧ p.tt0.toNat = accWord r.t k
  v1 : p.v1 = decide (4 ≤ n ∧ n ≤ words r.op + 4)
  products : ∀ k, n = k + 4 → k ≤ words r.op → p.j1 = BitVec.ofNat 7 k ∧
    p.pa.toNat = r.a k * r.b.toNat ∧ p.pn.toNat = r.n k * r.q.toNat ∧ p.tt.toNat = accWord r.t k
  c1 : n ≤ words r.op + 5 → p.c1.toNat = r.c1 (n - 4)
  v2 : p.v2 = decide (5 ≤ n ∧ n ≤ words r.op + 5)
  sums : ∀ k, n = k + 5 → k ≤ words r.op → p.j2 = BitVec.ofNat 7 k ∧ p.lq.toNat = r.s2 k % radix ∧
    p.pn2.toNat = r.n k * r.q.toNat
  c2 : n ≤ words r.op + 6 → p.c2.toNat = r.c2 (n - 5)
  t64p : p.t64p = decide (n = words r.op + 6)
  t64v : n = words r.op + 6 → p.t64v.toNat = r.out (words r.op)
  we : tram.we = decide (7 ≤ n ∧ n ≤ words r.op + 7)
  written : ∀ k, n = k + 7 → k ≤ words r.op → tram.wa = BitVec.ofNat 8 k ∧ tram.wd.toNat = r.out k
  t : ∀ k ≤ words r.op, accWord tram.mem k = if k + 8 ≤ n then r.out k else accWord r.t k

/-- A word is sent for. -/
structure Fetch (r : RowData) (n : Nat) (p : BnPipe) (ram : BlockRam 11) (mram : BlockRam 6)
    (tram : BlockRam 8) : Prop where
  vq0 : p.vq0 = decide (1 ≤ n ∧ n ≤ words r.op + 1)
  address : ∀ k, n = k + 1 → k ≤ words r.op → p.jq0 = BitVec.ofNat 7 k ∧
    ram.ra = rfa r.op.emode r.ctl.msa (BitVec.ofNat 6 k) ∧ mram.ra = BitVec.ofNat 6 k ∧ tram.ra = BitVec.ofNat 8 k

section Out

variable (p : BnPipe) (tnw : BitVec 8) (t : BlockRam 8)

@[simp] theorem out_mem : (p.out tnw t).mem = t.mem := by
  unfold BnPipe.out
  split <;> split <;> rfl

@[simp] theorem out_rq : (p.out tnw t).rq = t.rq := by
  unfold BnPipe.out
  split <;> split <;> rfl

end Out

theorem ofNat7_inj {i k : Nat} (hi : i < 128) (hk : k < 128) (h : BitVec.ofNat 7 i = BitVec.ofNat 7 k) :
    i = k := by
  have htoNat := congrArg BitVec.toNat h
  simp only [BitVec.toNat_ofNat] at htoNat
  omega

section Next

variable {r : RowData} {n : Nat} {p : BnPipe} {ram : BlockRam 11} {mram : BlockRam 6} {tram : BlockRam 8}

/-- The words that were sent for are there. -/
theorem Back.next_fetched (h : Back r n p ram mram tram) (hf : Fetch r n p ram mram tram) {k : Nat}
    (hn : n + 1 = k + 2) (hk : k ≤ words r.op) : p.jq0 = BitVec.ofNat 7 k ∧
      (k < words r.op → ram.clock.rq.toNat = r.a k ∧ mram.clock.rq.toNat = r.n k) ∧
      tram.clock.rq.toNat = accWord r.t k := by
  obtain ⟨hj, hra, hma, hta⟩ := hf.address k (by omega) hk
  refine ⟨hj, fun hlt => ⟨?_, ?_⟩, ?_⟩
  · rw [BlockRam.clock, hra, h.rf.1, RowData.a, if_pos hlt, regWord]
  · rw [BlockRam.clock, hma, h.m.1, RowData.n, if_pos hlt, modWordAt]
  · have hmem := h.t k hk
    rw [if_neg (by omega)] at hmem
    rw [BlockRam.clock, hta, ← hmem, accWord]

theorem ofNat7_words {k : Nat} (hk : k ≤ words r.op) :
    BitVec.ofNat 7 k = BitVec.ofNat 7 (words r.op) ↔ k = words r.op := by
  have hw := words_le r.op
  constructor
  · exact ofNat7_inj (by omega) (by omega)
  · rintro rfl
    rfl

/-- The words that came are taken, zeros in place of those above the top. -/
theorem Back.next_operands (h : Back r n p ram mram tram) {k : Nat} (hn : n + 1 = k + 3)
    (hk : k ≤ words r.op) (p' : BnPipe) (hp : p' = p.clock (BitVec.ofNat 7 (words r.op)) ram.rq mram.rq tram.rq) :
    p'.j0 = BitVec.ofNat 7 k ∧ p'.aq.toNat = r.a k ∧ p'.nq.toNat = r.n k ∧ p'.tt0.toNat = accWord r.t k := by
  obtain ⟨hj, hwords, ht⟩ := h.fetched k (by omega) hk
  have hvq1 : p.vq1 = true := by
    rw [h.vq1, decide_eq_true_iff]
    omega
  rw [hp]
  simp only [BnPipe.clock, hvq1, if_true, hj, ofNat7_words hk]
  refine ⟨trivial, ?_, ?_, ht⟩
  · split
    next htop => rw [RowData.a, if_neg (by omega)]; rfl
    next hlow => exact (hwords (by omega)).1
  · split
    next htop => rw [RowData.n, if_neg (by omega)]; rfl
    next hlow => exact (hwords (by omega)).2

/-- A product of words fits two words. -/
theorem product_toNat (x y : BitVec 16) : (x.setWidth 32 * y.setWidth 32).toNat = x.toNat * y.toNat := by
  have hx := x.isLt
  have hy := y.isLt
  have hlt : x.toNat * y.toNat < 2 ^ 16 * 2 ^ 16 := Nat.mul_lt_mul'' hx hy
  have hx' : x.toNat % 2 ^ 32 = x.toNat := Nat.mod_eq_of_lt (by omega)
  have hy' : y.toNat % 2 ^ 32 = y.toNat := Nat.mod_eq_of_lt (by omega)
  rw [BitVec.toNat_mul, BitVec.toNat_setWidth, BitVec.toNat_setWidth, hx', hy']
  exact Nat.mod_eq_of_lt hlt

theorem Back.next_products (h : Back r n p ram mram tram) {k : Nat} (hn : n + 1 = k + 4)
    (hk : k ≤ words r.op) (p' : BnPipe) (hp : p' = p.clock (BitVec.ofNat 7 (words r.op)) ram.rq mram.rq tram.rq) :
    p'.j1 = BitVec.ofNat 7 k ∧ p'.pa.toNat = r.a k * r.b.toNat ∧ p'.pn.toNat = r.n k * r.q.toNat ∧
      p'.tt.toNat = accWord r.t k := by
  obtain ⟨hj, ha, hn', ht⟩ := h.operands k (by omega) hk
  have hv0 : p.v0 = true := by
    rw [h.v0, decide_eq_true_iff]
    omega
  rw [hp]
  simp only [BnPipe.clock, hv0, if_true, product_toNat, h.bi, h.mreg]
  exact ⟨hj, by rw [ha], by rw [hn'], ht⟩

/-- The first sum of a word. -/
theorem Back.s2 (h : Back r n p ram mram tram) {k : Nat} (hn : n = k + 4) (hk : k ≤ words r.op) :
    p.s2.toNat = r.s2 k := by
  obtain ⟨-, hpa, -, ht⟩ := h.products k hn hk
  have hc1 := h.c1 (by omega)
  rw [hn, Nat.add_sub_cancel] at hc1
  have hlt := (r.c1_lt k).2
  have hsum : p.tt.toNat + p.pa.toNat + p.c1.toNat = r.s2 k := by
    rw [ht, hpa, hc1]
    rfl
  rw [radix] at hlt
  simp only [BnPipe.s2, BitVec.toNat_add, BitVec.toNat_setWidth]
  omega

theorem Back.w3 (h : Back r n p ram mram tram) {k : Nat} (hn : n = k + 5) (hk : k ≤ words r.op) :
    p.w3.toNat = r.w3 k := by
  obtain ⟨-, hlq, hpn⟩ := h.sums k hn hk
  have hc2 := h.c2 (by omega)
  rw [hn, Nat.add_sub_cancel] at hc2
  have hlt := (r.c2_lt k).2
  have hsum : p.lq.toNat + p.pn2.toNat + p.c2.toNat = r.w3 k := by
    rw [hlq, hpn, hc2]
    rfl
  rw [radix] at hlt
  simp only [BnPipe.w3, BitVec.toNat_add, BitVec.toNat_setWidth]
  omega

/-- The carry of the first chain goes on, the word goes to the second. -/
theorem Back.next_c1 (h : Back r n p ram mram tram) (hn : n + 1 ≤ words r.op + 5) (p' : BnPipe)
    (hp : p' = p.clock (BitVec.ofNat 7 (words r.op)) ram.rq mram.rq tram.rq) :
    p'.c1.toNat = r.c1 (n + 1 - 4) := by
  rw [hp]
  by_cases hlate : 4 ≤ n
  · obtain ⟨k, rfl⟩ := Nat.exists_eq_add_of_le' hlate
    have hv1 : p.v1 = true := by
      rw [h.v1, decide_eq_true_iff]
      omega
    have hs2 := h.s2 (k := k) rfl (by omega)
    simp only [BnPipe.clock, hv1, if_true]
    rw [BitVec.toNat_ushiftRight, hs2, Nat.shiftRight_eq_div_pow, Nat.add_right_comm, Nat.add_sub_cancel]
    rfl
  · have hv1 : p.v1 = false := by
      rw [h.v1, decide_eq_false_iff_not]
      omega
    have hc1 := h.c1 (by omega)
    rw [Nat.sub_eq_zero_of_le (by omega)] at hc1
    simp only [BnPipe.clock, hv1, Bool.false_eq_true, if_false]
    rw [hc1, Nat.sub_eq_zero_of_le (by omega)]

theorem Back.next_sums (h : Back r n p ram mram tram) {k : Nat} (hn : n + 1 = k + 5) (hk : k ≤ words r.op)
    (p' : BnPipe) (hp : p' = p.clock (BitVec.ofNat 7 (words r.op)) ram.rq mram.rq tram.rq) :
    p'.j2 = BitVec.ofNat 7 k ∧ p'.lq.toNat = r.s2 k % radix ∧ p'.pn2.toNat = r.n k * r.q.toNat := by
  have hn' : n = k + 4 := by omega
  obtain ⟨hj, -, hpn, -⟩ := h.products k hn' hk
  have hv1 : p.v1 = true := by
    rw [h.v1, decide_eq_true_iff]
    omega
  have hs2 := h.s2 hn' hk
  have hlt := p.pn.isLt
  rw [hp]
  simp only [BnPipe.clock, hv1, if_true, BitVec.toNat_setWidth, hs2]
  refine ⟨hj, rfl, ?_⟩
  rw [Nat.mod_eq_of_lt (by omega), hpn]

theorem Back.next_c2 (h : Back r n p ram mram tram) (hn : n + 1 ≤ words r.op + 6) (p' : BnPipe)
    (hp : p' = p.clock (BitVec.ofNat 7 (words r.op)) ram.rq mram.rq tram.rq) :
    p'.c2.toNat = r.c2 (n + 1 - 5) := by
  rw [hp]
  by_cases hlate : 5 ≤ n
  · obtain ⟨k, rfl⟩ := Nat.exists_eq_add_of_le' hlate
    have hv2 : p.v2 = true := by
      rw [h.v2, decide_eq_true_iff]
      omega
    have hw3 := h.w3 (k := k) rfl (by omega)
    simp only [BnPipe.clock, hv2, if_true]
    rw [BitVec.toNat_ushiftRight, hw3, Nat.shiftRight_eq_div_pow, Nat.add_right_comm, Nat.add_sub_cancel]
    rfl
  · have hv2 : p.v2 = false := by
      rw [h.v2, decide_eq_false_iff_not]
      omega
    have hc2 := h.c2 (by omega)
    rw [Nat.sub_eq_zero_of_le (by omega)] at hc2
    simp only [BnPipe.clock, hv2, Bool.false_eq_true, if_false]
    rw [hc2, Nat.sub_eq_zero_of_le (by omega)]

/-- The word above the top says that the row is at its end. -/
theorem Back.top (h : Back r n p ram mram tram) :
    (p.v2 && p.j2 == BitVec.ofNat 7 (words r.op)) = decide (n = words r.op + 5) := by
  rw [h.v2]
  by_cases hin : 5 ≤ n ∧ n ≤ words r.op + 5
  · obtain ⟨k, hk⟩ := Nat.exists_eq_add_of_le' hin.1
    obtain ⟨hj, -⟩ := h.sums k hk (by omega)
    have htop : (p.j2 == BitVec.ofNat 7 (words r.op)) = decide (k = words r.op) := by
      rw [hj, Bool.eq_iff_iff, beq_iff_eq, decide_eq_true_iff]
      exact ofNat7_words (by omega)
    rw [decide_eq_true hin, Bool.true_and, htop]
    apply decide_eq_decide.mpr
    omega
  · rw [decide_eq_false hin, Bool.false_and]
    exact (decide_eq_false (by omega)).symm

/-- The top word takes both carries. -/
theorem Back.next_t64v (h : Back r n p ram mram tram) (hn : n + 1 = words r.op + 6) (p' : BnPipe)
    (hp : p' = p.clock (BitVec.ofNat 7 (words r.op)) ram.rq mram.rq tram.rq) :
    p'.t64v.toNat = r.out (words r.op) := by
  have hn' : n = words r.op + 5 := by omega
  have htop := h.top
  rw [decide_eq_true hn'] at htop
  have hw3 := h.w3 hn' (Nat.le_refl _)
  have hc1 := h.c1 (by omega)
  have hc2 : (r.w3 (words r.op)) / 2 ^ 16 = r.c2 (words r.op + 1) := rfl
  rw [hp]
  simp only [BnPipe.clock, htop, if_true, BitVec.toNat_add, BitVec.toNat_setWidth, BitVec.toNat_ushiftRight,
    hw3, hc1, Nat.shiftRight_eq_div_pow, hc2]
  rw [RowData.out, if_pos rfl, ← Nat.add_mod, hn']
  rfl

/-- What the pipeline writes on an edge. -/
theorem Back.next_written (h : Back r n p ram mram tram) {k : Nat} (hn : n + 1 = k + 7) (hk : k ≤ words r.op)
    (t' : BlockRam 8) (ht : t' = p.out (BitVec.ofNat 8 (words r.op)) tram.clock) :
    t'.wa = BitVec.ofNat 8 k ∧ t'.wd.toNat = r.out k := by
  have hw := words_le r.op
  rw [ht, BnPipe.out, h.t64p]
  by_cases htop : k = words r.op
  · have hlast : n = words r.op + 6 := by omega
    rw [decide_eq_true hlast, if_pos rfl, BlockRam.write, htop]
    exact ⟨rfl, h.t64v hlast⟩
  · have hlow : ¬n = words r.op + 6 := by omega
    obtain ⟨hj, -⟩ := h.sums (k + 1) (by omega) (by omega)
    have hv2 : p.v2 = true := by
      rw [h.v2, decide_eq_true_iff]
      omega
    have hboth : (p.v2 && p.j2 != 0) = true := by
      rw [hv2, hj, Bool.true_and, bne_iff_ne]
      intro hzero
      have hinj := ofNat7_inj (i := k + 1) (k := 0) (by omega) (by omega) hzero
      omega
    have hw3 := h.w3 (k := k + 1) (by omega) (by omega)
    rw [decide_eq_false hlow, if_neg Bool.false_ne_true, if_pos hboth]
    refine ⟨?_, ?_⟩
    · have hone : (1 : BitVec 8).toNat = 1 := rfl
      rw [BlockRam.write, hj]
      apply BitVec.eq_of_toNat_eq
      rw [BitVec.toNat_sub_of_le]
      · simp only [BitVec.toNat_setWidth, BitVec.toNat_ofNat, hone]
        omega
      · rw [BitVec.le_def]
        simp only [BitVec.toNat_setWidth, BitVec.toNat_ofNat, hone]
        omega
    · rw [BlockRam.write, BitVec.toNat_setWidth, hw3, RowData.out, if_neg htop]
      rfl

theorem Back.next_we (h : Back r n p ram mram tram) :
    (p.out (BitVec.ofNat 8 (words r.op)) tram.clock).we = decide (7 ≤ n + 1 ∧ n + 1 ≤ words r.op + 7) := by
  have hw := words_le r.op
  rw [BnPipe.out, h.t64p]
  by_cases hlast : n = words r.op + 6
  · rw [decide_eq_true hlast, if_pos rfl]
    exact (decide_eq_true (by omega)).symm
  · rw [decide_eq_false hlast, if_neg Bool.false_ne_true]
    have hfirst : (p.v2 && p.j2 != 0) = decide (6 ≤ n ∧ n ≤ words r.op + 5) := by
      rw [h.v2]
      by_cases hin : 5 ≤ n ∧ n ≤ words r.op + 5
      · obtain ⟨k, hk⟩ := Nat.exists_eq_add_of_le' hin.1
        obtain ⟨hj, -⟩ := h.sums k hk (by omega)
        have hzero : (p.j2 != 0) = decide (k ≠ 0) := by
          rw [hj, Bool.eq_iff_iff, bne_iff_ne, decide_eq_true_iff]
          constructor
          · rintro hne rfl
            exact hne rfl
          · intro hne heq
            exact hne (ofNat7_inj (k := 0) (by omega) (by omega) heq)
        rw [decide_eq_true hin, Bool.true_and, hzero]
        apply decide_eq_decide.mpr
        omega
      · rw [decide_eq_false hin, Bool.false_and]
        exact (decide_eq_false (by omega)).symm
    rw [hfirst]
    by_cases hin : 6 ≤ n ∧ n ≤ words r.op + 5
    · rw [decide_eq_true hin, if_pos rfl]
      exact (decide_eq_true (by omega)).symm
    · rw [decide_eq_false hin, if_neg Bool.false_ne_true]
      exact (decide_eq_false (by omega)).symm

theorem Back.next_mem (h : Back r n p ram mram tram) {k : Nat} (hk : k ≤ words r.op) :
    accWord tram.written k = if k + 8 ≤ n + 1 then r.out k else accWord r.t k := by
  have hw := words_le r.op
  rw [BlockRam.written, h.we]
  by_cases hin : 7 ≤ n ∧ n ≤ words r.op + 7
  · rw [decide_eq_true hin, if_pos rfl]
    obtain ⟨j, hj⟩ := Nat.exists_eq_add_of_le' hin.1
    obtain ⟨hwa, hwd⟩ := h.written j hj (by omega)
    rw [hwa, accWord_update (by omega) (by omega)]
    split
    next heq => rw [hwd, ← heq, if_pos (by omega)]
    next hne =>
      rw [h.t k hk]
      by_cases hle : k + 8 ≤ n
      · rw [if_pos hle, if_pos (by omega)]
      · rw [if_neg hle, if_neg (by omega)]
  · rw [decide_eq_false hin, if_neg Bool.false_ne_true, h.t k hk]
    by_cases hle : k + 8 ≤ n
    · rw [if_pos hle, if_pos (by omega)]
    · rw [if_neg hle, if_neg (by omega)]

theorem Back.next (h : Back r n p ram mram tram) (hf : Fetch r n p ram mram tram) :
    Back r (n + 1) (p.clock (BitVec.ofNat 7 (words r.op)) ram.rq mram.rq tram.rq) ram.clock mram.clock
      (p.out (BitVec.ofNat 8 (words r.op)) tram.clock) where
  bi := h.bi
  mreg := h.mreg
  rf := ⟨(if_neg (by rw [h.rf.2]; decide)).trans h.rf.1, rfl⟩
  m := ⟨(if_neg (by rw [h.m.2]; decide)).trans h.m.1, rfl⟩
  vq1 := hf.vq0.trans (decide_eq_decide.mpr (by omega))
  fetched := by
    intro k hn hk
    rw [out_rq]
    exact h.next_fetched hf hn hk
  vq2 := h.vq1.trans (decide_eq_decide.mpr (by omega))
  v0 := h.vq1.trans (decide_eq_decide.mpr (by omega))
  operands := fun k hn hk => h.next_operands hn hk _ rfl
  v1 := h.v0.trans (decide_eq_decide.mpr (by omega))
  products := fun k hn hk => h.next_products hn hk _ rfl
  c1 := fun hn => h.next_c1 hn _ rfl
  v2 := h.v1.trans (decide_eq_decide.mpr (by omega))
  sums := fun k hn hk => h.next_sums hn hk _ rfl
  c2 := fun hn => h.next_c2 hn _ rfl
  t64p := h.top.trans (decide_eq_decide.mpr (by omega))
  t64v := fun hn => h.next_t64v hn _ rfl
  we := h.next_we
  written := fun k hn hk => h.next_written hn hk _ rfl
  t := by
    intro k hk
    rw [out_mem]
    exact h.next_mem hk

end Next

/-- A row, some clocks after it began to send for words. -/
structure Flight (r : RowData) (i n : Nat) (s : BnEngine) : Prop where
  st : s.st = if n ≤ words r.op then .mS else .mDr
  ctl : s.ctl = r.ctl
  op : s.op = r.op
  mi : s.mul.mi = BitVec.ofNat 7 i
  count : n ≤ words r.op → s.mul.mk = BitVec.ofNat 8 n
  fetch : Fetch r n s.pipe s.rf s.m s.t
  back : Back r n s.pipe s.rf s.m s.t

theorem Flight.busy {r : RowData} {n : Nat} {s : BnEngine} (h : Flight r i n s) : Busy s := by
  rw [Busy, h.st]
  split <;> decide

theorem Ready.flight {b q : BitVec 16} {s : BnEngine} (h : Ready c o rf m t i b q s) :
    Flight ⟨c, o, rf, m, t, b, q⟩ i 0 s where
  st := h.holds.st
  ctl := h.holds.ctl
  op := h.holds.op
  mi := h.mi
  count := fun _ => h.count
  fetch := {
    vq0 := h.holds.still.pipe.vq0
    address := fun k hk => absurd hk (by omega) }
  back := {
    bi := h.bi
    mreg := h.mreg
    rf := ⟨h.holds.rf, h.holds.still.rf⟩
    m := ⟨h.holds.m, h.holds.still.m⟩
    vq1 := h.holds.still.pipe.vq1
    fetched := fun k hk => absurd hk (by omega)
    vq2 := h.holds.still.pipe.vq2
    v0 := h.holds.still.pipe.v0
    operands := fun k hk => absurd hk (by omega)
    v1 := h.holds.still.pipe.v1
    products := fun k hk => absurd hk (by omega)
    c1 := fun _ => by rw [h.c1]; rfl
    v2 := h.holds.still.pipe.v2
    sums := fun k hk => absurd hk (by omega)
    c2 := fun _ => by rw [h.c2]; rfl
    t64p := by
      rw [h.holds.still.pipe.t64p]
      exact (decide_eq_false (by omega)).symm
    t64v := fun hk => absurd hk (by omega)
    we := h.holds.still.t
    written := fun k hk => absurd hk (by omega)
    t := fun k _ => by rw [h.holds.t, if_neg (by omega)] }

/-- The edge before the state is looked at. -/
theorem Flight.tick {r : RowData} {n : Nat} {s : BnEngine} {x : BnIn} (h : Flight r i n s) :
    Back r (n + 1) (s.tick x).pipe (s.tick x).rf (s.tick x).m (s.tick x).t := by
  have htnw : s.tnw = BitVec.ofNat 8 (words r.op) := by rw [tnw_eq h.op, topAddress_eq]
  have htnw' : s.tnw.setWidth 7 = BitVec.ofNat 7 (words r.op) := by
    rw [htnw, BitVec.setWidth_ofNat_of_le (by decide)]
  have hrf : (s.tick x).rf = s.rf.clock := by rw [BnEngine.tick, if_neg h.busy]
  have hpipe : (s.tick x).pipe = s.pipe.clock (BitVec.ofNat 7 (words r.op)) s.rf.rq s.m.rq s.t.rq := by
    rw [BnEngine.tick, htnw']
  have ht : (s.tick x).t = s.pipe.out (BitVec.ofNat 8 (words r.op)) s.t.clock := by rw [BnEngine.tick, htnw]
  rw [hrf, hpipe, ht]
  exact h.back.next h.fetch

/-- A word is sent for, ... -/
theorem Flight.sends {r : RowData} {n : Nat} (hn : n ≤ words r.op) :
    Leads clock Busy (Flight r i n) (Flight r i (n + 1)) := by
  apply Leads.edge fun s h => h.busy
  intro s x h
  have hw := words_le r.op
  have hst : s.st = .mS := by rw [h.st, if_pos hn]
  have hcount : (s.mul.mk = s.tnw) ↔ n = words r.op := by
    rw [h.count hn, tnw_eq h.op, topAddress_eq]
    constructor
    · exact ofNat8_inj (by omega) (by omega)
    · rintro rfl
      rfl
  have hb := h.tick (x := x)
  simp only [clock, fsm, hst]
  constructor
  case st =>
    by_cases hlast : n = words r.op
    · rw [if_pos (hcount.mpr hlast), if_neg (by omega)]
    · rw [if_neg fun heq => hlast (hcount.mp heq), if_pos (by omega)]
  case ctl => exact h.ctl
  case op => exact h.op
  case mi => exact h.mi
  case count =>
    intro hle
    rw [h.count hn]
    exact (BitVec.ofNat_add n 1).symm
  case fetch =>
    constructor
    · exact (decide_eq_true (by omega)).symm
    · intro k hk hkw
      have hkn : k = n := by omega
      rw [hkn, h.count hn, h.op, h.ctl]
      refine ⟨BitVec.setWidth_ofNat_of_le (w := 8) (v := 7) (by decide) n, ?_, ?_, rfl⟩
      · rw [BlockRam.read, BitVec.setWidth_ofNat_of_le (w := 8) (v := 6) (by decide)]
      · exact BitVec.setWidth_ofNat_of_le (w := 8) (v := 6) (by decide) n
  case back =>
    exact ⟨hb.bi, hb.mreg, hb.rf, hb.m, hb.vq1, hb.fetched, hb.vq2, hb.v0, hb.operands, hb.v1, hb.products,
      hb.c1, hb.v2, hb.sums, hb.c2, hb.t64p, hb.t64v, hb.we, hb.written, hb.t⟩

/-- ... or the row waits for the words under way. -/
theorem Flight.waits {r : RowData} {n : Nat} (hn : words r.op < n) (hn' : n < words r.op + 8) :
    Leads clock Busy (Flight r i n) (Flight r i (n + 1)) := by
  apply Leads.edge fun s h => h.busy
  intro s x h
  have hst : s.st = .mDr := by rw [h.st, if_neg (by omega)]
  have hdrained : s.drained = false := by
    have hb := h.back
    rw [drained, h.fetch.vq0, hb.vq1, hb.vq2, hb.v0, hb.v1, hb.v2, hb.t64p, hb.we]
    by_contra htrue
    simp only [Bool.not_eq_false, Bool.and_eq_true, Bool.not_eq_true', decide_eq_false_iff_not] at htrue
    omega
  have hb := h.tick (x := x)
  simp only [clock, fsm, hst, hdrained, Bool.false_eq_true, if_false]
  constructor
  case st => rw [if_neg (by omega)]; exact hst
  case ctl => exact h.ctl
  case op => exact h.op
  case mi => exact h.mi
  case count => exact fun hle => absurd hle (by omega)
  case fetch =>
    constructor
    · exact (decide_eq_false (by omega)).symm
    · exact fun k hk hkw => absurd hkw (by omega)
  case back => exact hb

/-- A row is done. -/
structure RowEnd (c : BnCtl) (o : BnOp) (rf : BitVec 11 → BitVec 16) (m : BitVec 6 → BitVec 16)
    (t : BitVec 8 → BitVec 16) (i : Nat) (s : BnEngine) : Prop where
  holds : Holds .mNx c o rf m t s
  mi : s.mul.mi = BitVec.ofNat 7 i

theorem Flight.ends {r : RowData} : Leads clock Busy (Flight r i (words r.op + 8)) fun s => ∃ t,
    (∀ k ≤ words r.op, accWord t k = r.out k) ∧ RowEnd r.ctl r.op r.rf r.m t i s := by
  apply Leads.edge fun s h => h.busy
  intro s x h
  have hst : s.st = .mDr := by rw [h.st, if_neg (by omega)]
  have hb := h.back
  have hwe : s.t.we = false := by
    rw [hb.we]
    exact decide_eq_false (by omega)
  have hvq0 : s.pipe.vq0 = false := by
    rw [h.fetch.vq0]
    exact decide_eq_false (by omega)
  have hvq1 : s.pipe.vq1 = false := by
    rw [hb.vq1]
    exact decide_eq_false (by omega)
  have hvq2 : s.pipe.vq2 = false := by
    rw [hb.vq2]
    exact decide_eq_false (by omega)
  have hv0 : s.pipe.v0 = false := by
    rw [hb.v0]
    exact decide_eq_false (by omega)
  have hv1 : s.pipe.v1 = false := by
    rw [hb.v1]
    exact decide_eq_false (by omega)
  have hv2 : s.pipe.v2 = false := by
    rw [hb.v2]
    exact decide_eq_false (by omega)
  have ht64p : s.pipe.t64p = false := by
    rw [hb.t64p]
    exact decide_eq_false (by omega)
  have hdrained : s.drained = true := by
    rw [drained, hvq0, hvq1, hvq2, hv0, hv1, hv2, ht64p, hwe]
    rfl
  have hholds : Holds .mDr r.ctl r.op r.rf r.m s.t.mem s := ⟨hst, h.ctl, h.op, hb.rf.1, hb.m.1, rfl,
    ⟨hvq0, hvq1, hvq2, hv0, hv1, hv2, ht64p⟩, hb.rf.2, hb.m.2, hwe⟩
  obtain ⟨htick, -⟩ := hholds.tick (i := x) (by decide)
  refine ⟨s.t.mem, ?_, ?_⟩
  · intro k hk
    rw [hb.t k hk, if_pos (by omega)]
  · simp only [clock, fsm, hst, hdrained, if_true]
    exact ⟨htick.move rfl htick.ctl htick.op rfl ⟨rfl, rfl⟩ ⟨rfl, rfl⟩ ⟨rfl, rfl⟩, h.mi⟩

/-- A whole row. -/
theorem rows : Leads clock Busy (RowStart c o rf m t i) fun s => ∃ t',
    (∀ k ≤ words o, accWord t' k
      = RowData.out ⟨c, o, rf, m, t, rowWord c o rf i, digit c o rf t (rowWord c o rf i)⟩ k) ∧
    RowEnd c o rf m t' i s := by
  apply digits.trans
  have hflight : Leads clock Busy
      (Ready c o rf m t i (rowWord c o rf i) (digit c o rf t (rowWord c o rf i)))
      (Flight ⟨c, o, rf, m, t, rowWord c o rf i, digit c o rf t (rowWord c o rf i)⟩ i 0) :=
    Leads.of_imp fun s h => h.flight
  apply hflight.trans
  refine Leads.trans ?_ (Flight.ends (r := ⟨c, o, rf, m, t, rowWord c o rf i, digit c o rf t (rowWord c o rf i)⟩))
  apply Leads.loop (n := words o + 8)
  intro n hn
  by_cases hsend : n ≤ words o
  · exact Flight.sends hsend
  · exact Flight.waits (Nat.lt_of_not_le hsend) hn

end GoiKey.Rtl.BnEngine
