import Mathlib.Tactic.IntervalCases
import GoiKey.Proofs.SpiFeed

/-! The slave of spi_slave.v and the master, bit by bit. -/

namespace GoiKey.Rtl

/-! The bytes in the shift registers. -/

theorem shiftIn_toNat (x : BitVec 8) (bit : Bool) :
    (x.extractLsb' 0 7 ++ BitVec.ofBool bit : BitVec 8).toNat = x.toNat % 128 * 2 + bit.toNat := by
  rw [BitVec.toNat_append, BitVec.extractLsb'_toNat, Nat.shiftRight_zero, BitVec.toNat_ofBool,
    ← Nat.shiftLeft_add_eq_or_of_lt bit.toNat_lt, Nat.shiftLeft_eq]

theorem getMsbD_toNat (b : BitVec 8) {n : Nat} (hn : n < 8) : (b.getMsbD n).toNat = b.toNat / 2 ^ (7 - n) % 2 := by
  rw [BitVec.getMsbD, decide_eq_true hn, Bool.true_and, BitVec.getLsbD, show 8 - 1 - n = 7 - n from rfl,
    Nat.toNat_testBit]

/-- The next bit of a byte comes in. -/
theorem shiftIn_next {b x : BitVec 8} {n : Nat} (hn : n < 8) (h : x.toNat % 2 ^ n = b.toNat / 2 ^ (8 - n)) :
    (x.extractLsb' 0 7 ++ BitVec.ofBool (b.getMsbD n) : BitVec 8).toNat % 2 ^ (n + 1)
      = b.toNat / 2 ^ (8 - (n + 1)) := by
  have hb : b.toNat < 256 := b.isLt
  rw [shiftIn_toNat, getMsbD_toNat b hn]
  interval_cases n <;> simp only [Nat.reduceSub, Nat.reducePow, Nat.reduceAdd] at h ⊢ <;> omega

theorem shiftOut (x : BitVec 8) : (x.extractLsb' 0 7 ++ 0#1 : BitVec 8) = x <<< 1 := by
  have hnat : (x.extractLsb' 0 7 ++ 0#1 : BitVec 8).toNat = x.toNat % 128 * 2 := shiftIn_toNat x false
  apply BitVec.eq_of_toNat_eq
  rw [hnat, BitVec.toNat_shiftLeft, Nat.shiftLeft_eq]
  omega

theorem top_shiftLeft (b : BitVec 8) (d : Nat) : (b <<< d).getLsbD 7 = b.getMsbD d := by
  rw [BitVec.getMsbD, BitVec.getLsbD_shiftLeft]
  by_cases h : d < 8
  · simp [h, Nat.not_lt.mpr (Nat.le_of_lt_succ h)]
  · simp [h]
    omega

/-- Bit `d` of a byte is on MISO, and the ones behind it are in the shift register. -/
def Shifting (b : BitVec 8) (d : Nat) (s : SpiSlave) : Prop := s.miso = b.getMsbD d ∧ s.txSh = b <<< (d + 1)

theorem Shifting.load (n : SpiSlave) (txData : BitVec 8) (txHave : Bool) :
    Shifting (if txHave then txData else 0) 0 (n.load txData txHave) := by
  cases txHave with
  | false => simp [Shifting, SpiSlave.load]
  | true => exact ⟨by simp [SpiSlave.load, BitVec.getMsbD], shiftOut txData⟩

theorem Shifting.fall {b : BitVec 8} {d : Nat} {s : SpiSlave} (h : Shifting b d s) (hbit : s.bitcnt ≠ 0)
    (n : SpiSlave) (txData : BitVec 8) (txHave : Bool) : Shifting b (d + 1) (s.fall n txData txHave) := by
  obtain ⟨-, htx⟩ := h
  rw [SpiSlave.fall, if_neg hbit]
  refine ⟨?_, ?_⟩
  · simp only [htx, top_shiftLeft]
  · simp only [shiftOut, htx]
    rw [← BitVec.shiftLeft_add]

/-! The pins two clocks later. -/

/-- The registers of the synchronisers: the master was at `p`, and the two samples that
came then have not been used. -/
structure Piped (p : SpiMaster) (u v : SpiPins) (s : SpiSlave) : Prop where
  sck₂ : s.sckS.getLsbD 2 = p.sck
  sck₁ : s.sckS.getLsbD 1 = u.sck
  sck₀ : s.sckS.getLsbD 0 = v.sck
  cs₁ : s.csS.getLsbD 1 = u.csN
  cs₀ : s.csS.getLsbD 0 = v.csN
  mosi₁ : s.mosiS.getLsbD 1 = u.mosi
  mosi₀ : s.mosiS.getLsbD 0 = v.mosi

variable {p : SpiMaster} {u v w : SpiPins} {s : SpiSlave} {r : Bool}

theorem push_getLsbD {n : Nat} (x : BitVec (n + 1)) (bit : Bool) (j : Nat) (hj : j < n) :
    (x.extractLsb' 0 n ++ BitVec.ofBool bit).getLsbD (j + 1) = x.getLsbD j := by
  rw [BitVec.getLsbD_append]
  simp [hj]

theorem push_getLsbD_zero {n : Nat} (x : BitVec (n + 1)) (bit : Bool) :
    (x.extractLsb' 0 n ++ BitVec.ofBool bit).getLsbD 0 = bit := by
  rw [BitVec.getLsbD_append]
  simp

@[simp] theorem SpiMaster.clock_sck (m : SpiMaster) (r : Bool) (i : SpiPins) : (m.clock r i).sck = i.sck := by
  unfold SpiMaster.clock SpiMaster.exchange
  by_cases h : i.sck = true ∧ ¬m.sck = true
  · rw [if_pos h, h.1]
    split_ifs <;> rfl
  · rw [if_neg h]

theorem Piped.clock (h : Piped p u v s) (r : Bool) (txData : BitVec 8) (txHave : Bool) (w : SpiPins) :
    Piped (p.clock r u) v w (s.clock txData txHave w) where
  sck₂ := by rw [SpiMaster.clock_sck, ← h.sck₁]; exact push_getLsbD s.sckS w.sck 1 (by decide)
  sck₁ := by rw [← h.sck₀]; exact push_getLsbD s.sckS w.sck 0 (by decide)
  sck₀ := push_getLsbD_zero s.sckS w.sck
  cs₁ := by rw [← h.cs₀]; exact push_getLsbD s.csS w.csN 0 (by decide)
  cs₀ := push_getLsbD_zero s.csS w.csN
  mosi₁ := by rw [← h.mosi₀]; exact push_getLsbD s.mosiS w.mosi 0 (by decide)
  mosi₀ := push_getLsbD_zero s.mosiS w.mosi

theorem Piped.csn (h : Piped p u v s) : s.csn = u.csN := h.cs₁

theorem sckRise_eq (s : SpiSlave) : s.sckRise = (s.sckS.getLsbD 1 && !s.sckS.getLsbD 2) := by
  have hall : ∀ x : BitVec 3, decide (x.extractLsb' 1 2 = 0b01#2) = (x.getLsbD 1 && !x.getLsbD 2) := by decide
  exact hall s.sckS

theorem sckFall_eq (s : SpiSlave) : s.sckFall = (!s.sckS.getLsbD 1 && s.sckS.getLsbD 2) := by
  have hall : ∀ x : BitVec 3, decide (x.extractLsb' 1 2 = 0b10#2) = (!x.getLsbD 1 && x.getLsbD 2) := by decide
  exact hall s.sckS

theorem Piped.rise (h : Piped p u v s) : s.sckRise = (u.sck && !p.sck) := by
  rw [sckRise_eq, h.sck₁, h.sck₂]

theorem Piped.fall (h : Piped p u v s) : s.sckFall = (!u.sck && p.sck) := by
  rw [sckFall_eq, h.sck₁, h.sck₂]

/-! What is in the slot. -/

variable {status : BitVec 8} {payload c : List (BitVec 8)} {base : Nat} {src : Source} {stx : SpiTxIf}

/-- Between two bytes: what `SpiTxIf` says of the next one. -/
structure Offering (status : BitVec 8) (payload : List (BitVec 8)) (base : Nat) (src : Source)
    (c : List (BitVec 8)) (stx : SpiTxIf) : Prop where
  real : stx.has = true → src.Offers status payload stx.hold
  filler : stx.has = false → src.Fills base c
  same : ∀ b, src.Offers status payload b → stx.has = true ∧ stx.hold = b

/-- The slot is loaded with the next byte of the response, or with filler where that is right. -/
def Loaded (status : BitVec 8) (payload : List (BitVec 8)) (base : Nat) (src : Source)
    (c : List (BitVec 8)) (s : SpiSlave) : Prop :=
  ∃ b, Shifting b 0 s ∧ (s.curReal = true → src.Offers status payload b) ∧
    (s.curReal = false → b = 0 ∧ src.Fills base c)

theorem Offering.load (h : Offering status payload base src c stx) (n : SpiSlave) :
    Loaded status payload base src c (n.load stx.hold stx.has) := by
  refine ⟨_, Shifting.load n stx.hold stx.has, fun hreal => ?_, fun hfill => ?_⟩
  · have hhas : stx.has = true := hreal
    rw [if_pos hhas]
    exact h.real hhas
  · have hhas : stx.has = false := hfill
    exact ⟨by simp [hhas], h.filler hhas⟩

/-- A slot that is loaded again has the same first bit. -/
theorem Offering.miso (h : Offering status payload base src c stx) (hl : Loaded status payload base src c s)
    (n : SpiSlave) : (n.load stx.hold stx.has).miso = s.miso := by
  obtain ⟨b, ⟨hmiso, -⟩, hreal, hfill⟩ := hl
  cases hcur : s.curReal with
  | true =>
    obtain ⟨hhas, rfl⟩ := h.same b (hreal hcur)
    rw [hmiso]
    simp [SpiSlave.load, hhas, BitVec.getMsbD]
  | false =>
    obtain ⟨rfl, hf⟩ := hfill hcur
    have hzero : s.miso = false := by rw [hmiso]; decide
    rw [hzero]
    cases hhas : stx.has with
    | false => rfl
    | true => exact hf.first (h.real hhas)

theorem Loaded.next {req : Bool} (h : Loaded status payload base src c s)
    (hreq : req = true → c.length ≤ base) (last : Nat) :
    Loaded status payload base (src.next last req false) c s := by
  obtain ⟨b, hb, hreal, hfill⟩ := h
  exact ⟨b, hb, fun hcur => (hreal hcur).next last, fun hcur => ⟨(hfill hcur).1, (hfill hcur).2.next hreq last⟩⟩

/-- The slave and the master are at the same bit of the same byte; `c` are the bytes begun. -/
structure Slot (status : BitVec 8) (payload : List (BitVec 8)) (base : Nat) (src : Source)
    (p : SpiMaster) (c : List (BitVec 8)) (s : SpiSlave) : Prop where
  count : s.bitcnt.toNat = p.bits
  rx : s.rxSh = p.shOut
  inside : p.bits ≠ 0 → ∃ b, c = p.read ++ [b] ∧ Shifting b (p.bits - p.sck.toNat) s ∧
    p.shIn.toNat % 2 ^ p.bits = b.toNat / 2 ^ (8 - p.bits)
  between : p.bits = 0 → c = p.read ∧ (p.sck = false → Loaded status payload base src c s)

theorem Slot.bits_lt (h : Slot status payload base src p c s) : p.bits < 8 := h.count ▸ s.bitcnt.isLt

theorem Slot.bitcnt_eq (h : Slot status payload base src p c s) {k : Nat} (hk : k < 8) :
    s.bitcnt = BitVec.ofNat 3 k ↔ p.bits = k := by
  rw [← BitVec.toNat_inj, h.count, BitVec.toNat_ofNat, Nat.mod_eq_of_lt (by omega)]

theorem SpiMaster.clock_rise {m : SpiMaster} (hr : u.sck = true) (hm : m.sck = false) (r : Bool) :
    m.clock r u = m.exchange r u := if_pos ⟨hr, by simp [hm]⟩

theorem SpiMaster.clock_still {m : SpiMaster} (h : ¬(u.sck = true ∧ m.sck = false)) (r : Bool) :
    m.clock r u = { m with sck := u.sck, lows := if u.sck then 0 else m.lows + 1, since := m.since + 1 } :=
  if_neg (by simpa using h)

theorem shift_idle (s : SpiSlave) (h : s.csn = true) (d : BitVec 8) (v : Bool) :
    s.shift d v = { s.quiet.load d v with bitcnt := 0 } := by
  simp [SpiSlave.shift, h]

theorem shift_rise (s : SpiSlave) (h : s.csn = false) (hr : s.sckRise = true) (d : BitVec 8) (v : Bool) :
    s.shift d v = s.rise s.quiet := by
  simp [SpiSlave.shift, h, hr]

theorem shift_fall (s : SpiSlave) (h : s.csn = false) (hr : s.sckRise = false) (hf : s.sckFall = true)
    (d : BitVec 8) (v : Bool) : s.shift d v = s.fall s.quiet d v := by
  simp [SpiSlave.shift, h, hr, hf]

theorem shift_still (s : SpiSlave) (h : s.csn = false) (hr : s.sckRise = false) (hf : s.sckFall = false)
    (d : BitVec 8) (v : Bool) : s.shift d v = s.quiet := by
  simp [SpiSlave.shift, h, hr, hf]

section Clock

variable (h : Slot status payload base src p c s) (hp : Piped p u v s) (hallow : p.Allows u 3 0)

include h hp hallow

/-- SCK rises for the first bit of a byte. -/
theorem Slot.begin (hu : u.sck = true) (hl : p.sck = false) (hb : p.bits = 0) (hr : r = s.miso) (src' : Source)
    (stx : SpiTxIf) :
    ∃ b, ((s.shift stx.hold stx.has).txTake = true → src.Offers status payload b) ∧
      ((s.shift stx.hold stx.has).txTake = false → b = 0 ∧ src.Fills base c) ∧
      Slot status payload base src' (p.clock r u) (c ++ [b]) (s.shift stx.hold stx.has) := by
  have hrise : s.sckRise = true := by rw [hp.rise, hu, hl]; rfl
  have hcount : s.bitcnt = 0 := (h.bitcnt_eq (by decide)).mpr hb
  obtain ⟨hc, hload⟩ := h.between hb
  obtain ⟨b, ⟨hmiso, htx⟩, hreal, hfill⟩ := hload hl
  have hrx : s.rxNext = p.shOut.extractLsb' 0 7 ++ BitVec.ofBool u.mosi := by
    rw [SpiSlave.rxNext, h.rx, hp.mosi₁]
  have hin : p.shIn.toNat % 2 ^ 0 = b.toNat / 2 ^ (8 - 0) := by
    rw [pow_zero, Nat.mod_one, Nat.div_eq_of_lt b.isLt]
  have hnext := shiftIn_next (by decide) hin
  have htake : (s.rise s.quiet).txTake = s.curReal := if_pos hcount
  rw [shift_rise s (by rw [hp.csn, hallow.1 (.inl hu)]) hrise, SpiMaster.clock_rise hu hl, SpiMaster.exchange,
    if_neg (by simp [hb]), htake]
  refine ⟨b, hreal, hfill, ?_, hrx, fun _ => ⟨b, by rw [hc], ?_, ?_⟩, fun h0 => absurd h0 (Nat.succ_ne_zero _)⟩
  · simp [SpiSlave.rise, hcount, hb]
  · simp [hb]
    exact ⟨hmiso, htx⟩
  · simp only [hb]
    rw [hr, hmiso]
    exact hnext

/-- SCK rises in a byte. -/
theorem Slot.bit (hu : u.sck = true) (hl : p.sck = false) (hb : p.bits ≠ 0) (hr : r = s.miso) :
    (s.shift stx.hold stx.has).txTake = false ∧
      Slot status payload base src (p.clock r u) c (s.shift stx.hold stx.has) := by
  have hrise : s.sckRise = true := by rw [hp.rise, hu, hl]; rfl
  have hlt := h.bits_lt
  have hcount : s.bitcnt ≠ 0 := fun h0 => hb ((h.bitcnt_eq (by decide)).mp h0)
  obtain ⟨b, hc, ⟨hmiso, htx⟩, hin⟩ := h.inside hb
  rw [hl] at hmiso htx
  have hnext := shiftIn_next hlt hin
  have hbit : r = b.getMsbD p.bits := hr.trans hmiso
  have hrx : s.rxNext = p.shOut.extractLsb' 0 7 ++ BitVec.ofBool u.mosi := by
    rw [SpiSlave.rxNext, h.rx, hp.mosi₁]
  rw [shift_rise s (by rw [hp.csn, hallow.1 (.inl hu)]) hrise, SpiMaster.clock_rise hu hl, SpiMaster.exchange]
  refine ⟨if_neg hcount, ?_⟩
  split_ifs with h7
  · rw [h7] at hnext hbit
    have hseven : s.bitcnt = 7 := (h.bitcnt_eq (by decide)).mpr h7
    have hwhole : p.shIn.extractLsb' 0 7 ++ BitVec.ofBool r = b := by
      rw [hbit]
      apply BitVec.eq_of_toNat_eq
      have hb' : b.toNat < 256 := b.isLt
      simpa [Nat.mod_eq_of_lt (BitVec.isLt _)] using hnext
    refine ⟨by simp [SpiSlave.rise, hseven], hrx, fun hne => absurd rfl hne, fun _ => ⟨?_, by simp⟩⟩
    rw [hc]
    exact congrArg (fun x => p.read ++ [x]) hwhole.symm
  · refine ⟨?_, hrx, fun _ => ⟨b, hc, ⟨hmiso, htx⟩, ?_⟩, fun h0 => absurd h0 (Nat.succ_ne_zero _)⟩
    · change (s.bitcnt + 1).toNat = p.bits + 1
      rw [BitVec.toNat_add, h.count]
      exact Nat.mod_eq_of_lt (show p.bits + 1 < 8 by omega)
    · rw [hbit]
      exact hnext

/-- While SCK stays high. -/
theorem Slot.high (hu : u.sck = true) (hh : p.sck = true) :
    (s.shift stx.hold stx.has).txTake = false ∧
      Slot status payload base src (p.clock r u) c (s.shift stx.hold stx.has) := by
  have hrise : s.sckRise = false := by rw [hp.rise, hh, Bool.not_true, Bool.and_false]
  have hfall : s.sckFall = false := by rw [hp.fall, hu]; rfl
  rw [shift_still s (by rw [hp.csn, hallow.1 (.inl hu)]) hrise hfall,
    SpiMaster.clock_still (by simp [hh]) r, hu]
  refine ⟨rfl, h.count, h.rx, fun hb => ?_, fun hb => ⟨(h.between hb).1, by simp⟩⟩
  obtain ⟨b, hc, hshift, hin⟩ := h.inside hb
  rw [hh] at hshift
  exact ⟨b, hc, hshift, hin⟩

variable (hoff : p.bits = 0 → Offering status payload base src c stx)

include hoff

/-- Between two edges of SCK. -/
theorem Slot.low (hu : u.sck = false) (hl : p.sck = false) :
    (s.shift stx.hold stx.has).miso = s.miso ∧ (s.shift stx.hold stx.has).txTake = false ∧
      Slot status payload base src (p.clock r u) c (s.shift stx.hold stx.has) := by
  have hrise : s.sckRise = false := by rw [hp.rise, hu]; rfl
  have hfall : s.sckFall = false := by rw [hp.fall, hl, Bool.and_false]
  have hclk := SpiMaster.clock_still (u := u) (m := p) (by simp [hu]) r
  cases hcs : u.csN with
  | false =>
    rw [shift_still s (by rw [hp.csn, hcs]) hrise hfall, hclk, hu]
    refine ⟨rfl, rfl, h.count, h.rx, fun hb => ?_, fun hb => ⟨(h.between hb).1, fun _ => (h.between hb).2 hl⟩⟩
    obtain ⟨b, hc, hshift, hin⟩ := h.inside hb
    rw [hl] at hshift
    exact ⟨b, hc, hshift, hin⟩
  | true =>
    have hb : p.bits = 0 := by
      by_contra hne
      have := hallow.1 (.inr hne)
      simp [hcs] at this
    obtain ⟨hc, hload⟩ := h.between hb
    rw [shift_idle s (by rw [hp.csn, hcs]), hclk]
    refine ⟨(hoff hb).miso (hload hl) s.quiet, rfl, by simpa using hb.symm, h.rx, fun hne => absurd hb hne,
      fun _ => ⟨hc, fun _ => ?_⟩⟩
    exact (hoff hb).load s.quiet

/-- SCK falls: the next bit comes out, or the slot is loaded. -/
theorem Slot.fall (hu : u.sck = false) (hh : p.sck = true) :
    (s.shift stx.hold stx.has).txTake = false ∧
      Slot status payload base src (p.clock r u) c (s.shift stx.hold stx.has) := by
  have hrise : s.sckRise = false := by rw [hp.rise, hu]; rfl
  have hfall : s.sckFall = true := by rw [hp.fall, hu, hh]; rfl
  rw [SpiMaster.clock_still (by simp [hu]) r, hu]
  by_cases hb : p.bits = 0
  · have hcount : s.bitcnt = 0 := (h.bitcnt_eq (by decide)).mpr hb
    have hload := (hoff hb).load s.quiet
    cases hcs : u.csN with
    | false =>
      rw [shift_fall s (by rw [hp.csn, hcs]) hrise hfall, SpiSlave.fall, if_pos hcount]
      exact ⟨rfl, h.count, h.rx, fun hne => absurd hb hne, fun _ => ⟨(h.between hb).1, fun _ => hload⟩⟩
    | true =>
      rw [shift_idle s (by rw [hp.csn, hcs])]
      exact ⟨rfl, by simpa using hb.symm, h.rx, fun hne => absurd hb hne,
        fun _ => ⟨(h.between hb).1, fun _ => hload⟩⟩
  · have hcount : s.bitcnt ≠ 0 := fun h0 => hb ((h.bitcnt_eq (by decide)).mp h0)
    obtain ⟨b, hc, hshift, hin⟩ := h.inside hb
    rw [shift_fall s (by rw [hp.csn, hallow.1 (.inr hb)]) hrise hfall]
    rw [hh] at hshift
    have hnext := hshift.fall hcount s.quiet stx.hold stx.has
    rw [Bool.toNat_true, Nat.sub_add_cancel (Nat.one_le_iff_ne_zero.mpr hb)] at hnext
    rw [SpiSlave.fall, if_neg hcount] at hnext ⊢
    exact ⟨rfl, h.count, h.rx, fun _ => ⟨b, hc, hnext, hin⟩, fun h0 => absurd h0 hb⟩

end Clock

end GoiKey.Rtl
