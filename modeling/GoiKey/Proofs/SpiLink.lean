import GoiKey.Proofs.SpiSlave

/-! A response on its way through the slave to the master. -/

namespace GoiKey.Rtl

variable {status : BitVec 8} {payload c : List (BitVec 8)} {base : Nat} {src : Source}
variable {p m : SpiMaster} {u v : SpiPins} {r r₁ r₀ : Bool} {s : SpiSlave} {stx : SpiTxIf}
variable {b : SpiBench} {i : SpiIn}

/-! The master. -/

theorem SpiMaster.clock_lows (m : SpiMaster) (r : Bool) (u : SpiPins) :
    (m.clock r u).lows = if u.sck then 0 else m.lows + 1 := by
  cases hu : u.sck with
  | false => rw [clock_still (by simp [hu]) r, hu]
  | true =>
    cases hm : m.sck with
    | false =>
      rw [clock_rise hu hm, exchange, if_pos rfl]
      split_ifs <;> rfl
    | true => rw [clock_still (by simp [hm]) r, hu]

theorem SpiMaster.low_of_lows (h : 1 ≤ (m.clock r u).lows) : u.sck = false ∧ (m.clock r u).lows = m.lows + 1 := by
  rw [clock_lows] at h ⊢
  cases hu : u.sck with
  | false => simp
  | true => simp [hu] at h

theorem SpiMaster.begun_le (m : SpiMaster) (r : Bool) (u : SpiPins) : m.begun ≤ (m.clock r u).begun := by
  by_cases hrise : u.sck = true ∧ m.sck = false
  · rw [clock_rise hrise.1 hrise.2, exchange]
    simp only [begun]
    split_ifs <;> simp at *
  · rw [clock_still hrise]
    exact Nat.le_refl _

/-- A lower bound for the clocks since the byte was begun. -/
def SpiMaster.elapsed (m : SpiMaster) : Nat := if m.bits = 0 then 28 else 4 * (m.bits - 1) + min m.lows 3

theorem SpiMaster.elapsed_clock (hlt : m.bits < 8) (hallow : m.Allows u 3 0)
    (hgo : ¬(u.sck = true ∧ m.sck = false ∧ m.bits = 0)) : (m.clock r u).elapsed ≤ m.elapsed + 1 := by
  by_cases hrise : u.sck = true ∧ m.sck = false
  · have hb : m.bits ≠ 0 := fun h0 => hgo ⟨hrise.1, hrise.2, h0⟩
    have hlows := (hallow.2 hrise.1 hrise.2).1
    rw [clock_rise hrise.1 hrise.2, exchange]
    simp only [elapsed, hb, if_false]
    split_ifs <;> simp at * <;> omega
  · rw [clock_still hrise]
    simp only [elapsed]
    split_ifs <;> omega

theorem SpiMaster.elapsed_begin (hu : u.sck = true) (hl : m.sck = false) (hb : m.bits = 0) :
    (m.clock r u).elapsed = 0 := by
  rw [clock_rise hu hl, exchange]
  simp [elapsed, hb]

/-! The link on one clock. -/

/-- The bench `clock`s: the slave is two samples behind the master. -/
structure Linked (status : BitVec 8) (payload : List (BitVec 8)) (base : Nat) (src : Source)
    (p : SpiMaster) (u v : SpiPins) (r₁ r₀ : Bool) (c : List (BitVec 8)) (b : SpiBench) : Prop where
  piped : Piped p u v b.link.spi
  master : b.master = (p.clock r₁ u).clock r₀ v
  allow₁ : p.Allows u 3 0
  allow₀ : (p.clock r₁ u).Allows v 3 0
  -- what the master reads is what is still there when the slave sees the edge
  read₁ : u.sck = true → p.sck = false → r₁ = b.link.spi.miso
  read₀ : v.sck = true → u.sck = false → r₀ = b.link.spi.miso
  high : p.sck = true → p.lows = 0
  slot : Slot status payload base src p c b.link.spi
  told : src.Told status payload base p.elapsed c
  holds : src.Holds status payload b.link
  delivered : b.delivered = p.written

theorem Slot.next {req : Bool} (h : Slot status payload base src p c s) (hreq : req = true → c.length ≤ base)
    (last : Nat) : Slot status payload base (src.next last req false) p c s :=
  ⟨h.count, h.rx, h.inside, fun hb => ⟨(h.between hb).1, fun hl => ((h.between hb).2 hl).next hreq last⟩⟩

/-- The synchronisers do not touch the slot. -/
theorem Slot.clock {d : BitVec 8} {x : Bool} (h : Slot status payload base src p c (s.shift d x)) (w : SpiPins) :
    Slot status payload base src p c (s.clock d x w) :=
  ⟨h.count, h.rx, h.inside, h.between⟩

theorem Slot.begun (h : Slot status payload base src p c s) : c.length = p.begun := by
  by_cases hb : p.bits = 0
  · simp [SpiMaster.begun, hb, (h.between hb).1]
  · obtain ⟨b, hc, -⟩ := h.inside hb
    simp [SpiMaster.begun, hb, hc]

/-- A byte comes in with its last bit. -/
theorem Slot.delivers (h : Slot status payload base src p c s) (hp : Piped p u v s) (hallow : p.Allows u 3 0)
    (d : BitVec 8) (x : Bool) (w : SpiPins) :
    (if (s.clock d x w).rxValid then p.written ++ [(s.clock d x w).rxByte] else p.written)
      = (p.clock r u).written := by
  change (if (s.shift d x).rxValid then p.written ++ [(s.shift d x).rxByte] else p.written) = _
  by_cases hrise : u.sck = true ∧ p.sck = false
  · have hrx : s.rxNext = p.shOut.extractLsb' 0 7 ++ BitVec.ofBool u.mosi := by
      rw [SpiSlave.rxNext, h.rx, hp.mosi₁]
    rw [shift_rise s (by rw [hp.csn, hallow.1 (.inl hrise.1)]) (by rw [hp.rise, hrise.1, hrise.2]; rfl),
      SpiMaster.clock_rise hrise.1 hrise.2, SpiMaster.exchange]
    by_cases h7 : p.bits = 7
    · have hseven : s.bitcnt = 7 := (h.bitcnt_eq (by decide)).mpr h7
      simp [SpiSlave.rise, hseven, h7, hrx]
    · have hseven : ¬s.bitcnt = 7#3 := fun hk => h7 ((h.bitcnt_eq (by decide)).mp hk)
      simp [SpiSlave.rise, hseven, h7, SpiSlave.quiet]
  · have hno : (s.shift d x).rxValid = false := by
      have hr : s.sckRise = false := by
        rw [hp.rise]
        simpa using hrise
      simp only [SpiSlave.shift, SpiSlave.fall, hr, Bool.false_eq_true, if_false]
      split_ifs <;> rfl
    rw [SpiMaster.clock_still hrise, hno]
    rfl

/-- A clock on which no byte is begun. -/
theorem Slot.on (h : Slot status payload base src p c s) (hp : Piped p u v s) (hallow : p.Allows u 3 0)
    (hoff : p.bits = 0 → Offering status payload base src c stx)
    (hr : u.sck = true → p.sck = false → r = s.miso) (hgo : ¬(u.sck = true ∧ p.sck = false ∧ p.bits = 0)) :
    (s.shift stx.hold stx.has).txTake = false ∧
      Slot status payload base src (p.clock r u) c (s.shift stx.hold stx.has) := by
  cases hu : u.sck with
  | false =>
    cases hl : p.sck with
    | false => exact (h.low hp hallow hoff hu hl).2
    | true => exact h.fall hp hallow hoff hu hl
  | true =>
    cases hl : p.sck with
    | false => exact h.bit hp hallow hu hl (fun hb => hgo ⟨hu, hl, hb⟩) (hr hu hl)
    | true => exact h.high hp hallow hu hl

theorem Linked.offering (h : Linked status payload base src p u v r₁ r₀ c b) (hb : p.bits = 0) :
    Offering status payload base src c b.link.stx := by
  have hel : p.elapsed = 28 := if_pos hb
  obtain ⟨hreal, hfill⟩ := h.told.ready h.holds (by omega)
  refine ⟨hreal, hfill, ?_⟩
  rintro x ⟨k, rfl, hx⟩
  have hfeed : Feeding status payload .held k b.link := h.holds
  have hheld := hfeed.held rfl
  exact ⟨hfeed.has, Option.some.inj (hheld.symm.trans hx)⟩

/-- While SCK is low MISO stays. -/
theorem Linked.miso (h : Linked status payload base src p u v r₁ r₀ c b) (hu : u.sck = false) (hl : p.sck = false) :
    (b.link.clock i).spi.miso = b.link.spi.miso :=
  (h.slot.low (r := r₁) h.piped h.allow₁ h.offering hu hl).1

/-- What the slave begins on a clock. -/
theorem Linked.slot_clock (h : Linked status payload base src p u v r₁ r₀ c b)
    (hreq : i.req = true → src = .silent ∧ c.length ≤ base) :
    ∃ c', Slot status payload base (src.next (payload.length + 5) i.req (b.link.clock i).spi.txTake)
        (p.clock r₁ u) c' (b.link.clock i).spi ∧
      (src.next (payload.length + 5) i.req (b.link.clock i).spi.txTake).Told status payload base
        (p.clock r₁ u).elapsed c' ∧
      ((b.link.clock i).spi.txTake = true → ∃ k, src = .sending .held k) := by
  have hlen : i.req = true → c.length ≤ base := fun hr => (hreq hr).2
  by_cases hgo : u.sck = true ∧ p.sck = false ∧ p.bits = 0
  · obtain ⟨hu, hl, hb⟩ := hgo
    obtain ⟨x, hreal, hfill, hslot⟩ := h.slot.begin h.piped h.allow₁ hu hl hb (h.read₁ hu hl)
      (src.next (payload.length + 5) i.req (b.link.clock i).spi.txTake) b.link.stx
    refine ⟨c ++ [x], hslot.clock i.pins, ?_, fun htake => ?_⟩
    · rw [SpiMaster.elapsed_begin hu hl hb]
      cases htake : (b.link.clock i).spi.txTake with
      | true => exact h.told.real (hreal htake)
      | false =>
        obtain ⟨rfl, hf⟩ := hfill htake
        exact h.told.fill hf hlen
    · obtain ⟨k, hk, -⟩ := hreal htake
      exact ⟨k, hk⟩
  · obtain ⟨htake, hslot⟩ := h.slot.on h.piped h.allow₁ h.offering h.read₁ hgo
    have hno : (b.link.clock i).spi.txTake = false := htake
    rw [hno]
    have hel := SpiMaster.elapsed_clock (r := r₁) h.slot.bits_lt h.allow₁ hgo
    exact ⟨c, (hslot.next hlen _).clock i.pins, h.told.keep hel hlen, by simp⟩

theorem Linked.clock (h : Linked status payload base src p u v r₁ r₀ c b) (hallow : b.master.Allows i.pins 3 0)
    (hreq : i.req = true → src = .silent ∧ c.length ≤ base ∧ Request status payload b.link i) :
    ∃ c', Linked status payload base (src.next (payload.length + 5) i.req (b.link.clock i).spi.txTake)
      (p.clock r₁ u) v i.pins r₀ b.link.spi.miso c' (b.clock i) := by
  obtain ⟨c', hslot, htold, htake⟩ := h.slot_clock fun hr => ⟨(hreq hr).1, (hreq hr).2.1⟩
  rw [h.master] at hallow
  refine ⟨c', ⟨h.piped.clock r₁ _ _ _, ?_, h.allow₀, hallow, ?_, ?_, ?_, hslot, htold, ?_, ?_⟩⟩
  · rw [← h.master]
    rfl
  · intro hv hu
    rw [SpiMaster.clock_sck] at hu
    have hlows := (h.allow₀.2 hv (by rw [SpiMaster.clock_sck, hu])).1
    obtain ⟨-, hp⟩ := SpiMaster.low_of_lows (Nat.le_trans (by decide) hlows)
    have hl : p.sck = false := by
      by_contra hne
      have := h.high (by simpa using hne)
      omega
    rw [h.read₀ hv hu]
    exact (h.miso hu hl).symm
  · intro hw hv
    have hlows := (hallow.2 hw (by rw [SpiMaster.clock_sck, hv])).1
    obtain ⟨-, hv'⟩ := SpiMaster.low_of_lows (Nat.le_trans (by decide) hlows)
    obtain ⟨hu, hp⟩ := SpiMaster.low_of_lows (m := p) (r := r₁) (u := u) (by omega)
    have hl : p.sck = false := by
      by_contra hne
      have := h.high (by simpa using hne)
      omega
    exact (h.miso hu hl).symm
  · intro hu
    rw [SpiMaster.clock_sck] at hu
    rw [SpiMaster.clock_lows, hu]
    rfl
  · exact Source.clock h.holds (fun hr => ⟨(hreq hr).1, (hreq hr).2.2⟩) htake
  · rw [← h.slot.delivers h.piped h.allow₁ b.link.stx.hold b.link.stx.has i.pins, ← h.delivered]
    rfl

/-! A whole run. -/

variable {tx : TxPath} {is : List SpiIn}

/-- The bench is in such a state. -/
def Links (status : BitVec 8) (payload : List (BitVec 8)) (base : Nat) (src : Source) (b : SpiBench) : Prop :=
  ∃ p u v r₁ r₀ c, Linked status payload base src p u v r₁ r₀ c b

/-- Reset is as if SCK had been low and the chip not selected. -/
theorem links_reset (hst : tx.tx.st = .idle) (hbs : tx.tx.bstart = false) :
    Links status payload base .silent (.reset tx) := by
  have hpiped : Piped { SpiMaster.reset with lows := 4, since := 4 } ⟨false, false, true⟩ ⟨false, false, true⟩
      .reset := by
    constructor <;> decide
  have hloaded : Loaded status payload base .silent [] .reset :=
    ⟨0, ⟨by decide, by decide⟩, by simp [SpiSlave.reset], fun _ => ⟨rfl, trivial⟩⟩
  exact ⟨_, _, _, false, false, [], {
    piped := hpiped
    master := rfl
    allow₁ := by decide
    allow₀ := by decide
    read₁ := by simp
    read₀ := by simp
    high := by simp [SpiMaster.reset]
    slot := ⟨rfl, rfl, by simp [SpiMaster.reset], fun _ => ⟨rfl, fun _ => hloaded⟩⟩
    told := rfl
    holds := ⟨hst, hbs, rfl, rfl, rfl⟩
    delivered := rfl }⟩

theorem run_cons (b : SpiBench) (i : SpiIn) (is : List SpiIn) : b.run (i :: is) = (b.clock i).run is := rfl

theorem run_append (b : SpiBench) (is js : List SpiIn) : b.run (is ++ js) = (b.run is).run js :=
  List.foldl_append

theorem legal_append {low period : Nat} {js : List SpiIn} :
    SpiBench.Legal low period b (is ++ js) ↔
      SpiBench.Legal low period b is ∧ SpiBench.Legal low period (b.run is) js := by
  induction is generalizing b with
  | nil => exact (and_iff_right trivial).symm
  | cons i is ih =>
    simp only [List.cons_append, SpiBench.Legal, run_cons, ih, and_assoc]

theorem run_ram (b : SpiBench) (is : List SpiIn) : (b.run is).link.tx.ram = b.link.tx.ram := by
  induction is generalizing b with
  | nil => rfl
  | cons i is ih => exact ih (b.clock i)

theorem Links.clock (h : Links status payload base src b) (hallow : b.master.Allows i.pins 3 0)
    (hreq : i.req = false) :
    ∃ take, Links status payload base (src.next (payload.length + 5) false take) (b.clock i) := by
  obtain ⟨p, u, v, r₁, r₀, c, hl⟩ := h
  obtain ⟨c', hl'⟩ := hl.clock hallow (by simp [hreq])
  rw [hreq] at hl'
  exact ⟨_, _, _, _, _, _, c', hl'⟩

/-- Before the request. -/
theorem Links.silent (h : Links status payload base .silent b) (hlegal : SpiBench.Legal 3 0 b is)
    (hreq : ∀ i ∈ is, i.req = false) : Links status payload base .silent (b.run is) := by
  induction is generalizing b with
  | nil => exact h
  | cons i is ih =>
    obtain ⟨take, hnext⟩ := h.clock hlegal.1 (hreq i List.mem_cons_self)
    exact ih hnext hlegal.2 fun j hj => hreq j (List.mem_cons_of_mem i hj)

/-- From the request on. -/
theorem Links.answering (hsrc : src ≠ .silent) (h : Links status payload base src b)
    (hlegal : SpiBench.Legal 3 0 b is) (hreq : ∀ i ∈ is, i.req = false) :
    ∃ src', src' ≠ .silent ∧ Links status payload base src' (b.run is) := by
  induction is generalizing b src with
  | nil => exact ⟨src, hsrc, h⟩
  | cons i is ih =>
    obtain ⟨take, hnext⟩ := h.clock hlegal.1 (hreq i List.mem_cons_self)
    refine ih ?_ hnext hlegal.2 fun j hj => hreq j (List.mem_cons_of_mem i hj)
    cases src with
    | silent => exact absurd rfl hsrc
    | finished => simp [Source.next]
    | sending g k =>
      simp only [Source.next]
      split_ifs <;> simp

/-- Filler, the response once, and filler again, as far as it was read. -/
def Padded (response : List (BitVec 8)) (filler : Nat) (read : List (BitVec 8)) : Prop :=
  read = (List.replicate filler 0 ++ response ++ List.replicate read.length 0).take read.length

theorem Padded.of_begins {response read : List (BitVec 8)} {filler : Nat}
    (h : read <+: List.replicate filler 0 ++ response ++ List.replicate read.length 0) :
    Padded response filler read := List.prefix_iff_eq_take.mp h

theorem Source.Told.padded {clocks : Nat} (h : src.Told status payload base clocks c) (hsrc : src ≠ .silent) :
    ∃ a ≤ base + 1, Padded (response status payload) a c := by
  cases src with
  | silent => exact absurd rfl hsrc
  | sending g k =>
    obtain ⟨⟨a, ha, hc⟩, -⟩ := h
    refine ⟨a, ha, .of_begins (List.IsPrefix.trans ?_ (List.prefix_append _ _))⟩
    rw [hc]
    exact (List.prefix_append_right_inj _).mpr (List.take_prefix _ _)
  | finished =>
    obtain ⟨a, ha, z, hc⟩ := h
    have hz : z ≤ c.length := by
      rw [hc, List.length_append, List.length_replicate]
      exact Nat.le_add_left z _
    have hfill : List.replicate z (0 : BitVec 8) <+: List.replicate c.length 0 := by
      rw [← Nat.min_eq_left hz, ← List.take_replicate]
      exact List.take_prefix _ _
    have hpre := (List.prefix_append_right_inj (List.replicate a 0 ++ response status payload)).mpr hfill
    rw [← hc] at hpre
    exact ⟨a, ha, .of_begins hpre⟩

/-- Two samples with SCK low, and the slave has caught up. -/
theorem Linked.settled (h : Linked status payload base src p u v r₁ r₀ c b) (hbits : b.master.bits = 0)
    (hlows : 2 ≤ b.master.lows) : c = b.master.read ∧ b.delivered = b.master.written := by
  rw [h.master] at hbits hlows ⊢
  obtain ⟨hv, hlv⟩ := SpiMaster.low_of_lows (Nat.le_trans (by decide) hlows)
  obtain ⟨hu, -⟩ := SpiMaster.low_of_lows (m := p) (r := r₁) (u := u) (by omega)
  rw [SpiMaster.clock_still (by simp [hv]), SpiMaster.clock_still (by simp [hu])] at hbits ⊢
  exact ⟨(h.slot.between hbits).1, h.delivered⟩

/-- A master that leaves SCK low for three clocks before it rises reads the response byte
for byte, and what it writes is delivered byte for byte. -/
theorem response_read {before rest : List SpiIn} (hst : tx.tx.st = .idle) (hbs : tx.tx.bstart = false)
    (hsmall : payload.length ≤ 8192) (hram : ∀ j (hj : j < payload.length), tx.ram (BitVec.ofNat 13 j) = payload[j])
    (hreq : i.req = true) (hlen : i.len = txLen payload) (hother : ∀ j ∈ before ++ rest, j.req = false)
    (hlegal : SpiBench.Legal 3 0 (.reset tx) (before ++ i :: rest))
    (hbits : ((SpiBench.reset tx).run (before ++ i :: rest)).master.bits = 0)
    (hlows : 2 ≤ ((SpiBench.reset tx).run (before ++ i :: rest)).master.lows) :
    ((SpiBench.reset tx).run (before ++ i :: rest)).delivered
        = ((SpiBench.reset tx).run (before ++ i :: rest)).master.written ∧
      ∃ filler ≤ ((SpiBench.reset tx).run before).master.begun + 1,
        Padded (frame 0x5A#8 i.status payload) filler ((SpiBench.reset tx).run (before ++ i :: rest)).master.read := by
  obtain ⟨hbefore, hat, hrest⟩ := legal_append.mp hlegal
  rw [run_append, run_cons] at hbits hlows ⊢
  set b := (SpiBench.reset tx).run before with hb
  have hsilent : Links i.status payload b.master.begun .silent b :=
    (links_reset hst hbs).silent hbefore fun j hj => hother j (List.mem_append_left rest hj)
  obtain ⟨p, u, v, r₁, r₀, c, hl⟩ := hsilent
  have hbegun : c.length ≤ b.master.begun := by
    rw [hl.slot.begun, hl.master]
    exact Nat.le_trans (p.begun_le r₁ u) ((p.clock r₁ u).begun_le r₀ v)
  have hram' : b.link.tx.ram = tx.ram := run_ram (.reset tx) before
  have hrequest : Request i.status payload b.link i := ⟨rfl, hlen, hsmall, by rw [hram']; exact hram⟩
  obtain ⟨c', hl'⟩ := hl.clock hat fun _ => ⟨rfl, hbegun, hrequest⟩
  rw [hreq] at hl'
  obtain ⟨src, hsrc, p', u', v', r₁', r₀', c'', hend⟩ := Links.answering (by simp [Source.next])
    ⟨_, _, _, _, _, _, hl'⟩ hrest fun j hj => hother j (List.mem_append_right before hj)
  obtain ⟨hread, hdelivered⟩ := hend.settled hbits hlows
  obtain ⟨filler, hfiller, hpad⟩ := hend.told.padded hsrc
  exact ⟨hdelivered, filler, hfiller, hread ▸ hpad⟩

/-! Two bytes, with SCK low and high for so many clocks. -/

def lowFor (n : Nat) : List SpiIn := List.replicate n ⟨⟨false, false, false⟩, false, 0, 0⟩

def shiftedOut (low high : Nat) (bits : List Bool) : List SpiIn :=
  bits.flatMap fun bit => lowFor low ++ List.replicate high ⟨⟨true, bit, false⟩, false, 0, 0⟩

/-- The transmitter after reset. -/
def freshTx : TxPath where
  tx := { st := .idle, pos := 0, crc := 0xFFFF#16, lenR := 0, statR := 0, ra := 0, bstart := false, bdata := 0 }
  ram := fun _ => 0
  rq := 0

/-- A request for an empty response, and then the bytes. -/
def askedFor : SpiIn := ⟨⟨false, false, true⟩, true, 0x03#8, 0⟩

def twoBytes (low high : Nat) : List SpiIn :=
  lowFor 12 ++ shiftedOut low high (List.replicate 16 true) ++ lowFor 3

theorem response_read_two_bytes :
    ((SpiBench.reset freshTx).run ([] ++ askedFor :: twoBytes 3 3)).delivered
        = ((SpiBench.reset freshTx).run ([] ++ askedFor :: twoBytes 3 3)).master.written ∧
      ∃ filler ≤ ((SpiBench.reset freshTx).run []).master.begun + 1,
        Padded (frame 0x5A#8 askedFor.status []) filler
          ((SpiBench.reset freshTx).run ([] ++ askedFor :: twoBytes 3 3)).master.read :=
  response_read rfl rfl (Nat.zero_le _) (by simp) rfl rfl (by decide +kernel) (by decide +kernel)
    (by decide +kernel) (by decide +kernel)

/-- With SCK low for two clocks only, the period being the same, the master reads each bit
before it is there. -/
theorem response_misread :
    SpiBench.Legal 0 6 (.reset freshTx) (askedFor :: twoBytes 2 4) ∧
      ((SpiBench.reset freshTx).run (askedFor :: twoBytes 2 4)).master.bits = 0 ∧
      2 ≤ ((SpiBench.reset freshTx).run (askedFor :: twoBytes 2 4)).master.lows ∧
      ∀ filler, ¬Padded (frame 0x5A#8 askedFor.status []) filler
        ((SpiBench.reset freshTx).run (askedFor :: twoBytes 2 4)).master.read := by
  have hread : ((SpiBench.reset freshTx).run (askedFor :: twoBytes 2 4)).master.read = [0x00#8, 0x2D#8] := by
    decide +kernel
  refine ⟨by decide +kernel, by decide +kernel, by decide +kernel, fun filler hpad => ?_⟩
  rw [hread, Padded] at hpad
  obtain _ | _ | n := filler
  · exact absurd hpad (by decide)
  · exact absurd hpad (by decide)
  · have hsecond := congrArg (fun l => l[1]?) hpad
    simp [List.replicate_succ] at hsecond

end GoiKey.Rtl
