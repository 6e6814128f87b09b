import GoiKey.Model.SpiSlave
import GoiKey.Proofs.FrameTx

/-! How the transmitter and `SpiTxIf` bring the bytes of a frame to the slave. -/

namespace GoiKey.Rtl

/-- Where a byte of the frame is. -/
inductive Stage where
  | fetch
  | fetch2
  | load
  | send
  | offered
  | held
  | taken
  | released
  deriving DecidableEq

namespace Stage

def st : Stage → TxState
  | .fetch => .fetch
  | .fetch2 => .fetch2
  | .load => .load
  | .send => .send
  | .offered | .held | .taken | .released => .wait

/-- The byte is in `hold`. -/
def has : Stage → Bool
  | .held | .taken => true
  | _ => false

/-- The slave has begun the byte. -/
def gone : Stage → Bool
  | .taken | .released => true
  | _ => false

/-- The clocks until a byte is held that the slave has not begun. -/
def wait : Stage → Nat
  | .taken => 7
  | .released => 6
  | .fetch => 5
  | .fetch2 => 4
  | .load => 3
  | .send => 2
  | .offered => 1
  | .held => 0

def next (take : Bool) : Stage → Stage
  | .fetch => .fetch2
  | .fetch2 => .load
  | .load => .send
  | .send => .offered
  | .offered => .held
  | .held => if take then .taken else .held
  | .taken => .released
  | .released => .fetch

end Stage

variable {status : BitVec 8} {payload : List (BitVec 8)} {s : SpiLink} {i : SpiIn} {g : Stage} {k : Nat}

/-- The response on the wires. -/
abbrev response (status : BitVec 8) (payload : List (BitVec 8)) : List (BitVec 8) := frame 0x5A#8 status payload

/-- Byte `k` of the response is at this stage. -/
structure Feeding (status : BitVec 8) (payload : List (BitVec 8)) (g : Stage) (k : Nat) (s : SpiLink) : Prop where
  sending : ∃ sent, Sending status payload sent s.tx
  pos : s.tx.tx.pos.toNat = k
  st : s.tx.tx.st = g.st
  bstart : s.tx.tx.bstart = decide (g = .offered)
  has : s.stx.has = g.has
  done : s.stx.done = decide (g = .released)
  take : s.spi.txTake = decide (g = .taken)
  offered : g = .offered → (response status payload)[k]? = some s.tx.tx.bdata
  held : g.has = true → (response status payload)[k]? = some s.stx.hold

/-- Nothing is being sent. -/
structure Resting (s : SpiLink) : Prop where
  st : s.tx.tx.st = .idle
  bstart : s.tx.tx.bstart = false
  has : s.stx.has = false
  done : s.stx.done = false
  take : s.spi.txTake = false

theorem Resting.clock (h : Resting s) (hreq : i.req = false) (htake : (s.clock i).spi.txTake = false) :
    Resting (s.clock i) := by
  obtain ⟨hst, hbs, hhas, -, ht⟩ := h
  refine ⟨?_, ?_, ?_, ?_, htake⟩
  all_goals simp [SpiLink.clock, TxPath.clock, FrameTx.clock, SpiTxIf.clock, hst, hbs, hhas, ht, hreq]

/-- A request. -/
theorem Resting.begin (h : Resting s) (hreq : i.req = true) (hlen : i.len = txLen payload)
    (hsmall : payload.length ≤ 8192)
    (hram : ∀ j (hj : j < payload.length), s.tx.ram (BitVec.ofNat 13 j) = payload[j])
    (htake : (s.clock i).spi.txTake = false) : Feeding i.status payload .fetch 0 (s.clock i) := by
  obtain ⟨hst, hbs, hhas, hdone, ht⟩ := h
  have htx : (s.clock i).tx.tx = { s.tx.tx with
      bstart := false, statR := i.status, lenR := i.len, pos := 0, crc := 0xFFFF#16, st := .fetch } := by
    simp [SpiLink.clock, TxPath.clock, FrameTx.clock, hst, hreq]
  have hstx : (s.clock i).stx = { s.stx with has := false, done := false } := by
    simp [SpiLink.clock, SpiTxIf.clock, hbs, hhas]
  have hat : Position i.status payload (s.clock i).tx :=
    ⟨hsmall, by rw [htx]; exact hlen, by rw [htx], hram, by rw [htx]; exact Nat.succ_pos _⟩
  refine ⟨⟨[], hat, ?_⟩, by rw [htx]; rfl, by rw [htx]; rfl, by rw [htx]; rfl, by rw [hstx]; rfl,
    by rw [hstx]; rfl, htake, by simp, by simp [Stage.has]⟩
  simp only [Summed, htx]
  exact ⟨rfl, rfl⟩

section Feeding

variable (h : Feeding status payload g k s)

include h

theorem Feeding.last_iff : s.tx.tx.pos = s.tx.tx.endPl + 1#17 ↔ k = payload.length + 5 := by
  obtain ⟨_, hp, _⟩ := h.sending
  rw [hp.last_iff, h.pos]

theorem Feeding.lt : k < (response status payload).length := by
  obtain ⟨_, hp, _⟩ := h.sending
  rw [frame_length, ← h.pos]
  exact hp.pos

end Feeding

theorem sending_on (h : Feeding status payload g k s) (hgo : g = .released → k ≠ payload.length + 5) :
    ∃ sent, Sending status payload sent (s.clock i).tx := by
  obtain ⟨sent, hs⟩ := h.sending
  refine ⟨_, sending_clock hs ?_⟩
  rintro ⟨hw, hd, hlast⟩
  have hrel : g = .released := by simpa [h.done] using hd
  exact hgo hrel (h.pos ▸ hlast)

/-- One clock, on which the slave may begin the byte that is held. -/
theorem Feeding.clock (h : Feeding status payload g k s) (hgo : g = .released → k ≠ payload.length + 5)
    (htake : (s.clock i).spi.txTake = true → g = .held) :
    Feeding status payload (g.next (s.clock i).spi.txTake) (if g = .released then k + 1 else k) (s.clock i) := by
  have hsend := sending_on (i := i) h hgo
  have hlast := h.last_iff
  obtain ⟨_, hp, hbyte⟩ := h.sending
  obtain ⟨-, hpos, hst, hbs, hhas, hdone, ht, hoff, hheld⟩ := h
  generalize hclk : (s.clock i).spi.txTake = t at *
  cases g with
  | fetch =>
    obtain rfl : t = false := by simpa using htake
    have htx : (s.clock i).tx.tx = { s.tx.tx with bstart := false, ra := s.tx.tx.pos.setWidth 13 - 4#13, st := .fetch2 } := by
      simp [SpiLink.clock, TxPath.clock, FrameTx.clock, hst, Stage.st]
    have hstx : (s.clock i).stx = { s.stx with done := false } := by
      simp [SpiLink.clock, SpiTxIf.clock, hbs, ht]
    constructor <;> simp [htx, hstx, hclk, hsend, hpos, hhas, Stage.next, Stage.st, Stage.has]
  | fetch2 =>
    obtain rfl : t = false := by simpa using htake
    have htx : (s.clock i).tx.tx = { s.tx.tx with bstart := false, st := .load } := by
      simp [SpiLink.clock, TxPath.clock, FrameTx.clock, hst, Stage.st]
    have hstx : (s.clock i).stx = { s.stx with done := false } := by
      simp [SpiLink.clock, SpiTxIf.clock, hbs, ht]
    constructor <;> simp [htx, hstx, hclk, hsend, hpos, hhas, Stage.next, Stage.st, Stage.has]
  | load =>
    obtain rfl : t = false := by simpa using htake
    have htx : (s.clock i).tx.tx = { s.tx.tx with 
        bstart := false
        bdata := s.tx.tx.b s.tx.rq
        crc := if s.tx.tx.inCrc then crc16Step s.tx.tx.crc (s.tx.tx.b s.tx.rq) else s.tx.tx.crc
        st := .send } := by
      simp [SpiLink.clock, TxPath.clock, FrameTx.clock, hst, Stage.st]
    have hstx : (s.clock i).stx = { s.stx with done := false } := by
      simp [SpiLink.clock, SpiTxIf.clock, hbs, ht]
    constructor <;> simp [htx, hstx, hclk, hsend, hpos, hhas, Stage.next, Stage.st, Stage.has]
  | send =>
    obtain rfl : t = false := by simpa using htake
    have hdata : (response status payload)[k]? = some s.tx.tx.bdata := by
      simp only [hst, Stage.st, hpos] at hbyte
      exact hbyte.2.2
    have htx : (s.clock i).tx.tx = { s.tx.tx with bstart := true, st := .wait } := by
      simp [SpiLink.clock, TxPath.clock, FrameTx.clock, hst, Stage.st, SpiTxIf.busy, hhas, Stage.has]
    have hstx : (s.clock i).stx = { s.stx with done := false } := by
      simp [SpiLink.clock, SpiTxIf.clock, hbs, ht]
    constructor <;> simp [htx, hstx, hclk, hsend, hpos, hhas, hdata, Stage.next, Stage.st, Stage.has]
  | offered =>
    obtain rfl : t = false := by simpa using htake
    have htx : (s.clock i).tx.tx = { s.tx.tx with bstart := false } := by
      simp [SpiLink.clock, TxPath.clock, FrameTx.clock, hst, Stage.st, hdone]
    have hstx : (s.clock i).stx = { s.stx with hold := s.tx.tx.bdata, has := true, done := false } := by
      simp [SpiLink.clock, SpiTxIf.clock, hbs, hhas, Stage.has]
    constructor <;> simp [htx, hstx, hclk, hsend, hpos, hoff rfl, hst, Stage.next, Stage.st, Stage.has]
  | held =>
    have htx : (s.clock i).tx.tx = { s.tx.tx with bstart := false } := by
      simp [SpiLink.clock, TxPath.clock, FrameTx.clock, hst, Stage.st, hdone]
    have hstx : (s.clock i).stx = { s.stx with done := false } := by
      simp [SpiLink.clock, SpiTxIf.clock, hbs, ht]
    cases t <;> constructor <;> simp [htx, hstx, hclk, hsend, hpos, hhas, hheld rfl, hst, Stage.next, Stage.st, Stage.has]
  | taken =>
    obtain rfl : t = false := by simpa using htake
    have htx : (s.clock i).tx.tx = { s.tx.tx with bstart := false } := by
      simp [SpiLink.clock, TxPath.clock, FrameTx.clock, hst, Stage.st, hdone]
    have hstx : (s.clock i).stx = { s.stx with has := false, done := true } := by
      simp [SpiLink.clock, SpiTxIf.clock, hbs, ht, hhas, Stage.has]
    constructor <;> simp [htx, hstx, hclk, hsend, hpos, hst, Stage.next, Stage.st, Stage.has]
  | released =>
    obtain rfl : t = false := by simpa using htake
    have hnext : (s.tx.tx.pos + 1#17).toNat = k + 1 := by
      have := hp.pos
      have := hp.small
      rw [BitVec.toNat_add, hpos, BitVec.toNat_ofNat]
      omega
    have htx : (s.clock i).tx.tx = { s.tx.tx with bstart := false, pos := s.tx.tx.pos + 1#17, st := .fetch } := by
      simp [SpiLink.clock, TxPath.clock, FrameTx.clock, hst, Stage.st, hdone, hlast, hgo]
    have hstx : (s.clock i).stx = { s.stx with done := false } := by
      simp [SpiLink.clock, SpiTxIf.clock, hbs, ht]
    constructor <;> simp [htx, hstx, hclk, hsend, hnext, hhas, Stage.next, Stage.st, Stage.has]

/-- The last byte has been shifted out. -/
theorem Feeding.ends (h : Feeding status payload .released k s) (hk : k = payload.length + 5)
    (htake : (s.clock i).spi.txTake = false) : Resting (s.clock i) := by
  have hlast := h.last_iff.mpr hk
  obtain ⟨-, -, hst, hbs, hhas, hdone, ht, -, -⟩ := h
  refine ⟨?_, ?_, ?_, ?_, htake⟩
  all_goals
    simp [SpiLink.clock, TxPath.clock, FrameTx.clock, SpiTxIf.clock, hst, hbs, hhas, hdone, ht, hlast, Stage.st,
      Stage.has]

/-! The transmitter over a run with one request. -/

inductive Source where
  | silent
  | sending (g : Stage) (k : Nat)
  | finished

/-- The registers of the transmitter and of `SpiTxIf` in this state. -/
def Source.Holds (status : BitVec 8) (payload : List (BitVec 8)) : Source → SpiLink → Prop
  | .silent, s | .finished, s => Resting s
  | .sending g k, s => Feeding status payload g k s

/-- `last` is the position of the last byte of the response. -/
def Source.next (last : Nat) (req take : Bool) : Source → Source
  | .silent => if req then .sending .fetch 0 else .silent
  | .sending g k =>
    if g = .released then if k = last then .finished else .sending .fetch (k + 1)
    else .sending (g.next take) k
  | .finished => .finished

/-- A request for the response. -/
structure Request (status : BitVec 8) (payload : List (BitVec 8)) (s : SpiLink) (i : SpiIn) : Prop where
  status_eq : i.status = status
  len : i.len = txLen payload
  small : payload.length ≤ 8192
  ram : ∀ j (hj : j < payload.length), s.tx.ram (BitVec.ofNat 13 j) = payload[j]

variable {src : Source}

theorem Source.clock (h : src.Holds status payload s)
    (hreq : i.req = true → src = .silent ∧ Request status payload s i)
    (htake : (s.clock i).spi.txTake = true → ∃ k, src = .sending .held k) :
    (src.next (payload.length + 5) i.req (s.clock i).spi.txTake).Holds status payload (s.clock i) := by
  cases src with
  | silent =>
    have hno : (s.clock i).spi.txTake = false := by simpa using htake
    cases hr : i.req with
    | false => exact Resting.clock h hr hno
    | true =>
      obtain ⟨-, rfl, hlen, hsmall, hram⟩ := hreq hr
      exact Resting.begin h hr hlen hsmall hram hno
  | finished =>
    have hno : (s.clock i).spi.txTake = false := by simpa using htake
    have hr : i.req = false := by simpa using hreq
    exact Resting.clock h hr hno
  | sending g k =>
    have hheld : (s.clock i).spi.txTake = true → g = .held := by simpa using htake
    simp only [Source.next]
    split_ifs with hrel hlast
    · subst hrel
      exact Feeding.ends h hlast (by simpa using hheld)
    · subst hrel
      exact Feeding.clock h (fun _ => hlast) hheld
    · have hclk := Feeding.clock h (fun hk => absurd hk hrel) hheld
      rwa [if_neg hrel] at hclk

/-! The bytes the slave has begun. -/

/-- The bytes of the response among them when byte `k` is at this stage. -/
def Stage.count (g : Stage) (k : Nat) : Nat := if g.gone then k + 1 else k

/-- What the slave has begun: filler, then the response as far as it is. `base` bytes were
begun when the request came, and this many clocks have passed since the last of them. -/
def Source.Told (status : BitVec 8) (payload : List (BitVec 8)) (base clocks : Nat) :
    Source → List (BitVec 8) → Prop
  | .silent, c => c = List.replicate c.length 0
  | .sending g k, c =>
    (∃ a ≤ base + 1, c = List.replicate a 0 ++ (response status payload).take (g.count k)) ∧
      (g.count k ≠ 0 ∨ base < c.length → g.wait ≤ 7 - clocks)
  | .finished, c => ∃ a ≤ base + 1, ∃ z, c = List.replicate a 0 ++ response status payload ++ List.replicate z 0

/-- A slot may be filler. -/
def Source.Fills (base : Nat) : Source → List (BitVec 8) → Prop
  | .silent, _ | .finished, _ => True
  | .sending g k, c => g.count k = 0 ∧ c.length ≤ base

/-- This byte is the next one of the response, and it is held. -/
def Source.Offers (status : BitVec 8) (payload : List (BitVec 8)) (b : BitVec 8) (src : Source) : Prop :=
  ∃ k, src = .sending .held k ∧ (response status payload)[k]? = some b

section Told

variable {base clocks clocks' : Nat} {c : List (BitVec 8)} {req : Bool} {b : BitVec 8}

theorem Stage.wait_next (g : Stage) : (g.next false).wait ≤ g.wait - 1 ∨ g = .released := by
  cases g <;> simp [Stage.next, Stage.wait]

theorem Stage.count_next (g : Stage) (k : Nat) (h : g ≠ .released) : (g.next false).count k = g.count k := by
  cases g <;> simp_all [Stage.next, Stage.count, Stage.gone]

theorem Source.Offers.next (h : src.Offers status payload b) (last : Nat) :
    (src.next last req false).Offers status payload b := by
  obtain ⟨k, rfl, hb⟩ := h
  exact ⟨k, by simp [Source.next, Stage.next], hb⟩

theorem Source.Fills.next (h : src.Fills base c) (hreq : req = true → c.length ≤ base) (last : Nat) :
    (src.next last req false).Fills base c := by
  cases src with
  | silent =>
    cases req with
    | false => trivial
    | true => exact ⟨rfl, hreq rfl⟩
  | finished => trivial
  | sending g k =>
    simp only [Source.next]
    split_ifs with hrel hlast
    · trivial
    · subst hrel
      exact absurd h.1 (Nat.succ_ne_zero k)
    · exact ⟨(g.count_next k hrel).trans h.1, h.2⟩

/-- A clock on which the slave begins no byte. -/
theorem Source.Told.keep (h : src.Told status payload base clocks c) (hclocks : clocks' ≤ clocks + 1)
    (hreq : req = true → c.length ≤ base) :
    (src.next (payload.length + 5) req false).Told status payload base clocks' c := by
  cases src with
  | silent =>
    cases req with
    | false => exact h
    | true =>
      have hlen := hreq rfl
      refine ⟨⟨c.length, by omega, ?_⟩, fun hlate => ?_⟩
      · rw [show Stage.count .fetch 0 = 0 from rfl, List.take_zero, List.append_nil]
        exact h
      · rcases hlate with hcount | hlt
        · exact absurd rfl hcount
        · omega
  | finished => exact h
  | sending g k =>
    obtain ⟨⟨a, ha, hc⟩, hwait⟩ := h
    simp only [Source.next]
    split_ifs with hrel hlast
    · subst hrel
      refine ⟨a, ha, 0, ?_⟩
      rw [hc, show Stage.count .released k = k + 1 from rfl,
        List.take_of_length_le (by rw [frame_length]; omega)]
      exact (List.append_nil _).symm
    · subst hrel
      refine ⟨⟨a, ha, hc⟩, fun _ => ?_⟩
      have := hwait (.inl (Nat.succ_ne_zero k))
      simp only [Stage.wait] at this ⊢
      omega
    · have hcount := g.count_next k hrel
      refine ⟨⟨a, ha, by rw [hcount]; exact hc⟩, fun hlate => ?_⟩
      rw [hcount] at hlate
      have hnext := g.wait_next.resolve_right hrel
      have := hwait hlate
      omega

/-- The slave begins a slot of filler. -/
theorem Source.Told.fill (h : src.Told status payload base clocks c) (hfill : src.Fills base c)
    (hreq : req = true → c.length ≤ base) :
    (src.next (payload.length + 5) req false).Told status payload base 0 (c ++ [0]) := by
  cases src with
  | silent =>
    have hzero : c ++ [0] = List.replicate (c.length + 1) 0 := by
      rw [List.replicate_succ', ← show c = List.replicate c.length 0 from h]
    cases req with
    | false =>
      change c ++ [0] = List.replicate (c ++ [0]).length 0
      rw [List.length_append]
      exact hzero
    | true =>
      have hlen := hreq rfl
      refine ⟨⟨c.length + 1, by omega, ?_⟩, fun _ => ?_⟩
      · rw [show Stage.count .fetch 0 = 0 from rfl, List.take_zero, List.append_nil]
        exact hzero
      · simp [Stage.wait]
  | finished =>
    obtain ⟨a, ha, z, hc⟩ := h
    refine ⟨a, ha, z + 1, ?_⟩
    rw [hc, List.replicate_succ', List.append_assoc]
  | sending g k =>
    obtain ⟨⟨a, ha, hc⟩, -⟩ := h
    obtain ⟨hzero, hlen⟩ := hfill
    have hrel : g ≠ .released := by
      rintro rfl
      exact absurd hzero (Nat.succ_ne_zero k)
    have hcount := (g.count_next k hrel).trans hzero
    rw [hzero, List.take_zero, List.append_nil] at hc
    have hall : c.length = a := by rw [hc, List.length_replicate]
    simp only [Source.next, if_neg hrel]
    refine ⟨⟨a + 1, by omega, ?_⟩, fun _ => ?_⟩
    · rw [hcount, List.take_zero, List.append_nil, List.replicate_succ', ← hc]
    · cases g <;> simp [Stage.next, Stage.wait]

/-- The slave begins the byte that is held. -/
theorem Source.Told.real (h : src.Told status payload base clocks c) (hb : src.Offers status payload b) :
    (src.next (payload.length + 5) req true).Told status payload base 0 (c ++ [b]) := by
  obtain ⟨k, rfl, hb⟩ := hb
  obtain ⟨⟨a, ha, hc⟩, -⟩ := h
  have hnext : Source.next (payload.length + 5) req true (.sending .held k) = .sending .taken k := by
    simp [Source.next, Stage.next]
  rw [hnext]
  refine ⟨⟨a, ha, ?_⟩, fun _ => Nat.le_refl 7⟩
  have hcount : Stage.count .taken k = k + 1 := rfl
  have hcount' : Stage.count .held k = k := rfl
  rw [hcount, List.take_add_one, hb, hc, hcount', Option.toList_some, List.append_assoc]

/-- Once a byte has been on the wires for this long the next one is held. -/
theorem Source.Told.ready (h : src.Told status payload base clocks c) (hs : src.Holds status payload s)
    (hclocks : 7 ≤ clocks) :
    (s.stx.has = true → src.Offers status payload s.stx.hold) ∧ (s.stx.has = false → src.Fills base c) := by
  cases src with
  | silent | finished => exact ⟨fun hhas => absurd (hs.has.symm.trans hhas) Bool.false_ne_true, fun _ => trivial⟩
  | sending g k =>
    obtain ⟨-, hwait⟩ := h
    have hheld : g.count k ≠ 0 ∨ base < c.length → g = .held := by
      intro hlate
      have := hwait hlate
      cases g <;> simp [Stage.wait] at * <;> omega
    constructor
    · intro hhas
      rw [hs.has] at hhas
      have hg : g = .held := by
        cases g with
        | held => rfl
        | taken => exact hheld (.inl (Nat.succ_ne_zero k))
        | _ => exact absurd hhas Bool.false_ne_true
      subst hg
      exact ⟨k, rfl, hs.held rfl⟩
    · intro hhas
      rw [hs.has] at hhas
      by_contra hfill
      have hg : g = .held := by
        apply hheld
        simp only [Source.Fills, not_and_or] at hfill
        omega
      subst hg
      exact absurd hhas.symm Bool.false_ne_true

/-- Where filler may still be there is a byte only if it is the first, whose first bit is zero. -/
theorem Source.Fills.first (h : src.Fills base c) (hb : src.Offers status payload b) : b.getLsbD 7 = false := by
  obtain ⟨k, rfl, hb⟩ := hb
  obtain ⟨hzero, -⟩ := h
  have hk : k = 0 := hzero
  subst hk
  obtain rfl : 0x5A#8 = b := by simpa [frame] using hb
  rfl

end Told

end GoiKey.Rtl
