import GoiKey.Model.AccelTop
import GoiKey.Proofs.Frames

/-!
A command in flight and the bytes that come in meanwhile. Two runs are compared, from the
clock on which a frame starts the command: with the bytes on the links, and with none.
What the receiver takes can get to the response only where the top level looks neither
busy with the command nor with the response.
-/

namespace GoiKey.Rtl

open Clocked AccelTop

/-! What a clock of the receiver can do. -/

theorem frameOk_clock {s : FrameRx} {i : RxIn} (h : (s.clock i).frameOk = true) :
    i.byteValid = true ∧ s.st = .c1 ∧ i.byteIn ++ s.c0 = s.crc ∧ i.accept = true ∧ s.len.toNat ≤ 8192 := by
  have hquiet : ∀ v, (s.quiet v).frameOk = false := by
    intro v
    unfold FrameRx.quiet
    split_ifs <;> rfl
  unfold FrameRx.clock at h
  split_ifs at h with hv
  · cases hst : s.st <;> simp only [FrameRx.take, hst] at h
    case sof => split_ifs at h <;> simp [hquiet] at h
    case pl => unfold FrameRx.payload at h; split_ifs at h <;> simp [hquiet] at h
    case c1 =>
      unfold FrameRx.check at h
      split_ifs at h with hc
      · exact ⟨hv, rfl, hc⟩
      · simp [hquiet] at h
    all_goals simp [hquiet] at h
  · simp [hquiet] at h

theorem we_clock {s : FrameRx} {i : RxIn} (h : (s.clock i).we = true) : s.st = .pl ∧ i.accept = true := by
  have hquiet : ∀ v, (s.quiet v).we = false := by
    intro v
    unfold FrameRx.quiet
    split_ifs <;> rfl
  unfold FrameRx.clock at h
  split_ifs at h with hv
  · cases hst : s.st <;> simp only [FrameRx.take, hst] at h
    case sof => split_ifs at h <;> simp [hquiet] at h
    case pl =>
      by_contra hn
      have ha : ¬(i.accept = true ∧ s.cnt.toNat < 8192) := fun ha => hn ⟨rfl, ha.1⟩
      rw [FrameRx.payload, if_neg ha] at h
      simp [hquiet] at h
    case c1 => unfold FrameRx.check at h; split_ifs at h <;> simp [hquiet] at h
    all_goals simp [hquiet] at h
  · simp [hquiet] at h

/-- Without bytes the receiver waits for a start byte. -/
theorem clock_silent {s : FrameRx} {i : RxIn} (h : s.st = .sof) (hv : i.byteValid = false) :
    (s.clock i).st = .sof ∧ (s.clock i).frameBad = false := by
  rw [FrameRx.clock, hv, if_neg Bool.false_ne_true, FrameRx.quiet]
  split_ifs <;> first | exact ⟨h, rfl⟩ | exact ⟨rfl, rfl⟩

/-- The transmitter looks at the request only when it is idle, at status and length only
with a request. -/
theorem FrameTx.clock_congr {s : FrameTx} {rd : BitVec 8} {i j : TxIn} (hbusy : i.bbusy = j.bbusy)
    (hdone : i.bdone = j.bdone)
    (h : s.st ≠ .fetch → i.req = j.req ∧ (i.req = true → i.status = j.status ∧ i.len = j.len)) :
    s.clock rd i = s.clock rd j := by
  unfold FrameTx.clock
  rw [hbusy, hdone]
  cases hst : s.st with
  | idle =>
    obtain ⟨hreq, hval⟩ := h (by rw [hst]; exact fun h => nomatch h)
    simp only [← hreq]
    by_cases hr : i.req = true
    · simp only [hr, (hval hr).1, (hval hr).2]
    · simp only [hr, Bool.false_eq_true, if_false]
  | _ => rfl

theorem fetch_of_req {s : FrameTx} {rd : BitVec 8} {i : TxIn} (h : s.st = .idle) (hr : i.req = true) :
    (s.clock rd i).st = .fetch := by
  simp [FrameTx.clock, h, hr]

namespace AccelTop

variable {σ : Type} (P : Profile) (C : Cores σ)

/-- A frame has just been accepted. -/
structure Started (s : AccelTop σ) : Prop where
  ok : s.rx.rx.frameOk = true
  st : s.rx.rx.st = .sof
  we : s.rx.rx.we = false
  bad : s.rx.rx.frameBad = false

/-- Every frame that is accepted starts a command so. -/
theorem started_of_frameOk {s : AccelTop σ} {i : Pins} (h : (s.clock P C i).rx.rx.frameOk = true) :
    Started (s.clock P C i) := by
  obtain ⟨hv, hst, hgood⟩ := frameOk_clock h
  have heq : (s.clock P C i).rx.rx = { s.rx.rx.quiet true with st := .sof, frameOk := true } := by
    simp only [AccelTop.clock, RxPath.clock, FrameRx.clock, hv, if_true, FrameRx.take, hst]
    exact if_pos hgood
  have hquiet : (s.rx.rx.quiet true).we = false ∧ (s.rx.rx.quiet true).frameBad = false := by
    unfold FrameRx.quiet
    split_ifs <;> exact ⟨rfl, rfl⟩
  rw [heq] at h
  exact ⟨by rw [heq], by rw [heq], by rw [heq]; exact hquiet.1, by rw [heq]; exact hquiet.2⟩

/-- What comes in on a clock does no harm to a command in flight: no start byte on the
transport that is not in use; and while nothing looks busy, no frame that ends well, and
none that was refused on the clock before, unless the answer is there already. -/
structure Harmless (s : AccelTop σ) (i : Pins) : Prop where
  spi : i.spi = some 0xA5#8 → s.viaSpi = true
  uart : i.uart = some 0xA5#8 → i.spi ≠ some 0xA5#8 → s.viaSpi = false
  accepted : s.accept C = true → i.byte.isSome = true → s.rx.rx.st = .c1 →
    ¬(i.byte.getD 0 ++ s.rx.rx.c0 = s.rx.rx.crc ∧ s.rx.rx.len.toNat ≤ 8192)
  refused : s.badCrc C = true → (s.cDone C).isSome = true ∨ s.req = true

def inFlight (s : AccelTop σ) : Prop :=
  C.busy s.cores = true ∨ s.rx.rx.frameOk = true

/-- The two runs agree: in all but the receiver, and in the payload while a processor
can read it. -/
structure Agree (s t : AccelTop σ) : Prop where
  via : s.viaSpi = t.viaSpi
  cores : s.cores = t.cores
  actQ : s.actQ = t.actQ
  actE : s.actE = t.actE
  actA : s.actA = t.actA
  nonePend : s.nonePend = t.nonePend
  noneDone : s.noneDone = t.noneDone
  tx : s.tx = t.tx
  txRam : s.txRam = t.txRam
  txRq : s.txRq = t.txRq
  utx : s.utx = t.utx
  stx : s.stx = t.stx
  ok : s.rx.rx.frameOk = t.rx.rx.frameOk
  cmd : s.rx.rx.frameOk = true → s.rx.rx.cmd = t.rx.rx.cmd ∧ s.rx.rx.len = t.rx.rx.len
  st : s.rx.rx.frameOk = true → s.rx.rx.st = .sof
  /-- On the clock after the request it can be there again, and nothing looks at it. -/
  req : s.tx.st ≠ .fetch →
    s.req = t.req ∧ (s.req = true → s.reqStatus = t.reqStatus ∧ s.reqLen = t.reqLen)
  payload : s.inFlight C → s.rx.ram = t.rx.ram ∧ s.memQ = t.memQ ∧
    s.rx.rx.we = false ∧ t.rx.rx.we = false
  silent : t.rx.rx.st = .sof ∧ t.rx.rx.frameBad = false

theorem Agree.refl {s : AccelTop σ} (h : Started s) : Agree C s s := {
  via := rfl
  cores := rfl
  actQ := rfl
  actE := rfl
  actA := rfl
  nonePend := rfl
  noneDone := rfl
  tx := rfl
  txRam := rfl
  txRq := rfl
  utx := rfl
  stx := rfl
  ok := rfl
  cmd := fun _ => ⟨rfl, rfl⟩
  st := fun _ => h.st
  req := fun _ => ⟨rfl, fun _ => ⟨rfl, rfl⟩⟩
  payload := fun _ => ⟨rfl, rfl, h.we, h.we⟩
  silent := ⟨h.st, h.bad⟩ }

section Step

variable {P C} {s t : AccelTop σ} {i : Pins}

theorem Agree.cls (h : Agree C s t) (hok : s.rx.rx.frameOk = true) : s.cls = t.cls := by
  rw [AccelTop.cls, AccelTop.cls, (h.cmd hok).1]

theorem Agree.goQ (h : Agree C s t) : s.goQ P = t.goQ P := by
  by_cases hok : s.rx.rx.frameOk = true
  · unfold AccelTop.goQ clsPq clsInfo
    rw [h.cls hok, h.ok]
  · simp only [AccelTop.goQ, ← h.ok, hok, Bool.false_and]

theorem Agree.goE (h : Agree C s t) : s.goE P = t.goE P := by
  by_cases hok : s.rx.rx.frameOk = true
  · unfold AccelTop.goE clsEcc clsInfo
    rw [h.cls hok, h.ok]
  · simp only [AccelTop.goE, ← h.ok, hok, Bool.false_and]

theorem Agree.goA (h : Agree C s t) : s.goA P = t.goA P := by
  by_cases hok : s.rx.rx.frameOk = true
  · unfold AccelTop.goA clsSym clsInfo
    rw [h.cls hok, h.ok]
  · simp only [AccelTop.goA, ← h.ok, hok, Bool.false_and]

theorem Agree.goNone (h : Agree C s t) : s.goNone P = t.goNone P := by
  simp only [AccelTop.goNone, h.ok, h.goQ, h.goE, h.goA]

theorem Agree.command (h : Agree C s t) {go : Bool} (hgo : go = true → s.rx.rx.frameOk = true) :
    s.command go = t.command go := by
  unfold AccelTop.command
  split_ifs with hg
  · rw [(h.cmd (hgo hg)).1, (h.cmd (hgo hg)).2]
  · rfl

theorem Agree.cmdBusy (h : Agree C s t) : s.cmdBusy C = t.cmdBusy C := by
  simp only [AccelTop.cmdBusy, Cores.busy, h.cores, h.nonePend, h.noneDone]

theorem Agree.cDone (h : Agree C s t) : s.cDone C = t.cDone C := by
  simp only [AccelTop.cDone, h.cores, h.noneDone]

theorem Agree.badCrc (h : Agree C s t) : t.badCrc C = false := by
  simp only [AccelTop.badCrc, h.silent.2, Bool.false_and]

theorem frameOk_of_goQ (h : s.goQ P = true) : s.rx.rx.frameOk = true := by
  simp only [AccelTop.goQ, Bool.and_eq_true] at h
  exact h.1.1

theorem frameOk_of_goE (h : s.goE P = true) : s.rx.rx.frameOk = true := by
  simp only [AccelTop.goE, Bool.and_eq_true] at h
  exact h.1.1

theorem frameOk_of_goA (h : s.goA P = true) : s.rx.rx.frameOk = true := by
  simp only [AccelTop.goA, Bool.and_eq_true] at h
  exact h.1.1

/-- What the processors of the two runs see: only the payload RAM can read differently. -/
theorem Agree.coresIn (h : Agree C s t) (i : Pins) :
    t.coresIn P i.silent = { s.coresIn P i with memQ := t.memQ } := by
  simp only [AccelTop.coresIn, Pins.silent, ← h.goQ, ← h.goE, ← h.goA, h.txRq, h.actE,
    h.command frameOk_of_goQ, h.command frameOk_of_goE, h.command frameOk_of_goA]

theorem not_go (h : s.rx.rx.frameOk = false) :
    (s.coresIn P i).goQ = none ∧ (s.coresIn P i).goE = none ∧ (s.coresIn P i).goA = none := by
  simp [AccelTop.coresIn, AccelTop.command, AccelTop.goQ, AccelTop.goE, AccelTop.goA, h]

theorem Agree.clock_cores (h : Agree C s t) :
    C.clock s.cores (s.coresIn P i) = C.clock t.cores (t.coresIn P i.silent) := by
  rw [h.coresIn, ← h.cores]
  by_cases hf : s.inFlight C
  · rw [← (h.payload hf).2.1]
    rfl
  · obtain ⟨hidle, hok⟩ := not_or.mp hf
    obtain ⟨hq, he, ha⟩ := not_go (P := P) (i := i) (Bool.eq_false_of_not_eq_true hok)
    exact (C.idle_deaf _ _ _ (Bool.eq_false_of_not_eq_true hidle) hq he ha).symm

/-- A processor that is busy was, or has just been started. -/
theorem inFlight_of_busy
    (h : C.busy (s.clock P C i).cores = true) : s.inFlight C := by
  by_contra hf
  obtain ⟨hidle, hok⟩ := not_or.mp hf
  obtain ⟨hq, he, ha⟩ := not_go (P := P) (i := i) (Bool.eq_false_of_not_eq_true hok)
  have hstill := C.stays_idle _ _ (Bool.eq_false_of_not_eq_true hidle) hq he ha
  exact Bool.eq_false_iff.mp hstill h

/-- No byte of a payload is taken while a command is in flight. -/
theorem inFlight_we (h : s.inFlight C) (hst : s.rx.rx.frameOk = true → s.rx.rx.st = .sof) :
    (s.clock P C i).rx.rx.we = false := by
  apply Bool.eq_false_of_not_eq_true
  intro hwe
  obtain ⟨hpl, haccept⟩ := we_clock hwe
  rcases h with hbusy | hok
  · simp only [AccelTop.rxIn, accept, AccelTop.cmdBusy, Bool.and_eq_true, Bool.not_eq_true',
      Bool.or_eq_false_iff] at haccept
    simp [haccept.1] at hbusy
  · rw [hst hok] at hpl
    exact nomatch hpl

/-- No second frame is accepted. -/
theorem Harmless.not_ok (h : Harmless C s i) : (s.clock P C i).rx.rx.frameOk = false := by
  apply Bool.eq_false_of_not_eq_true
  intro hok
  obtain ⟨hv, hst, hcrc, haccept, hlen⟩ := frameOk_clock hok
  exact h.accepted haccept hv hst ⟨hcrc, hlen⟩

theorem silent_not_ok (h : t.rx.rx.st = .sof) : (t.clock P C i.silent).rx.rx.frameOk = false := by
  apply Bool.eq_false_of_not_eq_true
  intro hok
  exact nomatch h.symm.trans (frameOk_clock hok).2.1

theorem Harmless.via (h : Harmless C s i) : s.nextVia i = s.viaSpi := by
  unfold nextVia
  split_ifs with hs hu
  · exact (h.spi hs).symm
  · exact (h.uart hu hs).symm
  · rfl

/-- A clock keeps the runs in agreement. -/
theorem Agree.clock (h : Agree C s t) (hi : Harmless C s i) :
    Agree C (s.clock P C i) (t.clock P C i.silent) := by
  have hbad : ∀ {u : AccelTop σ}, u.badCrc C = true → u.tx.st = .idle := by
    intro u hu
    simp only [AccelTop.badCrc, txBusy, FrameTx.busy, Bool.and_eq_true, Bool.not_eq_true',
      decide_eq_false_iff_not, not_not] at hu
    exact hu.2
  have htx : (s.clock P C i).tx = (t.clock P C i.silent).tx := by
    simp only [AccelTop.clock, ← h.tx, ← h.txRq]
    apply FrameTx.clock_congr
    · simp only [txIn, bbusy, h.via, h.stx, h.utx]
    · simp only [txIn, bdone, h.via, h.stx, h.utx]
    · exact h.req
  have hram : (s.inFlight C) → (s.clock P C i).rx.ram = (t.clock P C i.silent).rx.ram := by
    intro hf
    obtain ⟨hrx, -, hwe, hwe'⟩ := h.payload hf
    simp only [AccelTop.clock, RxPath.clock, AccelTop.rxIn, hrx, h.actQ, h.cores, FrameRx.port, hwe, hwe',
      Bool.false_eq_true, if_false]
  exact {
    via := hi.via.trans (h.via.trans (by simp [AccelTop.clock, nextVia, Pins.silent]))
    cores := h.clock_cores
    actQ := by simp only [AccelTop.clock, h.goQ, h.cores, h.actQ]
    actE := by simp only [AccelTop.clock, h.goE, h.cores, h.actE]
    actA := by simp only [AccelTop.clock, h.goA, h.cores, h.actA]
    nonePend := h.goNone
    noneDone := h.nonePend
    tx := htx
    txRam := by simp only [AccelTop.clock, txWrite, h.txRam, h.cores]
    txRq := by simp only [AccelTop.clock, txRa, h.txRam, h.actQ, h.cores, h.tx]
    utx := by simp only [AccelTop.clock, h.utx, h.tx, h.via]
    stx := by simp only [AccelTop.clock, h.stx, h.tx, h.via, Pins.silent]
    ok := hi.not_ok.trans (silent_not_ok h.silent.1).symm
    cmd := fun hok => absurd hok (Bool.eq_false_iff.mp hi.not_ok)
    st := fun hok => absurd hok (Bool.eq_false_iff.mp hi.not_ok)
    req := by
      intro hst
      have hclean : s.badCrc C = true → (s.cDone C).isSome = true := by
        intro hb
        rcases hi.refused hb with hd | hr
        · exact hd
        · exact absurd (fetch_of_req (hbad hb) hr) hst
      cases hd : s.cDone C with
      | some a => simp [AccelTop.clock, ← h.cDone, hd]
      | none =>
        have hb : s.badCrc C = false := by
          apply Bool.eq_false_of_not_eq_true
          intro hb
          simpa [hd] using hclean hb
        simp [AccelTop.clock, ← h.cDone, hd, h.badCrc, hb]
    payload := by
      intro hf
      rcases hf with hbusy | hok
      · have hf' := inFlight_of_busy hbusy
        refine ⟨hram hf', ?_, inFlight_we hf' h.st, ?_⟩
        · simp only [AccelTop.clock, memA, h.actQ, h.actE, h.cores, (h.payload hf').1]
        · apply Bool.eq_false_of_not_eq_true
          intro hwe
          exact absurd (h.silent.1.symm.trans (we_clock hwe).1) (by decide)
      · exact absurd hok (Bool.eq_false_iff.mp hi.not_ok)
    silent := clock_silent h.silent.1 rfl }

/-- The runs stay in agreement as long as what comes in is harmless. -/
theorem agree_upto {i : Nat → Pins} {n : Nat} (h : Started s)
    (hi : ∀ k, k < n → Harmless C (after (clock P C) s i k) (i k)) {k : Nat} (hk : k ≤ n) :
    Agree C (after (clock P C) s i k) (after (clock P C) s (fun k => (i k).silent) k) :=
  lockstep (Agree.refl C h) (fun j hj hagree => hagree.clock (hi j hj)) hk

end Step

/-- As long as what comes in is harmless, a command that a frame has started is answered as
without it, on the same transport and the same clocks, and no other command starts. -/
theorem response_undisturbed (s : AccelTop σ) (i : Nat → Pins) (n : Nat) (h : Started s)
    (hi : ∀ k, k < n → Harmless C (after (clock P C) s i k) (i k)) :
    outputs (clock P C) sent s i n = outputs (clock P C) sent s (fun k => (i k).silent) n ∧
    (∀ k, k ≤ n → (after (clock P C) s i k).tx = (after (clock P C) s (fun k => (i k).silent) k).tx) ∧
    ∀ k, k < n → (after (clock P C) s i (k + 1)).rx.rx.frameOk = false := by
  refine ⟨?_, fun k hk => (agree_upto h hi hk).tx, fun k hk => (hi k hk).not_ok⟩
  apply lockstep_outputs (R := Agree C) (fun k hk => agree_upto h hi (Nat.le_of_lt hk))
  intro k hagree
  rw [sent, sent, hagree.tx, hagree.via]

end AccelTop

/-! A command that no processor knows: accel_cmd goes to its last state and is done. -/

namespace Bench

structure BadCmd where
  fin : Bool
  done : Bool

def badCmd : Cores BadCmd where
  clock s i := ⟨!s.fin && i.goA.isSome, s.fin⟩
  qBusy _ := false
  eBusy _ := false
  aBusy s := s.fin
  qDone _ := none
  eDone _ := none
  aDone s := if s.done then some ⟨1, 0⟩ else none
  qRxRa _ := 0
  eMemA _ := 0
  aMemA _ := 0
  qTxRa _ := 0
  qRxWrite _ := none
  qTxWrite _ := none
  eTxWrite _ := none
  aTxWrite _ := none
  stays_idle := by
    intro s i _ _ _ ha
    simp [ha]
  idle_deaf := by
    intro s i q _ _ _ _
    rfl

def symmetric : Profile := ⟨false, false, true⟩

/-- Command 0x1F came over the UART. -/
def started : AccelTop BadCmd where
  viaSpi := false
  rx := ⟨{ resetRx with frameOk := true, cmd := 0x1F#8, len := 0 }, fun _ => 0⟩
  memQ := 0
  cores := ⟨false, false⟩
  actQ := false
  actE := false
  actA := false
  nonePend := false
  noneDone := false
  req := false
  reqStatus := 0
  reqLen := 0
  tx := ⟨.idle, 0, 0, 0, 0, 0, false, 0⟩
  txRam := fun _ => 0
  txRq := 0
  utx := ⟨false, false, true, 0, 0, 0x3FF⟩
  stx := ⟨0, false, false⟩

/-- A byte comes in over SPI on the first clock. -/
def spiByte (b : BitVec 8) (n : Nat) : Pins := ⟨none, if n = 0 then some b else none, false, none⟩

end Bench

namespace AccelTop

theorem response_undisturbed_filler :
    outputs (clock Bench.symmetric Bench.badCmd) sent Bench.started (Bench.spiByte 0x00#8) 9
      = outputs (clock Bench.symmetric Bench.badCmd) sent Bench.started
          (fun k => (Bench.spiByte 0x00#8 k).silent) 9 := by
  refine (response_undisturbed Bench.symmetric Bench.badCmd Bench.started (Bench.spiByte 0x00#8) 9
    ⟨rfl, rfl, rfl, rfl⟩ ?_).1
  intro k hk
  have hspi : (Bench.spiByte 0x00#8 k).spi ≠ some 0xA5#8 := by
    unfold Bench.spiByte
    split_ifs <;> decide
  refine ⟨fun h => absurd h hspi, (fun h => nomatch h), ?_, ?_⟩ <;> clear hspi <;> revert k
  · decide +kernel
  · decide +kernel

/-- A start byte on the other transport: the response leaves over SPI. -/
theorem start_byte_moves_response :
    ¬ ∀ (P : Profile) (C : Cores Bench.BadCmd) (s : AccelTop Bench.BadCmd) (i : Nat → Pins) (n : Nat),
      Started s → outputs (clock P C) sent s i n
        = outputs (clock P C) sent s (fun k => (i k).silent) n := by
  intro h
  have heq := h Bench.symmetric Bench.badCmd Bench.started (Bench.spiByte 0xA5#8) 9 ⟨rfl, rfl, rfl, rfl⟩
  exact absurd heq (by decide +kernel)

end AccelTop

end GoiKey.Rtl
