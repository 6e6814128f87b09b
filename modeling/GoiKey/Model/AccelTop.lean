import GoiKey.Model.FrameIo

/-!
The top level of the accelerator, accel_top.v: the two transports and the register that
chooses between them, the dispatch of commands, the RAMs and who drives them, and the
response. The processors behind it (pq_core, ecc_cmd, accel_cmd with the units they
share) are a machine of which the top level sees the ports.
-/

namespace GoiKey.Rtl

/-! uart_tx and spi_tx_if. -/

structure UartTx where
  busy : Bool
  done : Bool
  tx : Bool
  c : BitVec 16
  n : BitVec 4
  sh : BitVec 10

/-- Clocks per bit. -/
def cpb : Nat := 18

def UartTx.clock (s : UartTx) (start : Bool) (data : BitVec 8) : UartTx :=
  let s' := { s with done := false }
  if s.busy then
    let s' := { s' with tx := s.sh.getLsbD 0 }
    if s.c.toNat = cpb - 1 then
      let s' := { s' with c := 0, sh := 1#1 ++ s.sh.extractLsb' 1 9, n := s.n + 1 }
      if s.n = 9#4 then { s' with busy := false, done := true, tx := true } else s'
    else { s' with c := s.c + 1 }
  else
    let s' := { s' with tx := true }
    if start then { s' with sh := 1#1 ++ data ++ 0#1, busy := true, c := 0, n := 0 } else s'

structure SpiTxIf where
  hold : BitVec 8
  has : Bool
  done : Bool

def SpiTxIf.busy (s : SpiTxIf) : Bool := s.has

def SpiTxIf.clock (s : SpiTxIf) (start : Bool) (data : BitVec 8) (take : Bool) : SpiTxIf :=
  let s' := { s with done := false }
  if start ∧ ¬s.has then { s' with hold := data, has := true }
  else if take ∧ s.has then { s' with has := false, done := true }
  else s'

/-! The processors. -/

structure Command where
  cmd : BitVec 8
  len : BitVec 16

structure Answer where
  status : BitVec 8
  len : BitVec 16
  deriving DecidableEq

structure CoresIn where
  /-- `go` with the command and the length, which the processors look at only then. -/
  goQ : Option Command
  goE : Option Command
  goA : Option Command
  /-- What the payload RAM reads. -/
  memQ : BitVec 8
  /-- What the response RAM reads. -/
  txRq : BitVec 8
  actE : Bool
  trng : Option (BitVec 32)

/-- The processors as accel_top.v sees them. One that is idle and not started stays idle,
and what the payload RAM reads does not go into it. -/
structure Cores (σ : Type) where
  clock : σ → CoresIn → σ
  qBusy : σ → Bool
  eBusy : σ → Bool
  aBusy : σ → Bool
  /-- Status and length, while `done` is high. -/
  qDone : σ → Option Answer
  eDone : σ → Option Answer
  aDone : σ → Option Answer
  qRxRa : σ → BitVec 13
  eMemA : σ → BitVec 13
  aMemA : σ → BitVec 13
  qTxRa : σ → BitVec 13
  qRxWrite : σ → Option (BitVec 13 × BitVec 8)
  qTxWrite : σ → Option (BitVec 13 × BitVec 8)
  eTxWrite : σ → Option (BitVec 13 × BitVec 8)
  aTxWrite : σ → Option (BitVec 13 × BitVec 8)
  stays_idle : ∀ s i, (qBusy s || eBusy s || aBusy s) = false →
    i.goQ = none → i.goE = none → i.goA = none →
    (qBusy (clock s i) || eBusy (clock s i) || aBusy (clock s i)) = false
  idle_deaf : ∀ s i q, (qBusy s || eBusy s || aBusy s) = false →
    i.goQ = none → i.goE = none → i.goA = none → clock s { i with memQ := q } = clock s i

def Cores.busy {σ : Type} (C : Cores σ) (s : σ) : Bool := C.qBusy s || C.eBusy s || C.aBusy s

/-- HAS_PQ, HAS_ECC and SYM_ON of a build. -/
structure Profile where
  hasPq : Bool
  hasEcc : Bool
  symOn : Bool

/-! Registers and inputs. -/

structure AccelTop (σ : Type) where
  viaSpi : Bool
  rx : RxPath
  memQ : BitVec 8
  cores : σ
  actQ : Bool
  actE : Bool
  actA : Bool
  nonePend : Bool
  noneDone : Bool
  req : Bool
  reqStatus : BitVec 8
  reqLen : BitVec 16
  tx : FrameTx
  txRam : Ram
  txRq : BitVec 8
  utx : UartTx
  stx : SpiTxIf

/-- What the receivers of the transports and the random generator put in on a clock. -/
structure Pins where
  uart : Option (BitVec 8)
  spi : Option (BitVec 8)
  /-- The master clocks out the first bit of the byte that is offered. -/
  spiTake : Bool
  trng : Option (BitVec 32)

def Pins.silent (i : Pins) : Pins := { i with uart := none, spi := none }

/-- `rx_valid` and `rx_byte`. -/
def Pins.byte (i : Pins) : Option (BitVec 8) := i.uart <|> i.spi

namespace AccelTop

variable {σ : Type} (P : Profile) (C : Cores σ)

section Wires

variable (s : AccelTop σ)

def cmdBusy : Bool := C.busy s.cores || s.nonePend || s.noneDone

def txBusy : Bool := s.tx.busy

def accept : Bool := !s.cmdBusy C && !s.txBusy

def cls : BitVec 4 := s.rx.rx.cmd.extractLsb' 4 4

def clsInfo : Bool := s.cls = 0#4

def clsSym : Bool := s.cls = 1#4 ∨ s.cls = 2#4

def clsEcc : Bool := s.cls = 3#4 ∨ s.cls = 4#4 ∨ s.cls = 5#4

def clsPq : Bool := s.cls = 6#4 ∨ s.cls = 7#4

def goQ : Bool := s.rx.rx.frameOk && P.hasPq && (s.clsPq || s.clsInfo)

def goE : Bool := s.rx.rx.frameOk && P.hasEcc && (s.clsEcc || s.clsInfo && !P.hasPq)

def goA : Bool :=
  s.rx.rx.frameOk && P.symOn && (s.clsSym || s.clsInfo && !P.hasPq && !P.hasEcc)

def goNone : Bool := s.rx.rx.frameOk && !s.goQ P && !s.goE P && !s.goA P

def command (go : Bool) : Option Command := if go then some ⟨s.rx.rx.cmd, s.rx.rx.len⟩ else none

def memA : BitVec 13 :=
  if s.actQ then C.qRxRa s.cores else if s.actE then C.eMemA s.cores else C.aMemA s.cores

def txWrite : Option (BitVec 13 × BitVec 8) :=
  C.qTxWrite s.cores <|> C.eTxWrite s.cores <|> C.aTxWrite s.cores

def txRa : BitVec 13 := if s.actQ then C.qTxRa s.cores else s.tx.ra

/-- `c_done` with `c_status` and `c_len`. -/
def cDone : Option Answer :=
  C.qDone s.cores <|> C.eDone s.cores <|> C.aDone s.cores <|>
    if s.noneDone then some ⟨1, 0⟩ else none

def bbusy : Bool := if s.viaSpi then s.stx.busy else s.utx.busy

def bdone : Bool := if s.viaSpi then s.stx.done else s.utx.done

def rxIn (i : Pins) : RxPathIn :=
  ⟨⟨i.byte.isSome, i.byte.getD 0, s.accept C⟩, s.actQ, C.qRxWrite s.cores⟩

def coresIn (i : Pins) : CoresIn where
  goQ := s.command (s.goQ P)
  goE := s.command (s.goE P)
  goA := s.command (s.goA P)
  memQ := s.memQ
  txRq := s.txRq
  actE := s.actE
  trng := i.trng

def txIn : TxIn := ⟨s.req, s.reqStatus, s.reqLen, s.bbusy, s.bdone⟩

/-- The transport on which the last start byte came. -/
def nextVia (i : Pins) : Bool :=
  if i.spi = some 0xA5#8 then true else if i.uart = some 0xA5#8 then false else s.viaSpi

/-- A frame was refused while nothing goes on: it is answered with BAD_CRC. -/
def badCrc : Bool := s.rx.rx.frameBad && !s.cmdBusy C && !s.txBusy

end Wires

def clock (s : AccelTop σ) (i : Pins) : AccelTop σ where
  viaSpi := s.nextVia i
  rx := s.rx.clock (s.rxIn C i)
  memQ := s.rx.ram (s.memA C)
  cores := C.clock s.cores (s.coresIn P i)
  actQ := s.goQ P || (!(C.qDone s.cores).isSome && s.actQ)
  actE := s.goE P || (!(C.eDone s.cores).isSome && s.actE)
  actA := s.goA P || (!(C.aDone s.cores).isSome && s.actA)
  nonePend := s.goNone P
  noneDone := s.nonePend
  req := (s.cDone C).isSome || s.badCrc C
  reqStatus := ((s.cDone C).map Answer.status).getD (if s.badCrc C then 3 else s.reqStatus)
  reqLen := ((s.cDone C).map Answer.len).getD (if s.badCrc C then 0 else s.reqLen)
  tx := s.tx.clock s.txRq s.txIn
  txRam := s.txRam.write (s.txWrite C)
  txRq := s.txRam (s.txRa C)
  utx := s.utx.clock (s.tx.bstart && !s.viaSpi) s.tx.bdata
  stx := s.stx.clock (s.tx.bstart && s.viaSpi) s.tx.bdata i.spiTake

/-- The byte of the response that is handed over, and the transport it goes to. -/
def sent (s : AccelTop σ) (_ : Pins) : Option (Bool × BitVec 8) :=
  if s.tx.bstart then some (s.viaSpi, s.tx.bdata) else none

end AccelTop

end GoiKey.Rtl
