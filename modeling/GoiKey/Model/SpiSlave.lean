import GoiKey.Model.AccelTop

/-!
The SPI transport of spi_slave.v: the slave, with `SpiTxIf` and the transmitter that feed
it, and the master at the other end of the wires. `clock` is one rising edge of `clk` with
the reset released.
-/

namespace GoiKey.Rtl

structure SpiPins where
  sck : Bool
  mosi : Bool
  csN : Bool
  deriving DecidableEq, Repr

/-! spi_slave. -/

structure SpiSlave where
  sckS : BitVec 3
  csS : BitVec 3
  mosiS : BitVec 2
  rxSh : BitVec 8
  txSh : BitVec 8
  bitcnt : BitVec 3
  /-- The byte being shifted out is a real one and not filler. -/
  curReal : Bool
  miso : Bool
  rxValid : Bool
  rxByte : BitVec 8
  txTake : Bool
  deriving DecidableEq, Repr

def SpiSlave.reset : SpiSlave where
  sckS := 0b000#3
  csS := 0b111#3
  mosiS := 0b00#2
  rxSh := 0
  txSh := 0
  bitcnt := 0
  curReal := false
  miso := false
  rxValid := false
  rxByte := 0
  txTake := false

namespace SpiSlave

variable (s n : SpiSlave) (txData : BitVec 8) (txHave : Bool) (i : SpiPins)

def sckRise : Bool := s.sckS.extractLsb' 1 2 = 0b01#2

def sckFall : Bool := s.sckS.extractLsb' 1 2 = 0b10#2

def csn : Bool := s.csS.getLsbD 1

/-- The byte that is offered, or filler, goes into the slot. -/
def load : SpiSlave :=
  { n with
    miso := if txHave then txData.getLsbD 7 else false
    txSh := if txHave then txData.extractLsb' 0 7 ++ 0#1 else 0
    curReal := txHave }

/-- `{rx_sh[6:0], mosi_s[1]}`. -/
def rxNext : BitVec 8 := s.rxSh.extractLsb' 0 7 ++ BitVec.ofBool (s.mosiS.getLsbD 1)

/-- A rising edge of SCK: `s` are the registers before the clock. -/
def rise : SpiSlave :=
  { n with
    txTake := if s.bitcnt = 0 then s.curReal else n.txTake
    rxSh := s.rxNext
    bitcnt := s.bitcnt + 1
    rxValid := if s.bitcnt = 7 then true else n.rxValid
    rxByte := if s.bitcnt = 7 then s.rxNext else n.rxByte }

/-- A falling edge of SCK. -/
def fall : SpiSlave :=
  if s.bitcnt = 0 then n.load txData txHave
  else { n with miso := s.txSh.getLsbD 7, txSh := s.txSh.extractLsb' 0 7 ++ 0#1 }

/-- The pulses end. -/
def quiet : SpiSlave := { s with rxValid := false, txTake := false }

/-- The second `always` block. -/
def shift : SpiSlave :=
  if s.csn then { s.quiet.load txData txHave with bitcnt := 0 }
  else if s.sckRise then s.rise s.quiet
  else if s.sckFall then s.fall s.quiet txData txHave
  else s.quiet

/-- Both blocks: the pins go into the synchronisers. -/
def clock : SpiSlave :=
  { s.shift txData txHave with
    sckS := s.sckS.extractLsb' 0 2 ++ BitVec.ofBool i.sck
    csS := s.csS.extractLsb' 0 2 ++ BitVec.ofBool i.csN
    mosiS := s.mosiS.extractLsb' 0 1 ++ BitVec.ofBool i.mosi }

end SpiSlave

/-! The transmit path down to the pins. -/

structure SpiIn where
  pins : SpiPins
  /-- A response is to be sent. -/
  req : Bool
  status : BitVec 8
  len : BitVec 16
  deriving DecidableEq, Repr

structure SpiLink where
  spi : SpiSlave
  stx : SpiTxIf
  tx : TxPath

def SpiLink.clock (s : SpiLink) (i : SpiIn) : SpiLink where
  spi := s.spi.clock s.stx.hold s.stx.has i.pins
  stx := s.stx.clock s.tx.tx.bstart s.tx.tx.bdata s.spi.txTake
  tx := s.tx.clock { req := i.req, status := i.status, len := i.len, bbusy := s.stx.busy, bdone := s.stx.done }

/-! The master. -/

/-- What the master has done on the wires, a sample of the system clock at a time. -/
structure SpiMaster where
  sck : Bool
  /-- The samples since SCK was high. -/
  lows : Nat
  /-- The samples since SCK rose. -/
  since : Nat
  /-- The bits of the byte so far. -/
  bits : Nat
  shIn : BitVec 8
  shOut : BitVec 8
  read : List (BitVec 8)
  written : List (BitVec 8)
  deriving DecidableEq, Repr

namespace SpiMaster

/-- SCK has been low as long as the master likes. -/
def reset : SpiMaster where
  sck := false
  lows := 6
  since := 6
  bits := 0
  shIn := 0
  shOut := 0
  read := []
  written := []

variable (m : SpiMaster) (miso : Bool) (i : SpiPins)

/-- A bit goes out and one comes in. -/
def exchange : SpiMaster :=
  let shIn := m.shIn.extractLsb' 0 7 ++ BitVec.ofBool miso
  let shOut := m.shOut.extractLsb' 0 7 ++ BitVec.ofBool i.mosi
  let m' := { m with sck := true, lows := 0, since := 1, shIn := shIn, shOut := shOut }
  if m.bits = 7 then { m' with bits := 0, read := m.read ++ [shIn], written := m.written ++ [shOut] }
  else { m' with bits := m.bits + 1 }

/-- Mode 0: the bits are exchanged when SCK rises. -/
def clock : SpiMaster :=
  if i.sck ∧ ¬m.sck then m.exchange miso i
  else { m with sck := i.sck, lows := if i.sck then 0 else m.lows + 1, since := m.since + 1 }

/-- The bytes it has begun. -/
def begun : Nat := m.read.length + if m.bits = 0 then 0 else 1

/-- The chip is selected inside a byte, and SCK rises after so many low samples and at
least a period after it rose last. -/
def Allows (low period : Nat) : Prop :=
  (i.sck = true ∨ m.bits ≠ 0 → i.csN = false) ∧
    (i.sck = true → m.sck = false → low ≤ m.lows ∧ period ≤ m.since)

instance (low period : Nat) : Decidable (m.Allows i low period) :=
  inferInstanceAs (Decidable (_ ∧ _))

end SpiMaster

/-! Both ends of the wires. -/

structure SpiBench where
  link : SpiLink
  master : SpiMaster
  /-- What the slave has handed on. -/
  delivered : List (BitVec 8)

namespace SpiBench

def reset (tx : TxPath) : SpiBench where
  link := { spi := .reset, stx := { hold := 0, has := false, done := false }, tx := tx }
  master := .reset
  delivered := []

variable (b : SpiBench)

def clock (i : SpiIn) : SpiBench :=
  let link := b.link.clock i
  { link := link
    master := b.master.clock b.link.spi.miso i.pins
    delivered := if link.spi.rxValid then b.delivered ++ [link.spi.rxByte] else b.delivered }

def run (is : List SpiIn) : SpiBench := is.foldl clock b

/-- The master keeps to the rules for a whole run. -/
def Legal (low period : Nat) : SpiBench → List SpiIn → Prop
  | _, [] => True
  | b, i :: is => b.master.Allows i.pins low period ∧ Legal low period (b.clock i) is

instance decLegal (low period : Nat) : ∀ b is, Decidable (Legal low period b is)
  | _, [] => .isTrue trivial
  | b, i :: is => @instDecidableAnd _ _ inferInstance (decLegal low period (b.clock i) is)

end SpiBench

end GoiKey.Rtl
