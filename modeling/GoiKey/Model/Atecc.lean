import GoiKey.Model.Text

/-!
AteccManager.cpp: the commands of the ATECC608A on the I2C bus. The driver keeps the
bytes of a read until they are taken; what the chip puts on the bus is up to the chip,
and a read it does not acknowledge brings nothing.
-/

namespace GoiKey.Atecc

/-! atcaCrc, which is not reflected but takes the bits of a byte from the lowest on. -/

def crcBit (crcRegister : UInt16) (dataBit : Bool) : UInt16 :=
  if dataBit != (crcRegister >>> 15 == 1) then (crcRegister <<< 1) ^^^ 0x8005 else crcRegister <<< 1

def crcByte (crcRegister : UInt16) (c : UInt8) : UInt16 :=
  (List.range 8).foldl (fun r i => crcBit r (c.toNat.testBit i)) crcRegister

/-- Low byte first. -/
def atcaCrc (data : Bytes) : Bytes :=
  let crcRegister := data.foldl crcByte 0
  [crcRegister.toUInt8, (crcRegister >>> 8).toUInt8]

/-! The bus. -/

structure Wire where
  /-- Read and not taken yet. -/
  rx : Bytes := []
  /-- What the chip sends to the reads to come, the next one first. -/
  answers : Nat → Bytes
  /-- The chip acknowledges what is written to it. -/
  acks : Bool := true
  /-- What has been written to the chip, the latest first. -/
  written : List Bytes := []

def Wire.flushWireRx (w : Wire) : Wire := { w with rx := [] }

/-- `Wire.requestFrom`: the number of bytes that came. -/
def Wire.requestFrom (w : Wire) (n : Nat) : Nat × Wire :=
  let came := (w.answers 0).take n
  (came.length, { w with rx := w.rx ++ came, answers := fun k => w.answers (k + 1) })

/-- `Wire.read`, -1 when nothing is left. -/
def Wire.read (w : Wire) : UInt8 × Wire :=
  match w.rx with
  | [] => (0xFF, w)
  | b :: rx => (b, { w with rx := rx })

def Wire.reads : Nat → Wire → Bytes × Wire
  | 0, w => ([], w)
  | n + 1, w =>
    let (b, w) := w.read
    let (bs, w) := w.reads n
    (b :: bs, w)

/-- `Wire.write` and `Wire.endTransmission`. -/
def Wire.transmit (w : Wire) (data : Bytes) : Bool × Wire :=
  (w.acks, { w with written := data :: w.written })

/-! Waking the chip. -/

/-- The pulse on SDA is no transaction; the driver is started anew after it. -/
def wake : Nat → Wire → Bool × Wire
  | 0, w => (false, w)
  | attempts + 1, w =>
    let (got, w) := w.flushWireRx.requestFrom 4
    if got = 4 then
      let (resp, w) := w.reads 4
      if resp.take 2 = [0x04, 0x11] ∧ atcaCrc (resp.take 2) = resp.drop 2 then (true, w)
      else wake attempts w
    else wake attempts w

/-- `attempt < 4`. -/
def wakeAttempts : Nat := 4

/-! A command. -/

structure Command where
  opcode : UInt8
  param1 : UInt8
  param2 : UInt16
  data : Bytes := []
  respLen : UInt8
  deriving DecidableEq, Repr

/-- What is sent after the word address. -/
def Command.packet (c : Command) : Bytes :=
  let head := c.opcode :: c.param1 :: c.param2.toUInt8 :: (c.param2 >>> 8).toUInt8 :: c.data
  let counted := UInt8.ofNat (head.length + 3) :: head
  counted ++ atcaCrc counted

/-- The outcome, with what is left in the caller's buffer and in `errStatus`. -/
structure Outcome where
  ok : Bool
  respOut : Bytes
  errStatus : UInt8
  wire : Wire

/-- The chip does not acknowledge a read while it executes. -/
def pollLen : Nat → Wire → Option UInt8 × Wire
  | 0, w => (none, w)
  | attempts + 1, w =>
    let (got, w) := w.requestFrom 1
    if got = 1 then
      let (b, w) := w.read
      (some b, w)
    else pollLen attempts w

/-- `attempt < 50`. -/
def pollAttempts : Nat := 50

/-- What a packet of the announced length is good for: its data, or the error status. -/
def checkResponse (respLen : UInt8) (resp : Bytes) : Except UInt8 Bytes :=
  let body := resp.take (resp.length - 2)
  if atcaCrc body ≠ resp.drop (resp.length - 2) then .error 0xF6
  -- a status packet is sent in the place of data only to report an error
  else if resp.length = 4 ∧ respLen ≠ 1 then .error (resp.getD 1 0)
  else if resp.length - 3 ≠ respLen.toNat then .error 0xF7
  else .ok (body.drop 1)

/-- `sizeof(resp)`. -/
def respSize : Nat := 96

/-- The body behind the length byte. -/
def readResponse (respLen respPacketLen : UInt8) (w : Wire) : Except UInt8 Bytes × Wire :=
  if respPacketLen < 4 then (.error 0xF3, w)
  else if respSize < respPacketLen.toNat then (.error 0xF4, w)
  else
    let remaining := respPacketLen.toNat - 1
    let (got2, w) := w.requestFrom remaining
    if got2 ≠ remaining then (.error 0xF5, w)
    else
      let (bytes, w) := w.reads remaining
      (checkResponse respLen (respPacketLen :: bytes), w)

/-- What runCommand does once the command has been sent and the delay is over. -/
def receive (c : Command) (respOut : Bytes) (w : Wire) : Outcome :=
  match pollLen pollAttempts w.flushWireRx with
  | (none, w) => ⟨false, respOut, 0xF2, w⟩
  | (some respPacketLen, w) =>
    match readResponse c.respLen respPacketLen w with
    | (.error status, w) => ⟨false, respOut, status, w⟩
    | (.ok payload, w) => ⟨true, payload ++ respOut.drop payload.length, 0xF0, w⟩

def runCommand (c : Command) (respOut : Bytes) (errStatus : UInt8) (w : Wire) : Outcome :=
  if 32 < c.data.length then ⟨false, respOut, errStatus, w⟩
  else
    let (acked, w) := w.transmit (0x03 :: c.packet)
    if !acked then ⟨false, respOut, 0xF1, w⟩ else receive c respOut w

end GoiKey.Atecc
