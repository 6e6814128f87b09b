import GoiKey.Model.Text

/-!
The JTAG side of the BL616: the DirtyJTAG commands of dirtyjtag.c and the pins of
jtag_gpio.c that they drive. What is read is kept as offsets from the start of the
receive buffer, and what is behind the packet there is left open.
-/

namespace GoiKey.DirtyJtag

/-! The pins. -/

inductive Drive where
  | tck (high : Bool)
  | tdi (high : Bool)
  | tms (high : Bool)
  deriving DecidableEq, Repr

/-- What has been driven, the latest first, and what TDO is going to read. -/
structure Pins where
  driven : List Drive := []
  tdo : Nat → Bool
  jtagDelay : Nat := 0

def Pins.drive (p : Pins) (d : Drive) : Pins := { p with driven := d :: p.driven }

def Pins.getTdo (p : Pins) : Bool × Pins := (p.tdo 0, { p with tdo := fun k => p.tdo (k + 1) })

/-- TCK low and high again. -/
def Pins.pulse (p : Pins) : Pins := (p.drive (.tck false)).drive (.tck true)

/-- The loop of `jtag_transfer`; TDO is only looked at when it is asked for. -/
def Pins.transferBits (reading : Bool) : List Bool → Pins → List Bool × Pins
  | [], p => ([], p)
  | bit :: bits, p =>
    let p := (p.drive (.tdi bit)).pulse
    let (sampled, p) := if reading then p.getTdo else (false, p)
    let (rest, p) := p.transferBits reading bits
    (sampled :: rest, p)

/-- The bits of a byte are sent from the highest on. -/
def bitOf (mem : Nat → UInt8) (tdi i : Nat) : Bool := (mem (tdi + i / 8)).toNat.testBit (7 - i % 8)

/-- `tdo[i >> 3] |= 0x80 >> (i & 7)` into bytes of zeros. -/
def packBits (n : Nat) (bits : List Bool) : Bytes :=
  (List.range n).map fun j => (List.range 8).foldl
    (fun b k => if bits.getD (8 * j + k) false then b ||| (0x80 >>> UInt8.ofNat k) else b) 0

/-- `jtag_strobe`: the value of TDO at the last pulse. -/
def Pins.strobe (p : Pins) (pulses : Nat) (tms tdi : Bool) : Bool × Pins :=
  let p := (p.drive (.tms tms)).drive (.tdi tdi)
  let (last, p) := (List.range pulses).foldl (fun (r : Bool × Pins) _ => r.2.pulse.getTdo) (false, p)
  (last, p.drive (.tck false))

/-- `jtag_set_frequency`. -/
def Pins.setFrequency (p : Pins) (kHz : Nat) : Pins :=
  let target := 320000 / (2 * kHz * 3)
  { p with jtagDelay := if kHz = 0 then 0 else if 1 < target then target else 0 }

/-! The commands. -/

/-- `struct uart_debug_state`, with the bytes between its members. -/
structure UartDebugState where
  rxBytes : BitVec 32
  txBytes : BitVec 32
  cdcConfigured : UInt8
  cdcTxBusy : UInt8
  padding : UInt8 × UInt8
  baudrate : BitVec 32
  deriving DecidableEq, Repr

def word (v : BitVec 32) : Bytes := (bigEndian 4 v.toNat).reverse

def UartDebugState.bytes (d : UartDebugState) : Bytes :=
  word d.rxBytes ++ word d.txBytes ++ [d.cdcConfigured, d.cdcTxBusy, d.padding.1, d.padding.2] ++
    word d.baudrate

/-- `char info_string[10]`. -/
def infoString : Bytes := padTo 10 (text "DJTAG2\n")

structure Handler where
  commands : Nat := 0
  output : Bytes := []
  reads : List Nat := []
  pins : Pins

def Handler.read (s : Handler) (offsets : List Nat) : Handler := { s with reads := s.reads ++ offsets }

def Handler.skip (s : Handler) (n : Nat) : Handler := { s with commands := s.commands + n }

def Handler.respond (s : Handler) (b : Bytes) : Handler := { s with output := s.output ++ b }

variable (mem : Nat → UInt8) (debug : UartDebugState)

/-- `transferred_bits`, capped at 62 bytes. -/
def transferredBits (command len : UInt8) : Nat :=
  min (62 * 8) (if command &&& 0x40 ≠ 0 then len.toNat + 256 else len.toNat)

def transferredBytes (command len : UInt8) : Nat := (transferredBits command len + 7) / 8

def cmdInfo (s : Handler) : Handler := s.respond (infoString ++ debug.bytes)

def cmdFreq (s : Handler) : Handler :=
  let kHz := (mem (s.commands + 1)).toNat * 256 + (mem (s.commands + 2)).toNat
  { (s.read [s.commands + 1, s.commands + 2]).skip 2 with pins := s.pins.setFrequency kHz }

def cmdXfer (s : Handler) (command : UInt8) : Handler :=
  let noRead : Bool := command &&& 0x80 ≠ 0
  let len := mem (s.commands + 1)
  let bits := transferredBits command len
  let trbytes := transferredBytes command len
  let tdi := s.commands + 2
  let (sampled, pins) := s.pins.transferBits (!noRead) ((List.range bits).map (bitOf mem tdi))
  let s := s.read ((s.commands + 1) :: (List.range bits).map fun i => tdi + i / 8)
  let s := if noRead then s else s.respond (packBits trbytes sampled)
  { s.skip (1 + trbytes) with pins := pins.drive (.tck false) }

/-- TRST and SRST are not connected. -/
def cmdSetsig (s : Handler) : Handler :=
  let mask := mem (s.commands + 1)
  let status := mem (s.commands + 2)
  let set (bit : UInt8) (drive : Bool → Drive) (p : Pins) : Pins :=
    if mask &&& bit ≠ 0 then p.drive (drive (status &&& bit ≠ 0)) else p
  { (s.read [s.commands + 1, s.commands + 2]).skip 2 with
    pins := set 0x10 .tms (set 0x04 .tdi (set 0x02 .tck s.pins)) }

def cmdGetsig (s : Handler) : Handler :=
  let (high, pins) := s.pins.getTdo
  { s.respond [if high then 0x08 else 0x00] with pins }

def cmdClk (s : Handler) (command : UInt8) : Handler :=
  let signals := mem (s.commands + 1)
  let (high, pins) := s.pins.strobe (mem (s.commands + 2)).toNat (signals &&& 0x10 ≠ 0) (signals &&& 0x04 ≠ 0)
  let s := (s.read [s.commands + 1, s.commands + 2]).skip 2
  let s := if command &&& 0x80 ≠ 0 then s.respond [if high then 0xFF else 0x00] else s
  { s with pins }

/-- The `switch`, `none` for `goto done`. -/
def command (s : Handler) (b : UInt8) : Option Handler :=
  match (b &&& 0x0F).toNat with
  | 1 => some (cmdInfo debug s)
  | 2 => some (cmdFreq mem s)
  | 3 => some (cmdXfer mem s b)
  | 4 => some (cmdSetsig mem s)
  | 5 => some (cmdGetsig s)
  | 6 => some (cmdClk mem s b)
  | _ => none

/-- The `while` loop, which moves on by a byte at least each time. -/
def commandLoop (count : Nat) : Nat → Handler → Handler
  | 0, s => s
  | rounds + 1, s =>
    if count ≤ s.commands then s
    else
      let b := mem s.commands
      let s := s.read [s.commands]
      if b = 0x00 then s
      else
        match command mem debug s b with
        | none => s
        | some s => commandLoop count rounds (s.skip 1)

/-- The receive buffer: a packet, and what else is in memory from its end on. -/
def received (packet : Bytes) (behind : Nat → UInt8) (i : Nat) : UInt8 := packet.getD i (behind i)

/-- `cmd_handle` on a packet. -/
def cmdHandle (packet : Bytes) (behind : Nat → UInt8) (pins : Pins) : Handler :=
  commandLoop (received packet behind) debug packet.length packet.length { pins }

/-- `sizeof(rx_buf)` and `sizeof(tx_buf)`. -/
def bufferSize : Nat := 64

end GoiKey.DirtyJtag
