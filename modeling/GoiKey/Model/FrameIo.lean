import GoiKey.Lib.Clocked

/-!
The framed command link of frame_io.v and the RAMs of ram8k.v. `clock` is one rising
edge of `clk` with the reset released; what a register held before the edge is read
from the old state.
-/

namespace GoiKey.Rtl

/-- 8192 bytes. -/
abbrev Ram := BitVec 13 → BitVec 8

def Ram.write (m : Ram) (w : Option (BitVec 13 × BitVec 8)) : Ram :=
  match w with
  | none => m
  | some (a, d) => Function.update m a d

/-! crc16_step. -/

def crcBit (x : BitVec 16) : BitVec 16 :=
  if x.getLsbD 15 then (x <<< 1) ^^^ 0x1021#16 else x <<< 1

def crc16Step (c : BitVec 16) (d : BitVec 8) : BitVec 16 :=
  (List.range 8).foldl (fun x _ => crcBit x) (c ^^^ (d ++ 0x00#8))

/-! frame_rx. -/

inductive RxState where
  | sof
  | cmd
  | l0
  | l1
  | pl
  | c0
  | c1
  deriving DecidableEq, Repr

structure FrameRx where
  st : RxState
  cnt : BitVec 16
  crc : BitVec 16
  c0 : BitVec 8
  idle : BitVec 24
  wa : BitVec 13
  we : Bool
  wd : BitVec 8
  frameOk : Bool
  frameBad : Bool
  cmd : BitVec 8
  len : BitVec 16

structure RxIn where
  byteValid : Bool
  byteIn : BitVec 8
  /-- Low discards the payload. -/
  accept : Bool
  deriving DecidableEq, Repr

/-- The write port. -/
def FrameRx.port (s : FrameRx) : Option (BitVec 13 × BitVec 8) := if s.we then some (s.wa, s.wd) else none

/-- The assignments before the `case`: the pulses end, and a stall resynchronises. -/
def FrameRx.quiet (s : FrameRx) (byteValid : Bool) : FrameRx :=
  let s' := { s with we := false, frameOk := false, frameBad := false }
  if s.idle.getLsbD 22 then { s' with st := .sof, idle := 0 }
  else if byteValid then { s' with idle := 0 }
  else if s.st ≠ .sof then { s' with idle := s.idle + 1 }
  else s'

/-- A byte of the payload. -/
def FrameRx.payload (s n : FrameRx) (b : BitVec 8) (accept : Bool) : FrameRx :=
  let n' := { n with
    crc := crc16Step s.crc b
    cnt := s.cnt + 1
    st := if s.cnt.toNat + 1 = s.len.toNat then .c0 else n.st }
  if accept ∧ s.cnt.toNat < 8192 then { n' with we := true, wa := s.cnt.setWidth 13, wd := b } else n'

/-- The last byte of the checksum. -/
def FrameRx.check (s n : FrameRx) (b : BitVec 8) (accept : Bool) : FrameRx :=
  if b ++ s.c0 = s.crc ∧ accept ∧ s.len.toNat ≤ 8192 then { n with st := .sof, frameOk := true }
  else { n with st := .sof, frameBad := true }

/-- The `case` on a byte: `s` are the registers before the edge. -/
def FrameRx.take (s n : FrameRx) (b : BitVec 8) (accept : Bool) : FrameRx :=
  match s.st with
  | .sof => if b = 0xA5#8 then { n with crc := 0xFFFF#16, st := .cmd } else n
  | .cmd => { n with cmd := b, crc := crc16Step s.crc b, st := .l0 }
  | .l0 => { n with len := s.len.extractLsb' 8 8 ++ b, crc := crc16Step s.crc b, st := .l1 }
  | .l1 =>
    { n with
      len := b ++ s.len.extractLsb' 0 8
      crc := crc16Step s.crc b
      cnt := 0
      wa := 0
      st := if b ++ s.len.extractLsb' 0 8 = 0#16 then .c0 else .pl }
  | .pl => s.payload n b accept
  | .c0 => { n with c0 := b, st := .c1 }
  | .c1 => s.check n b accept

def FrameRx.clock (s : FrameRx) (i : RxIn) : FrameRx :=
  if i.byteValid then s.take (s.quiet true) i.byteIn i.accept else s.quiet false

/-! frame_tx. -/

inductive TxState where
  | idle
  | fetch
  | fetch2
  | load
  | send
  | wait
  deriving DecidableEq, Repr

structure FrameTx where
  st : TxState
  pos : BitVec 17
  crc : BitVec 16
  lenR : BitVec 16
  statR : BitVec 8
  ra : BitVec 13
  bstart : Bool
  bdata : BitVec 8

structure TxIn where
  req : Bool
  status : BitVec 8
  len : BitVec 16
  bbusy : Bool
  bdone : Bool
  deriving DecidableEq, Repr

def FrameTx.busy (s : FrameTx) : Bool := s.st ≠ .idle

def FrameTx.endPl (s : FrameTx) : BitVec 17 := 4#17 + s.lenR.setWidth 17

def FrameTx.inPl (s : FrameTx) : Bool := 4#17 ≤ s.pos ∧ s.pos < s.endPl

def FrameTx.inCrc (s : FrameTx) : Bool := 1#17 ≤ s.pos ∧ s.pos < s.endPl

/-- The byte at the position, `rd` from the RAM. -/
def FrameTx.b (s : FrameTx) (rd : BitVec 8) : BitVec 8 :=
  if s.pos = 0 then 0x5A#8
  else if s.pos = 1 then s.statR
  else if s.pos = 2 then s.lenR.extractLsb' 0 8
  else if s.pos = 3 then s.lenR.extractLsb' 8 8
  else if s.inPl then rd
  else if s.pos = s.endPl then s.crc.extractLsb' 0 8
  else s.crc.extractLsb' 8 8

def FrameTx.clock (s : FrameTx) (rd : BitVec 8) (i : TxIn) : FrameTx :=
  let n := { s with bstart := false }
  match s.st with
  | .idle =>
    if i.req then
      { n with statR := i.status, lenR := i.len, pos := 0, crc := 0xFFFF#16, st := .fetch }
    else n
  | .fetch => { n with ra := s.pos.setWidth 13 - 4#13, st := .fetch2 }
  | .fetch2 => { n with st := .load }
  | .load =>
    { n with
      bdata := s.b rd
      crc := if s.inCrc then crc16Step s.crc (s.b rd) else s.crc
      st := .send }
  | .send => if i.bbusy then n else { n with bstart := true, st := .wait }
  | .wait =>
    if i.bdone then
      if s.pos = s.endPl + 1#17 then { n with st := .idle }
      else { n with pos := s.pos + 1#17, st := .fetch }
    else n

/-! The paths through the RAMs. -/

/-- The receiver before its RAM. -/
structure RxPath where
  rx : FrameRx
  ram : Ram

/-- The ML-DSA engine takes the write port of the RAM when it is active. -/
structure RxPathIn where
  link : RxIn
  actQ : Bool
  qWrite : Option (BitVec 13 × BitVec 8)

def RxPath.clock (s : RxPath) (i : RxPathIn) : RxPath where
  rx := s.rx.clock i.link
  ram := s.ram.write (if i.actQ then i.qWrite else s.rx.port)

/-- The transmitter behind its RAM, which nothing writes. -/
structure TxPath where
  tx : FrameTx
  ram : Ram
  rq : BitVec 8

def TxPath.clock (s : TxPath) (i : TxIn) : TxPath where
  tx := s.tx.clock s.rq i
  ram := s.ram
  rq := s.ram s.tx.ra

/-- The byte that is handed to the transport on this clock. -/
def TxPath.sent (s : TxPath) (i : TxIn) : Option (BitVec 8) :=
  let s' := s.clock i
  if s'.tx.bstart then some s'.tx.bdata else none

end GoiKey.Rtl
