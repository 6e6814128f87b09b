import GoiKey.Model.Accel

/-!
The transports of FpgaAccel.cpp and the frames on them, byte by byte. The bytes a
call sees end where one of its reads times out. Which bytes it sees is up to the
link and to the accelerator, which answers the requests it took one after another.
-/

namespace GoiKey.FpgaLink

open Accel
open RecordFile (littleEndian fromLittleEndian)

/-- The bytes of a request. -/
def request (cmd : UInt8) (pl : Bytes) : Bytes :=
  let body := cmd :: (littleEndian 2 pl.length ++ pl)
  0xA5 :: (body ++ littleEndian 2 (crc16 body 0xFFFF).toNat)

/-- The bytes of a response. -/
def response (status : UInt8) (body : Bytes) : Bytes :=
  0x5A :: (status :: (littleEndian 2 body.length ++ body) ++ littleEndian 2 (frameCrc status body).toNat)

/-! Reading over the UART. -/

def tpWaitSof : Bytes → Option Bytes
  | [] => none
  | b :: seen => if b = 0x5A then some seen else tpWaitSof seen

def tpRead (n : Nat) (seen : Bytes) : Option (Bytes × Bytes) :=
  if seen.length < n then none else some (seen.take n, seen.drop n)

/-- The checksum behind a body. -/
def readCrc (status : UInt8) (body seen : Bytes) : Accel.Reply :=
  match tpRead 2 seen with
  | none => .crcLost body
  | some (cc, _) => .frame status body (UInt16.ofNat (fromLittleEndian cc))

/-- Body and checksum behind a header. -/
def readBody (status : UInt8) (n : Nat) (seen : Bytes) : Accel.Reply :=
  match tpRead n seen with
  | none => .bodyLost n seen
  | some (body, rest) => readCrc status body rest

/-- What stands behind a start byte. -/
def readFrame (seen : Bytes) : Accel.Reply :=
  match tpRead 3 seen with
  | none => .headerLost
  | some (h, rest) => readBody (h.headD 0) (fromLittleEndian (h.drop 1)) rest

def replyOf (seen : Bytes) : Accel.Reply :=
  match tpWaitSof seen with
  | none => .silent
  | some rest => readFrame rest

/-! Reading over SPI: the start byte is looked for in pieces of eight, and what is behind
it in its piece is kept. -/

def spiWaitSof (seen : Bytes) : Option (Bytes × Bytes) :=
  if _h : seen.length < 8 then none
  else
    match tpWaitSof (seen.take 8) with
    | some left => some (left, seen.drop 8)
    | none => spiWaitSof (seen.drop 8)
termination_by seen.length
decreasing_by
  rw [List.length_drop]
  omega

/-- What was kept is read first. -/
def spiReplyOf (seen : Bytes) : Accel.Reply :=
  match spiWaitSof seen with
  | none => .silent
  | some (left, rest) => readFrame (left ++ rest)

inductive Transport where
  | uart
  | spi
  deriving DecidableEq, Repr

def Transport.reply : Transport → Bytes → Accel.Reply
  | .uart => replyOf
  | .spi => spiReplyOf

/-! The link. -/

/-- What the accelerator says to a request; its length is sent in two bytes. -/
structure Response where
  status : UInt8
  body : Bytes
  short : body.length < 2 ^ 16

def Response.bytes (r : Response) : Bytes := response r.status r.body

/-- A byte on its way to the host: the exchange it answers, and where it stands in its frame. -/
structure Mark where
  answers : Nat
  place : Nat
  byte : UInt8
  deriving DecidableEq, Repr

/-- The answers to the exchanges that are taken. -/
abbrev Answers := Nat → Response

def marks (A : Answers) (k : Nat) : List Mark := (A k).bytes.mapIdx fun place byte => ⟨k, place, byte⟩

/-- The exchanges that are taken and not answered, the oldest first, and the bytes on the way. -/
structure Wire where
  taken : List Nat := []
  flight : List Mark := []
  deriving DecidableEq, Repr

/-- The accelerator answers, and the answer goes on its way or is lost. -/
def Wire.answer (A : Answers) (w : Wire) (lost : Bool) : Wire :=
  match w.taken with
  | [] => w
  | k :: taken => ⟨taken, if lost then w.flight else w.flight ++ marks A k⟩

/-- What happens around one exchange. -/
structure Window where
  /-- `malloc` has room for the request. -/
  allocated : Bool := true
  /-- The request is written in one piece. -/
  written : Bool := true
  /-- Answers before the request is written. -/
  early : List Bool := []
  /-- Bytes that are dropped as it is written: flushed from the UART, or clocked out of SPI. -/
  dropped : Nat := 0
  /-- The accelerator takes the request. -/
  accepted : Bool := true
  /-- Answers before the call gives up. -/
  late : List Bool := []
  /-- Bytes that are read from the link before the call gives up. -/
  arrived : Nat := 0
  /-- How often SPI reads a filler before the response to an exchange begins. -/
  fillers : Nat → Nat := fun _ => 0
  /-- The same when there is nothing left to read. -/
  trailers : Nat := 0

/-- The request goes out as a whole. -/
def Window.sent (e : Window) : Bool := e.allocated && e.written

/-- The wire when the request is out. -/
def Wire.written (A : Answers) (k : Nat) (e : Window) (w : Wire) : Wire :=
  let w := e.early.foldl (Wire.answer A) w
  ⟨if e.sent && e.accepted then w.taken ++ [k] else w.taken,
    if e.allocated then w.flight.drop e.dropped else w.flight⟩

/-- The wire when the call is over, before the bytes that were read are gone. -/
def Wire.answered (A : Answers) (k : Nat) (e : Window) (w : Wire) : Wire :=
  e.late.foldl (Wire.answer A) (w.written A k e)

def Wire.next (A : Answers) (k : Nat) (e : Window) (w : Wire) : Wire :=
  let w := w.answered A k e
  ⟨w.taken, if e.sent then w.flight.drop e.arrived else w.flight⟩

/-- The wire before an exchange. -/
def wireAt (A : Answers) (E : Nat → Window) : Nat → Wire
  | 0 => {}
  | k + 1 => (wireAt A E k).next A k (E k)

/-- What is on the wire during an exchange. -/
def flight (A : Answers) (E : Nat → Window) (k : Nat) : List Mark :=
  ((wireAt A E k).answered A k (E k)).flight

/-- A byte as it is read. -/
def Window.read (e : Window) (m : Mark) : Bytes :=
  if m.place = 0 then zeros (e.fillers m.answers) ++ [m.byte] else [m.byte]

/-- What is read behind the bytes that were on the wire. -/
def Window.trail (e : Window) (ms : List Mark) : Bytes :=
  if ms.length ≤ e.arrived then zeros e.trailers else []

def Window.readAll (e : Window) (ms : List Mark) : Bytes :=
  (ms.take e.arrived).flatMap e.read ++ e.trail ms

def outcome (T : Transport) (A : Answers) (E : Nat → Window) (k : Nat) : Accel.Reply :=
  if !(E k).allocated then .noMemory
  else if !(E k).written then .unsent
  else T.reply ((E k).readAll (flight A E k))

/-- The board as a call sees it over the link. -/
def board (T : Transport) (A : Answers) (E : Nat → Window) (now : Nat → UInt32)
    (allocates : Nat → Bool) : Board where
  reply k _ _ _ := outcome T A E k
  now := now
  allocates := allocates

end GoiKey.FpgaLink
