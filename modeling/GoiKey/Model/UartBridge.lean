import GoiKey.Lib.IndexRing
import GoiKey.Model.Text

/-!
uart_bridge.c of the BL616: the USB endpoints of the link on one side, UART1 on
the other, a ring for each way. The UART interrupt, the two endpoint callbacks
and the steps of the task are atomic and come in any order.
-/

namespace GoiKey.UartBridge

/-- `CDC_OUT_MPS`. -/
def cdcOutMps : Nat := 64

/-- `RING`, which is `2 ^ 12`; `index & (RING - 1)` is the low 12 bits. -/
def ring : Nat := 4096

/-- `sizeof(cdc_tx_buf)`. -/
def cdcTxBufSize : Nat := 512

/-- Where `uart_task` stands in its loop, with its locals. -/
inductive TaskAt where
  | top
  | rearm
  | count
  | look (n : BitVec 32)
  | copy (n : Nat) (t : BitVec 32) (i : Nat)
  | taken (n : Nat)
  | start (n : Nat)
  deriving DecidableEq

/-- What has passed either end since the bridge was started. A byte from the
UART is marked with whether it found room in the ring. -/
structure Traffic where
  fromUsb : Bytes := []
  toUart : Bytes := []
  fromUart : List (UInt8 × Bool) := []
  toUsb : Bytes := []

structure Bridge where
  txr : IndexRing 12 32 UInt8
  rxr : IndexRing 12 32 UInt8
  rxOverflow : BitVec 32
  outArmed : Bool
  usbReady : Bool
  cdcConfigured : Bool
  cdcTxBusy : Bool
  cdcTxBuf : Nat → UInt8
  task : TaskAt
  /-- The UART transmit interrupt is masked. -/
  txMasked : Bool
  /-- The OUT endpoint has a read started that has not completed. -/
  reading : Bool
  /-- The IN endpoint has a write of so many bytes of `cdcTxBuf` started. -/
  writing : Option Nat
  seen : Traffic

/-- `txr_free`. -/
def Bridge.txrFree (s : Bridge) : BitVec 32 := BitVec.ofNat 32 ring - s.txr.used

/-- `uart_bridge_start`, when the host has configured the device. Nothing is under
way on the endpoints then. -/
def uartBridgeStart (s : Bridge) : Bridge :=
  { s with
    txr := { s.txr with head := 0, tail := 0 }
    rxr := { s.rxr with head := 0, tail := 0 }
    outArmed := true
    usbReady := true
    cdcConfigured := true
    cdcTxBusy := false
    reading := true
    writing := none
    seen := {} }

/-- The receive loop of `uart_isr` over the bytes it gets from the UART. -/
def receive (s : Bridge) : Bytes → Bridge
  | [] => s
  | c :: rest =>
    if s.rxr.used < BitVec.ofNat 32 ring then
      receive { s with
        rxr := s.rxr.put c
        seen := { s.seen with fromUart := s.seen.fromUart ++ [(c, true)] } } rest
    else
      receive { s with
        rxOverflow := s.rxOverflow + 1
        seen := { s.seen with fromUart := s.seen.fromUart ++ [(c, false)] } } rest

/-- The transmit loop of `uart_isr`, with room for so many bytes in the UART. -/
def transmit (s : Bridge) : Nat → Bridge
  | 0 => s
  | room + 1 =>
    if s.txr.tail = s.txr.head then s
    else
      transmit { s with
        txr := s.txr.advance 1
        seen := { s.seen with toUart := s.seen.toUart ++ [s.txr.cell (IndexRing.slot s.txr.tail)] } } room

/-- `uart_isr`, with the bytes it reads when a receive status bit is set and the
room it finds when the transmit status bit is set. -/
def uartIsr (received : Option Bytes) (room : Option Nat) (s : Bridge) : Bridge :=
  let s := match received with
    | none => s
    | some bytes => receive s bytes
  match room with
  | none => s
  | some n =>
    let s := transmit s n
    if s.txr.tail = s.txr.head then { s with txMasked := true } else s

/-- `cdc_bulk_out_cb` with what the completed read has put in `cdc_rx_buf`. -/
def cdcBulkOutCb (bytes : Bytes) (s : Bridge) : Bridge :=
  let s := { s with
    txr := bytes.foldl IndexRing.put s.txr
    reading := false
    seen := { s.seen with fromUsb := s.seen.fromUsb ++ bytes } }
  let s := if bytes.length ≠ 0 then { s with txMasked := false } else s
  if BitVec.ofNat 32 cdcOutMps ≤ s.txrFree then { s with reading := true }
  else { s with outArmed := false }

/-- `cdc_bulk_in_cb`: the host has taken the bytes of the write. -/
def cdcBulkInCb (n : Nat) (s : Bridge) : Bridge :=
  { s with
    cdcTxBusy := false
    writing := none
    seen := { s.seen with toUsb := s.seen.toUsb ++ (List.range n).map s.cdcTxBuf } }

/-- One step of `uart_task`. The re-arming runs with interrupts off. -/
def uartTask (s : Bridge) : Bridge :=
  match s.task with
  | .top =>
    { s with task :=
        if s.usbReady && !s.outArmed && decide (BitVec.ofNat 32 cdcOutMps ≤ s.txrFree) then .rearm else .count }
  | .rearm =>
    if s.outArmed then { s with task := .count }
    else { s with outArmed := true, reading := true, task := .count }
  | .count => { s with task := .look s.rxr.used }
  | .look n =>
    if n ≠ 0 ∧ s.cdcTxBusy = false then { s with task := .copy (min n.toNat cdcTxBufSize) s.rxr.tail 0 }
    else { s with task := .top }
  | .copy n t i =>
    if i < n then
      { s with
        cdcTxBuf := fun j => if j = i then s.rxr.cell (IndexRing.slot (t + BitVec.ofNat 32 i)) else s.cdcTxBuf j
        task := .copy n t (i + 1) }
    else { s with rxr := { s.rxr with tail := t + BitVec.ofNat 32 n }, task := .taken n }
  | .taken n =>
    if s.cdcConfigured then { s with cdcTxBusy := true, task := .start n } else { s with task := .top }
  | .start n => { s with writing := some n, task := .top }

inductive Event where
  | uart (received : Option Bytes) (room : Option Nat)
  /-- The host has sent a packet of at most the size that was asked for. -/
  | out (bytes : Bytes)
  | inDone
  | task

/-- An endpoint completes only what was started on it. -/
def step (s : Bridge) : Event → Option Bridge
  | .uart received room => some (uartIsr received room s)
  | .out bytes => if s.reading = true ∧ bytes.length ≤ cdcOutMps then some (cdcBulkOutCb bytes s) else none
  | .inDone => s.writing.map fun n => cdcBulkInCb n s
  | .task => some (uartTask s)

def run (s : Bridge) (events : List Event) : Option Bridge := events.foldlM step s

end GoiKey.UartBridge
