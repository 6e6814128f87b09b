import GoiKey.Lib.Trace
import GoiKey.Model.Storage

/-!
CTAPHID in FIDO2Manager.cpp: `_onOutput` assembles packets, `poll` hands the
pending message to the dispatcher, sendCtapResponse cuts a response up again.
-/

namespace GoiKey.Hid

abbrev Channel := UInt32

def ctaphidPing : UInt8 := 0x81
def ctaphidMsg : UInt8 := 0x83
def ctaphidInit : UInt8 := 0x86
def ctaphidWink : UInt8 := 0x88
def ctaphidCbor : UInt8 := 0x90
def ctaphidCancel : UInt8 := 0x91
def ctaphidError : UInt8 := 0xBF

/-- The receive side of FIDO2HIDDevice. A buffer is null or the memory behind the
pointer; capacities and lengths are the uint16_t beside it. -/
structure Receiver where
  ctapBuffer : Option Bytes := none
  ctapBufferCapacity : Nat := 0
  ctapExpectedLen : Nat := 0
  ctapReceivedLen : Nat := 0
  ctapExpectedSeq : UInt8 := 0
  ctapCurrentCmd : UInt8 := 0
  ctapCurrentChannel : Channel := 0
  lastPacketTime : UInt32 := 0
  hasPendingCommand : Bool := false
  pendingChannel : Channel := 0
  pendingCmd : UInt8 := 0
  pendingData : Option Bytes := none
  pendingLen : Nat := 0
  pendingDataCapacity : Nat := 0
  deriving DecidableEq, Repr

structure Channels where
  allocated : List Channel := [0, 0, 0, 0]
  nextSlot : Nat := 0
  deriving DecidableEq, Repr

structure State where
  receiver : Receiver := {}
  channels : Channels := {}
  deriving DecidableEq, Repr

/-- The clock, the outcome of each allocation and what fresh memory holds. -/
structure Surroundings where
  millis : UInt32
  assemblyAllocates : Bool := true
  pendingAllocates : Bool := true
  copyAllocates : Bool := true
  memory : Bytes := []
  random : UInt32 := 0
  deriving DecidableEq, Repr

structure Message where
  channel : Channel
  cmd : UInt8
  data : Bytes
  deriving DecidableEq, Repr

inductive Act where
  /-- A response or an error on a channel. -/
  | sent (m : Message)
  /-- A message given to processCtapCommand. -/
  | handed (m : Message)
  /-- A copy to or from memory that is not there; the firmware restarts. -/
  | fault
  deriving DecidableEq, Repr

def errorAct (channel : Channel) (code : UInt8) : Act := .sent ⟨channel, ctaphidError, [code]⟩

/-- malloc. -/
def malloc (allocates : Bool) (memory : Bytes) (n : Nat) : Option Bytes :=
  if allocates then some (padTo n memory) else none

/-- memcpy to an offset of a buffer; none when it leaves the buffer's memory. -/
def copyInto (dst : Option Bytes) (offset : Nat) (src : Bytes) : Option (Option Bytes) :=
  if src = [] then some dst
  else match dst with
    | none => none
    | some b =>
      if offset + src.length ≤ b.length then
        some (some (b.take offset ++ src ++ b.drop (offset + src.length)))
      else none

/-- memcpy of the first bytes of a buffer. -/
def copyFrom (src : Option Bytes) (n : Nat) : Option Bytes :=
  if n = 0 then some []
  else match src with
    | none => none
    | some b => if n ≤ b.length then some (b.take n) else none

/-! The fields of a packet. -/

def packetChannel (buffer : Bytes) : Channel := UInt32.ofNat (fromBigEndian (slice 0 4 buffer))

/-- The command of an initialization packet, the SEQ of any other. -/
def packetByte (buffer : Bytes) : UInt8 := byteAt buffer 4

def isInitialization (buffer : Bytes) : Bool := 0x80 ≤ packetByte buffer

/-- BCNT. -/
def declaredLen (buffer : Bytes) : Nat := (byteAt buffer 5).toNat * 256 + (byteAt buffer 6).toNat

def Receiver.idle (s : Receiver) : Receiver := { s with ctapExpectedLen := 0, ctapReceivedLen := 0 }

/-- A message in assembly is dropped 500 ms after its last packet. -/
def Receiver.expired (s : Receiver) (now : UInt32) : Bool :=
  0 < s.ctapExpectedLen && 500 < now - s.lastPacketTime

def Receiver.expire (s : Receiver) (now : UInt32) : Receiver :=
  if s.expired now then { s.idle with ctapExpectedSeq := 0 } else s

/-- How the part of _onOutput for one kind of packet ends: it returns, or goes on
to the hand-over. -/
inductive Progress where
  | returned (acts : List Act) (s : Receiver)
  | taken (s : Receiver)
  | fault
  deriving DecidableEq, Repr

/-- The buffer is given back before the new one is there; the capacity changes
when it is. -/
def Receiver.growAssembly (s : Receiver) (w : Surroundings) : Option Receiver :=
  if s.ctapBufferCapacity < s.ctapExpectedLen then
    (malloc w.assemblyAllocates w.memory s.ctapExpectedLen).map fun b =>
      { s with ctapBuffer := some b, ctapBufferCapacity := s.ctapExpectedLen }
  else some s

def Receiver.startMessage (s : Receiver) (w : Surroundings) (buffer : Bytes) : Progress :=
  let s := { s with
    ctapCurrentCmd := packetByte buffer
    ctapExpectedLen := declaredLen buffer
    ctapCurrentChannel := packetChannel buffer }
  if 7609 < s.ctapExpectedLen then .returned [errorAct (packetChannel buffer) 0x01] s.idle
  else match s.growAssembly w with
    | none => .returned [errorAct (packetChannel buffer) 0x01] { s with ctapBuffer := none }
    | some s =>
      let received := min 57 s.ctapExpectedLen
      if buffer.length < 7 + received then .returned [] s.idle
      else match copyInto s.ctapBuffer 0 (slice 7 received buffer) with
        | none => .fault
        | some b =>
          .taken { s with
            ctapBuffer := b
            ctapReceivedLen := received
            ctapExpectedSeq := 0
            lastPacketTime := w.millis }

/-- An initialization packet. A CANCEL takes the pending slot whoever has it. -/
def Receiver.onInitialization (s : Receiver) (w : Surroundings) (buffer : Bytes) : Progress :=
  let channel := packetChannel buffer
  if packetByte buffer = ctaphidCancel then
    .returned [] { s with
      pendingChannel := channel
      pendingCmd := ctaphidCancel
      pendingLen := 0
      hasPendingCommand := true }
  else if s.hasPendingCommand && channel == s.pendingChannel then .returned [] s
  else if s.hasPendingCommand then .returned [errorAct channel 0x05] s
  else s.startMessage w buffer

/-- `(uint16_t)` of what is still missing, at most the 59 bytes of a packet. -/
def Receiver.chunk (s : Receiver) : Nat :=
  if s.ctapReceivedLen + 59 < s.ctapExpectedLen then 59
  else (((s.ctapExpectedLen : Int) - s.ctapReceivedLen) % 2 ^ 16).toNat

def Receiver.onContinuation (s : Receiver) (w : Surroundings) (buffer : Bytes) : Progress :=
  let channel := packetChannel buffer
  if s.ctapExpectedLen = 0 || channel != s.ctapCurrentChannel then .returned [] s
  else if packetByte buffer ≠ s.ctapExpectedSeq then .returned [errorAct channel 0x04] s.idle
  else
    let chunk := s.chunk
    let s := { s with ctapExpectedSeq := s.ctapExpectedSeq + 1 }
    if s.ctapBufferCapacity < s.ctapReceivedLen || s.ctapBufferCapacity - s.ctapReceivedLen < chunk then
      .returned [errorAct channel 0x01] s.idle
    else if buffer.length < 5 + chunk then .returned [errorAct channel 0x01] s.idle
    else match copyInto s.ctapBuffer s.ctapReceivedLen (slice 5 chunk buffer) with
      | none => .fault
      | some b =>
        .taken { s with
          ctapBuffer := b
          ctapReceivedLen := s.ctapReceivedLen + chunk
          lastPacketTime := w.millis }

/-- The capacity changes whether or not there was memory. -/
def Receiver.growPending (s : Receiver) (w : Surroundings) : Receiver :=
  if s.pendingDataCapacity < s.ctapExpectedLen then
    { s with
      pendingData := malloc w.pendingAllocates w.memory s.ctapExpectedLen
      pendingDataCapacity := s.ctapExpectedLen }
  else s

def Receiver.complete (s : Receiver) : Bool :=
  0 < s.ctapExpectedLen && s.ctapExpectedLen ≤ s.ctapReceivedLen

/-- A complete message becomes the pending one when there is memory for it. -/
def Receiver.handOver (s : Receiver) (w : Surroundings) (channel : Channel) : Option Receiver :=
  if s.complete then
    let s := s.growPending w
    match s.pendingData with
    | none => some s.idle
    | some _ => do
      let message ← copyFrom s.ctapBuffer s.ctapExpectedLen
      let data ← copyInto s.pendingData 0 message
      return { s.idle with
        pendingChannel := channel
        pendingCmd := s.ctapCurrentCmd
        pendingData := data
        pendingLen := s.ctapExpectedLen
        hasPendingCommand := true }
  else some s

def Receiver.onPacket (s : Receiver) (w : Surroundings) (buffer : Bytes) : Progress :=
  if isInitialization buffer then s.onInitialization w buffer else s.onContinuation w buffer

/-- `_onOutput`; none is a fault. -/
def Receiver.onOutput (s : Receiver) (w : Surroundings) (buffer : Bytes) :
    Option (List Act × Receiver) :=
  if buffer.length < 7 then some ([], s)
  else match (s.expire w.millis).onPacket w buffer with
    | .returned acts s => some (acts, s)
    | .fault => none
    | .taken s => (s.handOver w (packetChannel buffer)).map fun s => ([], s)

/-- What `poll` takes out of the pending slot, for processCtapCommand. -/
def Receiver.poll (s : Receiver) (w : Surroundings) : Option (Option Message × Receiver) :=
  let taken := { s with hasPendingCommand := false }
  if !s.hasPendingCommand then some (none, s)
  else if s.pendingLen = 0 then some (some ⟨s.pendingChannel, s.pendingCmd, []⟩, taken)
  else if !w.copyAllocates then some (none, taken)
  else (copyFrom s.pendingData s.pendingLen).map fun data =>
    (some ⟨s.pendingChannel, s.pendingCmd, data⟩, taken)

/-- The look for a CANCEL of its channel in the loops that wait for a finger. -/
def Receiver.takeCancel (s : Receiver) (channel : Channel) : Receiver :=
  if s.hasPendingCommand && s.pendingCmd == ctaphidCancel && s.pendingChannel == channel then
    { s with hasPendingCommand := false }
  else s

/-! The dispatcher. -/

def Channels.isAllocated (c : Channels) (channel : Channel) : Bool :=
  channel ≠ 0 && c.allocated.contains channel

def Channels.remember (c : Channels) (channel : Channel) : Channels :=
  if c.allocated.contains channel then c
  else ⟨c.allocated.set c.nextSlot channel, (c.nextSlot + 1) % 4⟩

/-- What becomes of a message: an answer of the dispatcher itself, nothing, or
the work of one of the two processors. -/
inductive Handled where
  | answered (cmd : UInt8) (data : Bytes)
  | ignored
  | u2f (data : Bytes)
  | cbor (data : Bytes)
  deriving DecidableEq, Repr

def initResponse (nonce : Bytes) (newCid : Channel) : Bytes :=
  nonce.take 8 ++ bigEndian 4 newCid.toNat ++ [0x02, 0x01, 0x01, 0x00, 0x04]

/-- The channel an INIT is answered with. -/
def Channels.grant (c : Channels) (w : Surroundings) (channel : Channel) : Channel :=
  if channel = 0xFFFFFFFF || !c.isAllocated channel then
    if w.random = 0 then 1 else w.random
  else channel

def processCtapCommand (w : Surroundings) (c : Channels) (m : Message) : Handled × Channels :=
  if m.cmd = ctaphidInit then
    if m.data.length < 8 then (.answered ctaphidError [0x01], c)
    else
      let newCid := c.grant w m.channel
      (.answered ctaphidInit (initResponse m.data newCid), c.remember newCid)
  else if m.cmd = ctaphidPing then (.answered ctaphidPing m.data, c)
  else if m.cmd = ctaphidWink && c.isAllocated m.channel then (.answered ctaphidWink [], c)
  else if m.cmd = ctaphidCancel && c.isAllocated m.channel then (.ignored, c)
  else if m.cmd = ctaphidMsg && c.isAllocated m.channel then (.u2f m.data, c)
  else if m.cmd = ctaphidCbor && c.isAllocated m.channel then (.cbor m.data, c)
  else (.answered ctaphidError [0x01], c)

def Handled.acts (channel : Channel) : Handled → List Act
  | .answered cmd data => [.sent ⟨channel, cmd, data⟩]
  | _ => []

/-- What the receiver sees: a report of the host, a turn of the main loop, a round
of a waiting loop. -/
inductive Event where
  | output (buffer : Bytes)
  | poll
  | awaitFinger (channel : Channel)
  deriving DecidableEq, Repr

structure Input where
  event : Event
  surroundings : Surroundings
  deriving DecidableEq, Repr

/-- After a fault the firmware starts anew. -/
def step (s : State) (i : Input) : List Act × State :=
  match i.event with
  | .output buffer =>
    match s.receiver.onOutput i.surroundings buffer with
    | none => ([.fault], {})
    | some (acts, r) => (acts, { s with receiver := r })
  | .poll =>
    match s.receiver.poll i.surroundings with
    | none => ([.fault], {})
    | some (none, r) => ([], { s with receiver := r })
    | some (some m, r) =>
      let (handled, c) := processCtapCommand i.surroundings s.channels m
      (.handed m :: handled.acts m.channel, ⟨r, c⟩)
  | .awaitFinger channel => ([], { s with receiver := s.receiver.takeCancel channel })

abbrev Entry := Trace.Entry State Input (List Act)

abbrev History := List Entry

def initial : State := {}

def run (inputs : List Input) : History := Trace.history step initial inputs

/-! Sending. -/

/-- A packet has 64 bytes, zeros behind its data. -/
def initializationPacket (channel : Channel) (cmd : UInt8) (data : Bytes) : Bytes :=
  padTo 64 (bigEndian 4 channel.toNat ++ cmd :: (bigEndian 2 data.length ++ data.take 57))

def continuationPacket (channel : Channel) (seq : UInt8) (data : Bytes) : Bytes :=
  padTo 64 (bigEndian 4 channel.toNat ++ (seq &&& 0x7F) :: data.take 59)

/-- `while (offset < len)`; each packet takes 59 bytes, so the length bounds the rounds. -/
def continuationPackets (channel : Channel) : Nat → UInt8 → Bytes → List Bytes
  | 0, _, _ => []
  | n + 1, seq, rest =>
    if rest = [] then []
    else continuationPacket channel seq rest
      :: continuationPackets channel n (seq + 1) (rest.drop 59)

/-- The packets of a response that the host takes in time. -/
def sendCtapResponse (channel : Channel) (cmd : UInt8) (data : Bytes) : List Bytes :=
  initializationPacket channel cmd data
    :: continuationPackets channel data.length 0 (data.drop 57)

end GoiKey.Hid
