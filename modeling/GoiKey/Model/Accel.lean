import GoiKey.Model.RecordLists

/-!
The accelerator beside the ESP32: the calls of FpgaAccel.cpp over its link, and the
wrappers of CryptoAccel.cpp that compute with mbedTLS when a call comes to nothing.
-/

namespace GoiKey.Accel

open RecordFile (littleEndian)

/-- mbedTLS on the ESP32, `none` for a result code other than 0. -/
structure Mbedtls where
  sha256 : Bytes → Bytes
  /-- Key, data. -/
  hmacSha256 : Bytes → Bytes → Bytes
  /-- Password, salt, iterations, length. -/
  pbkdf2 : Bytes → Bytes → UInt32 → Nat → Option Bytes
  /-- Whether to encrypt; key, iv, whole blocks. -/
  cbc : Bool → Bytes → Bytes → Bytes → Option Bytes
  /-- Key, iv, additional data, plain text; ciphertext and tag. -/
  gcmEncrypt : Bytes → Bytes → Bytes → Bytes → Option (Bytes × Bytes)
  /-- Key, iv, additional data, ciphertext, tag. -/
  gcmDecrypt : Bytes → Bytes → Bytes → Bytes → Bytes → Option Bytes

/-! The link. -/

def statusOk : UInt8 := 0
def statusBadLen : UInt8 := 2
def statusAuthFail : UInt8 := 4
def statusTimeout : UInt8 := 0xF0
def statusCrc : UInt8 := 0xF1
def statusAbsent : UInt8 := 0xF2

/-- How one exchange goes. A body that breaks off has a length announced; what
was received of it is in the caller's buffer already. -/
inductive Reply where
  | noMemory
  | unsent
  | silent
  | headerLost
  | bodyLost (length : Nat) (received : Bytes)
  | crcLost (body : Bytes)
  | frame (status : UInt8) (body : Bytes) (crc : UInt16)
  deriving DecidableEq, Repr

/-- The board, the clock and the heap. What the board answers may depend on how
many exchanges there were and on the AES key it holds. -/
structure Board where
  reply : Nat → Option Bytes → UInt8 → Bytes → Reply
  now : Nat → UInt32
  allocates : Nat → Bool

/-- The globals of FpgaAccel.cpp, the key loaded last, and how many exchanges and
looks at the clock there have been. -/
structure Link where
  tpReady : Bool := false
  ok : Bool := false
  retryAt : UInt32 := 0
  caps : UInt32 := 0
  last : UInt8 := statusAbsent
  key : Option Bytes := none
  exchanges : Nat := 0
  looks : Nat := 0
  deriving DecidableEq, Repr

abbrev LinkM := StateM Link

/-- What a call leaves: its success and the bytes written into its buffer. -/
structure Called where
  ok : Bool
  rsp : Bytes
  deriving DecidableEq, Repr

def crcBit (c : UInt16) : UInt16 := if c &&& 0x8000 = 0 then c <<< 1 else (c <<< 1) ^^^ 0x1021

def crc16 (d : Bytes) (c : UInt16) : UInt16 :=
  d.foldl (fun (c : UInt16) (b : UInt8) =>
    (List.range 8).foldl (fun c _ => crcBit c) (c ^^^ (b.toUInt16 <<< 8))) c

/-- The checksum over status, length and body. -/
def frameCrc (status : UInt8) (body : Bytes) : UInt16 :=
  crc16 body (crc16 (status :: littleEndian 2 body.length) 0xFFFF)

def fpgaMaxPayload : Nat := 8000

variable (B : Board) (M : Mbedtls)

def nowMs : LinkM UInt32 := do
  let s ← get
  set { s with looks := s.looks + 1 }
  return B.now s.looks

def ioFail (status : UInt8) (rsp : Bytes) : LinkM Called := do
  modify fun s => { s with last := status, ok := false }
  let now ← nowMs B
  modify fun s => { s with retryAt := now + 3000 }
  return ⟨false, rsp⟩

/-- A body that is longer than the caller's buffer is not read. -/
def tooLong : LinkM Called := do
  modify fun s => { s with last := statusBadLen }
  return ⟨false, []⟩

def setKeyCommand : UInt8 := 0x20

/-- An intact frame: its status is the last one, and a key that was taken is loaded. -/
def receive (cmd : UInt8) (pl : Bytes) (status : UInt8) (body : Bytes) : LinkM Called := do
  modify fun s => { s with
    last := status
    key := if cmd = setKeyCommand ∧ status = statusOk then some pl else s.key }
  return ⟨status == statusOk, body⟩

/-- What is made of an exchange. -/
def react (cmd : UInt8) (pl : Bytes) (rspMax : Nat) : Reply → LinkM Called
  | .noMemory => return ⟨false, []⟩
  | .unsent | .silent | .headerLost => ioFail B statusTimeout []
  | .bodyLost length received =>
    if rspMax < length then tooLong else ioFail B statusTimeout (received.take length)
  | .crcLost body => if rspMax < body.length then tooLong else ioFail B statusTimeout body
  | .frame status body crc =>
    if rspMax < body.length then tooLong
    else if frameCrc status body ≠ crc then ioFail B statusCrc body
    else receive cmd pl status body

def exchange (cmd : UInt8) (pl : Bytes) (rspMax : Nat) : LinkM Called := do
  let s ← get
  set { s with exchanges := s.exchanges + 1 }
  react B cmd pl rspMax (B.reply s.exchanges s.key cmd pl)

def absent : LinkM Called := do
  modify fun s => { s with last := statusAbsent }
  return ⟨false, []⟩

def callRaw (cmd : UInt8) (pl : Bytes) (rspMax : Nat) : LinkM Called := do
  if !(← get).tpReady ∨ fpgaMaxPayload < pl.length then absent else exchange B cmd pl rspMax

def capsOf (r : Bytes) : UInt32 := UInt32.ofNat (fromBigEndian (slice 8 4 r))

/-- The probe. -/
def fpgaAvailable : LinkM Bool := do
  let s ← get
  if !s.tpReady then return false
  else if s.ok then return true
  else
    let now ← nowMs B
    if now < s.retryAt then return false
    else
      let r ← callRaw B 0x01 [] 12
      if r.ok ∧ r.rsp.length = 12 ∧ r.rsp.take 8 = text "TROACC01" then
        modify fun s => { s with caps := capsOf r.rsp, ok := true }
        return true
      else
        let now ← nowMs B
        modify fun s => { s with ok := false, retryAt := now + 5000, last := statusAbsent }
        return false

def call (cmd : UInt8) (pl : Bytes) (rspMax : Nat) : LinkM Called := do
  if ← fpgaAvailable B then callRaw B cmd pl rspMax else absent

def callExact (cmd : UInt8) (pl : Bytes) (want : Nat) : LinkM Called := do
  let r ← call B cmd pl want
  return { r with ok := r.ok && r.rsp.length == want }

def fpgaCaps : LinkM UInt32 := do
  if ← fpgaAvailable B then return (← get).caps else return 0

def fpgaHasSym : LinkM Bool := do return (← fpgaCaps B) &&& 0x07 == 0x07

def fpgaHasAes : LinkM Bool := do return (← fpgaCaps B) &&& 0x08 != 0

def refused : Called := ⟨false, []⟩

/-- `malloc` of a request. -/
def mallocs : LinkM Bool := do return B.allocates (← get).exchanges

/-! The calls. -/

def fpgaSha256 (data : Bytes) : LinkM Called := do
  if ← fpgaHasSym B then callExact B 0x10 data 32 else return refused

def hmacPayload (key data : Bytes) : Bytes := UInt8.ofNat key.length :: (key ++ data)

def fpgaHmacSha256 (key data : Bytes) : LinkM Called := do
  if !(← fpgaHasSym B) ∨ 64 < key.length ∨ fpgaMaxPayload < data.length + 1 + key.length then
    return refused
  else if ← mallocs B then callExact B 0x11 (hmacPayload key data) 32
  else return refused

def pbkdf2Payload (pw salt : Bytes) (iterations : UInt32) (outLen : Nat) : Bytes :=
  littleEndian 4 iterations.toNat ++ (littleEndian 2 outLen ++ (UInt8.ofNat pw.length :: (pw ++ salt)))

def fpgaPbkdf2Sha256 (pw salt : Bytes) (iterations : UInt32) (outLen : Nat) : LinkM Called := do
  if !(← fpgaHasSym B) ∨ 64 < pw.length ∨ outLen = 0 ∨ 1024 < outLen ∨ iterations = 0 ∨
      fpgaMaxPayload < 7 + pw.length + salt.length then return refused
  else if ← mallocs B then callExact B 0x12 (pbkdf2Payload pw salt iterations outLen) outLen
  else return refused

def fpgaAesSetKey (key : Bytes) : LinkM Bool := do
  if ← fpgaHasAes B then return (← call B setKeyCommand key 0).ok else return false

/-- Mode, iv padded to 16 bytes, both lengths, additional data, text and tag. -/
def aesPayload (mode : UInt8) (iv aad input tagIn : Bytes) : Bytes :=
  mode :: (padTo 16 iv ++ (littleEndian 2 aad.length ++ (littleEndian 2 input.length ++
    (aad ++ (input ++ tagIn)))))

/-- The answer goes into a buffer of its own first. -/
def aesOp (mode : UInt8) (iv aad input tagIn : Bytes) : LinkM Called := do
  if !(← fpgaHasAes B) then return refused
  else if fpgaMaxPayload < 21 + aad.length + input.length + tagIn.length then return refused
  else if ← mallocs B then
    let r ← call B 0x21 (aesPayload mode iv aad input tagIn) (input.length + 16)
    let want := input.length + if mode = 4 then 16 else 0
    return if r.ok && r.rsp.length == want then r else refused
  else return refused

/-! The wrappers. Each is given what the output buffers hold before. -/

def accelMinHashBytes : Nat := 1024
def accelMinAesBytes : Nat := 256
def accelMinPbkdf2Iter : UInt32 := 1000

/-- A buffer after bytes were written to its front. -/
def overwrite (bytes out : Bytes) : Bytes := bytes ++ out.drop bytes.length

def accelSha256 (data out : Bytes) : LinkM Bytes := do
  if accelMinHashBytes ≤ data.length then
    if ← fpgaHasSym B then
      let r ← fpgaSha256 B data
      let out := overwrite r.rsp out
      return if r.ok then out else overwrite (M.sha256 data) out
    else return overwrite (M.sha256 data) out
  else return overwrite (M.sha256 data) out

def accelHmacSha256 (key data out : Bytes) : LinkM Bytes := do
  if accelMinHashBytes ≤ data.length then
    let k := if 64 < key.length then M.sha256 key else key
    if ← fpgaHasSym B then
      let r ← fpgaHmacSha256 B k data
      let out := overwrite r.rsp out
      return if r.ok then out else overwrite (M.hmacSha256 key data) out
    else return overwrite (M.hmacSha256 key data) out
  else return overwrite (M.hmacSha256 key data) out

/-- Success and the buffer, after mbedTLS. -/
def computed (result : Option Bytes) (out : Bytes) : Bool × Bytes :=
  match result with
  | some bytes => (true, overwrite bytes out)
  | none => (false, out)

def accelPbkdf2Sha256 (pw salt : Bytes) (iterations : UInt32) (out : Bytes) : LinkM (Bool × Bytes) := do
  if accelMinPbkdf2Iter ≤ iterations then
    let p := if 64 < pw.length then M.sha256 pw else pw
    if ← fpgaHasSym B then
      let r ← fpgaPbkdf2Sha256 B p salt iterations out.length
      if r.ok then return (true, overwrite r.rsp out)
      else return computed (M.pbkdf2 pw salt iterations out.length) (overwrite r.rsp out)
    else return computed (M.pbkdf2 pw salt iterations out.length) out
  else return computed (M.pbkdf2 pw salt iterations out.length) out

/-- Payloads the board is asked for. -/
def offloads (input aad : Bytes) : Bool := accelMinAesBytes ≤ input.length && input.length + aad.length ≤ 7900

def accelAes256Cbc (encrypt : Bool) (key iv input out : Bytes) : LinkM (Bool × Bytes) := do
  if input.length = 0 ∨ input.length % 16 ≠ 0 then return (false, out)
  else if offloads input [] then
    if (← fpgaHasAes B) then
      if (← fpgaAesSetKey B key) then
        let r ← aesOp B (if encrypt then 2 else 3) iv [] input []
        if r.ok then return (true, overwrite r.rsp out)
        else return computed (M.cbc encrypt key iv input) out
      else return computed (M.cbc encrypt key iv input) out
    else return computed (M.cbc encrypt key iv input) out
  else return computed (M.cbc encrypt key iv input) out

/-- Ciphertext and tag go into two buffers, here one behind the other. -/
def accelAes256GcmEncrypt (key iv aad input out : Bytes) : LinkM (Bool × Bytes) := do
  let software := computed ((M.gcmEncrypt key iv aad input).map fun r => r.1 ++ r.2) out
  if offloads input aad then
    if (← fpgaHasAes B) then
      if (← fpgaAesSetKey B key) then
        let r ← aesOp B 4 iv aad input []
        return if r.ok then (true, overwrite r.rsp out) else software
      else return software
    else return software
  else return software

/-- `mbedtls_gcm_auth_decrypt` clears its output when the tag is wrong. -/
def authDecrypt (key iv aad input tag out : Bytes) : Bool × Bytes :=
  match M.gcmDecrypt key iv aad input tag with
  | some plain => (true, overwrite plain out)
  | none => (false, overwrite (zeros input.length) out)

/-- A failed authentication is the board's to report, other failures are not. -/
def accelAes256GcmDecrypt (key iv aad input tag out : Bytes) : LinkM (Bool × Bytes) := do
  let software := authDecrypt M key iv aad input tag out
  if offloads input aad then
    if (← fpgaHasAes B) then
      if (← fpgaAesSetKey B key) then
        let r ← aesOp B 5 iv aad input tag
        if r.ok then return (true, overwrite r.rsp out)
        else return if (← get).last = statusAuthFail then (false, out) else software
      else return software
    else return software
  else return software

end GoiKey.Accel
