import GoiKey.Model.Cbor

/-!
The skipping half of the CborParser class of CborEngine.cpp, with the offset into
its buffer and every value the offset takes.
-/

namespace GoiKey

/-- `offset`, and each offset so far, the newest first. -/
structure CborParser where
  offset : Nat
  visited : List Nat := []
  deriving DecidableEq, Repr

namespace CborParser

abbrev Scan := StateM CborParser

def moveTo (offset : Nat) : Scan Unit := modify fun p => ⟨offset, offset :: p.visited⟩

/-- `offset++` in a loop of `n` rounds. -/
def stepOver : Nat → Scan Unit
  | 0 => return
  | n + 1 => do
    moveTo ((← get).offset + 1)
    stepOver n

variable (buffer : Bytes)

/-- The bytes from an index on as one value. -/
def valueAt (start width : Nat) : Nat := fromBigEndian ((buffer.drop start).take width)

/-- What readTypeAndValue does behind the initial byte. -/
def readArgument (majorType additionalInfo : Nat) : Scan (Option (Nat × Nat)) := do
  let start := (← get).offset
  if additionalInfo < 24 then return some (majorType, additionalInfo)
  else if additionalInfo = 24 then
    if start ≥ buffer.length then return none
    moveTo (start + 1)
    return some (majorType, valueAt buffer start 1)
  else if additionalInfo = 25 then
    if start + 1 ≥ buffer.length then return none
    moveTo (start + 2)
    return some (majorType, valueAt buffer start 2)
  else if additionalInfo = 26 then
    if start + 3 ≥ buffer.length then return none
    moveTo (start + 4)
    return some (majorType, valueAt buffer start 4)
  else if additionalInfo = 27 then
    if start + 7 ≥ buffer.length then return none
    stepOver 8
    return some (majorType, valueAt buffer start 8)
  else if additionalInfo = 31 then return some (majorType, indefiniteLength)
  else return none

def readTypeAndValue : Scan (Option (Nat × Nat)) := do
  let offset := (← get).offset
  if offset ≥ buffer.length then return none
  let initialByte := buffer.getD offset 0
  moveTo (offset + 1)
  readArgument buffer (initialByte.toNat / 32) (initialByte.toNat % 32)

/-- `while (offset < length && buffer[offset] != 0xFF)` and the break behind it. -/
def skipUntilBreak (skip : Scan Bool) : Nat → Scan Bool
  | 0 => return false
  | n + 1 => do
    let offset := (← get).offset
    if offset < buffer.length ∧ buffer.getD offset 0 ≠ 0xFF then
      if ← skip then skipUntilBreak skip n else return false
    else if offset ≥ buffer.length then return false
    else
      moveTo (offset + 1)
      return true

def skipTimes (skip : Scan Bool) : Nat → Scan Bool
  | 0 => return true
  | n + 1 => do
    if ← skip then skipTimes skip n else return false

/-- `skipValue(depth)` with `levels = MAX_CBOR_DEPTH + 1 - depth` still allowed. -/
def skipLevels : Nat → Scan Bool
  | 0 => return false
  | levels + 1 => do
    let offset := (← get).offset
    if offset ≥ buffer.length then return false
    if buffer.getD offset 0 = 0xFF then
      moveTo (offset + 1)
      return true
    match ← readTypeAndValue buffer with
    | none => return false
    | some (majorType, value) =>
      let skip := skipLevels levels
      let rounds := buffer.length - offset + 1
      if majorType = 0 ∨ majorType = 1 ∨ majorType = 7 then return true
      else if majorType = 2 ∨ majorType = 3 then
        if value = indefiniteLength then skipUntilBreak buffer skip rounds
        else
          let start := (← get).offset
          if value > buffer.length - start then return false
          moveTo (start + value)
          return true
      else if majorType = 4 then
        if value = indefiniteLength then skipUntilBreak buffer skip rounds
        else if value > maxCborElements then return false
        else skipTimes skip value
      else if majorType = 5 then
        if value = indefiniteLength then
          skipUntilBreak buffer (do if ← skip then skip else return false) rounds
        else if value > maxCborElements then return false
        else skipTimes skip (value * 2)
      else return false

def skipValue : Scan Bool := skipLevels buffer (maxCborDepth + 1)

end CborParser

end GoiKey

/-!
The CborEncoder class of CborEngine.cpp, with the memory behind its buffer, so that
a store past the capacity would be seen.
-/

namespace GoiKey

/-- `PTRDIFF_MAX`: no object is larger on the 32-bit target. -/
def ptrdiffMax : Nat := 2 ^ 31 - 1

/-- A value of type `size_t`. -/
def sizeT (n : Nat) : Nat := n % 2 ^ 32

structure CborEncoder where
  /-- The memory from the start of the buffer on, its end included. -/
  buffer : Nat → UInt8
  capacity : Nat
  isObject : capacity ≤ ptrdiffMax
  offset : Nat
  /-- Where a byte has been stored, the newest first. -/
  stores : List Nat := []

namespace CborEncoder

/-- `buffer[offset++] = c`. -/
def put (e : CborEncoder) (c : UInt8) : CborEncoder :=
  { e with
    buffer := fun i => if i = e.offset then c else e.buffer i
    offset := sizeT (e.offset + 1)
    stores := e.offset :: e.stores }

def putAll (e : CborEncoder) (bytes : Bytes) : CborEncoder := bytes.foldl put e

/-- `(major << 5) | info`. -/
def initial (major info : Nat) : UInt8 := UInt8.ofNat (major <<< 5 ||| info)

/-- `if (offset + n >= capacity) return false` and the stores behind it. -/
def withRoom (n : Nat) (bytes : Bytes) (e : CborEncoder) : Bool × CborEncoder :=
  if sizeT (e.offset + n) ≥ e.capacity then (false, e) else (true, e.putAll bytes)

/-- A head whose argument may take up to `widest` bytes. -/
def writeHead (major widest v : Nat) (e : CborEncoder) : Bool × CborEncoder :=
  if e.offset ≥ e.capacity then (false, e)
  else if v < 24 then (true, e.put (initial major v))
  else if v ≤ 0xFF then e.withRoom 1 (initial major 24 :: bigEndian 1 v)
  else if v ≤ 0xFFFF ∧ 2 ≤ widest then e.withRoom 2 (initial major 25 :: bigEndian 2 v)
  else if v ≤ 0xFFFFFFFF ∧ 4 ≤ widest then e.withRoom 4 (initial major 26 :: bigEndian 4 v)
  else if 8 ≤ widest then e.withRoom 8 (initial major 27 :: bigEndian 8 v)
  else (false, e)

def writeUnsignedInt (val : BitVec 64) : CborEncoder → Bool × CborEncoder := writeHead 0 8 val.toNat

def writeMapHeader (elements : BitVec 32) : CborEncoder → Bool × CborEncoder := writeHead 5 2 elements.toNat

def writeArrayHeader (elements : BitVec 32) : CborEncoder → Bool × CborEncoder := writeHead 4 1 elements.toNat

/-- `val` is signed, `uval = -1 - val` is not. -/
def writeNegativeInt (val : BitVec 64) (e : CborEncoder) : Bool × CborEncoder :=
  if val.toInt ≥ 0 then (false, e) else writeHead 1 8 (-1 - val).toNat e

/-- A string of up to `longest` bytes behind its head. -/
def writeString (major longest : Nat) (data : Bytes) (e : CborEncoder) : Bool × CborEncoder :=
  let len := data.length
  if sizeT (e.offset + len + 3) ≥ e.capacity then (false, e)
  else if len < 24 then (true, (e.put (initial major len)).putAll data)
  else if len ≤ 0xFF then (true, (e.putAll (initial major 24 :: bigEndian 1 len)).putAll data)
  else if len ≤ longest then (true, (e.putAll (initial major 25 :: bigEndian 2 len)).putAll data)
  else (false, e)

def writeByteString (data : Bytes) : CborEncoder → Bool × CborEncoder := writeString 2 0xFFFF data

/-- The text ends at its first NUL; lengths behind one byte are refused. -/
def writeTextString (text : Str) : CborEncoder → Bool × CborEncoder := writeString 3 0xFF (cstr text)

def writeBoolean (value : Bool) (e : CborEncoder) : Bool × CborEncoder :=
  if e.offset ≥ e.capacity then (false, e) else (true, e.put (initial 7 (if value then 21 else 20)))

def writeNull (e : CborEncoder) : Bool × CborEncoder :=
  if e.offset ≥ e.capacity then (false, e) else (true, e.put (initial 7 22))

end CborEncoder

/-- A call of one of the write functions. -/
inductive Write where
  | unsignedInt (val : BitVec 64)
  | negativeInt (val : BitVec 64)
  | byteString (data : Bytes)
  | textString (text : Str)
  | mapHeader (elements : BitVec 32)
  | arrayHeader (elements : BitVec 32)
  | boolean (value : Bool)
  | null
  deriving DecidableEq

namespace Write

def perform : Write → CborEncoder → Bool × CborEncoder
  | unsignedInt val => CborEncoder.writeUnsignedInt val
  | negativeInt val => CborEncoder.writeNegativeInt val
  | byteString data => CborEncoder.writeByteString data
  | textString text => CborEncoder.writeTextString text
  | mapHeader elements => CborEncoder.writeMapHeader elements
  | arrayHeader elements => CborEncoder.writeArrayHeader elements
  | boolean value => CborEncoder.writeBoolean value
  | null => CborEncoder.writeNull

/-- The calls one after the other: the ones that succeeded, and the encoder. -/
def performAll (e : CborEncoder) : List Write → List Write × CborEncoder
  | [] => ([], e)
  | w :: ws =>
    let (ok, e') := w.perform e
    let (done, last) := performAll e' ws
    (if ok then w :: done else done, last)

end Write

namespace CborEncoder

/-- A new encoder over some memory. -/
def new (buffer : Nat → UInt8) (capacity : Nat) (h : capacity ≤ ptrdiffMax) : CborEncoder :=
  { buffer := buffer, capacity := capacity, isObject := h, offset := 0 }

/-- The bytes that have been written. -/
def written (e : CborEncoder) : Bytes := (List.range e.offset).map e.buffer

end CborEncoder

end GoiKey
