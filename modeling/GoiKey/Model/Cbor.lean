import GoiKey.Model.Text

/-!
CborEngine.cpp. A parser is the bytes behind its offset: the source never looks
back, and restoring a saved offset is keeping the old list.
-/

namespace GoiKey

/-- `MAX_CBOR_DEPTH`. -/
def maxCborDepth : Nat := 16

/-- `MAX_CBOR_ELEMENTS`. -/
def maxCborElements : Nat := 256

/-- The value an indefinite length is read as, `0xFFFFFFFFFFFFFFFF`. -/
def indefiniteLength : Nat := 2 ^ 64 - 1

abbrev Parse := StateM Bytes

def peekMajorType : Parse Nat := do
  match ← get with
  | [] => return 0xFF
  | c :: _ => return c.toNat / 32

/-- How many value bytes follow an initial byte with this additional information. -/
def valueWidth : Nat → Option Nat
  | 24 => some 1
  | 25 => some 2
  | 26 => some 4
  | 27 => some 8
  | _ => none

/-- Major type and value of a head. A failed read has still consumed the initial
byte when there was one. -/
def readTypeAndValue : Parse (Option (Nat × Nat)) := fun b =>
  match b with
  | [] => (none, [])
  | c :: rest =>
    let info := c.toNat % 32
    if info < 24 then (some (c.toNat / 32, info), rest)
    else if info = 31 then (some (c.toNat / 32, indefiniteLength), rest)
    else match valueWidth info with
      | none => (none, rest)
      | some n =>
        if rest.length < n then (none, rest)
        else (some (c.toNat / 32, fromBigEndian (rest.take n)), rest.drop n)

/-- A string of the given major type and at most `limit` bytes; anything else
leaves the offset where it was. -/
def readString (major limit : Nat) : Parse (Option Bytes) := fun b =>
  match readTypeAndValue b with
  | (some (m, len), rest) =>
    if m = major ∧ len ≤ limit ∧ len ≤ rest.length then (some (rest.take len), rest.drop len)
    else (none, b)
  | (none, _) => (none, b)

def readByteString (maxLen : Nat) : Parse (Option Bytes) := readString 2 maxLen

/-- The destination is a C string of `maxLen` bytes with its terminator, so what
the caller sees ends at the first NUL. -/
def readTextString (maxLen : Nat) : Parse (Option Str) := fun b =>
  if maxLen = 0 then (none, b)
  else
    let (t, rest) := readString 3 (maxLen - 1) b
    (t.map cstr, rest)

/-- `while (offset < length && buffer[offset] != 0xFF)`, then the break byte. Each
round consumes a byte, so the length of the rest bounds the rounds. -/
def skipUntilBreak (skip : Parse Bool) : Nat → Parse Bool
  | 0 => return false
  | n + 1 => do
    match ← get with
    | [] => return false
    | c :: rest =>
      if c = 0xFF then
        set rest
        return true
      else if ← skip then skipUntilBreak skip n
      else return false

def skipTimes (skip : Parse Bool) : Nat → Parse Bool
  | 0 => return true
  | n + 1 => do
    if ← skip then skipTimes skip n else return false

/-- `skipValue(depth)` with `levels = MAX_CBOR_DEPTH + 1 - depth` still allowed. -/
def skipLevels : Nat → Parse Bool
  | 0 => return false
  | levels + 1 => do
    let b ← get
    match b with
    | [] => return false
    | c :: rest =>
      if c = 0xFF then
        set rest
        return true
      else match ← readTypeAndValue with
        | none => return false
        | some (major, value) =>
          let skip := skipLevels levels
          if major = 0 ∨ major = 1 ∨ major = 7 then return true
          else if major = 2 ∨ major = 3 then
            if value = indefiniteLength then skipUntilBreak skip (b.length + 1)
            else
              let left ← get
              if value > left.length then return false
              else
                set (left.drop value)
                return true
          else if major = 4 then
            if value = indefiniteLength then skipUntilBreak skip (b.length + 1)
            else if value > maxCborElements then return false
            else skipTimes skip value
          else if major = 5 then
            if value = indefiniteLength then
              skipUntilBreak (do if ← skip then skip else return false) (b.length + 1)
            else if value > maxCborElements then return false
            else skipTimes skip (value * 2)
          else return false

def skipValue : Parse Bool := skipLevels (maxCborDepth + 1)

/-- `parser.skipValue();` with the result dropped. -/
def skip : Parse Unit := do let _ ← skipValue

/-- `for (uint64_t i = 0; i < n; i++)` around a body that updates the request. -/
def loop {ρ : Type} (body : ρ → Parse ρ) : Nat → ρ → Parse ρ
  | 0, r => return r
  | n + 1, r => do loop body n (← body r)

/-! The encoder. Items that do not fit are dropped, as the handlers ignore the
results of its write functions. -/

inductive Item where
  | uint (v : Nat)
  | nint (v : Int)
  | bytes (b : Bytes)
  | text (t : Str)
  | map (n : Nat)
  | array (n : Nat)
  | bool (b : Bool)
  deriving DecidableEq, Repr

/-- Initial byte and value in shortest form. -/
def head (major v : Nat) : Bytes :=
  let initial (info : Nat) : UInt8 := UInt8.ofNat (major * 32 + info)
  if v < 24 then [initial v]
  else if v ≤ 0xFF then initial 24 :: bigEndian 1 v
  else if v ≤ 0xFFFF then initial 25 :: bigEndian 2 v
  else if v ≤ 0xFFFFFFFF then initial 26 :: bigEndian 4 v
  else initial 27 :: bigEndian 8 v

def Item.encoded : Item → Bytes
  | .uint v => head 0 v
  | .nint v => head 1 (-1 - v).toNat
  | .bytes b => head 2 b.length ++ b
  | .text t => head 3 t.length ++ t
  | .map n => head 5 n
  | .array n => head 4 n
  | .bool b => [if b then 0xF5 else 0xF4]

/-- The room and range checks of the write functions; strings are checked
against a fixed three-byte head. -/
def Item.fits (capacity offset : Nat) : Item → Bool
  | .bytes b => offset + b.length + 3 < capacity && b.length ≤ 0xFFFF
  | .text t => offset + 1 + t.length + 2 < capacity && t.length ≤ 0xFF
  | .map n => n ≤ 0xFFFF && offset + (head 5 n).length ≤ capacity
  | .array n => n ≤ 0xFF && offset + (head 4 n).length ≤ capacity
  | .nint v => v < 0 && offset + (Item.nint v).encoded.length ≤ capacity
  | i => offset + i.encoded.length ≤ capacity

def write (capacity : Nat) (buffer : Bytes) (i : Item) : Bytes :=
  if i.fits capacity buffer.length then buffer ++ i.encoded else buffer

def encode (capacity : Nat) (items : List Item) : Bytes :=
  items.foldl (write capacity) []

end GoiKey
