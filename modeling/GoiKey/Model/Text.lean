import GoiKey.Lib.Hex
import Mathlib.Data.List.TakeWhile
import Mathlib.Data.Nat.Digits.Defs
import Mathlib.Tactic.IntervalCases

/-! Bytes, Arduino strings and the conversions of CryptoManager.cpp between them. -/

namespace GoiKey

abbrev Bytes := List UInt8

/-- An Arduino String or a C string: its bytes, without the terminator. -/
abbrev Str := List UInt8

/-- The bytes of an ASCII literal. -/
def text (s : String) : Str := s.toList.map (fun c => UInt8.ofNat c.toNat)

/-- What C reads of a buffer as a string: everything before the first NUL. -/
def cstr (b : Bytes) : Str := b.takeWhile (fun c => c != 0)

def zeros (n : Nat) : Bytes := List.replicate n 0

/-- `b[0..n)`, where the source reads a fixed buffer that starts out as zeros. -/
def padTo (n : Nat) (b : Bytes) : Bytes := (b ++ zeros n).take n

@[simp] theorem padTo_length (n : Nat) (b : Bytes) : (padTo n b).length = n := by
  simp [padTo, zeros]

theorem padTo_of_length {n : Nat} {b : Bytes} (h : b.length = n) : padTo n b = b := by
  subst h
  simp [padTo]

def beByte (v i : Nat) : UInt8 := UInt8.ofNat (v / 256 ^ i)

/-- `n` bytes of a value, the most significant first. -/
def bigEndian : Nat → Nat → Bytes
  | 0, _ => []
  | n + 1, v => beByte v n :: bigEndian n v

@[simp] theorem bigEndian_length (n v : Nat) : (bigEndian n v).length = n := by
  induction n with
  | zero => rfl
  | succ n ih => simp [bigEndian, ih]

def fromBigEndian (b : Bytes) : Nat := b.foldl (fun v c => v * 256 + c.toNat) 0

/-- `(int)value` of a 64-bit value on a 32-bit int. -/
def toInt32 (v : Nat) : Int := Int.bmod v (2 ^ 32)

abbrev toHex (b : Bytes) : Str := Hex.encode b

def isSpace (c : UInt8) : Bool := c == 0x20 || (0x09 ≤ c && c ≤ 0x0D)

/-- `(byte)strtol(s, NULL, 16)` on the two characters fromHex hands it; a "0x"
there is the digit 0 followed by a character that ends the number. -/
def strtol16 (s : Str) : UInt8 :=
  let s := s.dropWhile isSpace
  let neg := s.head? == some 0x2D
  let s := if neg || s.head? == some 0x2B then s.tail else s
  let v := (s.takeWhile (fun c => (Hex.digitValue c).isSome)).foldl
    (fun v c => v * 16 + (Hex.digitValue c).getD 0) 0
  if neg then 0 - UInt8.ofNat v else UInt8.ofNat v

def hexPairs : Str → Bytes
  | a :: b :: rest => strtol16 [a, b] :: hexPairs rest
  | _ => []

/-- fromHex into a buffer of `maxLen` bytes: decoded pairs, then zeros. -/
def fromHex (hex : Str) (maxLen : Nat) : Bytes := padTo maxLen (hexPairs hex)

/-- String(n) of a non-negative number. -/
def decimal (n : Nat) : Str :=
  if n = 0 then [48] else ((Nat.digits 10 n).map (fun d => UInt8.ofNat (48 + d))).reverse

def isDecimal (c : UInt8) : Bool := 48 ≤ c && c ≤ 57

/-- String::toInt. -/
def toInt (s : Str) : Int :=
  let s := s.dropWhile isSpace
  let neg := s.head? == some 0x2D
  let s := if neg || s.head? == some 0x2B then s.tail else s
  let v := (s.takeWhile isDecimal).foldl (fun (v : Nat) c => v * 10 + (c.toNat - 48)) 0
  if neg then -(v : Int) else v

/-- The two digits of a byte read back as the byte. -/
theorem strtol16_digits {h l : Nat} (hh : h < 16) (hl : l < 16) :
    strtol16 [Hex.digit h, Hex.digit l] = UInt8.ofNat (h * 16 + l) := by
  interval_cases h <;> interval_cases l <;> rfl

@[simp] theorem hexPairs_toHex (b : Bytes) : hexPairs (toHex b) = b := by
  induction b with
  | nil => rfl
  | cons c b ih =>
    have hc := Hex.byte_halves c
    have hv : c.toNat / 16 * 16 + c.toNat % 16 = c.toNat := by omega
    simp [toHex, Hex.encode, hexPairs, strtol16_digits hc.1 hc.2, hv] at ih ⊢
    exact ih

theorem fromHex_toHex (b : Bytes) : fromHex (toHex b) b.length = b := by
  simp [fromHex, padTo_of_length]

theorem toHex_injective {a b : Bytes} (h : toHex a = toHex b) : a = b := by
  rw [← hexPairs_toHex a, h, hexPairs_toHex]

theorem cstr_of_notMem {b : Bytes} (h : (0 : UInt8) ∉ b) : cstr b = b := by
  rw [cstr, List.takeWhile_eq_self_iff]
  intro c hc
  simp only [bne_iff_ne, ne_eq]
  rintro rfl
  exact h hc

theorem notMem_cstr (b : Bytes) : (0 : UInt8) ∉ cstr b := by
  intro h
  simpa using List.mem_takeWhile_imp h

end GoiKey
