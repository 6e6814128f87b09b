import Mathlib.Data.List.Basic

namespace Hex

/-- The lowercase ASCII digit of a value below sixteen. -/
def digit (n : Nat) : UInt8 :=
  if n < 10 then UInt8.ofNat (48 + n) else UInt8.ofNat (87 + n)

def digitValue (c : UInt8) : Option Nat :=
  if 48 ≤ c.toNat ∧ c.toNat ≤ 57 then some (c.toNat - 48)
  else if 97 ≤ c.toNat ∧ c.toNat ≤ 102 then some (c.toNat - 87)
  else if 65 ≤ c.toNat ∧ c.toNat ≤ 70 then some (c.toNat - 55)
  else none

/-- Two digits a byte, the high half first. -/
def encode : List UInt8 → List UInt8
  | [] => []
  | b :: bs => digit (b.toNat / 16) :: digit (b.toNat % 16) :: encode bs

/-- What `encode` can write: decimal digits and the letters a to f. -/
def IsDigit (c : UInt8) : Prop := (48 ≤ c.toNat ∧ c.toNat ≤ 57) ∨ (97 ≤ c.toNat ∧ c.toNat ≤ 102)

theorem digit_toNat {n : Nat} (h : n < 16) :
    (digit n).toNat = if n < 10 then 48 + n else 87 + n := by
  unfold digit
  split <;> simp <;> omega

theorem digit_isDigit {n : Nat} (h : n < 16) : IsDigit (digit n) := by
  unfold IsDigit
  rw [digit_toNat h]
  split <;> omega

@[simp] theorem digitValue_digit {n : Nat} (h : n < 16) : digitValue (digit n) = some n := by
  unfold digitValue
  rw [digit_toNat h]
  split <;> grind

theorem digit_injective {m n : Nat} (hm : m < 16) (hn : n < 16) (h : digit m = digit n) :
    m = n := by
  have he : digitValue (digit m) = digitValue (digit n) := by rw [h]
  simpa [hm, hn] using he

@[simp] theorem encode_length (bs : List UInt8) : (encode bs).length = 2 * bs.length := by
  induction bs with
  | nil => rfl
  | cons b bs ih => simp only [encode, List.length_cons, ih]; omega

@[simp] theorem encode_append (as bs : List UInt8) : encode (as ++ bs) = encode as ++ encode bs := by
  induction as with
  | nil => rfl
  | cons a as ih => simp [encode, ih]

theorem byte_halves (b : UInt8) : b.toNat / 16 < 16 ∧ b.toNat % 16 < 16 := by
  have := b.toNat_lt
  omega

theorem isDigit_of_mem_encode {c : UInt8} {bs : List UInt8} (h : c ∈ encode bs) : IsDigit c := by
  induction bs with
  | nil => simp [encode] at h
  | cons b bs ih =>
    simp only [encode, List.mem_cons] at h
    rcases h with rfl | rfl | h
    · exact digit_isDigit (byte_halves b).1
    · exact digit_isDigit (byte_halves b).2
    · exact ih h

/-- Separators below the digits never occur in an encoding. -/
theorem notMem_encode {c : UInt8} (hc : ¬ IsDigit c) (bs : List UInt8) : c ∉ encode bs :=
  fun h => hc (isDigit_of_mem_encode h)

end Hex
