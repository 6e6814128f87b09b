import GoiKey.Lib.BitGroups
import GoiKey.Model.Bench
import GoiKey.Model.Vault
import Mathlib.Data.Nat.Digits.Lemmas

/-!
The key and the codes of a TOTP secret: base 32 of RFC 4648, and the codes of RFC 6238
over HMAC-SHA1. The key is decoded into 64 bytes.
-/

namespace GoiKey

open BitGroups

/-! The two specifications. -/

def base32Alphabet : Str := text "ABCDEFGHIJKLMNOPQRSTUVWXYZ234567"

/-- Base 32 does not tell upper and lower case apart. -/
def upperCase (c : UInt8) : UInt8 := if 0x61 ≤ c ∧ c ≤ 0x7A then c - 0x20 else c

def base32Symbol (c : UInt8) : Option Nat :=
  if upperCase c ∈ base32Alphabet then some (base32Alphabet.idxOf (upperCase c)) else none

/-- The symbols of a text; characters outside the alphabet stand for none. -/
def base32Symbols (s : Str) : List Nat := s.filterMap base32Symbol

/-- The octets in the groups of five bits, the bits behind the last of them dropped. -/
def base32Decode (s : Str) : Bytes := (unpack 5 8 (base32Symbols s)).map UInt8.ofNat

def base32Encode (b : Bytes) : Str :=
  (pack 8 5 (b.map UInt8.toNat)).map fun symbol => base32Alphabet.getD symbol 0

/-- The 31 bits of an HMAC-SHA1 at the offset in its last four bits. -/
def dynamicTruncation (mac : Bytes) : Nat :=
  let offset := (mac.getD 19 0).toNat % 16
  (mac.getD offset 0).toNat % 128 * 2 ^ 24 + (mac.getD (offset + 1) 0).toNat * 2 ^ 16 +
    (mac.getD (offset + 2) 0).toNat * 2 ^ 8 + (mac.getD (offset + 3) 0).toNat

/-- The code of a time: six digits of the truncated HMAC of the step of thirty seconds. -/
def totpCode (hmacSha1 : Bytes → Bytes → Bytes) (key : Bytes) (unixTime : Nat) : Str :=
  let number := dynamicTruncation (hmacSha1 key (bigEndian 8 (unixTime / 30)))
  (List.range 6).map fun i => UInt8.ofNat (48 + number / 10 ^ (5 - i) % 10)

/-- The key stays within its 64 bytes, and key and codes are those of the specifications. -/
structure TotpExact (hmacSha1 : Bytes → Bytes → Bytes) (secret : Str) : Prop where
  inside : (decodeBase32 secret).length ≤ 64
  key : decodeBase32 secret = base32Decode (cstr secret)
  codes : ∀ unixTime : UInt32,
    generateTOTP hmacSha1 secret unixTime = totpCode hmacSha1 (base32Decode (cstr secret)) unixTime.toNat

/-! The key. -/

theorem base32Value_eq (c : UInt8) : base32Value c = base32Symbol c := by
  have hall : ∀ n < 256, base32Value (UInt8.ofNat n) = base32Symbol (UInt8.ofNat n) := by
    decide +kernel
  have hc := hall c.toNat c.toNat_lt
  rwa [UInt8.ofNat_toNat] at hc

theorem base32Symbols_eq (s : Str) : base32Symbols s = s.filterMap base32Value :=
  List.filterMap_congr fun c _ => (base32Value_eq c).symm

theorem base32Symbols_lt {s : Str} : ∀ g ∈ base32Symbols s, g < 2 ^ 5 := by
  intro g hg
  obtain ⟨c, -, hc⟩ := List.mem_filterMap.mp hg
  rw [base32Symbol] at hc
  split at hc
  next hmem =>
    cases hc
    exact List.idxOf_lt_length_iff.mpr hmem
  next => cases hc

theorem base32Symbol_letter : ∀ g < 32, base32Symbol (base32Alphabet.getD g 0) = some g := by
  decide +kernel

theorem ofNat_toNat_bytes (b : Bytes) : b.map (UInt8.ofNat ∘ UInt8.toNat) = b := by
  have hsame : UInt8.ofNat ∘ UInt8.toNat = id := funext fun c => UInt8.ofNat_toNat
  rw [hsame, List.map_id]

/-- What was encoded is decoded again, whatever padding follows. -/
theorem base32Decode_encode (b : Bytes) (n : Nat) :
    base32Decode (base32Encode b ++ List.replicate n 0x3D) = b := by
  have hgroups : ∀ g ∈ pack 8 5 (b.map UInt8.toNat), g < 32 := groups_lt
  have hbytes : ∀ x ∈ b.map UInt8.toNat, x < 2 ^ 8 := by
    intro x hx
    obtain ⟨c, -, rfl⟩ := List.mem_map.mp hx
    exact c.toNat_lt
  have hpad : base32Symbol 0x3D = none := by decide
  have hsymbols : base32Symbols (base32Encode b ++ List.replicate n 0x3D) = pack 8 5 (b.map UInt8.toNat) := by
    rw [base32Symbols, List.filterMap_append, List.filterMap_replicate, hpad, List.append_nil, base32Encode,
      List.filterMap_map]
    generalize pack 8 5 (b.map UInt8.toNat) = gs at hgroups
    induction gs with
    | nil => rfl
    | cons g gs ih =>
      have hletter := base32Symbol_letter g (hgroups g List.mem_cons_self)
      have hrest := ih fun x hx => hgroups x (List.mem_cons_of_mem _ hx)
      rw [List.filterMap_cons, Function.comp_apply, hletter, hrest]
  rw [base32Decode, hsymbols, unpack_pack (by decide) (by decide) hbytes, List.map_map]
  exact ofNat_toNat_bytes b

/-- The decoder's locals as a stream of groups. -/
def Base32State.stream (s : Base32State) : Stream := ⟨s.buffer, s.bitsLeft, s.out.map UInt8.toNat⟩

theorem base32Step_push {s : Base32State} {c : UInt8} {g : Nat} (hc : base32Value c = some g) :
    (base32Step s c).stream = push 5 8 32 s.stream g := by
  by_cases hfull : 8 ≤ s.bitsLeft + 5
  · simp [base32Step, hc, push, Base32State.stream, hfull]
  · simp [base32Step, hc, push, Base32State.stream, hfull]

theorem foldl_base32Step (s : Base32State) (b32 : Str) :
    (b32.foldl base32Step s).stream = (b32.filterMap base32Value).foldl (push 5 8 32) s.stream := by
  induction b32 generalizing s with
  | nil => rfl
  | cons c b32 ih =>
    rw [List.foldl_cons, ih]
    cases hc : base32Value c with
    | none =>
      rw [List.filterMap_cons_none hc]
      simp only [base32Step, hc]
    | some g => rw [List.filterMap_cons_some hc, List.foldl_cons, base32Step_push hc]

theorem decodeBase32_eq (secret : Str) : decodeBase32 secret = base32Decode (cstr secret) := by
  have hstream := foldl_base32Step {} (cstr secret)
  rw [← base32Symbols_eq] at hstream
  have hout : (decodeBase32 secret).map UInt8.toNat = unpack 5 8 (base32Symbols (cstr secret)) := by
    have hpushed := congrArg Stream.out hstream
    rw [decodeBase32]
    refine hpushed.trans ?_
    exact stream_unpacks (by decide) (by decide) (by decide) base32Symbols_lt
  rw [base32Decode, ← hout, List.map_map]
  exact (ofNat_toNat_bytes _).symm

/-! The code. -/

/-- The digits of a number below 1000000, the lowest first and zeros behind them. -/
theorem digits_padded {n : Nat} (hn : n < 1000000) : Nat.digits 10 n ++
    List.replicate (6 - (Nat.digits 10 n).length) 0 = (List.range 6).map fun i => n / 10 ^ i % 10 := by
  have hlen : (Nat.digits 10 n).length ≤ 6 := (Nat.digits_length_le_iff (by decide) n).mpr hn
  refine List.ext_getElem (by simp; omega) fun i hi _ => ?_
  have hdigit : (Nat.digits 10 n).getD i 0 = n / 10 ^ i % 10 := Nat.getD_digits n i (by decide)
  rw [List.getElem_map, List.getElem_range, ← hdigit]
  grind

theorem sixDigits_eq {n : Nat} (hn : n < 1000000) :
    sixDigits n = (List.range 6).map fun i => UInt8.ofNat (48 + n / 10 ^ (5 - i) % 10) := by
  have hrev : sixDigits n = ((Nat.digits 10 n ++
      List.replicate (6 - (Nat.digits 10 n).length) 0).map fun d => UInt8.ofNat (48 + d)).reverse := by
    rw [sixDigits, decimal]
    split
    next hzero =>
      subst hzero
      rfl
    next => simp
  rw [hrev, digits_padded hn, List.map_map]
  rfl

theorem truncated_eq {mac : Bytes} (hlen : mac.length = 20) :
    fromBigEndian ((mac.drop ((mac.getD 19 0).toNat % 16)).take 4) % 2 ^ 31 = dynamicTruncation mac := by
  have hoffset : (mac.getD 19 0).toNat % 16 < 16 := Nat.mod_lt _ (by decide)
  rw [dynamicTruncation]
  generalize (mac.getD 19 0).toNat % 16 = offset at hoffset
  have hfour : (mac.drop offset).take 4 = [mac.getD offset 0, mac.getD (offset + 1) 0,
      mac.getD (offset + 2) 0, mac.getD (offset + 3) 0] := by
    refine List.ext_getElem (by simp; omega) fun i hi _ => ?_
    have hi4 : i < 4 := by simp at hi; omega
    interval_cases i <;> simp <;> rw [List.getElem?_eq_getElem (by omega)] <;> rfl
  have h0 := (mac.getD offset 0).toNat_lt
  have h1 := (mac.getD (offset + 1) 0).toNat_lt
  have h2 := (mac.getD (offset + 2) 0).toNat_lt
  have h3 := (mac.getD (offset + 3) 0).toNat_lt
  rw [hfour]
  simp only [fromBigEndian, List.foldl_cons, List.foldl_nil]
  omega

theorem generateTOTP_eq {hmacSha1 : Bytes → Bytes → Bytes} (hlen : ∀ key msg, (hmacSha1 key msg).length = 20)
    (secret : Str) (unixTime : UInt32) : generateTOTP hmacSha1 secret unixTime =
      totpCode hmacSha1 (base32Decode (cstr secret)) unixTime.toNat := by
  have hmillion : ∀ n i : Nat, i < 6 → n % 1000000 / 10 ^ (5 - i) % 10 = n / 10 ^ (5 - i) % 10 := by
    intro n i hi
    interval_cases i <;> omega
  rw [generateTOTP, totpCode, decodeBase32_eq, padTo_of_length (hlen _ _), truncated_eq (hlen _ _),
    sixDigits_eq (Nat.mod_lt _ (by decide))]
  exact List.map_congr_left fun i hi => by rw [hmillion _ i (List.mem_range.mp hi)]

/-- A secret makes the codes it should exactly if no more than 103 of its characters
are symbols. -/
theorem totp_exact_iff (hmacSha1 : Bytes → Bytes → Bytes)
    (hlen : ∀ key msg, (hmacSha1 key msg).length = 20) (secret : Str) :
    TotpExact hmacSha1 secret ↔ (base32Symbols (cstr secret)).length ≤ 103 := by
  have hcount : (decodeBase32 secret).length = 5 * (base32Symbols (cstr secret)).length / 8 := by
    rw [decodeBase32_eq, base32Decode, List.length_map, unpack_length]
  constructor
  · intro h
    have hinside := h.inside
    omega
  · intro h
    exact ⟨by omega, decodeBase32_eq secret, generateTOTP_eq hlen secret⟩

open Bench

/-- The HMAC of the test vectors for the second time step. -/
def vectorMac : Bytes :=
  [0x75, 0xA4, 0x8A, 0x19, 0xD4, 0xCB, 0xE1, 0x00, 0x64, 0x4E, 0x8A, 0xC1, 0x39, 0x7E, 0xEA, 0x74, 0x7A, 0x2D,
    0x33, 0xAB]

theorem totp_exact_vector : TotpExact (fun _ _ => vectorMac) (text "GEZDGNBVGY3TQOJQGEZDGNBVGY3TQOJQ") ∧
    totpCode (fun _ _ => vectorMac) (text "12345678901234567890") 59 = text "287082" := by
  refine ⟨(totp_exact_iff (fun _ _ => vectorMac) (fun _ _ => rfl) _).mpr ?_, ?_⟩
  · decide +kernel
  · decide +kernel

/-- 104 symbols are taken over the wire and decode to one byte more than there is room for. -/
theorem totp_key_overrun :
    ¬ ∀ secret, (saveTotpSecret platform (idleEnv 1 0) (some (zeros 32)) {} (text "mail") secret).1 =
        [.event "TOTP" "SAVED" []] → TotpExact (fun _ _ => vectorMac) secret := by
  intro h
  have hsaved := h (List.replicate 104 0x41) (by decide +kernel)
  exact absurd hsaved.inside (by decide +kernel)

end GoiKey
