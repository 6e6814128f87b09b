import Mathlib.Data.List.Basic
import Mathlib.Tactic.Ring

/-!
CBOR data items by their bytes, and the departures from them that a lenient reader
may let through. Tags are left out, and so are strings of 2^64 - 1 bytes, whose
length is the one an unbounded string is read with.
-/

namespace CborGrammar

abbrev Byte := UInt8

/-- The first byte of a head. -/
def initialByte (major info : Nat) : Byte := UInt8.ofNat (major * 32 + info)

/-- How many bytes of argument follow it. -/
def argumentWidth : Nat → Option Nat
  | 24 => some 1
  | 25 => some 2
  | 26 => some 4
  | 27 => some 8
  | _ => none

def argument (b : List Byte) : Nat := b.foldl (fun v c => v * 256 + c.toNat) 0

def breakCode : Byte := 0xFF

/-- A head of a major type, with its argument in the first byte or behind it. -/
inductive Head (major : Nat) : Nat → List Byte → Prop where
  | short {v : Nat} (lt : v < 24) : Head major v [initialByte major v]
  | long {info : Nat} {arg : List Byte} (width : argumentWidth info = some arg.length) :
    Head major (argument arg) (initialByte major info :: arg)

/-- What is not well-formed and may be let through all the same. -/
inductive Departure where
  /-- A break code where an item is due. -/
  | strayBreak
  /-- An integer whose head announces an indefinite length. -/
  | openInteger
  /-- A simple value below 32 in two bytes. -/
  | shortSimple
  /-- An indefinite string of anything but definite strings of its type. -/
  | mixedChunks
  /-- A length of 2^64 - 1 that begins an indefinite string or container. -/
  | longestLength
  /-- An indefinite container of more elements than a definite one may have. -/
  | manyElements

/-- The head of an indefinite string or container. -/
inductive Opener (allowed : Departure → Prop) (major : Nat) : List Byte → Prop where
  | indefinite : Opener allowed major [initialByte major 31]
  | longest (ok : allowed .longestLength) :
    Opener allowed major (initialByte major 27 :: List.replicate 8 0xFF)

/-- A string behind its length. -/
def IsString (major : Nat) (b : List Byte) : Prop :=
  ∃ h s, b = h ++ s ∧ Head major s.length h

/-- The bytes of one item, the items in it at most as many levels below it as are
left and its containers of at most `limit` elements. -/
inductive Item (allowed : Departure → Prop) (limit : Nat) : Nat → List Byte → Prop where
  | integer {levels major v : Nat} {h : List Byte} (type : major = 0 ∨ major = 1)
    (head : Head major v h) : Item allowed limit (levels + 1) h
  | openInteger {levels major : Nat} (type : major = 0 ∨ major = 1) (ok : allowed .openInteger) :
    Item allowed limit (levels + 1) [initialByte major 31]
  | simple {levels v : Nat} {h : List Byte} (head : Head 7 v h)
    (ok : (h.length = 2 → 32 ≤ v) ∨ allowed .shortSimple) : Item allowed limit (levels + 1) h
  | strayBreak {levels : Nat} (ok : allowed .strayBreak) : Item allowed limit (levels + 1) [breakCode]
  | string {levels major : Nat} {h s : List Byte} (type : major = 2 ∨ major = 3)
    (head : Head major s.length h) (lt : s.length < 2 ^ 64 - 1) :
    Item allowed limit (levels + 1) (h ++ s)
  | chunks {levels major : Nat} {h : List Byte} {parts : List (List Byte)}
    (type : major = 2 ∨ major = 3) (head : Opener allowed major h)
    (each : ∀ p ∈ parts, Item allowed limit levels p) (closed : ∀ p ∈ parts, p ≠ [breakCode])
    (ok : (∀ p ∈ parts, IsString major p) ∨ allowed .mixedChunks) :
    Item allowed limit (levels + 1) (h ++ (parts.flatten ++ [breakCode]))
  | array {levels : Nat} {h : List Byte} {parts : List (List Byte)} (head : Head 4 parts.length h)
    (few : parts.length ≤ limit) (each : ∀ p ∈ parts, Item allowed limit levels p) :
    Item allowed limit (levels + 1) (h ++ parts.flatten)
  | openArray {levels : Nat} {h : List Byte} {parts : List (List Byte)} (head : Opener allowed 4 h)
    (each : ∀ p ∈ parts, Item allowed limit levels p) (closed : ∀ p ∈ parts, p ≠ [breakCode])
    (few : parts.length ≤ limit ∨ allowed .manyElements) :
    Item allowed limit (levels + 1) (h ++ (parts.flatten ++ [breakCode]))
  | map {levels n : Nat} {h : List Byte} {parts : List (List Byte)} (head : Head 5 n h)
    (few : n ≤ limit) (pairs : parts.length = n * 2)
    (each : ∀ p ∈ parts, Item allowed limit levels p) :
    Item allowed limit (levels + 1) (h ++ parts.flatten)
  | openMap {levels : Nat} {h : List Byte} {parts : List (List Byte × List Byte)}
    (head : Opener allowed 5 h) (keys : ∀ p ∈ parts, Item allowed limit levels p.1)
    (closed : ∀ p ∈ parts, p.1 ≠ [breakCode]) (values : ∀ p ∈ parts, Item allowed limit levels p.2)
    (few : parts.length ≤ limit ∨ allowed .manyElements) :
    Item allowed limit (levels + 1) (h ++ ((parts.map fun p => p.1 ++ p.2).flatten ++ [breakCode]))

/-- Well-formed, with nothing let through. -/
def WellFormed (limit levels : Nat) (b : List Byte) : Prop := Item (fun _ => False) limit levels b

/-- What a reader accepts that lets all of it through. -/
def Tolerated (limit levels : Nat) (b : List Byte) : Prop := Item (fun _ => True) limit levels b

variable {allowed allowed' : Departure → Prop} {limit levels major v : Nat} {b h : List Byte}

theorem Opener.mono (hok : ∀ d, allowed d → allowed' d) (hb : Opener allowed major h) :
    Opener allowed' major h := by
  cases hb with
  | indefinite => exact .indefinite
  | longest ok => exact .longest (hok _ ok)

/-- What is let through is an item also where more is. -/
theorem Item.mono (hok : ∀ d, allowed d → allowed' d) (hb : Item allowed limit levels b) :
    Item allowed' limit levels b := by
  induction hb with
  | integer type head => exact .integer type head
  | openInteger type ok => exact .openInteger type (hok _ ok)
  | simple head ok => exact .simple head (ok.imp_right (hok _))
  | strayBreak ok => exact .strayBreak (hok _ ok)
  | string type head lt => exact .string type head lt
  | chunks type head each closed ok ih =>
    exact .chunks type (head.mono hok) ih closed (ok.imp_right (hok _))
  | array head few each ih => exact .array head few ih
  | openArray head each closed few ih =>
    exact .openArray (head.mono hok) ih closed (few.imp_right (hok _))
  | map head few pairs each ih => exact .map head few pairs ih
  | openMap head keys closed values few ihk ihv =>
    exact .openMap (head.mono hok) ihk closed ihv (few.imp_right (hok _))

theorem WellFormed.tolerated (hb : WellFormed limit levels b) : Tolerated limit levels b :=
  hb.mono fun _ h => h.elim

/-! Arguments. -/

theorem argument_cons (c : Byte) (arg : List Byte) :
    argument (c :: arg) = c.toNat * 256 ^ arg.length + argument arg := by
  have general : ∀ (arg : List Byte) (acc : Nat), arg.foldl (fun v (c : Byte) => v * 256 + c.toNat) acc =
      acc * 256 ^ arg.length + argument arg := by
    intro arg
    induction arg with
    | nil => simp [argument]
    | cons d arg ih =>
      intro acc
      simp only [List.foldl_cons, List.length_cons, argument]
      rw [ih (acc * 256 + d.toNat), ih (0 * 256 + d.toNat)]
      simp only [argument, pow_succ]
      ring
  rw [argument, List.foldl_cons, general]
  simp

theorem argument_lt (arg : List Byte) : argument arg < 256 ^ arg.length := by
  induction arg with
  | nil => exact Nat.one_pos
  | cons c arg ih =>
    have hc : c.toNat ≤ 255 := by have := c.toNat_lt; omega
    have hmul : c.toNat * 256 ^ arg.length ≤ 255 * 256 ^ arg.length := Nat.mul_le_mul_right _ hc
    rw [argument_cons, List.length_cons, pow_succ]
    omega

/-- The largest argument has all bits set. -/
theorem eq_replicate_of_argument {arg : List Byte} (h : argument arg = 256 ^ arg.length - 1) :
    arg = List.replicate arg.length 0xFF := by
  induction arg with
  | nil => rfl
  | cons c arg ih =>
    have hlt := argument_lt arg
    have hc := c.toNat_lt
    rw [argument_cons, List.length_cons, pow_succ] at h
    have hbyte : c.toNat = 255 := by
      by_contra hne
      have hmul : c.toNat * 256 ^ arg.length ≤ 254 * 256 ^ arg.length :=
        Nat.mul_le_mul_right _ (by omega)
      omega
    have hrest : argument arg = 256 ^ arg.length - 1 := by
      rw [hbyte] at h
      omega
    have hff : c = 0xFF := UInt8.toNat_inj.mp hbyte
    rw [List.length_cons, List.replicate_succ, ← ih hrest, hff]

theorem Head.lt (hh : Head major v h) : v < 2 ^ 64 := by
  cases hh with
  | short lt => omega
  | @long info arg width =>
    have hlt := argument_lt arg
    have hle : arg.length ≤ 8 := by
      unfold argumentWidth at width
      split at width <;> simp at width <;> omega
    have hpow : 256 ^ arg.length ≤ 256 ^ 8 := Nat.pow_le_pow_right (by omega) hle
    omega

/-! How items begin. -/

theorem argumentWidth_lt {info width : Nat} (h : argumentWidth info = some width) : info < 28 := by
  unfold argumentWidth at h
  split at h <;> first | omega | cases h

theorem initialByte_ne_breakCode {info : Nat} (hm : major < 8) (hi : info < 31) :
    initialByte major info ≠ breakCode := by
  intro he
  have hv := congrArg UInt8.toNat he
  rw [initialByte, UInt8.toNat_ofNat_of_lt' (by simp [UInt8.size]; omega), breakCode] at hv
  simp at hv
  omega

theorem Head.begins (hh : Head major v h) (hm : major < 8) :
    ∃ c t, h = c :: t ∧ c ≠ breakCode := by
  cases hh with
  | short lt => exact ⟨_, _, rfl, initialByte_ne_breakCode hm (by omega)⟩
  | long width =>
    have hlt := argumentWidth_lt width
    exact ⟨_, _, rfl, initialByte_ne_breakCode hm (by omega)⟩

theorem Opener.begins (hh : Opener allowed major h) (hm : major < 7) :
    ∃ c t, h = c :: t ∧ c ≠ breakCode := by
  have hopen : initialByte major 31 ≠ breakCode := by
    intro he
    have hv := congrArg UInt8.toNat he
    rw [initialByte, UInt8.toNat_ofNat_of_lt' (by simp [UInt8.size]; omega), breakCode] at hv
    simp at hv
    omega
  cases hh with
  | indefinite => exact ⟨_, _, rfl, hopen⟩
  | longest ok => exact ⟨_, _, rfl, initialByte_ne_breakCode (by omega) (by omega)⟩

theorem begins_append {c : Byte} (hh : ∃ c' t, h = c' :: t ∧ c' ≠ c) (rest : List Byte) :
    ∃ c' t, h ++ rest = c' :: t ∧ c' ≠ c := by
  obtain ⟨c', t, rfl, hne⟩ := hh
  exact ⟨c', t ++ rest, rfl, hne⟩

/-- An item is a stray break or begins with another byte than one. -/
theorem Item.begins (hb : Item allowed limit levels b) :
    (b = [breakCode] ∧ allowed .strayBreak) ∨ ∃ c t, b = c :: t ∧ c ≠ breakCode := by
  cases hb with
  | strayBreak ok => exact .inl ⟨rfl, ok⟩
  | integer type head => exact .inr (head.begins (by omega))
  | openInteger type ok =>
    exact .inr ((Opener.indefinite : Opener allowed _ _).begins (by omega))
  | simple head ok => exact .inr (head.begins (by omega))
  | string type head lt => exact .inr (begins_append (head.begins (by omega)) _)
  | chunks type head each closed ok => exact .inr (begins_append (head.begins (by omega)) _)
  | array head few each => exact .inr (begins_append (head.begins (by omega)) _)
  | openArray head each closed few => exact .inr (begins_append (head.begins (by omega)) _)
  | map head few pairs each => exact .inr (begins_append (head.begins (by omega)) _)
  | openMap head keys closed values few => exact .inr (begins_append (head.begins (by omega)) _)

/-- Where no break is due, an item that is not one begins with another byte. -/
theorem Item.begins_of_ne (hb : Item allowed limit levels b) (hne : b ≠ [breakCode]) :
    ∃ c t, b = c :: t ∧ c ≠ breakCode := hb.begins.resolve_left fun h => hne h.1

end CborGrammar
