import GoiKey.Lib.CborGrammar

/-!
CBOR data items as trees that keep how each item is written: every length and
number has the bytes of its head beside it. The members of maps and arrays, found
by their keys.
-/

namespace CborGrammar

/-- An item as it is written; numbers are integers, simple values and floats. -/
inductive Datum where
  | number (major v : Nat) (h : List Byte)
  | string (major : Nat) (h s : List Byte)
  | chunks (major : Nat) (parts : List (List Byte × List Byte))
  | array (h : List Byte) (items : List Datum)
  | openArray (items : List Datum)
  | map (h : List Byte) (entries : List (Datum × Datum))
  | openMap (entries : List (Datum × Datum))
  | tag (n : Nat) (h : List Byte) (content : Datum)
  deriving Repr

namespace Datum

mutual

def bytes : Datum → List Byte
  | number _ _ h => h
  | string _ h s => h ++ s
  | chunks major parts => initialByte major 31 :: ((parts.map fun p => p.1 ++ p.2).flatten ++ [breakCode])
  | array h items => h ++ itemBytes items
  | openArray items => initialByte 4 31 :: (itemBytes items ++ [breakCode])
  | map h entries => h ++ entryBytes entries
  | openMap entries => initialByte 5 31 :: (entryBytes entries ++ [breakCode])
  | tag _ h content => h ++ content.bytes

def itemBytes : List Datum → List Byte
  | [] => []
  | d :: items => d.bytes ++ itemBytes items

def entryBytes : List (Datum × Datum) → List Byte
  | [] => []
  | (k, v) :: entries => (k.bytes ++ v.bytes) ++ entryBytes entries

end

/-- Every head says what follows it. -/
inductive Valid : Datum → Prop where
  | number {major v : Nat} {h : List Byte} (type : major = 0 ∨ major = 1 ∨ major = 7) (head : Head major v h)
    (simple : major = 7 → h.length = 2 → 32 ≤ v) : Valid (number major v h)
  | string {major : Nat} {h s : List Byte} (type : major = 2 ∨ major = 3) (head : Head major s.length h) :
    Valid (string major h s)
  | chunks {major : Nat} {parts : List (List Byte × List Byte)} (type : major = 2 ∨ major = 3)
    (heads : ∀ p ∈ parts, Head major p.2.length p.1) : Valid (chunks major parts)
  | array {h : List Byte} {items : List Datum} (head : Head 4 items.length h) (each : ∀ d ∈ items, Valid d) :
    Valid (array h items)
  | openArray {items : List Datum} (each : ∀ d ∈ items, Valid d) : Valid (openArray items)
  | map {h : List Byte} {entries : List (Datum × Datum)} (head : Head 5 entries.length h)
    (keys : ∀ e ∈ entries, Valid e.1) (values : ∀ e ∈ entries, Valid e.2) : Valid (map h entries)
  | openMap {entries : List (Datum × Datum)} (keys : ∀ e ∈ entries, Valid e.1)
    (values : ∀ e ∈ entries, Valid e.2) : Valid (openMap entries)
  | tag {n : Nat} {h : List Byte} {content : Datum} (head : Head 6 n h) (each : Valid content) :
    Valid (tag n h content)

/-! What an item says, however it is written. -/

/-- The string it is, in one piece or in chunks. -/
def str? (major : Nat) : Datum → Option (List Byte)
  | string m _ s => if m = major then some s else none
  | chunks m parts => if m = major then some (parts.map Prod.snd).flatten else none
  | _ => none

def uint? : Datum → Option Nat
  | number 0 v _ => some v
  | _ => none

/-- The simple value 21, which has no bytes behind its head's first. -/
def isTrue : Datum → Bool
  | number 7 v h => v == 21 && h.length == 1
  | _ => false

def entries : Datum → List (Datum × Datum)
  | map _ entries => entries
  | openMap entries => entries
  | _ => []

def items : Datum → List Datum
  | array _ items => items
  | openArray items => items
  | _ => []

/-- The values bound to the keys that are meant, in the order of the map. -/
def bound (meant : Datum → Bool) (d : Datum) : List Datum :=
  d.entries.flatMap fun e => if meant e.1 then [e.2] else []

/-- The values bound to an unsigned key. -/
def atKey (k : Nat) : Datum → List Datum := Datum.bound fun key => key.uint? == some k

/-- The values bound to a text key. -/
def atName (name : List Byte) : Datum → List Datum := Datum.bound fun key => key.str? 3 == some name

/-- Nothing stands behind its head. -/
def isHead : Datum → Bool
  | number _ _ _ => true
  | string _ _ s => s.isEmpty
  | array _ items => items.isEmpty
  | map _ entries => entries.isEmpty
  | _ => false

def major : Datum → Nat
  | number major _ _ => major
  | string major _ _ => major
  | chunks major _ => major
  | array _ _ => 4
  | openArray _ => 4
  | map _ _ => 5
  | openMap _ => 5
  | tag _ _ _ => 6

variable {d : Datum} {es : List (Datum × Datum)}

theorem bytes_string_nil {h : List Byte} (major : Nat) : (string major h []).bytes = h := List.append_nil h

theorem Valid.major_lt (hd : d.Valid) : d.major < 8 := by
  cases hd <;> simp only [major] <;> omega

/-- An item that is only a head. -/
theorem Valid.head (hd : d.Valid) (hh : d.isHead = true) :
    ∃ v, Head d.major v d.bytes ∧ d.uint? = if d.major = 0 then some v else none := by
  cases hd with
  | @number major v h type head simple =>
    refine ⟨v, head, ?_⟩
    rcases type with rfl | rfl | rfl <;> rfl
  | @string major h s type head =>
    obtain rfl : s = [] := List.isEmpty_iff.mp hh
    refine ⟨0, ?_, ?_⟩
    · rw [bytes_string_nil]
      exact head
    · rw [if_neg (by simp only [Datum.major]; omega)]
      rfl
  | @array h items head each =>
    obtain rfl : items = [] := List.isEmpty_iff.mp hh
    refine ⟨0, ?_, rfl⟩
    change Head 4 0 (h ++ [])
    rw [List.append_nil]
    exact head
  | @map h entries head keys values =>
    obtain rfl : entries = [] := List.isEmpty_iff.mp hh
    refine ⟨0, ?_, rfl⟩
    change Head 5 0 (h ++ [])
    rw [List.append_nil]
    exact head
  | chunks type heads => cases hh
  | openArray each => cases hh
  | openMap keys values => cases hh
  | tag head each => cases hh

theorem Valid.item {h : List Byte} {items : List Datum} (hd : (Datum.array h items).Valid) (hi : d ∈ items) :
    d.Valid := by
  cases hd with
  | array head each => exact each d hi

end Datum

end CborGrammar
