import Mathlib.Data.List.Basic
import Mathlib.Data.Nat.ModEq

/-!
A ring of `2 ^ k` cells behind two indices that only ever count up. The indices
have more bits than the cells need and wrap by themselves: their difference is
how much is stored, whatever they have counted.
-/

structure IndexRing (k w : Nat) (α : Type) where
  cell : BitVec k → α
  head : BitVec w
  tail : BitVec w

namespace IndexRing

variable {k w : Nat} {α : Type}

/-- `index & (size - 1)`. -/
def slot (i : BitVec w) : BitVec k := i.setWidth k

/-- `head - tail`. -/
def used (r : IndexRing k w α) : BitVec w := r.head - r.tail

/-- What is stored, the oldest first. -/
def contents (r : IndexRing k w α) : List α :=
  (List.range r.used.toNat).map fun i => r.cell (slot (r.tail + BitVec.ofNat w i))

/-- Writes a cell and counts the head up. -/
def put (r : IndexRing k w α) (c : α) : IndexRing k w α :=
  { r with cell := fun i => if i = slot r.head then c else r.cell i, head := r.head + 1 }

/-- Counts the tail up. -/
def advance (r : IndexRing k w α) (n : Nat) : IndexRing k w α :=
  { r with tail := r.tail + BitVec.ofNat w n }

variable {r : IndexRing k w α}

@[simp] theorem contents_length (r : IndexRing k w α) : r.contents.length = r.used.toNat := by
  simp [contents]

theorem contents_getElem? {i : Nat} (h : i < r.used.toNat) :
    r.contents[i]? = some (r.cell (slot (r.tail + BitVec.ofNat w i))) := by
  simp [contents, h]

theorem contents_empty (h : r.head = r.tail) : r.contents = [] := by
  simp [contents, used, h]

theorem contents_eq_nil : r.contents = [] ↔ r.head = r.tail := by
  constructor
  · intro h
    have hlen := congrArg List.length h
    rw [contents_length, List.length_nil] at hlen
    have hzero : r.used = 0#w := by
      apply BitVec.eq_of_toNat_eq
      rw [hlen, BitVec.toNat_zero]
    have hback := BitVec.sub_add_cancel r.head r.tail
    rw [← hback]
    rw [used] at hzero
    rw [hzero, BitVec.zero_add]
  · exact contents_empty

/-- Two indices less than the size apart have different cells. -/
theorem slot_ne {t : BitVec w} {i j : Nat} (hkw : k ≤ w) (hij : i < j) (hj : j < 2 ^ k + i) :
    slot (k := k) (t + BitVec.ofNat w i) ≠ slot (t + BitVec.ofNat w j) := by
  intro h
  have hdvd : 2 ^ k ∣ 2 ^ w := Nat.pow_dvd_pow 2 hkw
  have hmod := congrArg BitVec.toNat h
  simp only [slot, BitVec.toNat_setWidth, BitVec.toNat_add, BitVec.toNat_ofNat] at hmod
  rw [Nat.mod_mod_of_dvd _ hdvd, Nat.mod_mod_of_dvd _ hdvd] at hmod
  have hsmall : ∀ x, (t.toNat + x % 2 ^ w) % 2 ^ k = (t.toNat + x) % 2 ^ k := by
    intro x
    rw [Nat.add_mod, Nat.mod_mod_of_dvd _ hdvd, ← Nat.add_mod]
  rw [hsmall, hsmall] at hmod
  have hdiff : 2 ^ k ∣ (t.toNat + j) - (t.toNat + i) :=
    (Nat.modEq_iff_dvd' (by omega)).mp hmod
  have := Nat.le_of_dvd (by omega) hdiff
  omega

theorem used_put (hkw : k < w) (hroom : r.used.toNat < 2 ^ k) (c : α) :
    (r.put c).used.toNat = r.used.toNat + 1 := by
  have hpow : 2 ^ k < 2 ^ w := Nat.pow_lt_pow_right (by omega) hkw
  have hone : (1 : BitVec w).toNat = 1 := by
    rw [BitVec.ofNat_eq_ofNat, BitVec.toNat_ofNat, Nat.mod_eq_of_lt]
    have := Nat.one_lt_two_pow (n := w) (by omega)
    omega
  have hput : (r.put c).used = r.used + 1 := by
    simp only [used, put]
    rw [BitVec.sub_eq_add_neg, BitVec.sub_eq_add_neg, BitVec.add_assoc, BitVec.add_comm 1, BitVec.add_assoc]
  rw [hput, BitVec.toNat_add, hone, Nat.mod_eq_of_lt (by omega)]

/-- A cell written while there is room is stored behind the others. -/
theorem contents_put (hkw : k < w) (hroom : r.used.toNat < 2 ^ k) (c : α) :
    (r.put c).contents = r.contents ++ [c] := by
  have hhead : r.tail + BitVec.ofNat w r.used.toNat = r.head := by
    rw [BitVec.ofNat_toNat, BitVec.setWidth_eq, used, BitVec.add_comm, BitVec.sub_add_cancel]
  rw [contents, used_put hkw hroom, List.range_succ, List.map_append]
  congr 1
  · apply List.map_congr_left
    intro i hi
    have hlt : i < r.used.toNat := List.mem_range.mp hi
    have hne := slot_ne (k := k) (t := r.tail) (i := i) (Nat.le_of_lt hkw) hlt (by omega)
    rw [hhead] at hne
    exact if_neg hne
  · simp only [List.map_cons, List.map_nil, put, hhead, if_true]

theorem used_advance {n : Nat} (hn : n ≤ r.used.toNat) :
    (r.advance n).used.toNat = r.used.toNat - n := by
  have hlt := r.used.isLt
  have hsub : (r.advance n).used = r.used - BitVec.ofNat w n := by
    simp only [used, advance]
    rw [BitVec.sub_eq_add_neg, BitVec.neg_add, BitVec.sub_eq_add_neg, ← BitVec.add_assoc, ← BitVec.sub_eq_add_neg,
      ← BitVec.sub_eq_add_neg]
  have hof : (BitVec.ofNat w n).toNat = n := by
    rw [BitVec.toNat_ofNat, Nat.mod_eq_of_lt (by omega)]
  rw [hsub, BitVec.toNat_sub_of_le (by rw [BitVec.le_def, hof]; exact hn), hof]

/-- Counting the tail up drops the oldest. -/
theorem contents_advance {n : Nat} (hn : n ≤ r.used.toNat) :
    (r.advance n).contents = r.contents.drop n := by
  apply List.ext_getElem?
  intro i
  rw [List.getElem?_drop]
  by_cases hi : i < r.used.toNat - n
  · have hlt : i < (r.advance n).used.toNat := by
      rw [used_advance hn]
      exact hi
    rw [contents_getElem? hlt, contents_getElem? (by omega)]
    simp only [advance, BitVec.add_assoc, BitVec.ofNat_add]
  · rw [List.getElem?_eq_none, List.getElem?_eq_none]
    · rw [contents_length]
      omega
    · rw [contents_length, used_advance hn]
      omega

/-- The oldest is the cell the tail points at. -/
theorem contents_cons (h : r.head ≠ r.tail) :
    r.contents = r.cell (slot r.tail) :: (r.advance 1).contents := by
  have hpos : 0 < r.used.toNat := by
    rw [← contents_length]
    exact List.length_pos_iff.mpr fun he => h (contents_eq_nil.mp he)
  have hfirst : r.contents[0]? = some (r.cell (slot r.tail)) := by
    rw [contents_getElem? hpos, BitVec.add_zero]
  rw [contents_advance hpos]
  cases hc : r.contents with
  | nil => rw [hc] at hfirst; cases hfirst
  | cons c rest =>
    rw [hc] at hfirst
    cases hfirst
    rfl

end IndexRing
