import GoiKey.Lib.BitGroups
import GoiKey.Model.PqModel
import GoiKey.Model.PqPack

/-!
Slots of the polynomial memory, 256 words each, and the polynomials in them.
-/

namespace GoiKey.Rtl

open BitBuffer

/-- Where a coefficient stands. -/
def coefAddr (dst : BitVec 6) (k : Nat) : BitVec 14 := dst ++ BitVec.ofNat 8 k

variable {pm : BitVec 14 → BitVec 32} {dst : BitVec 6} {c : Pq.Poly} {k : Nat}

theorem coefAddr_inj (dst : BitVec 6) : ∀ i < 256, ∀ j < 256, coefAddr dst i = coefAddr dst j → i = j := by
  intro i hi j hj h
  have hindex := congrArg BitVec.toNat ((BitVec.append_right_inj dst).mp h)
  rwa [BitVec.toNat_ofNat, BitVec.toNat_ofNat, Nat.mod_eq_of_lt hi, Nat.mod_eq_of_lt hj] at hindex

theorem slot_coefAddr (dst : BitVec 6) (k : Nat) : (coefAddr dst k).extractLsb' 8 6 = dst :=
  BitVec.extractLsb'_append_eq_left

theorem index_coefAddr (dst : BitVec 6) (k : Nat) : (coefAddr dst k).setWidth 8 = BitVec.ofNat 8 k :=
  BitVec.setWidth_append_eq_right

/-- An address in a slot is one of a coefficient. -/
theorem coefAddr_index {x : BitVec 14} (hx : x.extractLsb' 8 6 = dst) : coefAddr dst (x.setWidth 8).toNat = x := by
  rw [coefAddr, BitVec.ofNat_toNat, BitVec.setWidth_eq, ← hx]
  exact BitVec.eq_of_toNat_eq (by
    rw [BitVec.toNat_append, BitVec.extractLsb'_toNat, BitVec.toNat_setWidth]
    have hlt := x.isLt
    have hmod : x.toNat % 2 ^ 8 < 2 ^ 8 := Nat.mod_lt _ (by decide)
    rw [Nat.or_comm, or_byte _ hmod, Nat.shiftRight_eq_div_pow]
    omega)

/-- The memory with the polynomial `c` in a slot. -/
def withSlot (pm : BitVec 14 → BitVec 32) (dst : BitVec 6) (c : Pq.Poly) : BitVec 14 → BitVec 32 :=
  fun x => if x.extractLsb' 8 6 = dst then BitVec.ofInt 32 (c (x.setWidth 8).toNat) else pm x

theorem withSlot_at (hk : k < 256) : withSlot pm dst c (coefAddr dst k) = BitVec.ofInt 32 (c k) := by
  rw [withSlot, if_pos (slot_coefAddr dst k), index_coefAddr, BitVec.toNat_ofNat, Nat.mod_eq_of_lt hk]

theorem withSlot_elsewhere {x : BitVec 14} (hx : x.extractLsb' 8 6 ≠ dst) : withSlot pm dst c x = pm x :=
  if_neg hx

theorem withSlot_congr {c d : Pq.Poly} (h : ∀ k < 256, c k = d k) : withSlot pm dst c = withSlot pm dst d := by
  funext x
  rw [withSlot, withSlot, h _ (x.setWidth 8).isLt]

theorem withSlot_update (hk : k < 256) (y : Int) :
    withSlot pm dst (Function.update c k y) = Function.update (withSlot pm dst c) (coefAddr dst k) (BitVec.ofInt 32 y) := by
  funext x
  by_cases hx : x = coefAddr dst k
  · rw [hx, Function.update_self, withSlot_at hk, Function.update_self]
  · rw [Function.update_of_ne hx]
    by_cases hslot : x.extractLsb' 8 6 = dst
    · have hne : (x.setWidth 8).toNat ≠ k := by
        intro hindex
        rw [← hindex, coefAddr_index hslot] at hx
        exact hx rfl
      rw [withSlot, withSlot, if_pos hslot, if_pos hslot, Function.update_of_ne hne]
    · rw [withSlot_elsewhere hslot, withSlot_elsewhere hslot]

/-- A slot of zeros. -/
theorem withSlot_zero (h : ∀ k < 256, pm (coefAddr dst k) = 0) : withSlot pm dst (fun _ => 0) = pm := by
  funext x
  by_cases hslot : x.extractLsb' 8 6 = dst
  · have hindex := coefAddr_index hslot
    rw [withSlot, if_pos hslot, ← hindex, h _ (x.setWidth 8).isLt]
    rfl
  · exact withSlot_elsewhere hslot

/-! A slot of which only the signed values matter. -/

def Holds (pm : BitVec 14 → BitVec 32) (dst : BitVec 6) (c : Pq.Poly) : Prop :=
  ∀ k < 256, (pm (coefAddr dst k)).toInt = c k

theorem Holds.update (h : Holds pm dst c) (hk : k < 256) (v : BitVec 32) :
    Holds (Function.update pm (coefAddr dst k) v) dst (Function.update c k v.toInt) := by
  intro i hi
  by_cases hik : i = k
  · rw [hik, Function.update_self, Function.update_self]
  · rw [Function.update_of_ne fun heq => hik (coefAddr_inj dst i hi k hk heq), Function.update_of_ne hik]
    exact h i hi

/-- The memory outside a slot. -/
def SameElsewhere (dst : BitVec 6) (pm pm' : BitVec 14 → BitVec 32) : Prop :=
  ∀ x : BitVec 14, x.extractLsb' 8 6 ≠ dst → pm' x = pm x

theorem SameElsewhere.refl (dst : BitVec 6) (pm : BitVec 14 → BitVec 32) : SameElsewhere dst pm pm := fun _ _ => rfl

theorem SameElsewhere.update {pm' : BitVec 14 → BitVec 32} (h : SameElsewhere dst pm pm') (v : BitVec 32) :
    SameElsewhere dst pm (Function.update pm' (coefAddr dst k) v) := by
  intro x hx
  rw [Function.update_of_ne]
  · exact h x hx
  · intro heq
    rw [heq] at hx
    exact hx (slot_coefAddr dst k)

theorem SameElsewhere.coef {pm' : BitVec 14 → BitVec 32} {src : BitVec 6} (h : SameElsewhere dst pm pm')
    (hne : src ≠ dst) : pm' (coefAddr src k) = pm (coefAddr src k) :=
  h _ (by rw [slot_coefAddr]; exact hne)

end GoiKey.Rtl
