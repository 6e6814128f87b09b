import GoiKey.Lib.BitGroups
import GoiKey.Lib.Limbs
import GoiKey.Model.PqModel
import GoiKey.Lib.Clocked
import GoiKey.Model.PqPack

/-!
The packers of the reference: what a packed number and its bytes are, field by field.
-/

namespace GoiKey.Pq

open BitBuffer

theorem residue_lt (x : Int) (w : Nat) : (x % 2 ^ w).toNat < 2 ^ w := by
  have hpos : (0 : Int) < 2 ^ w := Int.pow_pos (by decide)
  have hlow := Int.emod_nonneg x (Int.ne_of_gt hpos)
  have hhigh := Int.emod_lt_of_pos x hpos
  have hcast : ((2 ^ w : Nat) : Int) = 2 ^ w := by push_cast; rfl
  omega

theorem packNumber_eq_value (vals : Poly) (w m : Nat) :
    packNumber vals w m = Limbs.value (2 ^ w) (fun i => (vals i % 2 ^ w).toNat) m := by
  induction m with
  | zero => rfl
  | succ m ih =>
    have hlow : packNumber vals w m < 2 ^ (w * m) := by
      rw [ih, Nat.pow_mul]
      apply Limbs.value_lt
      intro i _
      exact residue_lt (vals i) w
    rw [packNumber, Limbs.value_succ, ← ih, Nat.shiftLeft_eq, ← Nat.pow_mul, Nat.or_comm,
      Nat.mul_comm _ (2 ^ (w * m)), ← Nat.two_pow_add_eq_or_of_lt hlow, Nat.add_comm]

theorem packNumber_lt (vals : Poly) (w m : Nat) : packNumber vals w m < 2 ^ (w * m) := by
  rw [packNumber_eq_value, Nat.pow_mul]
  apply Limbs.value_lt
  intro i _
  exact residue_lt (vals i) w

theorem field_packNumber (vals : Poly) (w : Nat) {m k : Nat} (hk : k < m) :
    field (packNumber vals w m) (w * k) w = (vals k % 2 ^ w).toNat := by
  rw [field, packNumber_eq_value, Nat.pow_mul]
  apply Limbs.value_div_mod (fun i _ => residue_lt (vals i) w) hk

theorem fromBytes_map (f : Nat → BitVec 8) (m : Nat) :
    fromBytes ((List.range m).map f) = Limbs.value 256 (fun j => (f j).toNat) m := by
  induction m generalizing f with
  | zero => rfl
  | succ m ih =>
    rw [List.range_succ_eq_map, List.map_cons, List.map_map, fromBytes, ih, Limbs.value_shift]
    rfl

theorem field_fromBytes (f : Nat → BitVec 8) {m j : Nat} (hj : j < m) :
    field (fromBytes ((List.range m).map f)) (8 * j) 8 = (f j).toNat := by
  have hpow : 2 ^ (8 * j) = 256 ^ j := Nat.pow_mul 2 8 j
  rw [field, fromBytes_map, hpow]
  exact Limbs.value_div_mod (fun i _ => (f i).isLt) hj

theorem fromBytes_toBytes (v m : Nat) : fromBytes (toBytes v m) = v % 2 ^ (8 * m) := by
  have hbyte : ∀ j < m, (BitVec.ofNat 8 (v >>> (8 * j))).toNat = Limbs.word 256 v j := by
    intro j _
    rw [BitVec.toNat_ofNat, Nat.shiftRight_eq_div_pow, Nat.pow_mul, Limbs.word]
  rw [toBytes, fromBytes_map, Limbs.value_congr hbyte, Limbs.value_word, Nat.pow_mul]

/-- Unpacking what has been packed gives what the fields hold of the values. -/
theorem unpackBits_packBits (vals : Poly) (w : Nat) {i : Nat} (hi : i < n) :
    unpackBits (packBits vals w) w i = vals i % 2 ^ w := by
  have hbits : 8 * (n * w / 8) = w * n := by
    rw [n]
    omega
  have hnonneg : 0 ≤ vals i % 2 ^ w := Int.emod_nonneg _ (Int.ne_of_gt (Int.pow_pos (by decide)))
  rw [unpackBits, packBits, fromBytes_toBytes, hbits, Nat.mod_eq_of_lt (packNumber_lt vals w n),
    Nat.shiftRight_eq_div_pow]
  rw [show packNumber vals w n / 2 ^ (w * i) % 2 ^ w = _ from field_packNumber vals w hi]
  exact Int.toNat_of_nonneg hnonneg

end GoiKey.Pq

/-!
The packing unit writes the bytes of the reference and reads them back.
-/

namespace GoiKey.Rtl.PqPack

open Clocked BitBuffer SyncRam

/-- The unit works; what it is asked for meanwhile is not looked at. -/
def Busy (s : PqPack) : Prop := s.st ≠ .idle

/-- Nothing clears the hint counter. -/
def Plain (i : PackIn) : Prop := i.hkClr = false

/-- The sponge takes a byte. -/
def Ready (i : PackIn) : Prop := i.shInReady = true

/-- The sponge, with the byte that is on its way. -/
def given (s : PqPack) : List (BitVec 8) := if s.shInValid then s.sponge ++ [s.shInByte] else s.sponge

abbrev Runs (P Q : PqPack → Prop) : Prop := Reaches clock Plain Ready Busy P Q

/-- Where the bytes of an operation go. -/
def byteAddr (a : PackArgs) (j : Nat) : Cell := cell a.space (a.base + BitVec.ofNat 13 j)

/-- Where a coefficient stands. -/
def coefAddr (a : PackArgs) (k : Nat) : BitVec 14 := a.slot ++ BitVec.ofNat 8 k

/-! Fields of a width. -/

/-- The width of a field. -/
def width (a : PackArgs) : Nat := a.nbits.toNat

theorem width_le (a : PackArgs) : width a ≤ 32 := by
  rw [width, PackArgs.nbits]
  split <;> (try split) <;> decide

theorem vmask_toNat (a : PackArgs) : a.vmask.toNat = 2 ^ width a - 1 := by
  rw [PackArgs.vmask, width, PackArgs.nbits]
  split <;> (try split) <;> rfl

theorem and_vmask (a : PackArgs) (x : BitVec 40) : (x &&& a.vmask).toNat = x.toNat % 2 ^ width a := by
  rw [BitVec.toNat_and, vmask_toNat, Nat.and_two_pow_sub_one_eq_mod]

/-- Laid above what the accumulator holds. -/
theorem toNat_or_shift {acc x : BitVec 40} {n : BitVec 6} {w : Nat} (hx : x.toNat < 2 ^ w)
    (hn : w + n.toNat ≤ 40) : (acc ||| x <<< n).toNat = acc.toNat ||| x.toNat <<< n.toNat := by
  have hlt : x.toNat <<< n.toNat < 2 ^ 40 := by
    rw [Nat.shiftLeft_eq]
    calc x.toNat * 2 ^ n.toNat < 2 ^ w * 2 ^ n.toNat := Nat.mul_lt_mul_of_pos_right hx (Nat.two_pow_pos _)
      _ = 2 ^ (w + n.toNat) := (Nat.pow_add 2 w n.toNat).symm
      _ ≤ 2 ^ 40 := Nat.pow_le_pow_right (by decide) hn
  rw [BitVec.toNat_or, BitVec.shiftLeft_eq', BitVec.toNat_shiftLeft, Nat.mod_eq_of_lt hlt]

/-! Packing. -/

/-- What an operation that packs has put out after `b` bytes. -/
structure Sent (a : PackArgs) (bytes : Nat → BitVec 8) (bus : Cell → BitVec 8) (sponge : List (BitVec 8))
    (b : Nat) (s : PqPack) : Prop where
  bus : s.bus.written = if a.space = 3 then bus else fill bus (byteAddr a) bytes b
  sponge : s.given = if a.space = 3 then sponge ++ (List.range b).map bytes else sponge

/-- Packing the number `v`, of which `p` bits have been put in and `b` bytes taken out. -/
structure Packing (v : Nat) (pm : BitVec 14 → BitVec 32) (bus : Cell → BitVec 8) (sponge : List (BitVec 8))
    (a : PackArgs) (st : PackState) (k p b : Nat) (s : PqPack) : Prop where
  st : s.st = st
  args : s.args = a
  i : s.i.toNat = k
  acc : s.acc.toNat = buffer v p (8 * b)
  le : 8 * b ≤ p
  accb : s.accb.toNat = p - 8 * b
  bcnt : s.bcnt.toNat = b
  mem : s.pm.written = pm
  still : s.pm.we = false
  sent : Sent a (fun j => BitVec.ofNat 8 (v >>> (8 * j))) bus sponge b s

variable {v : Nat} {pm : BitVec 14 → BitVec 32} {bus : Cell → BitVec 8} {sponge : List (BitVec 8)}
variable {a : PackArgs} {k p b : Nat} {s : PqPack} {i : PackIn} {st : PackState}

theorem Packing.busy (h : Packing v pm bus sponge a st k p b s) (hst : st ≠ .idle) : Busy s := by
  rw [Busy, h.st]
  exact hst

/-- A field is read and put in. -/
theorem reads_field (hk : k < 256) (hp : p = width a * k) (hb : p < 8 * b + 8)
    (hv : (a.field (pm (coefAddr a k))).toNat % 2 ^ width a = field v p (width a)) :
    Runs (Packing v pm bus sponge a .r k p b) (Packing v pm bus sponge a .emw k (p + width a) b) := by
  have hr : Runs (Packing v pm bus sponge a .r k p b) fun s =>
      Packing v pm bus sponge a .rw k p b s ∧ s.pm.ra = coefAddr a k := by
    apply Reaches.edge fun s h => h.busy (by decide)
    rintro s i h -
    simp only [clock, fsm, h.st]
    have hi : s.i.setWidth 8 = BitVec.ofNat 8 k := by rw [← h.i, BitVec.ofNat_toNat]
    refine ⟨⟨rfl, h.args, h.i, h.acc, h.le, h.accb, h.bcnt, h.mem, rfl, h.sent.bus, h.sent.sponge⟩, ?_⟩
    rw [ra_read, h.args, hi, coefAddr]
  have hrw : Runs (fun s => Packing v pm bus sponge a .rw k p b s ∧ s.pm.ra = coefAddr a k) fun s =>
      Packing v pm bus sponge a .rc k p b s ∧ s.pm.rq = pm (coefAddr a k) := by
    apply Reaches.edge fun s h => h.1.busy (by decide)
    rintro s i ⟨h, hra⟩ -
    simp only [clock, fsm, h.st]
    refine ⟨⟨rfl, h.args, h.i, h.acc, h.le, h.accb, h.bcnt, h.mem, rfl, h.sent.bus, h.sent.sponge⟩, ?_⟩
    rw [← h.mem, ← hra, written_of_still h.still]
    rfl
  have hrc : Runs (fun s => Packing v pm bus sponge a .rc k p b s ∧ s.pm.rq = pm (coefAddr a k)) fun s =>
      Packing v pm bus sponge a .em k p b s ∧ s.cval = pm (coefAddr a k) := by
    apply Reaches.edge fun s h => h.1.busy (by decide)
    rintro s i ⟨h, hrq⟩ -
    simp only [clock, fsm, h.st]
    exact ⟨⟨rfl, h.args, h.i, h.acc, h.le, h.accb, h.bcnt, h.mem, rfl, h.sent.bus, h.sent.sponge⟩, hrq⟩
  have hem : Runs (fun s => Packing v pm bus sponge a .em k p b s ∧ s.cval = pm (coefAddr a k))
      (Packing v pm bus sponge a .emw k (p + width a) b) := by
    apply Reaches.edge fun s h => h.1.busy (by decide)
    rintro s i ⟨h, hc⟩ -
    simp only [clock, fsm, h.st]
    have hw := width_le a
    have haccb := h.accb
    have hle := h.le
    refine ⟨rfl, h.args, h.i, ?_, by omega, ?_, h.bcnt, h.mem, rfl, h.sent.bus, h.sent.sponge⟩
    · have hfield : ((a.field s.cval).setWidth 40 &&& a.vmask).toNat = field v p (width a) := by
        rw [and_vmask, hc, BitVec.toNat_setWidth_of_le (by decide), hv]
      have hlt : ((a.field s.cval).setWidth 40 &&& a.vmask).toNat < 2 ^ width a := hfield ▸ field_lt
      rw [h.args, toNat_or_shift hlt (by omega), hfield, h.acc, haccb, or_put hle]
    · have hnbits : a.nbits.toNat = width a := rfl
      rw [BitVec.toNat_add, h.args, hnbits, haccb]
      omega
  exact hr.trans (hrw.trans (hrc.trans hem))

theorem low_byte (h : Packing v pm bus sponge a st k p b s) (hb : 8 * b + 8 ≤ p) :
    s.acc.setWidth 8 = BitVec.ofNat 8 (v >>> (8 * b)) := by
  apply BitVec.eq_of_toNat_eq
  rw [BitVec.toNat_setWidth, h.acc, BitVec.toNat_ofNat, Nat.shiftRight_eq_div_pow]
  exact buffer_take hb

theorem dropped (h : Packing v pm bus sponge a st k p b s) :
    (s.acc >>> 8).toNat = buffer v p (8 * (b + 1)) := by
  rw [BitVec.toNat_ushiftRight, h.acc, Nat.shiftRight_eq_div_pow]
  exact buffer_drop

/-- A byte goes into a memory. -/
theorem Sent.store {bytes : Nat → BitVec 8} {n : PqPack} (h : Sent a bytes bus sponge b s) (hsp : a.space ≠ 3)
    (hbus : n.bus = ByteBus.store s.bus.clock a.space (a.base + BitVec.ofNat 13 b) (bytes b)) (hgiven : given n = given s) :
    Sent a bytes bus sponge (b + 1) n := by
  have hmem := h.bus
  have hsponge := h.sponge
  rw [if_neg hsp] at hmem hsponge
  constructor
  · rw [if_neg hsp, hbus, ByteBus.store, if_neg hsp, written_write, mem_clock, hmem]
    rfl
  · rw [if_neg hsp, hgiven, hsponge]

/-- A byte goes to the sponge. -/
theorem Sent.absorb {bytes : Nat → BitVec 8} {n : PqPack} (h : Sent a bytes bus sponge b s) (hsp : a.space = 3)
    (hbus : n.bus.written = s.bus.written) (hgiven : given n = given s ++ [bytes b]) :
    Sent a bytes bus sponge (b + 1) n := by
  have hmem := h.bus
  have hsponge := h.sponge
  rw [if_pos hsp] at hmem hsponge
  constructor
  · rw [if_pos hsp, hbus, hmem]
  · rw [if_pos hsp, hgiven, hsponge, List.range_succ, List.map_append, List.append_assoc]
    rfl

/-- Whole bytes are taken out until less than one is left. -/
theorem drains (hp : p ≤ 8192) :
    Runs (Packing v pm bus sponge a .emw k p b) (Packing v pm bus sponge a .next k p (p / 8)) := by
  suffices h : ∀ m, Runs (fun s => ∃ b, p - 8 * b = m ∧ Packing v pm bus sponge a .emw k p b s)
      (Packing v pm bus sponge a .next k p (p / 8)) from
    (h (p - 8 * b)).imp (fun s hs => ⟨b, rfl, hs⟩) fun s hs => hs
  apply Reaches.descend
  intro m
  apply Reaches.exists
  intro b
  by_cases hb : 8 * b + 8 ≤ p
  · have height (s : PqPack) (h : Packing v pm bus sponge a .emw k p b s) : 8 ≤ s.accb := by
      have haccb := h.accb
      rw [BitVec.le_def, haccb, show (8 : BitVec 6).toNat = 8 from rfl]
      omega
    have haccb (s : PqPack) (h : Packing v pm bus sponge a .emw k p b s) :
        (s.accb - 8).toNat = p - 8 * (b + 1) := by
      have hle := height s h
      rw [BitVec.toNat_sub_of_le hle, h.accb, show (8 : BitVec 6).toNat = 8 from rfl]
      omega
    have hbcnt (s : PqPack) (h : Packing v pm bus sponge a .emw k p b s) : (s.bcnt + 1).toNat = b + 1 := by
      rw [BitVec.toNat_add, h.bcnt, show (1 : BitVec 13).toNat = 1 from rfl, Nat.mod_eq_of_lt (by omega)]
    have hfewer : p - 8 * (b + 1) < p - 8 * b := by omega
    by_cases hsp : a.space = 3
    · have htake : Runs (fun s => p - 8 * b = m ∧ Packing v pm bus sponge a .emw k p b s)
          (fun s => p - 8 * b = m ∧ Packing v pm bus sponge a .emg k p (b + 1) s) := by
        apply Reaches.wait fun s h => h.2.busy (by decide)
        · rintro s i ⟨hm, h⟩ - hready
          have hlow : i.shInReady = false := by
            rw [Ready] at hready
            exact Bool.eq_false_iff.mpr hready
          simp only [clock, fsm, h.st, if_pos (height s h), h.args, if_pos hsp, hlow, Bool.false_eq_true, if_false]
          exact ⟨hm, h.st, h.args, h.i, h.acc, h.le, h.accb, h.bcnt, h.mem, rfl, h.sent.bus, h.sent.sponge⟩
        · rintro s i ⟨hm, h⟩ - hready
          have hhigh : i.shInReady = true := hready
          simp only [clock, fsm, h.st, if_pos (height s h), h.args, if_pos hsp, hhigh, if_true]
          refine ⟨hm, rfl, h.args, h.i, dropped h, by omega, haccb s h, hbcnt s h, h.mem, rfl, ?_⟩
          refine h.sent.absorb hsp rfl ?_
          rw [← low_byte h hb]
          rfl
      have hgap : Runs (fun s => p - 8 * b = m ∧ Packing v pm bus sponge a .emg k p (b + 1) s)
          fun s => Packing v pm bus sponge a .next k p (p / 8) s ∨
            ∃ m' < m, ∃ b, p - 8 * b = m' ∧ Packing v pm bus sponge a .emw k p b s := by
        apply Reaches.edge fun s h => h.2.busy (by decide)
        rintro s i ⟨hm, h⟩ -
        simp only [clock, fsm, h.st]
        right
        refine ⟨p - 8 * (b + 1), hm ▸ hfewer, b + 1, rfl, ?_⟩
        exact ⟨rfl, h.args, h.i, h.acc, h.le, h.accb, h.bcnt, h.mem, rfl, h.sent.bus, h.sent.sponge⟩
      exact htake.trans hgap
    · apply Reaches.edge fun s h => h.2.busy (by decide)
      rintro s i ⟨hm, h⟩ -
      simp only [clock, fsm, h.st, if_pos (height s h), h.args, if_neg hsp]
      right
      refine ⟨p - 8 * (b + 1), hm ▸ hfewer, b + 1, rfl, ?_⟩
      refine ⟨h.st, h.args, h.i, dropped h, by omega, haccb s h, hbcnt s h, h.mem, rfl, ?_⟩
      refine h.sent.store hsp ?_ rfl
      have hcount : s.bcnt = BitVec.ofNat 13 b := by rw [← h.bcnt, BitVec.ofNat_toNat, BitVec.setWidth_eq]
      rw [← low_byte h hb, ← hcount]
      rfl
  · apply Reaches.edge fun s h => h.2.busy (by decide)
    rintro s i ⟨-, h⟩ -
    have hle := h.le
    have haccb := h.accb
    have hlt : ¬ 8 ≤ s.accb := by
      rw [BitVec.le_def, haccb, show (8 : BitVec 6).toNat = 8 from rfl]
      omega
    have hbytes : b = p / 8 := by omega
    simp only [clock, fsm, h.st, if_neg hlt]
    left
    rw [← hbytes]
    exact ⟨rfl, h.args, h.i, h.acc, h.le, h.accb, h.bcnt, h.mem, rfl, h.sent.bus, h.sent.sponge⟩

/-- The operation is over. -/
structure Finished (pm : BitVec 14 → BitVec 32) (bus : Cell → BitVec 8) (sponge : List (BitVec 8))
    (s : PqPack) : Prop where
  st : s.st = .idle
  busy : s.busy = false
  done : s.done = true
  pm : s.pm.written = pm
  bus : s.bus.written = bus
  sponge : s.given = sponge

/-- A coefficient, up to the next one. -/
theorem packs_coefficient (hk : k < 255)
    (hv : (a.field (pm (coefAddr a k))).toNat % 2 ^ width a = field v (width a * k) (width a)) :
    Runs (Packing v pm bus sponge a .r k (width a * k) (width a * k / 8))
      (Packing v pm bus sponge a .r (k + 1) (width a * (k + 1)) (width a * (k + 1) / 8)) := by
  have hw := width_le a
  have hmul : width a * k ≤ 32 * 255 := Nat.mul_le_mul hw (by omega)
  have hsum : width a * (k + 1) = width a * k + width a := Nat.mul_succ _ _
  rw [hsum]
  apply (reads_field (by omega) rfl (by omega) hv).trans
  apply (drains (by omega)).trans
  apply Reaches.edge fun s h => h.busy (by decide)
  rintro s i h -
  have hi := h.i
  have hlast : s.i ≠ 255 := by
    intro h255
    rw [h255] at hi
    have : (255 : BitVec 9).toNat = 255 := rfl
    omega
  simp only [clock, fsm, h.st, if_neg hlast]
  refine ⟨rfl, h.args, ?_, h.acc, h.le, h.accb, h.bcnt, h.mem, rfl, h.sent.bus, h.sent.sponge⟩
  rw [BitVec.toNat_add, hi, show (1 : BitVec 9).toNat = 1 from rfl, Nat.mod_eq_of_lt (by omega)]

theorem packs (hv : ∀ k < 256,
      (a.field (pm (coefAddr a k))).toNat % 2 ^ width a = field v (width a * k) (width a)) :
    Runs (Packing v pm bus sponge a .r 0 0 0) fun s =>
      Finished pm s.bus.written (given s) s ∧
        Sent a (fun j => BitVec.ofNat 8 (v >>> (8 * j))) bus sponge (32 * width a) s := by
  have hw := width_le a
  have hall : Runs (Packing v pm bus sponge a .r 0 (width a * 0) (width a * 0 / 8))
      (Packing v pm bus sponge a .r 255 (width a * 255) (width a * 255 / 8)) :=
    Reaches.loop (I := fun k => Packing v pm bus sponge a .r k (width a * k) (width a * k / 8))
      fun k hk => packs_coefficient hk (hv k (by omega))
  have hbytes : (width a * 255 + width a) / 8 = 32 * width a := by omega
  rw [Nat.mul_zero] at hall
  apply hall.trans
  apply (reads_field (by decide) rfl (by omega) (hv 255 (by decide))).trans
  apply (drains (by omega)).trans
  apply Reaches.edge fun s h => h.busy (by decide)
  rintro s i h -
  have hlast : s.i = 255 := by
    apply BitVec.eq_of_toNat_eq
    rw [h.i]
    rfl
  simp only [clock, fsm, h.st, if_pos hlast]
  rw [hbytes] at h
  exact ⟨⟨rfl, rfl, rfl, h.mem, rfl, rfl⟩, h.sent.bus, h.sent.sponge⟩

/-! Unpacking. -/

/-- What the coefficients become. -/
def unpacked (a : PackArgs) (v k : Nat) : BitVec 32 :=
  a.field (BitVec.ofNat 32 (field v (width a * k) (width a)))

/-- Unpacking the number `v`, of which `p` bits have been read. -/
structure Unpacking (v : Nat) (pm : BitVec 14 → BitVec 32) (bus : Cell → BitVec 8) (a : PackArgs)
    (st : PackState) (k p : Nat) (s : PqPack) : Prop where
  st : s.st = st
  args : s.args = a
  i : s.i.toNat = k
  acc : s.acc.toNat = buffer v p (width a * k)
  le : width a * k ≤ p
  accb : s.accb.toNat = p - width a * k
  bcnt : 8 * s.bcnt.toNat = p
  mem : s.pm.written = fill pm (coefAddr a) (unpacked a v) k
  bus : s.bus.written = bus
  still : s.bus.we = false

theorem Unpacking.busy (h : Unpacking v pm bus a st k p s) (hst : st ≠ .idle) : Busy s := by
  rw [Busy, h.st]
  exact hst

theorem Unpacking.index (h : Unpacking v pm bus a st k p s) : s.i.setWidth 8 = BitVec.ofNat 8 k := by
  rw [← h.i, BitVec.ofNat_toNat]

/-- A byte is read and put in. -/
theorem reads_byte (hk : k < 256) (hp : p < width a * k + width a)
    (hv : (bus (byteAddr a (p / 8))).toNat = field v p 8) :
    Runs (Unpacking v pm bus a .ub k p) (Unpacking v pm bus a .ub k (p + 8)) := by
  have hw := width_le a
  have hub : Runs (Unpacking v pm bus a .ub k p) fun s =>
      Unpacking v pm bus a .ubw k p s ∧ s.bus.ra = byteAddr a (p / 8) := by
    apply Reaches.edge fun s h => h.busy (by decide)
    rintro s i h -
    have hmore : s.accb < s.args.nbits := by
      rw [BitVec.lt_def, h.accb, h.args]
      have hnbits : a.nbits.toNat = width a := rfl
      have hle := h.le
      omega
    simp only [clock, fsm, h.st, if_pos hmore]
    refine ⟨⟨rfl, h.args, h.i, h.acc, h.le, h.accb, h.bcnt, h.mem, h.bus, rfl⟩, ?_⟩
    have hcount : s.bcnt = BitVec.ofNat 13 (p / 8) := by
      have hbcnt := h.bcnt
      rw [show p / 8 = s.bcnt.toNat by omega, BitVec.ofNat_toNat, BitVec.setWidth_eq]
    rw [ByteBus.fetch, ra_read, h.args, hcount, byteAddr]
  have hubw : Runs (fun s => Unpacking v pm bus a .ubw k p s ∧ s.bus.ra = byteAddr a (p / 8)) fun s =>
      Unpacking v pm bus a .ubc k p s ∧ s.bus.rq = bus (byteAddr a (p / 8)) := by
    apply Reaches.edge fun s h => h.1.busy (by decide)
    rintro s i ⟨h, hra⟩ -
    simp only [clock, fsm, h.st]
    refine ⟨⟨rfl, h.args, h.i, h.acc, h.le, h.accb, h.bcnt, h.mem, h.bus, rfl⟩, ?_⟩
    rw [← h.bus, ← hra, written_of_still h.still]
    rfl
  have hubc : Runs (fun s => Unpacking v pm bus a .ubc k p s ∧ s.bus.rq = bus (byteAddr a (p / 8)))
      (Unpacking v pm bus a .ub k (p + 8)) := by
    apply Reaches.edge fun s h => h.1.busy (by decide)
    rintro s i ⟨h, hrq⟩ -
    simp only [clock, fsm, h.st]
    have hle := h.le
    have haccb := h.accb
    have hbcnt := h.bcnt
    have hbound : width a * k ≤ 32 * 255 := Nat.mul_le_mul hw (by omega)
    refine ⟨rfl, h.args, h.i, ?_, by omega, ?_, ?_, h.mem, h.bus, rfl⟩
    · have hbyte : (s.bus.rq.setWidth 40).toNat = field v p 8 := by
        rw [BitVec.toNat_setWidth_of_le (by decide), hrq, hv]
      have hlt : (s.bus.rq.setWidth 40).toNat < 2 ^ 8 := hbyte ▸ field_lt
      rw [toNat_or_shift hlt (by omega), hbyte, h.acc, haccb, or_put hle]
    · rw [BitVec.toNat_add, haccb, show (8 : BitVec 6).toNat = 8 from rfl]
      omega
    · rw [BitVec.toNat_add, show (1 : BitVec 13).toNat = 1 from rfl]
      omega
  exact hub.trans (hubw.trans hubc)

/-- Bytes are read until a field is there. -/
theorem fills (hk : k < 256) (hv : ∀ j < 32 * width a, (bus (byteAddr a j)).toNat = field v (8 * j) 8) :
    Runs (fun s => ∃ p, Unpacking v pm bus a .ub k p s)
      fun s => ∃ p, width a * k + width a ≤ p ∧ Unpacking v pm bus a .ub k p s := by
  have hw := width_le a
  have hbound : width a * k + width a ≤ width a * 256 := by
    rw [← Nat.mul_succ]
    exact Nat.mul_le_mul_left _ hk
  suffices h : ∀ m, Runs
      (fun s => ∃ p, width a * k + width a - p = m ∧ Unpacking v pm bus a .ub k p s)
      fun s => ∃ p, width a * k + width a ≤ p ∧ Unpacking v pm bus a .ub k p s by
    apply Reaches.exists
    intro p
    exact (h (width a * k + width a - p)).imp (fun s hs => ⟨p, rfl, hs⟩) fun s hs => hs
  apply Reaches.descend
  intro m
  apply Reaches.exists
  intro p
  by_cases hp : width a * k + width a ≤ p
  · exact .of_imp fun s h => .inl ⟨p, hp, h.2⟩
  · apply Reaches.fact (p := 8 ∣ p) fun s h => ⟨s.bcnt.toNat, h.2.bcnt.symm⟩
    intro hdvd
    apply Reaches.fact fun s h => h.1
    intro hm
    have hbyte : (bus (byteAddr a (p / 8))).toNat = field v p 8 := by
      rw [hv (p / 8) (by omega), Nat.mul_div_cancel' hdvd]
    apply (reads_byte hk (by omega) hbyte).imp fun s h => h.2
    intro s h
    exact .inr ⟨width a * k + width a - (p + 8), by omega, p + 8, rfl, h⟩

/-- A field is taken out and its coefficient written. -/
theorem takes_field (hk : k < 256) (hp : width a * k + width a ≤ p) :
    Runs (Unpacking v pm bus a .ub k p) fun s =>
      if k = 255 then s.st = .uww ∧ s.pm.written = fill pm (coefAddr a) (unpacked a v) 256 ∧ s.bus.written = bus
      else Unpacking v pm bus a .ub (k + 1) p s := by
  have hw := width_le a
  have hsucc : width a * (k + 1) = width a * k + width a := Nat.mul_succ _ _
  have hub : Runs (Unpacking v pm bus a .ub k p) fun s => s.st = .uw ∧ s.args = a ∧ s.i.toNat = k ∧
      s.acc.toNat = buffer v p (width a * (k + 1)) ∧ s.accb.toNat = p - width a * (k + 1) ∧
      8 * s.bcnt.toNat = p ∧ s.pm.written = fill pm (coefAddr a) (unpacked a v) k ∧ s.bus.written = bus ∧
      s.bus.we = false ∧ a.field s.rAcc = unpacked a v k := by
    apply Reaches.edge fun s h => h.busy (by decide)
    rintro s i h -
    have hnbits : a.nbits.toNat = width a := rfl
    have hless : ¬ s.accb < s.args.nbits := by
      rw [BitVec.lt_def, h.accb, h.args]
      omega
    simp only [clock, fsm, h.st, if_neg hless]
    refine ⟨trivial, h.args, h.i, ?_, ?_, h.bcnt, h.mem, h.bus, rfl, ?_⟩
    · rw [BitVec.ushiftRight_eq', BitVec.toNat_ushiftRight, h.acc, h.args, hnbits, Nat.shiftRight_eq_div_pow,
        buffer_drop, hsucc]
    · have hle : s.args.nbits ≤ s.accb := by
        rw [BitVec.le_def, h.accb, h.args]
        omega
      rw [BitVec.toNat_sub_of_le hle, h.accb, h.args]
      omega
    · have hmask : (2 : Nat) ^ width a ∣ 2 ^ 32 := Nat.pow_dvd_pow 2 hw
      rw [unpacked]
      congr 1
      apply BitVec.eq_of_toNat_eq
      rw [BitVec.toNat_and, h.args, BitVec.toNat_setWidth, BitVec.toNat_setWidth, vmask_toNat,
        Nat.mod_eq_of_lt (a := 2 ^ width a - 1), Nat.and_two_pow_sub_one_eq_mod, Nat.mod_mod_of_dvd _ hmask,
        h.acc, buffer_take hp, BitVec.toNat_ofNat, Nat.mod_eq_of_lt]
      · exact Nat.lt_of_lt_of_le field_lt (Nat.pow_le_pow_right (by decide) hw)
      · have hpow : 2 ^ width a ≤ 2 ^ 32 := Nat.pow_le_pow_right (by decide) hw
        have hpos := Nat.two_pow_pos (width a)
        omega
  apply hub.trans
  apply Reaches.edge fun s h => by rw [Busy, h.1]; decide
  rintro s i ⟨hst, hargs, hi, hacc, haccb, hbcnt, hmem, hbus, hwe, hfield⟩ -
  have hindex : s.i.setWidth 8 = BitVec.ofNat 8 k := by rw [← hi, BitVec.ofNat_toNat]
  have hwritten : (s.pm.clock.write (s.args.slot ++ s.i.setWidth 8) (s.args.field s.rAcc)).written
      = fill pm (coefAddr a) (unpacked a v) (k + 1) := by
    rw [written_write, mem_clock, hmem, hargs, hindex, hfield, fill_succ, coefAddr]
  by_cases hlast : k = 255
  · have h255 : s.i = 255 := by
      apply BitVec.eq_of_toNat_eq
      rw [hi, hlast]
      rfl
    rw [if_pos hlast]
    subst hlast
    simp only [clock, fsm, hst, if_pos h255]
    exact ⟨trivial, hwritten, hbus⟩
  · have h255 : s.i ≠ 255 := by
      intro h
      rw [h] at hi
      exact hlast hi.symm
    rw [if_neg hlast]
    simp only [clock, fsm, hst, if_neg h255]
    refine ⟨rfl, hargs, ?_, hacc, by omega, haccb, hbcnt, hwritten, hbus, rfl⟩
    rw [BitVec.toNat_add, hi, show (1 : BitVec 9).toNat = 1 from rfl, Nat.mod_eq_of_lt (by omega)]

theorem unpacks (hv : ∀ j < 32 * width a, (bus (byteAddr a j)).toNat = field v (8 * j) 8) :
    Runs (Unpacking v pm bus a .ub 0 0) fun s =>
      Finished (fill pm (coefAddr a) (unpacked a v) 256) bus (given s) s := by
  have hall : Runs (fun s => ∃ p, Unpacking v pm bus a .ub 0 p s)
      (fun s => ∃ p, Unpacking v pm bus a .ub 255 p s) := by
    apply Reaches.loop (I := fun k s => ∃ p, Unpacking v pm bus a .ub k p s)
    intro k hk
    apply (fills (by omega) hv).trans
    apply Reaches.exists
    intro p
    apply Reaches.fact fun s h => h.1
    intro hp
    apply (takes_field (by omega) hp).imp fun s h => h.2
    intro s h
    rw [if_neg (by omega)] at h
    exact ⟨p, h⟩
  have hlast : Runs (fun s => ∃ p, Unpacking v pm bus a .ub 255 p s) fun s =>
      s.st = .uww ∧ s.pm.written = fill pm (coefAddr a) (unpacked a v) 256 ∧ s.bus.written = bus := by
    apply (fills (by decide) hv).trans
    apply Reaches.exists
    intro p
    apply Reaches.fact fun s h => h.1
    intro hp
    apply (takes_field (by decide) hp).imp fun s h => h.2
    intro s h
    rwa [if_pos rfl] at h
  refine (hall.imp (fun s hs => ⟨0, hs⟩) fun s hs => hs).trans (hlast.trans ?_)
  apply Reaches.edge fun s h => by rw [Busy, h.1]; decide
  rintro s i ⟨hst, hmem, hbus⟩ -
  simp only [clock, fsm, hst]
  exact ⟨rfl, rfl, rfl, hmem, hbus, rfl⟩

end GoiKey.Rtl.PqPack
