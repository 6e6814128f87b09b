import GoiKey.Proofs.ShakeUnit

/-! shake_unit.v against the extendable-output functions of FIPS 202: the bytes of a message in, those of its output out. -/

namespace GoiKey.Rtl.ShakeUnit

open Clocked Shake
open KeccakCore (Rests)

variable {s u : ShakeUnit} {i : Shake.In} {a : Sha3.State 64}

/-! Bytes that are taken up. -/

def lanes (mode : Bool) : Nat := if mode then 17 else 21

theorem lanes_pos (mode : Bool) : 0 < lanes mode := by cases mode <;> decide

theorem lanes_le (mode : Bool) : lanes mode ≤ 21 := by cases mode <;> decide

/-- The registers after a text. -/
structure Fed (mode : Bool) (t : List (BitVec 8)) (s : ShakeUnit) : Prop where
  m256 : s.m256 = mode
  lp : s.lp = BitVec.ofNat 5 (t.length / 8 % lanes mode)
  bc : s.bc = BitVec.ofNat 3 t.length
  sw : s.sw = (Sha3.laneAt t (t.length / 8)).setWidth 56

variable {mode : Bool} {t : List (BitVec 8)} {b : BitVec 8}

theorem Fed.rateLanes (h : Fed mode t s) : s.rateLanes = BitVec.ofNat 5 (lanes mode) := by
  rw [ShakeUnit.rateLanes, h.m256, lanes]
  cases mode <;> rfl

theorem Fed.bc_toNat (h : Fed mode t s) : s.bc.toNat = t.length % 8 := by
  rw [h.bc, BitVec.toNat_ofNat]

theorem Fed.bc_last (h : Fed mode t s) : s.bc = 7 ↔ t.length % 8 = 7 := by
  rw [← h.bc_toNat]
  exact ⟨fun he => by rw [he]; rfl, fun he => BitVec.eq_of_toNat_eq he⟩

theorem Fed.lastLane (h : Fed mode t s) : s.lastLane = true ↔ t.length / 8 % lanes mode + 1 = lanes mode := by
  have hlt := Nat.mod_lt (t.length / 8) (lanes_pos mode)
  have hle := lanes_le mode
  have hone : (1 : BitVec 5).toNat = 1 := rfl
  rw [ShakeUnit.lastLane, decide_eq_true_iff, h.lp, h.rateLanes, ← BitVec.toNat_inj]
  simp only [BitVec.toNat_add, BitVec.toNat_ofNat, hone]
  omega

theorem Fed.sw_bit (h : Fed mode t s) {i : Nat} (hi : i < 56) :
    s.sw.getLsbD i = (t.getD (8 * (t.length / 8) + i / 8) 0).getLsbD (i % 8) := by
  rw [h.sw, BitVec.getLsbD_setWidth, decide_eq_true hi, Bool.true_and, Sha3.laneAt_bit _ _ (by omega)]

theorem mask_bit {k i : Nat} (hi : i < 56) : (0xff#56 <<< (8 * k)).getLsbD i = decide (i / 8 = k) := by
  have hff : ∀ j < 56, (0xff#56).getLsbD j = decide (j < 8) := by decide
  rw [BitVec.getLsbD_shiftLeft, decide_eq_true hi, Bool.true_and, hff _ (by omega), ← decide_not, Bool.and_eq_decide]
  exact decide_eq_decide.mpr (by simp only [decide_eq_true_eq]; omega)

/-- A byte within a lane. -/
theorem Fed.staged (h : Fed mode t s) :
    s.staged b = (Sha3.laneAt (t ++ [b]) (t.length / 8)).setWidth 56 := by
  apply BitVec.eq_of_getLsbD_eq
  intro i hi
  have hk := h.bc_toNat
  rw [ShakeUnit.staged, BitVec.getLsbD_or, BitVec.getLsbD_and, BitVec.getLsbD_not, decide_eq_true hi, Bool.true_and,
    mask_bit hi, h.sw_bit hi, BitVec.getLsbD_shiftLeft, decide_eq_true hi, Bool.true_and, BitVec.getLsbD_setWidth,
    BitVec.getLsbD_setWidth, decide_eq_true hi, Bool.true_and, Sha3.laneAt_bit _ _ (by omega), hk]
  obtain hin | hin | hin := Nat.lt_trichotomy (i / 8) (t.length % 8)
  · rw [List.getD_append _ _ _ _ (by omega), decide_eq_false (by omega), decide_eq_true (show i < 8 * (t.length % 8) by omega)]
    simp
  · rw [List.getD_append_right _ _ _ _ (by omega), decide_eq_true hin, decide_eq_false (show ¬i < 8 * (t.length % 8) by omega),
      show 8 * (t.length / 8) + i / 8 - t.length = 0 by omega, show i - 8 * (t.length % 8) = i % 8 by omega,
      decide_eq_true (show i % 8 < 56 by omega)]
    simp
  · rw [List.getD_eq_default _ _ (by omega), List.getD_eq_default _ _ (by rw [List.length_append, List.length_singleton]; omega),
      BitVec.getLsbD_of_ge b _ (by omega)]
    simp

/-- A byte that ends a lane. -/
theorem Fed.lane (h : Fed mode t s) (hend : t.length % 8 = 7) :
    b ++ s.sw = Sha3.laneAt (t ++ [b]) (t.length / 8) := by
  apply BitVec.eq_of_getLsbD_eq
  intro i hi
  rw [BitVec.getLsbD_append, Sha3.laneAt_bit _ _ hi]
  by_cases hlt : i < 56
  · rw [if_pos hlt, h.sw_bit hlt, List.getD_append _ _ _ _ (by omega)]
  · rw [if_neg hlt, List.getD_append_right _ _ _ _ (by omega), show 8 * (t.length / 8) + i / 8 - t.length = 0 by omega,
      show i - 56 = i % 8 by omega]
    rfl

theorem Fed.next (h : Fed mode t s) {v : ShakeUnit} (hmode : v.m256 = s.m256)
    (hlp : v.lp = BitVec.ofNat 5 ((t.length + 1) / 8 % lanes mode)) (hbc : v.bc = s.bc + 1)
    (hsw : v.sw = (Sha3.laneAt (t ++ [b]) ((t.length + 1) / 8)).setWidth 56) : Fed mode (t ++ [b]) v := by
  have hlen : (t ++ [b]).length = t.length + 1 := by rw [List.length_append, List.length_singleton]
  refine ⟨hmode.trans h.m256, ?_, ?_, ?_⟩
  · rw [hlp, hlen]
  · rw [hbc, h.bc, hlen, BitVec.ofNat_add]
    rfl
  · rw [hsw, hlen]

/-- The unit has taken up a text, and is ready. -/
structure Taking (mode : Bool) (t : List (BitVec 8)) (s : ShakeUnit) : Prop extends Fed mode t s where
  st : s.st = .abs
  ok : s.coreOk = true
  core : Rests (Sha3.taken (lanes mode) t) s.kc

theorem ticked_ok (hok : s.coreOk = true) (h : Rests a s.kc) : (ticked s).coreOk = true ∧ Rests a (ticked s).kc := by
  obtain ⟨-, hcool, hquiet⟩ := coreOk_iff.mp hok
  have hkc := h.clock (i := s.kcIn) hquiet.idle
  refine ⟨coreOk_iff.mpr ⟨hkc.st, ?_, quiet_ticked s⟩, hkc⟩
  rw [ticked, if_pos hcool]

theorem Fed.same {u : ShakeUnit} (h : Fed mode t u) (hs : Same u s) : Fed mode t s := by
  rw [Same] at hs
  rw [hs]
  exact ⟨h.m256, h.lp, h.bc, h.sw⟩

theorem Taking.none (h : Taking mode t s) (hi : NoInit i) (hbyte : i.inByte = none) (hfin : i.finalize = false) :
    Taking mode t (s.clock i) := by
  have hclock : s.clock i = ticked s := by
    rw [NoInit] at hi
    simp only [clock, ticked, hi, h.st, h.ok, hbyte, hfin, if_true, Bool.false_eq_true, if_false]
  obtain ⟨hok, hcore⟩ := ticked_ok h.ok h.core
  rw [hclock]
  exact ⟨⟨h.m256, h.lp, h.bc, h.sw⟩, h.st, hok, hcore⟩

theorem Taking.clock (h : Taking mode t s) (hi : NoInit i) (hbyte : i.inByte = some b) :
    s.clock i = s.take (ticked s) b := by
  rw [NoInit] at hi
  simp only [ShakeUnit.clock, ticked, hi, h.st, h.ok, hbyte, if_true]

/-- A byte within a lane is only staged. -/
theorem Taking.stages (h : Taking mode t s) (hlt : t.length % 8 ≠ 7) (hi : NoInit i) (hbyte : i.inByte = some b) :
    Taking mode (t ++ [b]) (s.clock i) := by
  have hdiv : (t.length + 1) / 8 = t.length / 8 := by omega
  obtain ⟨hok, hcore⟩ := ticked_ok h.ok h.core
  rw [h.clock hi hbyte, take, if_neg fun he => hlt (h.bc_last.mp he)]
  refine ⟨h.next rfl ?_ rfl ?_, h.st, hok, ?_⟩
  · rw [hdiv]
    exact h.lp
  · rw [hdiv]
    exact h.staged
  · rw [Sha3.taken_within b hlt]
    exact hcore

/-- A byte that ends a lane is put into the state with it. -/
theorem Taking.puts (h : Taking mode t s) (hend : t.length % 8 = 7) (hi : NoInit i) (hbyte : i.inByte = some b) :
    Fed mode (t ++ [b]) (s.clock i) ∧ (s.clock i).kcIn.clear = false ∧ (s.clock i).kcIn.perm = false ∧
      (s.clock i).kcIn.xor =
        some (BitVec.ofNat 5 (t.length / 8 % lanes mode), Sha3.laneAt (t ++ [b]) (t.length / 8)) ∧
      Rests (Sha3.taken (lanes mode) t) (s.clock i).kc ∧
      if t.length / 8 % lanes mode + 1 = lanes mode then (s.clock i).st = .pw0 ∧ (s.clock i).afterSq = false
      else (s.clock i).st = .abs := by
  have hlt := Nat.mod_lt (t.length / 8) (lanes_pos mode)
  have hdiv : (t.length + 1) / 8 = t.length / 8 + 1 := by omega
  have hsw : (0 : BitVec 56) = (Sha3.laneAt (t ++ [b]) ((t.length + 1) / 8)).setWidth 56 := by
    rw [Sha3.laneAt_end]
    · rfl
    · rw [List.length_append, List.length_singleton]
      omega
  have hbc : (0 : BitVec 3) = s.bc + 1 := by
    rw [h.bc_last.mpr hend]
    rfl
  have hcore := (ticked_ok h.ok h.core).2
  have hxor : some (s.lp, b ++ s.sw) =
      some (BitVec.ofNat 5 (t.length / 8 % lanes mode), Sha3.laneAt (t ++ [b]) (t.length / 8)) := by
    rw [h.lp, h.lane hend]
  rw [h.clock hi hbyte, take, if_pos (h.bc_last.mpr hend)]
  by_cases hlast : t.length / 8 % lanes mode + 1 = lanes mode
  · rw [if_pos (h.lastLane.mpr hlast), if_pos hlast]
    refine ⟨h.next rfl ?_ hbc hsw, rfl, rfl, hxor, hcore, rfl, rfl⟩
    rw [hdiv, Nat.add_mod, Nat.mod_eq_of_lt (show 1 < lanes mode by cases mode <;> decide), hlast, Nat.mod_self]
    rfl
  · rw [if_neg fun he => hlast (h.lastLane.mp he), if_neg hlast]
    refine ⟨h.next rfl ?_ hbc hsw, rfl, rfl, hxor, hcore, h.st⟩
    have hsucc : (t.length / 8 + 1) % lanes mode = t.length / 8 % lanes mode + 1 := by
      rw [Nat.add_mod, Nat.mod_eq_of_lt (show 1 < lanes mode by cases mode <;> decide), Nat.mod_eq_of_lt (by omega)]
    change s.lp + 1 = _
    rw [hdiv, hsucc, h.lp, BitVec.ofNat_add]
    rfl

theorem takes_byte (mode : Bool) (t : List (BitVec 8)) (b : BitVec 8) :
    Steps (fun s => ∃ v i, Taking mode t v ∧ NoInit i ∧ i.inByte = some b ∧ s = v.clock i) (Taking mode (t ++ [b])) := by
  rintro _ ⟨v, i, hv, hi, hbyte, rfl⟩
  by_cases hend : t.length % 8 = 7
  · obtain ⟨hfed, hclear, hperm, hxor, hcore, hst⟩ := hv.puts hend hi hbyte
    have hlt := Nat.mod_lt (t.length / 8) (lanes_pos mode)
    have hle := lanes_le mode
    by_cases hlast : t.length / 8 % lanes mode + 1 = lanes mode
    · rw [if_pos hlast] at hst
      have hput := xors_lane (a := Sha3.taken (lanes mode) t) (l := t.length / 8 % lanes mode)
        (v := Sha3.laneAt (t ++ [b]) (t.length / 8)) (u := v.clock i) (.inr (.inr (.inl hst.1))) (by omega)
      have hperms := permutes_put (a := Sha3.putLane (Sha3.taken (lanes mode) t) (t.length / 8 % lanes mode)
        (Sha3.laneAt (t ++ [b]) (t.length / 8))) hst.1
      have hresumed : resumed (v.clock i) = { v.clock i with st := .abs } := by
        rw [resumed, if_neg (by rw [hst.2]; exact Bool.false_ne_true)]
      have hsettle := settles (u := resumed (v.clock i)) (a := Sha3.taken (lanes mode) (t ++ [b])) (.inl (by rw [hresumed]))
      rw [Sha3.taken_next b hend (lanes_pos mode), if_pos hlast] at hsettle
      have hall := hput.trans (hperms.trans (hsettle.weaken fun s h => ⟨h.1, h.2.2⟩))
      refine (hall.imp (fun _ h => h) fun s h => ?_) _ ⟨Same.refl _, hclear, hperm, hxor, hcore⟩
      obtain ⟨hsame, hok, hrests⟩ := h
      refine ⟨Fed.same ?_ hsame, ?_, hok, ?_⟩
      · rw [hresumed]
        exact ⟨hfed.m256, hfed.lp, hfed.bc, hfed.sw⟩
      · rw [hsame.st, hresumed]
      · rw [Sha3.taken_next b hend (lanes_pos mode), if_pos hlast]
        exact hrests
    · rw [if_neg hlast] at hst
      have hput := xors_lane (a := Sha3.taken (lanes mode) t) (l := t.length / 8 % lanes mode)
        (v := Sha3.laneAt (t ++ [b]) (t.length / 8)) (u := v.clock i) (.inl hst) (by omega)
      refine (hput.imp (fun _ h => h) fun s h => ?_) _ ⟨Same.refl _, hclear, hperm, hxor, hcore⟩
      obtain ⟨hsame, hok, hrests⟩ := h
      refine ⟨hfed.same hsame, ?_, hok, ?_⟩
      · rw [hsame.st, hst]
      · rw [Sha3.taken_next b hend (lanes_pos mode), if_neg hlast]
        exact hrests
  · exact Reaches.of_imp (fun s h => h) _ (hv.stages hend hi hbyte)

/-! The end of the message. -/

/-- The state that is squeezed. -/
def closed (mode : Bool) (t : List (BitVec 8)) : Sha3.State 64 :=
  let text := Sha3.pad (8 * lanes mode) t
  Sha3.absorbed (lanes mode) text (text.length / (8 * lanes mode))

theorem Fed.padLane (h : Fed mode t s) :
    s.padLane = Sha3.laneAt (Sha3.pad (8 * lanes mode) t) (t.length / 8) := by
  have hq : t.length / (8 * lanes mode) = t.length / 8 / lanes mode := (Nat.div_div_eq_div_mul _ _ _).symm
  have hsplit : t.length / 8 / lanes mode * lanes mode + t.length / 8 % lanes mode = t.length / 8 := Nat.div_add_mod' _ _
  have hlt := Nat.mod_lt (t.length / 8) (lanes_pos mode)
  have hsw : 0#8 ++ s.sw = Sha3.laneAt t (t.length / 8) := by
    apply BitVec.eq_of_getLsbD_eq
    intro i hi
    rw [BitVec.getLsbD_append, Sha3.laneAt_bit _ _ hi]
    by_cases hin : i < 56
    · rw [if_pos hin, h.sw_bit hin]
    · rw [if_neg hin, List.getD_eq_default _ _ (by omega), BitVec.getLsbD_zero]
      exact BitVec.getLsbD_zero.symm
  have hlast : s.lastLane = true ↔ t.length / 8 + 1 = (t.length / (8 * lanes mode) + 1) * lanes mode := by
    rw [h.lastLane, hq, Nat.succ_mul]
    omega
  rw [ShakeUnit.padLane, hsw, h.bc_toNat, Sha3.pad_laneAt (lanes_pos mode) t (by rw [hq, Nat.succ_mul]; omega), if_pos rfl]
  simp only [hlast]

theorem closed_eq (mode : Bool) (t : List (BitVec 8)) :
    closed mode t = Sha3.permutation (
      let a := Sha3.putLane (Sha3.taken (lanes mode) t) (t.length / 8 % lanes mode)
        (Sha3.laneAt (Sha3.pad (8 * lanes mode) t) (t.length / 8))
      if t.length / 8 % lanes mode + 1 = lanes mode then a
      else Sha3.putLane a (lanes mode - 1) 0x8000000000000000) := by
  have hL := lanes_pos mode
  have hq : t.length / (8 * lanes mode) = t.length / 8 / lanes mode := (Nat.div_div_eq_div_mul _ _ _).symm
  have hsplit : t.length / 8 / lanes mode * lanes mode + t.length / 8 % lanes mode = t.length / 8 := Nat.div_add_mod' _ _
  have hlen : (Sha3.pad (8 * lanes mode) t).length / (8 * lanes mode) = t.length / 8 / lanes mode + 1 := by
    rw [Sha3.pad_length (by omega), Nat.mul_div_cancel _ (by omega), hq]
  have hpre : Sha3.absorbed (lanes mode) (Sha3.pad (8 * lanes mode) t) (t.length / 8 / lanes mode) =
      Sha3.absorbed (lanes mode) t (t.length / 8 / lanes mode) := Sha3.absorbed_append t _ (by omega)
  have hpad := Sha3.absorb_pad (Sha3.absorbed (lanes mode) t (t.length / 8 / lanes mode)) t
    (Nat.mod_lt (t.length / 8) hL) hsplit.symm (by rw [hq, Nat.succ_mul])
  rw [hsplit] at hpad
  rw [closed, hlen, Sha3.absorbed, hpre, hpad]
  rfl

/-- The unit squeezes a state, and stands at one of its bytes. -/
structure Squeezing (mode : Bool) (a : Sha3.State 64) (j : Nat) (s : ShakeUnit) : Prop where
  st : s.st = .sq
  m256 : s.m256 = mode
  pos : s.pos = BitVec.ofNat 8 j
  quiet : Quiet s
  core : Rests a s.kc

/-- Its lane is still to be fetched. -/
def Fetching (mode : Bool) (a : Sha3.State 64) (j : Nat) (s : ShakeUnit) : Prop := Squeezing mode a j s ∧ s.rdw = 2

/-- The lane of a byte. -/
def laneOf (a : Sha3.State 64) (j : Nat) : BitVec 64 := a (Fin.ofNat 5 (j / 8)) (Fin.ofNat 5 (j / 8 / 5))

/-- Its lane stands at the output of the core, and goes on standing there. -/
structure Giving (mode : Bool) (a : Sha3.State 64) (j : Nat) (s : ShakeUnit) : Prop extends Squeezing mode a j s where
  rdw : s.rdw = 0
  out : s.kc.rdVal = laneOf a j
  next : ∀ i, KeccakCore.Idle i → (s.kc.clock i).rdVal = laneOf a j

variable {j : Nat}

theorem Squeezing.rdLane (h : Squeezing mode a j s) (hj : j < 200) :
    s.kcIn.rdLane = BitVec.ofNat 5 (Sha3.index (Fin.ofNat 5 (j / 8)) (Fin.ofNat 5 (j / 8 / 5))) := by
  have hindex : Sha3.index (Fin.ofNat 5 (j / 8)) (Fin.ofNat 5 (j / 8 / 5)) = j / 8 := by
    simp only [Sha3.index, Fin.ofNat]
    omega
  change s.pos.extractLsb' 3 5 = _
  rw [hindex, h.pos]
  apply BitVec.eq_of_toNat_eq
  simp only [BitVec.extractLsb'_toNat, BitVec.toNat_ofNat, Nat.shiftRight_eq_div_pow]
  omega

theorem Squeezing.reads (h : Squeezing mode a j s) (hj : j < 200) {i : Keccak.In} (hi : KeccakCore.Idle i) :
    ((s.kc.clock s.kcIn).clock i).rdVal = laneOf a j := h.core.reads h.quiet.idle hi (h.rdLane hj)

theorem Giving.outByte (h : Giving mode a j s) : s.outByte = Sha3.byteAt a j := by
  have hpos : (s.pos.extractLsb' 0 3).toNat = j % 8 := by
    rw [h.pos]
    simp only [BitVec.extractLsb'_toNat, BitVec.toNat_ofNat, Nat.shiftRight_eq_div_pow]
    omega
  rw [ShakeUnit.outByte, h.out, hpos]
  rfl

theorem Squeezing.ticked (h : Squeezing mode a j s) : Squeezing mode a j (ticked s) :=
  ⟨h.st, h.m256, h.pos, quiet_ticked s, h.core.clock h.quiet.idle⟩

theorem Squeezing.fetch (h : Squeezing mode a j s) (hrdw : s.rdw ≠ 0) (hi : NoInit i) :
    s.clock i = { ShakeUnit.ticked s with rdw := s.rdw - 1 } := by
  rw [NoInit] at hi
  simp only [clock, ShakeUnit.ticked, hi, h.st, if_pos hrdw]

theorem fetches (hj : j < 200) : Steps (Fetching mode a j) (Giving mode a j) := by
  have hbusy : ∀ s, Squeezing mode a j s → s.rdw ≠ 0 → Busy s := by
    intro s h hrdw
    refine ⟨?_, ?_⟩
    · rw [inReady, h.st]
      rfl
    · rw [outReady, h.st, decide_eq_false hrdw, Bool.and_false]
  have hfirst : Steps (Fetching mode a j)
      fun s => Squeezing mode a j s ∧ s.rdw = 1 ∧ ∀ i, KeccakCore.Idle i → (s.kc.clock i).rdVal = laneOf a j := by
    apply Steps.edge
    · rintro s ⟨h, hrdw⟩
      exact hbusy s h (by rw [hrdw]; decide)
    rintro s i ⟨h, hrdw⟩ hi
    rw [h.fetch (by rw [hrdw]; decide) hi]
    refine ⟨⟨h.st, h.m256, h.pos, quiet_ticked s, h.ticked.core⟩, ?_, fun k hk => h.reads hj hk⟩
    rw [hrdw]
    rfl
  refine hfirst.trans (Steps.edge (fun s h => hbusy s h.1 (by rw [h.2.1]; decide)) fun s i hs hi => ?_)
  obtain ⟨h, hrdw, hlane⟩ := hs
  rw [h.fetch (by rw [hrdw]; decide) hi]
  refine ⟨⟨h.st, h.m256, h.pos, quiet_ticked s, h.ticked.core⟩, ?_, hlane _ h.quiet.idle, fun k hk => h.reads hj hk⟩
  rw [hrdw]
  rfl

/-- The byte stands until it is taken. -/
theorem Giving.none (h : Giving mode a j s) (hj : j < 200) (hi : NoInit i) (htake : i.outTake = false) :
    Giving mode a j (s.clock i) := by
  have hclock : s.clock i = ShakeUnit.ticked s := by
    rw [NoInit] at hi
    simp only [clock, ShakeUnit.ticked, hi, h.st, h.rdw, htake, ne_eq, not_true_eq_false, if_false, Bool.false_eq_true]
  rw [hclock]
  exact ⟨h.toSqueezing.ticked, h.rdw, h.next _ h.quiet.idle, fun k hk => h.reads hj hk⟩

theorem gives_byte (mode : Bool) (a : Sha3.State 64) (hj : j < 8 * lanes mode) :
    Steps (fun s => ∃ v i, Giving mode a j v ∧ NoInit i ∧ i.outTake = true ∧ s = v.clock i)
      (if j + 1 = 8 * lanes mode then Giving mode (Sha3.permutation a) 0 else Giving mode a (j + 1)) := by
  rintro _ ⟨v, i, h, hi, htake, rfl⟩
  have hle := lanes_le mode
  have hclock : v.clock i = v.give (ticked v) := by
    rw [NoInit] at hi
    simp only [clock, ticked, hi, h.st, h.rdw, htake, ne_eq, not_true_eq_false, if_true, if_false]
  have hbytes : v.pos + 1 = v.rateBytes ↔ j + 1 = 8 * lanes mode := by
    have hrate : v.rateBytes = BitVec.ofNat 8 (8 * lanes mode) := by
      rw [rateBytes, h.m256, lanes]
      cases mode <;> rfl
    have hone : (1 : BitVec 8).toNat = 1 := rfl
    rw [hrate, h.pos, ← BitVec.toNat_inj]
    simp only [BitVec.toNat_add, BitVec.toNat_ofNat, hone]
    omega
  rw [hclock, give]
  by_cases hend : j + 1 = 8 * lanes mode
  · rw [if_pos (hbytes.mpr hend), if_pos hend]
    have hperm := permutes (u := { ticked v with pos := 0, afterSq := true, st := .pgo }) (a := a) rfl
    refine (hperm.trans ((Reaches.of_imp ?_).trans (fetches (by omega)))) _
      ⟨⟨Same.refl _, rfl, rfl, rfl⟩, h.toSqueezing.ticked.core⟩
    rintro s ⟨⟨hsame, hquiet⟩, hrdw, hcore⟩
    refine ⟨⟨hsame.st, ?_, ?_, hquiet, hcore⟩, hrdw rfl⟩
    · rw [hsame]
      exact h.m256
    · rw [hsame]
      rfl
  · rw [if_neg fun he => hend (hbytes.mp he), if_neg hend]
    have hpos : v.pos + 1 = BitVec.ofNat 8 (j + 1) := by
      rw [h.pos, BitVec.ofNat_add]
      rfl
    have hlow : v.pos.extractLsb' 0 3 = 7 ↔ j % 8 = 7 := by
      have hseven : (7 : BitVec 3).toNat = 7 := rfl
      rw [h.pos, ← BitVec.toNat_inj]
      simp only [BitVec.extractLsb'_toNat, BitVec.toNat_ofNat, Nat.shiftRight_eq_div_pow, hseven]
      omega
    by_cases h7 : j % 8 = 7
    · rw [if_pos (hlow.mpr h7)]
      exact fetches (by omega) _ ⟨⟨h.st, h.m256, hpos, quiet_ticked v, h.toSqueezing.ticked.core⟩, rfl⟩
    · rw [if_neg fun he => h7 (hlow.mp he)]
      have hlane : laneOf a (j + 1) = laneOf a j := by rw [laneOf, laneOf, show (j + 1) / 8 = j / 8 by omega]
      refine Reaches.of_imp (fun s hs => hs) _
        ⟨⟨h.st, h.m256, hpos, quiet_ticked v, h.toSqueezing.ticked.core⟩, h.rdw, ?_, ?_⟩
      · rw [hlane]
        exact h.next _ h.quiet.idle
      · rw [hlane]
        exact fun k hk => h.reads (by omega) hk

theorem seals (hu : u.st = .pw0) (hsq : u.afterSq = true) (hmode : u.m256 = mode) :
    Steps (fun s => Same u s ∧ s.coreOk = true ∧ Rests a s.kc) (Giving mode (Sha3.permutation a) 0) := by
  have hresumed : resumed u = { u with pos := 0, st := .sq } := by
    rw [resumed, if_pos hsq]
  refine ((permutes_put hu).imp (fun _ h => h) fun s h => ?_).trans (fetches (by decide))
  obtain ⟨⟨hsame, hquiet⟩, hrdw, hcore⟩ := h
  rw [hresumed] at hsame
  refine ⟨⟨hsame.st, ?_, ?_, hquiet, hcore⟩, hrdw hsq⟩
  · rw [hsame]
    exact hmode
  · rw [hsame]
    rfl

/-- The message is padded, and the first byte fetched. -/
theorem finishes (mode : Bool) (t : List (BitVec 8)) :
    Steps (fun s => ∃ v i, Taking mode t v ∧ NoInit i ∧ i.inByte = none ∧ i.finalize = true ∧ s = v.clock i)
      (Giving mode (closed mode t) 0) := by
  rintro _ ⟨v, i, hv, hi, hbyte, hfin, rfl⟩
  have hlt := Nat.mod_lt (t.length / 8) (lanes_pos mode)
  have hle := lanes_le mode
  have hcore := (ticked_ok hv.ok hv.core).2
  have hclock : v.clock i = v.pad (ticked v) := by
    rw [NoInit] at hi
    simp only [clock, ticked, hi, hv.st, hv.ok, hbyte, hfin, if_true]
  have hput : v.padLane = Sha3.laneAt (Sha3.pad (8 * lanes mode) t) (t.length / 8) := hv.padLane
  rw [hclock, closed_eq]
  by_cases hlast : t.length / 8 % lanes mode + 1 = lanes mode
  · have hst : (v.pad (ticked v)).st = .pw0 := by
      rw [pad, if_pos (hv.lastLane.mpr hlast)]
    have hall := (xors_lane (u := v.pad (ticked v)) (a := Sha3.taken (lanes mode) t) (l := t.length / 8 % lanes mode)
      (v := v.padLane) (.inr (.inr (.inl hst))) (by omega)).trans (seals hst rfl hv.m256)
    rw [if_pos hlast, ← hput]
    exact hall _ ⟨Same.refl _, rfl, rfl, congrArg (fun l => some (l, v.padLane)) hv.lp, hcore⟩
  · have hst : (v.pad (ticked v)).st = .fin2 := by
      rw [pad, if_neg fun he => hlast (hv.lastLane.mp he)]
    have hfirst := xors_lane (u := v.pad (ticked v)) (a := Sha3.taken (lanes mode) t) (l := t.length / 8 % lanes mode)
      (v := v.padLane) (.inr (.inl hst)) (by omega)
    have hedge : Steps (fun s => Same (v.pad (ticked v)) s ∧ s.coreOk = true ∧
        Rests (Sha3.putLane (Sha3.taken (lanes mode) t) (t.length / 8 % lanes mode) v.padLane) s.kc) fun s =>
        Same { v.pad (ticked v) with st := .pw0 } s ∧ s.kcIn.clear = false ∧ s.kcIn.perm = false ∧
          s.kcIn.xor = some (BitVec.ofNat 5 (lanes mode - 1), 0x8000000000000000) ∧
          Rests (Sha3.putLane (Sha3.taken (lanes mode) t) (t.length / 8 % lanes mode) v.padLane) s.kc := by
      apply Steps.edge
      · rintro s ⟨hsame, -⟩
        refine ⟨?_, ?_⟩
        · rw [inReady, hsame.st, hst]
          rfl
        · rw [outReady, hsame.st, hst]
          rfl
      rintro s i ⟨hsame, hok, hrests⟩ hi
      have hnext : s.clock i = { xorLane (ticked s) (s.rateLanes - 1) 0x8000000000000000 with st := .pw0 } := by
        have hfin2 : s.st = .fin2 := hsame.st.trans hst
        rw [NoInit] at hi
        simp only [clock, ticked, hi, hfin2, hok, if_true]
      have hrate : s.rateLanes - 1 = BitVec.ofNat 5 (lanes mode - 1) := by
        have hm : s.m256 = mode := by
          rw [hsame]
          exact hv.m256
        rw [rateLanes, hm, lanes]
        cases mode <;> rfl
      rw [hnext]
      refine ⟨?_, rfl, rfl, congrArg (fun l => some (l, 0x8000000000000000#64)) hrate, (ticked_ok hok hrests).2⟩
      rw [Same] at hsame ⊢
      rw [hsame]
      rfl
    have hsecond := xors_lane (u := { v.pad (ticked v) with st := .pw0 }) (l := lanes mode - 1) (v := 0x8000000000000000)
      (a := Sha3.putLane (Sha3.taken (lanes mode) t) (t.length / 8 % lanes mode) v.padLane) (.inr (.inr (.inl rfl)))
      (by omega)
    have hall := hfirst.trans (hedge.trans (hsecond.trans (seals rfl rfl hv.m256)))
    rw [if_neg hlast, ← hput]
    exact hall _ ⟨Same.refl _, rfl, rfl, congrArg (fun l => some (l, v.padLane)) hv.lp, hcore⟩

/-! The unit is opened, whatever it does. -/

structure Opening (mode : Bool) (s : ShakeUnit) : Prop where
  st : s.st = .clr0
  m256 : s.m256 = mode
  lp : s.lp = 0
  bc : s.bc = 0
  sw : s.sw = 0
  quiet : Quiet s
  core : s.kc.Bounded

/-- What the core does ends. -/
theorem drains (hu : Waiting u.st) :
    Steps (fun s => Held u s ∧ s.kc.Bounded) fun s => ∃ a, Held u s ∧ Rests a s.kc := by
  have hloop : ∀ n, Steps (fun s => (Held u s ∧ s.kc.Bounded) ∧ s.kc.left = n)
      fun s => ∃ a, Held u s ∧ Rests a s.kc := by
    intro n
    refine Reaches.descend (I := fun n s => (Held u s ∧ s.kc.Bounded) ∧ s.kc.left = n) (fun n => ?_) n
    rintro s ⟨⟨⟨hsame, hquiet⟩, hbound⟩, hn⟩
    by_cases hidle : s.kc.st = .idle
    · exact fun i _ => ⟨0, fun _ hk => absurd hk (Nat.not_lt_zero _), .inl ⟨_, ⟨hsame, hquiet⟩, hidle, rfl⟩⟩
    · have hwait : Waiting s.st := by
        rw [hsame.st]
        exact hu
      have hok : s.coreOk = false := Bool.eq_false_of_not_eq_true fun he => hidle (coreOk_iff.mp he).1
      have hedge : Steps (fun v => v = s) fun v => (∃ a, Held u v ∧ Rests a v.kc) ∨
          ∃ m < n, (Held u v ∧ v.kc.Bounded) ∧ v.kc.left = m := by
        apply Steps.edge
        · rintro v rfl
          exact hwait.busy hok
        rintro v i rfl hi
        obtain ⟨hnext, hleft⟩ := hbound.clock (i := v.kcIn)
        rw [waits hwait hok hi]
        refine .inr ⟨_, ?_, ⟨⟨hsame.ticked, quiet_ticked v⟩, hnext⟩, rfl⟩
        have hless := hleft hidle
        change (v.kc.clock v.kcIn).left < n
        omega
      exact hedge s rfl
  exact fun s hs => hloop _ s ⟨hs, rfl⟩

theorem taken_nil (n : Nat) : Sha3.taken n [] = fun _ _ => 0 := by
  funext x y
  rw [Sha3.taken, Sha3.absorb, List.length_nil, Nat.zero_div, Nat.zero_div, Nat.zero_mod, if_neg (Nat.not_lt_zero _)]
  rfl

theorem opens (mode : Bool) : Steps (Opening mode) (Taking mode []) := by
  rintro u hu
  have hbusy : ∀ {s : ShakeUnit}, s.st = .clr0 ∨ s.st = .clr → Busy s := by
    intro s hst
    refine ⟨?_, ?_⟩
    · rw [inReady]
      obtain h | h := hst <;> rw [h] <;> rfl
    · rw [outReady]
      obtain h | h := hst <;> rw [h] <;> rfl
  have hwait : Waiting u.st := .inr (.inr (.inr (.inr hu.st)))
  have hclear : Steps (fun s => ∃ a, Same u s ∧ s.coreOk = true ∧ Rests a s.kc)
      fun s => ∃ a, Same { u with st := .clr } s ∧ s.kcIn.clear = true ∧ Rests a s.kc := by
    apply Steps.edge
    · rintro s ⟨a, hsame, -⟩
      exact hbusy (.inl (by rw [hsame.st, hu.st]))
    rintro s i ⟨a, hsame, hok, hrests⟩ hi
    have hclock : s.clock i = { ticked s with kcClear := true, cool := 3, st := .clr } := by
      rw [NoInit] at hi
      simp only [clock, ticked, hi, hsame.st, hu.st, hok, if_true]
    rw [hclock]
    refine ⟨a, ?_, rfl, (ticked_ok hok hrests).2⟩
    rw [Same] at hsame ⊢
    rw [hsame]
    rfl
  have hready : Steps (fun s => Same { u with st := .clr } s ∧ s.coreOk = true ∧ Rests (fun _ _ => 0) s.kc)
      (Taking mode []) := by
    apply Steps.edge
    · rintro s ⟨hsame, -⟩
      exact hbusy (.inr hsame.st)
    rintro s i ⟨hsame, hok, hrests⟩ hi
    have hclock : s.clock i = { ticked s with st := .abs } := by
      rw [NoInit] at hi
      simp only [clock, ticked, hi, hsame.st, hok, if_true]
    obtain ⟨hok', hcore⟩ := ticked_ok hok hrests
    rw [hclock]
    refine ⟨⟨?_, ?_, ?_, ?_⟩, rfl, hok', ?_⟩
    · change s.m256 = mode
      rw [hsame]
      exact hu.m256
    · change s.lp = _
      rw [hsame, List.length_nil, Nat.zero_div, Nat.zero_mod]
      exact hu.lp
    · change s.bc = _
      rw [hsame]
      exact hu.bc
    · change s.sw = _
      rw [hsame]
      exact hu.sw
    · rw [taken_nil]
      exact hcore
  have hall := (drains hwait).trans ((Reaches.exists fun a => (settles (a := a) hwait).imp (fun _ h => h)
    fun _ h => ⟨a, h⟩).trans (hclear.trans ((Reaches.exists fun a => clears (a := a) (u := { u with st := .clr })
    (.inr (.inr (.inr (.inl rfl))))).trans hready)))
  exact hall u ⟨⟨Same.refl u, hu.quiet⟩, hu.core⟩

/-! The exchanges of a message. -/

/-- What goes over the ports: a byte in, the end of the message, a byte out. -/
inductive Event where
  | byte (b : BitVec 8)
  | finish
  | out (b : BitVec 8)

/-- What a clock exchanges. -/
def event (s : ShakeUnit) (i : Shake.In) : Option Event :=
  if s.inReady then
    match i.inByte with
    | some b => some (.byte b)
    | none => if i.finalize then some .finish else none
  else if s.outReady && i.outTake then some (.out s.outByte)
  else none

def xof (mode : Bool) : List (BitVec 8) → Nat → BitVec 8 := if mode then Sha3.shake256 else Sha3.shake128

theorem xof_eq (mode : Bool) (m : List (BitVec 8)) (k : Nat) :
    xof mode m k = Sha3.byteAt (Sha3.permutation^[k / (8 * lanes mode)] (closed mode m)) (k % (8 * lanes mode)) := by
  cases mode <;> rfl

/-- The exchanges of a message: its bytes, its end, and the first bytes of its output. -/
def drawn (mode : Bool) (m : List (BitVec 8)) (k : Nat) : List Event :=
  m.map .byte ++ .finish :: (List.range k).map fun j => .out (xof mode m j)

/-- The unit is ready, for another byte of a message or with the next byte of its output. -/
def Serves (mode : Bool) (es : List Event) (s : ShakeUnit) : Prop :=
  (∃ m : List (BitVec 8), es = m.map .byte ∧ s.inReady = true) ∨
    ∃ m k, es = drawn mode m k ∧ s.outReady = true ∧ s.outByte = xof mode m k

/-- What it is then. -/
def Answering (mode : Bool) (es : List Event) (s : ShakeUnit) : Prop :=
  (∃ m : List (BitVec 8), es = m.map .byte ∧ Taking mode m s) ∨
    ∃ m k, es = drawn mode m k ∧
      Giving mode (Sha3.permutation^[k / (8 * lanes mode)] (closed mode m)) (k % (8 * lanes mode)) s

theorem Taking.inReady (h : Taking mode t s) : s.inReady = true := by
  rw [ShakeUnit.inReady, h.st, h.ok]
  rfl

theorem Giving.ready (h : Giving mode a j s) : s.inReady = false ∧ s.outReady = true := by
  refine ⟨?_, ?_⟩
  · rw [inReady, h.st]
    rfl
  · rw [outReady, h.st, h.rdw]
    rfl

theorem place_lt (mode : Bool) (k : Nat) : k % (8 * lanes mode) < 8 * lanes mode :=
  Nat.mod_lt k (by have := lanes_pos mode; omega)

theorem Answering.serves {es : List Event} (h : Answering mode es s) : Serves mode es s := by
  obtain ⟨m, hes, hs⟩ | ⟨m, k, hes, hs⟩ := h
  · exact .inl ⟨m, hes, hs.inReady⟩
  · have hlt := place_lt mode k
    have hle := lanes_le mode
    refine .inr ⟨m, k, hes, hs.ready.2, ?_⟩
    rw [hs.outByte, xof_eq]

theorem Answering.none {es : List Event} (h : Answering mode es s) (hi : NoInit i) (hev : event s i = none) :
    Answering mode es (s.clock i) := by
  obtain ⟨m, hes, hs⟩ | ⟨m, k, hes, hs⟩ := h
  · rw [event, if_pos hs.inReady] at hev
    cases hbyte : i.inByte with
    | some b =>
      rw [hbyte] at hev
      exact absurd hev (by simp)
    | none =>
      rw [hbyte] at hev
      cases hfin : i.finalize with
      | true =>
        rw [hfin] at hev
        exact absurd hev (by simp)
      | false => exact .inl ⟨m, hes, hs.none hi hbyte hfin⟩
  · have hlt := place_lt mode k
    have hle := lanes_le mode
    rw [event, hs.ready.1, hs.ready.2] at hev
    cases htake : i.outTake with
    | true =>
      rw [htake] at hev
      exact absurd hev (by simp)
    | false => exact .inr ⟨m, k, hes, hs.none (by omega) hi htake⟩

theorem answers_event (mode : Bool) (es : List Event) (e : Event) :
    Steps (fun s => ∃ v i, Answering mode es v ∧ NoInit i ∧ event v i = some e ∧ s = v.clock i)
      (Answering mode (es ++ [e])) := by
  rintro _ ⟨v, i, ⟨m, hes, hs⟩ | ⟨m, k, hes, hs⟩, hi, hev, rfl⟩
  · rw [event, if_pos hs.inReady] at hev
    cases hbyte : i.inByte with
    | some b =>
      rw [hbyte] at hev
      obtain rfl := Option.some.inj hev
      refine ((takes_byte mode m b).imp (fun _ h => h) fun s h => .inl ⟨m ++ [b], ?_, h⟩) _ ⟨v, i, hs, hi, hbyte, rfl⟩
      rw [hes, List.map_append]
      rfl
    | none =>
      rw [hbyte] at hev
      cases hfin : i.finalize with
      | false =>
        rw [hfin] at hev
        exact absurd hev (by simp)
      | true =>
        rw [hfin] at hev
        obtain rfl := Option.some.inj hev
        refine ((finishes mode m).imp (fun _ h => h) fun s h => .inr ⟨m, 0, ?_, ?_⟩) _ ⟨v, i, hs, hi, hbyte, hfin, rfl⟩
        · rw [hes]
          rfl
        · rw [Nat.zero_div, Nat.zero_mod]
          exact h
  · have hlt := place_lt mode k
    have hle := lanes_le mode
    have hpos := lanes_pos mode
    rw [event, hs.ready.1, hs.ready.2] at hev
    cases htake : i.outTake with
    | false =>
      rw [htake] at hev
      exact absurd hev (by simp)
    | true =>
      rw [htake] at hev
      obtain rfl := Option.some.inj hev
      have hout : v.outByte = xof mode m k := by rw [hs.outByte, xof_eq]
      refine ((gives_byte mode _ hlt).imp (fun _ h => h) fun s h => .inr ⟨m, k + 1, ?_, ?_⟩) _ ⟨v, i, hs, hi, htake, rfl⟩
      · rw [hes, drawn, drawn, hout, List.range_succ, List.map_append, List.append_assoc, List.cons_append]
        rfl
      · by_cases hend : k % (8 * lanes mode) + 1 = 8 * lanes mode
        · rw [if_pos hend] at h
          have hmod : (k + 1) % (8 * lanes mode) = 0 := by
            rw [Nat.add_mod, Nat.mod_eq_of_lt (show 1 < 8 * lanes mode by omega), hend, Nat.mod_self]
          have hdiv : (k + 1) / (8 * lanes mode) = k / (8 * lanes mode) + 1 := by
            rw [Nat.succ_div, if_pos (Nat.dvd_of_mod_eq_zero hmod)]
          rw [hdiv, hmod, Function.iterate_succ_apply']
          exact h
        · rw [if_neg hend] at h
          have hmod : (k + 1) % (8 * lanes mode) = k % (8 * lanes mode) + 1 := by
            rw [Nat.add_mod, Nat.mod_eq_of_lt (show 1 < 8 * lanes mode by omega), Nat.mod_eq_of_lt (by omega)]
          have hdiv : (k + 1) / (8 * lanes mode) = k / (8 * lanes mode) := by
            have h1 := Nat.div_add_mod k (8 * lanes mode)
            have h2 := Nat.div_add_mod (k + 1) (8 * lanes mode)
            rw [hmod] at h2
            exact Nat.eq_of_mul_eq_mul_left (show 0 < 8 * lanes mode by omega) (by omega)
          rw [hdiv, hmod]
          exact h

theorem bounded_run (s : ShakeUnit) (i : Nat → Shake.In) (n : Nat) : (after clock s.reset i n).kc.Bounded := by
  induction n with
  | zero => trivial
  | succ n ih =>
    rw [after_succ, kc_clock]
    exact ih.clock.1

/-- Whatever the unit does when it is opened, what it then exchanges until it is opened anew is
a message, its end, and the bytes of the message's SHAKE one after the other; and it becomes
ready for the next exchange. -/
theorem shake_computed (s : ShakeUnit) {i : Nat → Shake.In} {m n : Nat} {mode : Bool} (hinit : (i m).init = some mode)
    (hnone : ∀ k < n, (i (m + 1 + k)).init = none) :
    Reaches clock NoInit (fun _ => True) Busy (fun t => t = after clock s.reset i (m + 1 + n))
      (Serves mode (outputs clock event (after clock s.reset i (m + 1)) (fun k => i (m + 1 + k)) n)) := by
  have hopening : Opening mode (after clock s.reset i (m + 1)) := by
    have hbound := bounded_run s i (m + 1)
    rw [after_succ] at hbound ⊢
    generalize after clock s.reset i m = t at hbound ⊢
    rw [clock, hinit] at hbound ⊢
    exact ⟨rfl, rfl, rfl, rfl, rfl, ⟨rfl, rfl, rfl⟩, hbound⟩
  have hstart : Steps (Opening mode) (Answering mode []) :=
    (opens mode).imp (fun _ h => h) fun s h => .inl ⟨[], rfl, h⟩
  rw [after_add]
  refine (exchanged hstart (fun es s i hs hi => hs.none hi) (answers_event mode) (fun s i hB => ?_) hopening hnone).imp
    (fun _ h => h) fun _ h => h.serves
  rw [event, hB.1, hB.2]
  rfl

def powerUp : ShakeUnit where
  kc := KeccakCore.powerUp
  m256 := false
  lp := 0
  bc := 0
  sw := 0
  pos := 0
  st := .abs
  afterSq := false
  cool := 0
  rdw := 0
  kcPerm := false
  kcXor := false
  kcClear := false
  kcLane := 0
  kcVal := 0

/-- SHAKE256 is opened, then a byte is held out on every clock but the last, on which the message ends. -/
def feed : Nat → Shake.In
  | 0 => ⟨some true, none, false, false⟩
  | n + 1 => if n < 100 then ⟨none, some 0x61, false, false⟩ else ⟨none, none, true, true⟩

theorem shake_computed_feed :
    Reaches clock NoInit (fun _ => True) Busy (fun t => t = after clock powerUp.reset feed (0 + 1 + 4000))
      (Serves true (outputs clock event (after clock powerUp.reset feed (0 + 1)) (fun k => feed (0 + 1 + k)) 4000)) := by
  refine shake_computed powerUp (m := 0) rfl fun k _ => ?_
  rw [Nat.zero_add, Nat.add_comm, feed]
  split <;> rfl

end GoiKey.Rtl.ShakeUnit
