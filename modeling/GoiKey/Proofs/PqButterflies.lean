import GoiKey.Proofs.PqDatapath
import GoiKey.Proofs.PqTransforms

/-!
A butterfly of the polynomial unit is one of the reference, bit for bit, and its sums are
exact when those of the reference are words.
-/

namespace GoiKey.Rtl.PqPoly

open Clocked SyncRam Butterflies Pq

section Words

variable {x y : BitVec 32}

theorem not_saddOverflow (h : Word (x.toInt + y.toInt)) : ¬x.saddOverflow y := by
  obtain ⟨hlow, hhigh⟩ := h
  rw [BitVec.saddOverflow]
  simp only [Bool.or_eq_true, decide_eq_true_eq, not_or, not_le, not_lt]
  exact ⟨hhigh, hlow⟩

theorem not_ssubOverflow (h : Word (x.toInt - y.toInt)) : ¬x.ssubOverflow y := by
  obtain ⟨hlow, hhigh⟩ := h
  rw [BitVec.ssubOverflow]
  simp only [Bool.or_eq_true, decide_eq_true_eq, not_or, not_le, not_lt]
  exact ⟨hhigh, hlow⟩

end Words

theorem zrom_toInt (za : BitVec 8) : (zrom za).toInt = zeta za.toNat := by
  obtain ⟨hlow, hhigh⟩ := abs_le.mp (zeta_le za.toNat za.isLt)
  rw [zrom, BitVec.toInt_ofInt]
  apply s32_self
  · norm_num
    omega
  · norm_num
    omega

theorem not_negOverflow_zrom (za : BitVec 8) : ¬(zrom za).negOverflow := by
  obtain ⟨hlow, -⟩ := abs_le.mp (zeta_le za.toNat za.isLt)
  rw [BitVec.negOverflow, zrom_toInt, beq_iff_eq]
  norm_num
  omega

theorem neg_zrom_toInt (za : BitVec 8) : (-zrom za).toInt = -zeta za.toNat := by
  rw [BitVec.toInt_neg_of_not_negOverflow (not_negOverflow_zrom za), zrom_toInt]

/-- How far the zetas have been counted before block `b`. -/
def counter (inv : Bool) (l b : Nat) : Nat := if inv then 2 ^ (8 - l) - b else 2 ^ l - 1 + b

/-- The registers before butterfly `j` of block `b` of layer `l`. -/
structure BlockRegs (dst : BitVec 6) (inv : Bool) (l b j : Nat) (r : PolyRegs) : Prop where
  slot : r.a = dst
  way : r.inv = inv
  ln : r.ln.toNat = half inv l
  bstart : r.bstart.toNat = 2 * half inv l * b
  pair : r.j.toNat = j
  used : r.k.toNat = counter inv l (b + 1)
  zeta : (if r.inv then -zrom r.za else zrom r.za).toInt = blockZeta inv l b

/-- The memory has the polynomial `p` in the slot and is else what it was. -/
structure InSlot (base : BitVec 14 → BitVec 32) (dst : BitVec 6) (p : Poly) (pm : BitVec 14 → BitVec 32) : Prop where
  holds : Holds pm dst p
  elsewhere : SameElsewhere dst base pm

def InBlock (st : PolyState) (base : BitVec 14 → BitVec 32) (dst : BitVec 6) (inv : Bool) (l b j : Nat) (p : Poly)
    (s : PqPoly) : Prop :=
  ∃ r pm, BlockRegs dst inv l b j r ∧ InSlot base dst p pm ∧ At st r pm s

variable {F : Prop} {base pm : BitVec 14 → BitVec 32} {dst : BitVec 6} {inv : Bool} {l b j : Nat} {p : Poly}
variable {r : PolyRegs} {s : PqPoly}

/-- The addresses of the pair. -/
theorem BlockRegs.addresses (h : BlockRegs dst inv l b j r) :
    r.near = coefAddr dst (2 * half inv l * b + j) ∧ r.far = coefAddr dst (2 * half inv l * b + j + half inv l) := by
  have hindex : r.bstart.setWidth 8 + r.j.setWidth 8 = BitVec.ofNat 8 (2 * half inv l * b + j) := by
    rw [← h.bstart, ← h.pair, BitVec.ofNat_add, BitVec.ofNat_toNat, BitVec.ofNat_toNat]
  have hhalf : r.ln.setWidth 8 = BitVec.ofNat 8 (half inv l) := by rw [← h.ln, BitVec.ofNat_toNat]
  refine ⟨?_, ?_⟩
  · rw [PolyRegs.near, coefAddr, h.slot, hindex]
  · rw [PolyRegs.far, coefAddr, h.slot, hindex, hhalf, ← BitVec.ofNat_add]

/-- What the registers of a butterfly hold after it. -/
def paired (r : PolyRegs) (x y : BitVec 32) : PolyRegs :=
  let z := if r.inv then -zrom r.za else zrom r.za
  let f := if r.inv then x - y else y
  { r with x := x, zeta := z, y := y, ma := z, mb := f, tt := Mont.reduced z f }

theorem reads_pair (hfit : F → r.inv = true → Word ((pm r.near).toInt - (pm r.far).toInt)) :
    Runs F (At .nr1 r pm) (At .nw0 (paired r (pm r.near) (pm r.far)) pm) := by
  have hnear : Runs F (At .nr1 r pm) (Fetched .nr1c r pm r.near) := by
    apply reads .nr1w (by decide) (by decide)
    · intro s i hst hregs
      simp only [clock, fsm, hst, hregs]
    · intro s i hst
      simp only [clock, fsm, hst]
  have hx : Runs F (Fetched .nr1c r pm r.near)
      (At .nr2 { r with x := pm r.near, zeta := if r.inv then -zrom r.za else zrom r.za } pm) := by
    apply Reaches.edge
    · intro s h
      refine ⟨h.at_.busy (by decide), fun _ => ⟨h.at_.quiet, fun _ _ => ?_, fun hs => ?_, fun hs => ?_, fun hs => ?_⟩⟩
      · rw [h.at_.rom (by rw [h.at_.st]; decide)]
        exact not_negOverflow_zrom r.za
      · cases h.at_.st.symm.trans hs
      · cases h.at_.st.symm.trans hs
      · cases h.at_.st.symm.trans hs
    · intro s i h _
      have hrom := h.at_.rom (by rw [h.at_.st]; decide)
      simp only [clock, fsm, h.at_.st, h.at_.regs]
      refine h.at_.still rfl ?_ h.at_.mem (.inr rfl) rfl rfl rfl
      simp only [tick, h.at_.regs, h.rq, hrom]
  have hfar : Runs F (At .nr2 { r with x := pm r.near, zeta := if r.inv then -zrom r.za else zrom r.za } pm)
      (Fetched .nr2c { r with x := pm r.near, zeta := if r.inv then -zrom r.za else zrom r.za } pm r.far) := by
    apply reads .nr2w (by decide) (by decide)
    · intro s i hst hregs
      simp only [clock, fsm, hst, hregs]
      rfl
    · intro s i hst
      simp only [clock, fsm, hst]
  have hask : Runs F (Fetched .nr2c { r with x := pm r.near, zeta := if r.inv then -zrom r.za else zrom r.za } pm r.far)
      (Piped true Drained .nm { paired r (pm r.near) (pm r.far) with tt := r.tt } pm) := by
    apply Reaches.edge
    · intro s h
      refine ⟨h.at_.busy (by decide), fun hF => ⟨h.at_.quiet, fun hs => ?_, fun _ hinv => ?_, fun hs => ?_, fun hs => ?_⟩⟩
      · cases h.at_.st.symm.trans hs
      · rw [h.at_.regs] at hinv ⊢
        rw [h.rq]
        exact not_ssubOverflow (hfit hF hinv)
      · cases h.at_.st.symm.trans hs
      · cases h.at_.st.symm.trans hs
    · intro s i h _
      simp only [clock, fsm, h.at_.st, h.at_.regs, multiply]
      refine h.at_.next rfl ?_ h.at_.mem (.inr rfl) rfl rfl (h.at_.drained _ _) rfl
      simp only [tick, h.at_.regs, h.rq, paired]
  have hproduct : Runs F (Piped true Drained .nm { paired r (pm r.near) (pm r.far) with tt := r.tt } pm)
      (Piped false (Stage4 { paired r (pm r.near) (pm r.far) with tt := r.tt }) .nm
        { paired r (pm r.near) (pm r.far) with tt := r.tt } pm) := by
    apply multiplies (by decide)
    intro s i hst hout
    simp only [clock, fsm, hst, hout, Bool.false_eq_true, if_false]
  have htake : Runs F (Piped false (Stage4 { paired r (pm r.near) (pm r.far) with tt := r.tt }) .nm
        { paired r (pm r.near) (pm r.far) with tt := r.tt } pm)
      (At .nw0 (paired r (pm r.near) (pm r.far)) pm) := by
    apply takes (by decide)
    intro s i h
    obtain ⟨hout, hr, hdrained⟩ := h.taken
    simp only [clock, fsm, h.st, hout, if_true]
    refine h.next rfl ?_ h.mem (.inr rfl) rfl rfl hdrained rfl
    simp only [tick, h.regs, hr, paired]
  exact hnear.trans (hx.trans (hfar.trans (hask.trans (hproduct.trans htake))))

theorem writes_pair {x y : BitVec 32}
    (hlow : F → Word ((paired r x y).x.toInt + (if r.inv then y else (paired r x y).tt).toInt))
    (hhigh : F → r.inv = false → Word (x.toInt - (paired r x y).tt.toInt)) :
    Runs F (At .nw0 (paired r x y) pm)
      (At .nnext (paired r x y)
        (Function.update
          (Function.update pm r.near (if r.inv then x + y else x + (paired r x y).tt)) r.far
          (if r.inv then (paired r x y).tt else x - (paired r x y).tt))) := by
  have h0 : Runs F (At .nw0 (paired r x y) pm)
      (At .nw1 (paired r x y) (Function.update pm r.near (if r.inv then x + y else x + (paired r x y).tt))) := by
    apply Reaches.edge
    · intro s h
      refine ⟨h.busy (by decide), fun hF => ⟨h.quiet, fun hs => ?_, fun hs => ?_, fun _ => ?_, fun hs => ?_⟩⟩
      · cases h.st.symm.trans hs
      · cases h.st.symm.trans hs
      · rw [h.regs]
        exact not_saddOverflow (hlow hF)
      · cases h.st.symm.trans hs
    · intro s i h _
      simp only [clock, fsm, h.st, h.regs]
      refine h.still rfl h.regs ?_ (.inr rfl) rfl rfl rfl
      rw [written_write]
      exact congrArg (fun pm => Function.update pm _ _) h.mem
  have h1 : Runs F (At .nw1 (paired r x y) (Function.update pm r.near (if r.inv then x + y else x + (paired r x y).tt)))
      (At .nnext (paired r x y)
        (Function.update
          (Function.update pm r.near (if r.inv then x + y else x + (paired r x y).tt)) r.far
          (if r.inv then (paired r x y).tt else x - (paired r x y).tt))) := by
    apply Reaches.edge
    · intro s h
      refine ⟨h.busy (by decide), fun hF => ⟨h.quiet, fun hs => ?_, fun hs => ?_, fun hs => ?_, fun _ hinv => ?_⟩⟩
      · cases h.st.symm.trans hs
      · cases h.st.symm.trans hs
      · cases h.st.symm.trans hs
      · rw [h.regs] at hinv ⊢
        exact not_ssubOverflow (hhigh hF hinv)
    · intro s i h _
      simp only [clock, fsm, h.st, h.regs]
      refine h.still rfl h.regs ?_ (.inr rfl) rfl rfl rfl
      rw [written_write]
      exact congrArg (fun pm => Function.update pm _ _) h.mem
  exact h0.trans h1

/-- A butterfly. -/
theorem butterflies (hroom : 2 * half inv l * b + j + half inv l < 256)
    (hfit : F → PairFits inv (blockZeta inv l b) (p (2 * half inv l * b + j)) (p (2 * half inv l * b + j + half inv l))) :
    Runs F (InBlock .nr1 base dst inv l b j p)
      (InBlock .nnext base dst inv l b j
        (butterfly (lowSum inv (blockZeta inv l b)) (highSum inv (blockZeta inv l b)) (half inv l) (2 * half inv l * b + j)
          p)) := by
  rintro s ⟨r, pm, hr, hslot, hs⟩
  obtain ⟨hnear, hfar⟩ := hr.addresses
  have hx : (pm r.near).toInt = p (2 * half inv l * b + j) := by
    rw [hnear]
    exact hslot.holds _ (by omega)
  have hy : (pm r.far).toInt = p (2 * half inv l * b + j + half inv l) := by
    rw [hfar]
    exact hslot.holds _ hroom
  have hfactor : (if r.inv then pm r.near - pm r.far else pm r.far).toInt
      = factor inv (p (2 * half inv l * b + j)) (p (2 * half inv l * b + j + half inv l)) := by
    rw [hr.way, factor]
    split
    · rw [BitVec.toInt_sub, hx, hy]
      rfl
    · exact hy
  have htt : (paired r (pm r.near) (pm r.far)).tt.toInt
      = montgomeryReduce (blockZeta inv l b
          * factor inv (p (2 * half inv l * b + j)) (p (2 * half inv l * b + j + half inv l))) := by
    simp only [paired]
    rw [Mont.toInt_reduced, hr.zeta, hfactor]
  have hread : Runs F (At .nr1 r pm) (At .nw0 (paired r (pm r.near) (pm r.far)) pm) := by
    apply reads_pair
    intro hF hinv
    rw [hx, hy]
    exact (hfit hF).difference (hr.way.symm.trans hinv)
  have hwrite : Runs F (At .nw0 (paired r (pm r.near) (pm r.far)) pm) _ := writes_pair
    (by
      intro hF
      have hlow := (hfit hF).low
      rw [hr.way]
      cases inv with
      | true => simpa only [paired, hx, hy, if_true] using hlow
      | false =>
        rw [if_neg (by decide)] at hlow ⊢
        rw [htt]
        simp only [paired, hx]
        exact hlow)
    (by
      intro hF hinv
      have hway : inv = false := hr.way.symm.trans hinv
      have hhigh := (hfit hF).high hway
      rw [hx, htt]
      subst hway
      exact hhigh)
  have hrun := hread.trans hwrite
  apply hrun.imp (fun t (ht : t = s) => ht ▸ hs) (fun t ht => ?_) s rfl
  refine ⟨_, _, ?_, ?_, ht⟩
  · exact ⟨hr.slot, hr.way, hr.ln, hr.bstart, hr.pair, hr.used, hr.zeta⟩
  · have hlow : (if r.inv then pm r.near + pm r.far else pm r.near + (paired r (pm r.near) (pm r.far)).tt).toInt
        = lowSum inv (blockZeta inv l b) (p (2 * half inv l * b + j)) (p (2 * half inv l * b + j + half inv l)) := by
      rw [hr.way, lowSum]
      split
      · rw [BitVec.toInt_add, hx, hy]
        rfl
      · rw [BitVec.toInt_add, hx, htt]
        rfl
    have hhigh : (if r.inv then (paired r (pm r.near) (pm r.far)).tt
          else pm r.near - (paired r (pm r.near) (pm r.far)).tt).toInt
        = highSum inv (blockZeta inv l b) (p (2 * half inv l * b + j)) (p (2 * half inv l * b + j + half inv l)) := by
      rw [hr.way, highSum]
      split
      · exact htt
      · rw [BitVec.toInt_sub, hx, htt]
        rfl
    rw [butterfly, ← hlow, ← hhigh, hnear, hfar]
    exact ⟨(hslot.holds.update (by omega) _).update hroom _, (hslot.elsewhere.update _).update _⟩

end GoiKey.Rtl.PqPoly
