import GoiKey.Lib.BitGroups
import GoiKey.Model.PqSmp
import GoiKey.Proofs.PolySlots

/-!
The samplers take the bytes of the stream one by one, and make of them what the reference
makes.
-/

namespace GoiKey.Rtl.PqSmp

open Clocked SyncRam BitBuffer

/-- The unit works; what it is asked for meanwhile is not looked at. -/
def Busy (s : PqSmp) : Prop := s.st ≠ .idle

/-- A byte comes. -/
def Comes (i : SmpIn) : Prop := i.come = true

abbrev Runs (P Q : PqSmp → Prop) : Prop := Reaches clock (fun _ => True) Comes Busy P Q

/-- Where the unit is, its registers, what the memory holds, and how many bytes have been
taken from the stream. -/
structure At (stream : Nat → BitVec 8) (st : SmpState) (r : SmpRegs) (pm : BitVec 14 → BitVec 32) (pos : Nat)
    (s : PqSmp) : Prop where
  st : s.st = st
  regs : s.regs = r
  mem : s.pm.written = pm
  stream : s.squeeze.stream = stream
  pos : s.squeeze.pos = pos
  take : s.outTake = false

variable {stream : Nat → BitVec 8} {st : SmpState} {r : SmpRegs} {pm : BitVec 14 → BitVec 32} {pos : Nat}
variable {s : PqSmp} {i : SmpIn}

theorem At.busy (h : At stream st r pm pos s) (hst : st ≠ .idle) : Busy s := by
  rw [Busy, h.st]
  exact hst

/-- With nothing to take the stream stays where it is. -/
theorem At.squeeze (h : At stream st r pm pos s) :
    (s.tick i).squeeze.stream = stream ∧ (s.tick i).squeeze.pos = pos := by
  simp only [tick, h.take, Squeeze.clock, Bool.false_eq_true, if_false]
  split <;> exact ⟨h.stream, h.pos⟩

/-- What a clock leaves on which no byte is fetched. -/
theorem At.next {st' : SmpState} {r' : SmpRegs} {pm' : BitVec 14 → BitVec 32} {n : PqSmp}
    (h : At stream st r pm pos s) (hst : n.st = st') (hregs : n.regs = r') (hmem : n.pm.written = pm')
    (hsqueeze : n.squeeze = (s.tick i).squeeze) (htake : n.outTake = false) : At stream st' r' pm' pos n := by
  obtain ⟨hs, hp⟩ := h.squeeze (i := i)
  exact ⟨hst, hregs, hmem, hsqueeze ▸ hs, hsqueeze ▸ hp, htake⟩

/-- A byte is fetched. -/
theorem fetches (st : SmpState) (hret : r.ret = st) :
    Runs (At stream .fetch r pm pos) fun s => At stream st r pm (pos + 1) s ∧ s.cur = stream pos := by
  have hwait : Runs (At stream .fetch r pm pos) fun s => At stream .fetch r pm pos s ∧ s.squeeze.ready = true := by
    intro s hs
    by_cases hready : s.squeeze.ready = true
    · exact Reaches.of_imp (P := fun t => At stream .fetch r pm pos t ∧ t.squeeze.ready = true) (fun _ h => h) s
        ⟨hs, hready⟩
    · have hstill : Runs (fun s => At stream .fetch r pm pos s ∧ s.squeeze.ready = false)
          fun s => At stream .fetch r pm pos s ∧ s.squeeze.ready = true := by
        apply Reaches.wait fun s h => h.1.busy (by decide)
        · rintro s i ⟨h, hnot⟩ - hcome
          obtain ⟨hs, hp⟩ := h.squeeze (i := i)
          have hlow : i.come = false := Bool.eq_false_iff.mpr hcome
          simp only [clock, fsm, h.st, hnot, Bool.false_eq_true, if_false]
          refine ⟨⟨h.st, h.regs, h.mem, hs, hp, rfl⟩, ?_⟩
          simp only [tick, Squeeze.clock, hnot, Bool.false_eq_true, if_false, hlow]
        · rintro s i ⟨h, hnot⟩ - hcome
          obtain ⟨hs, hp⟩ := h.squeeze (i := i)
          have hhigh : i.come = true := hcome
          simp only [clock, fsm, h.st, hnot, Bool.false_eq_true, if_false]
          refine ⟨⟨h.st, h.regs, h.mem, hs, hp, rfl⟩, ?_⟩
          simp only [tick, Squeeze.clock, hnot, Bool.false_eq_true, if_false, hhigh]
      exact hstill s ⟨hs, Bool.eq_false_iff.mpr hready⟩
  have htake : Runs (fun s => At stream .fetch r pm pos s ∧ s.squeeze.ready = true) fun s =>
      s.st = .taken ∧ s.regs = r ∧ s.pm.written = pm ∧ s.squeeze.stream = stream ∧ s.squeeze.pos = pos ∧
        s.squeeze.ready = true ∧ s.outTake = true ∧ s.cur = stream pos := by
    apply Reaches.edge fun s h => h.1.busy (by decide)
    rintro s i ⟨h, hready⟩ -
    obtain ⟨hs, hp⟩ := h.squeeze (i := i)
    simp only [clock, fsm, h.st, hready, if_true]
    refine ⟨trivial, h.regs, h.mem, hs, hp, ?_, trivial, ?_⟩
    · simp only [tick, Squeeze.clock, h.take, hready, Bool.false_eq_true, if_false, if_true]
    · rw [h.stream, h.pos]
  apply hwait.trans (htake.trans _)
  apply Reaches.edge
  · rintro s ⟨hst, -⟩
    rw [Busy, hst]
    decide
  · rintro s i ⟨hst, hregs, hmem, hs, hp, hready, htaken, hcur⟩ -
    simp only [clock, fsm, hst]
    refine ⟨⟨(congrArg SmpRegs.ret hregs).trans hret, hregs, hmem, ?_, ?_, rfl⟩, hcur⟩
    · simp only [tick, Squeeze.clock, hready, htaken, if_true, hs]
    · simp only [tick, Squeeze.clock, hready, htaken, if_true, hp]

/-! Coefficients one after the other. -/

/-- The memory with the coefficients of `a` in a slot. -/
def filled (pm : BitVec 14 → BitVec 32) (dst : BitVec 6) (a : List Int) : BitVec 14 → BitVec 32 :=
  fillList pm (coefAddr dst) (a.map (BitVec.ofInt 32))

theorem filled_snoc (pm : BitVec 14 → BitVec 32) (dst : BitVec 6) (a : List Int) (x : Int) :
    filled pm dst (a ++ [x]) = Function.update (filled pm dst a) (coefAddr dst a.length) (BitVec.ofInt 32 x) := by
  rw [filled, List.map_append, List.map_singleton, fillList_snoc, List.length_map, filled]

/-- The modes that look for coefficients until there are enough. -/
def Rejects (m : SmpMode) : Prop := m = .uniform ∨ m = .eta2 ∨ m = .eta4

/-- The head of such a loop, with `x` taken so far; `C` is what holds of the registers. -/
def HeadAt (C : SmpRegs → Prop) (stream : Nat → BitVec 8) (dst : BitVec 6) (pm : BitVec 14 → BitVec 32)
    (x : List Int × Nat) (s : PqSmp) : Prop :=
  ∃ r, C r ∧ r.dst = dst ∧ r.ctr.toNat = x.1.length ∧
    (x.1.length < 256 ∧ r.ret = .got ∧ At stream .fetch r (filled pm dst x.1) x.2 s ∨
      x.1.length = 256 ∧ At stream .waitw r (filled pm dst x.1) x.2 s)

variable {C : SmpRegs → Prop} {dst : BitVec 6} {x : List Int × Nat} {a : List Int} {b : BitVec 8}

theorem HeadAt.busy (h : HeadAt C stream dst pm x s) : Busy s := by
  obtain ⟨r, -, -, -, ⟨-, -, h⟩ | ⟨-, h⟩⟩ := h
  · exact h.busy (by decide)
  · exact h.busy (by decide)

/-- A round of the loop. -/
theorem round {Q : PqSmp → Prop} (hx : Pq.wanting x = true)
    (h : ∀ r, C r → r.dst = dst → r.ctr.toNat = x.1.length → r.ret = .got →
      Runs (At stream .fetch r (filled pm dst x.1) x.2) Q) : Runs (HeadAt C stream dst pm x) Q := by
  have hlen : x.1.length < 256 := of_decide_eq_true hx
  rintro s ⟨r, hC, hd, hctr, ⟨-, hret, hat⟩ | ⟨hfull, -⟩⟩
  · exact h r hC hd hctr hret s hat
  · omega

/-- The coefficient that is next is written. -/
theorem put_written {a : List Int} {n : PqSmp} {v : BitVec 32} {y : Int} (hd : r.dst = dst) (hctr : r.ctr.toNat = a.length)
    (hmem : n.pm.mem = filled pm dst a) (hv : v = BitVec.ofInt 32 y) :
    (put n r v).pm.written = filled pm dst (a ++ [y]) := by
  have hindex : r.ctr.setWidth 8 = BitVec.ofNat 8 a.length := by rw [← hctr, BitVec.ofNat_toNat]
  rw [put, written_write, hmem, hd, hindex, hv, filled_snoc, coefAddr]

theorem ctr_succ {a : List Int} (y : Int) (hlen : a.length < 256) (hctr : r.ctr.toNat = a.length) :
    (r.ctr + 1).toNat = (a ++ [y]).length := by
  rw [BitVec.toNat_add, hctr, List.length_append, List.length_singleton, show (1 : BitVec 9).toNat = 1 from rfl,
    Nat.mod_eq_of_lt (by omega)]

/-- While there are not enough coefficients the next is looked for. -/
theorem goes_on {k : Nat} (hm : Rejects r.m) (hk : k < 256) (hctr : r.ctr.toNat = k) :
    Runs (At stream .waitw r pm pos) (At stream .fetch { r with ret := .got } pm pos) := by
  have hless : ¬ (256 : BitVec 9) ≤ r.ctr := by
    rw [BitVec.le_def, hctr, show (256 : BitVec 9).toNat = 256 from rfl]
    omega
  have hother : ¬ (r.m = .gamma17 ∨ r.m = .gamma19 ∨ r.m = .ball) := by
    rcases hm with hm | hm | hm <;> rw [hm] <;> decide
  apply Reaches.edge fun s h => h.busy (by decide)
  rintro s i h -
  simp only [clock, fsm, h.st, h.regs, if_neg hless, if_neg hother]
  refine h.next (i := i) rfl ?_ h.mem rfl rfl
  simp only [fetch, tick, h.regs]

/-- What has been written counts, and the loop goes on or ends. -/
theorem settles (hm : Rejects r.m) (hC : C r) (hC' : C { r with ret := .got }) (hd : r.dst = dst)
    (hctr : r.ctr.toNat = a.length) (hlen : a.length ≤ 256) :
    Runs (At stream .waitw r (filled pm dst a) pos) (HeadAt C stream dst pm (a, pos)) := by
  rcases Nat.lt_or_eq_of_le hlen with hlt | hfull
  · apply (goes_on hm hlt hctr).imp fun s h => h
    intro s h
    exact ⟨{ r with ret := .got }, hC', hd, hctr, .inl ⟨hlt, rfl, h⟩⟩
  · exact .of_imp fun s h => ⟨r, hC, hd, hctr, .inr ⟨hfull, h⟩⟩

/-- The unit is idle again. -/
structure Finished (stream : Nat → BitVec 8) (pm : BitVec 14 → BitVec 32) (pos : Nat) (s : PqSmp) : Prop where
  st : s.st = .idle
  busy : s.busy = false
  done : s.done = true
  mem : s.pm.written = pm
  stream : s.squeeze.stream = stream
  pos : s.squeeze.pos = pos

theorem finishes (hx : Pq.wanting x = false) :
    Runs (HeadAt C stream dst pm x) (Finished stream (filled pm dst x.1) x.2) := by
  have hlen : ¬ x.1.length < 256 := of_decide_eq_false hx
  apply Reaches.edge fun s h => h.busy
  rintro s i ⟨r, -, -, hctr, ⟨hlt, -⟩ | ⟨hfull, h⟩⟩ -
  · exact absurd hlt hlen
  · obtain ⟨hs, hp⟩ := h.squeeze (i := i)
    have hall : (256 : BitVec 9) ≤ r.ctr := by
      rw [BitVec.le_def, hctr, hfull]
      decide
    simp only [clock, fsm, h.st, h.regs, if_pos hall]
    exact ⟨rfl, rfl, rfl, h.mem, hs, hp⟩

/-! Uniform sampling. -/

theorem ucand_toNat (r : SmpRegs) (b : BitVec 8) :
    (r.ucand b).toNat = (r.u0.toNat ||| r.u1.toNat <<< 8 ||| b.toNat <<< 16) &&& 0x7FFFFF := by
  have h0 := r.u0.isLt
  have h1 := r.u1.isLt
  have hmask : (0x7FFFFF : Nat) = 2 ^ 23 - 1 := rfl
  rw [hmask, Nat.and_two_pow_sub_one_eq_mod, SmpRegs.ucand, BitVec.toNat_append, BitVec.toNat_append,
    BitVec.extractLsb'_toNat, Nat.shiftRight_zero, Nat.or_comm (_ <<< 8) r.u1.toNat, or_byte _ h1,
    Nat.or_comm (_ <<< 8) r.u0.toNat, or_byte _ h0, or_byte _ h0, or_byte]
  · omega
  · omega

/-- Three bytes make a candidate. -/
theorem fetches_candidate (hm : r.m = .uniform) (hbi : r.bi = 0) (hret : r.ret = .got) :
    Runs (At stream .fetch r pm pos) fun s =>
      At stream .n1 { r with u0 := stream pos, u1 := stream (pos + 1), bi := 0, ret := .got } pm (pos + 3) s ∧
        s.cur = stream (pos + 2) := by
  have h0 : Runs (At stream .fetch r pm pos)
      (At stream .fetch { r with u0 := stream pos, bi := 1, ret := .got } pm (pos + 1)) := by
    apply (fetches .got hret).trans
    apply Reaches.edge fun s h => h.1.busy (by decide)
    rintro s i ⟨h, hcur⟩ -
    simp only [clock, fsm, h.st, h.regs, hm, if_pos hbi]
    refine h.next (i := i) rfl ?_ h.mem rfl rfl
    simp only [fetch, tick, h.regs, hcur, hm]
  have h1 : Runs (At stream .fetch { r with u0 := stream pos, bi := 1, ret := .got } pm (pos + 1))
      (At stream .fetch { r with u0 := stream pos, u1 := stream (pos + 1), bi := 2, ret := .got } pm (pos + 2)) := by
    apply (fetches .got rfl).trans
    apply Reaches.edge fun s h => h.1.busy (by decide)
    rintro s i ⟨h, hcur⟩ -
    simp only [clock, fsm, h.st, h.regs, hm, if_neg (show (1 : BitVec 2) ≠ 0 by decide), if_true]
    refine h.next (i := i) rfl ?_ h.mem rfl rfl
    simp only [fetch, tick, h.regs, hcur, hm]
  apply h0.trans (h1.trans _)
  apply (fetches .got rfl).trans
  apply Reaches.edge fun s h => h.1.busy (by decide)
  rintro s i ⟨h, hcur⟩ -
  simp only [clock, fsm, h.st, h.regs, hm, if_neg (show (2 : BitVec 2) ≠ 0 by decide),
    if_neg (show (2 : BitVec 2) ≠ 1 by decide)]
  refine ⟨h.next (i := i) rfl ?_ h.mem rfl rfl, hcur⟩
  simp only [tick, h.regs, hm]

def UniformRegs (r : SmpRegs) : Prop := r.m = .uniform ∧ r.bi = 0

/-- A candidate is taken if it is below q. -/
theorem judges {t : Nat} (hr : UniformRegs r) (hd : r.dst = dst) (hctr : r.ctr.toNat = a.length)
    (hlen : a.length < 256) (ht : (r.ucand b).toNat = t) :
    Runs (fun s => At stream .n1 r (filled pm dst a) pos s ∧ s.cur = b)
      (HeadAt UniformRegs stream dst pm (if (t : Int) < Pq.q then a ++ [(t : Int)] else a, pos)) := by
  obtain ⟨hm, hbi⟩ := hr
  have hbelow : r.ucand b < 8380417 ↔ (t : Int) < Pq.q := by
    rw [BitVec.lt_def, ht, show (8380417 : BitVec 23).toNat = 8380417 from rfl, Pq.q]
    omega
  by_cases hlt : (t : Int) < Pq.q
  · have hput : Runs (fun s => At stream .n1 r (filled pm dst a) pos s ∧ s.cur = b)
        (At stream .waitw { r with ctr := r.ctr + 1 } (filled pm dst (a ++ [(t : Int)])) pos) := by
      apply Reaches.edge fun s h => h.1.busy (by decide)
      rintro s i ⟨h, hcur⟩ -
      have hvalue : (r.ucand b).setWidth 32 = BitVec.ofInt 32 t := by
        apply BitVec.eq_of_toNat_eq
        rw [BitVec.toNat_setWidth_of_le (by decide), ht, BitVec.ofInt_natCast, BitVec.toNat_ofNat]
        have hbound := (r.ucand b).isLt
        omega
      simp only [clock, fsm, h.st, h.regs, hm, hcur, if_true, if_pos (hbelow.mpr hlt)]
      refine h.next (i := i) rfl ?_ ?_ rfl rfl
      · simp only [put, tick, h.regs, hm]
      · exact put_written hd hctr h.mem hvalue
    rw [if_pos hlt]
    have hlength : (a ++ [(t : Int)]).length ≤ 256 := by
      rw [List.length_append, List.length_singleton]
      exact hlen
    exact hput.trans (settles (.inl hm) ⟨hm, hbi⟩ ⟨hm, hbi⟩ hd (ctr_succ (t : Int) hlen hctr) hlength)
  · rw [if_neg hlt]
    apply Reaches.edge fun s h => h.1.busy (by decide)
    rintro s i ⟨h, hcur⟩ -
    simp only [clock, fsm, h.st, h.regs, hm, hcur, if_true, if_neg (mt hbelow.mp hlt)]
    refine ⟨{ r with ret := .got }, ⟨hm, hbi⟩, hd, hctr, .inl ⟨hlen, rfl, ?_⟩⟩
    refine h.next (i := i) rfl ?_ h.mem rfl rfl
    simp only [fetch, tick, h.regs]

theorem uniform_round (hx : Pq.wanting x = true) :
    Runs (HeadAt UniformRegs stream dst pm x) (HeadAt UniformRegs stream dst pm (Pq.uniformBody stream x)) := by
  apply round hx
  rintro r ⟨hm, hbi⟩ hd hctr hret
  exact (fetches_candidate hm hbi hret).trans (judges ⟨hm, rfl⟩ hd hctr (of_decide_eq_true hx) (ucand_toNat _ _))

/-! Bounded sampling. -/

/-- The bound of a mode. -/
def etaOf (m : SmpMode) : Nat := if m = .eta2 then 2 else 4

theorem eta_coef {m : SmpMode} (hm : m = .eta2 ∨ m = .eta4) (nib : BitVec 4) :
    (Pq.etaCoef (etaOf m) nib.toNat).map (BitVec.ofInt 32) = if etaOk m nib then some (etaVal m nib) else none := by
  rcases hm with rfl | rfl
  · revert nib
    decide
  · revert nib
    decide

/-- What half a byte adds. -/
theorem etaPush_cases (eta : Nat) (a : List Int) (t : Nat) :
    (a.length < 256 ∧ ∃ y, Pq.etaCoef eta t = some y ∧ Pq.etaPush eta a t = a ++ [y]) ∨
      ((256 ≤ a.length ∨ Pq.etaCoef eta t = none) ∧ Pq.etaPush eta a t = a) := by
  rw [Pq.etaPush, Pq.n]
  by_cases hfull : 256 ≤ a.length
  · exact .inr ⟨.inl hfull, if_pos hfull⟩
  · rw [if_neg hfull]
    cases hc : Pq.etaCoef eta t with
    | none => exact .inr ⟨.inr rfl, List.append_nil a⟩
    | some y => exact .inl ⟨by omega, y, rfl, rfl⟩

/-- The registers of bounded sampling. -/
def EtaRegs (m : SmpMode) (r : SmpRegs) : Prop := r.m = m

/-- Half a byte is looked at. -/
theorem halves (stream : Nat → BitVec 8) (pm : BitVec 14 → BitVec 32) (pos : Nat) (b : BitVec 8)
    (hm : r.m = .eta2 ∨ r.m = .eta4) (hd : r.dst = dst) (hctr : r.ctr.toNat = a.length) (hlen : a.length ≤ 256) :
    ∃ c : BitVec 9, c.toNat = (Pq.etaPush (etaOf r.m) a (r.nib b).toNat).length ∧
      (Pq.etaPush (etaOf r.m) a (r.nib b).toNat).length ≤ 256 ∧
      Runs (fun s => At stream .n1 r (filled pm dst a) pos s ∧ s.cur = b) fun s =>
        At stream (if r.phaseHi then .waitw else .n1) { r with ctr := c, phaseHi := true }
          (filled pm dst (Pq.etaPush (etaOf r.m) a (r.nib b).toNat)) pos s ∧ s.cur = b := by
  have hnot : r.m ≠ .uniform := by
    rcases hm with hm | hm <;> rw [hm] <;> decide
  have hroom : r.ctr < 256 ↔ a.length < 256 := by
    rw [BitVec.lt_def, hctr, show (256 : BitVec 9).toNat = 256 from rfl]
  have hcoef := eta_coef hm (r.nib b)
  rcases etaPush_cases (etaOf r.m) a (r.nib b).toNat with ⟨hlt, y, hy, hpush⟩ | ⟨hnone, hpush⟩
  · have hok : etaOk r.m (r.nib b) = true := by
      by_contra hbad
      rw [hy, if_neg hbad] at hcoef
      cases hcoef
    have hvalue : etaVal r.m (r.nib b) = BitVec.ofInt 32 y := by
      rw [hy, if_pos hok, Option.map_some, Option.some.injEq] at hcoef
      exact hcoef.symm
    refine ⟨r.ctr + 1, ?_, ?_, ?_⟩
    · rw [hpush]
      exact ctr_succ y hlt hctr
    · rw [hpush, List.length_append, List.length_singleton]
      exact hlt
    · apply Reaches.edge fun s h => h.1.busy (by decide)
      rintro s i ⟨h, hcur⟩ -
      have hmem := put_written (n := s.tick i) hd hctr h.mem hvalue
      simp only [clock, fsm, h.st, h.regs, if_neg hnot, hcur, if_pos (And.intro hok (hroom.mpr hlt)), hpush]
      cases hphase : r.phaseHi with
      | true =>
        simp only [if_true]
        refine ⟨h.next (i := i) rfl ?_ hmem rfl rfl, hcur⟩
        simp only [put, tick, h.regs, hphase]
      | false =>
        simp only [Bool.false_eq_true, if_false]
        refine ⟨h.next (i := i) rfl ?_ hmem rfl rfl, hcur⟩
        simp only [put, tick, h.regs]
  · have hskip : ¬ (etaOk r.m (r.nib b) = true ∧ r.ctr < 256) := by
      rintro ⟨hok, hlt⟩
      rcases hnone with hfull | hnone
      · exact Nat.not_lt.mpr hfull (hroom.mp hlt)
      · rw [hnone, if_pos hok] at hcoef
        cases hcoef
    refine ⟨r.ctr, by rw [hpush]; exact hctr, by rw [hpush]; exact hlen, ?_⟩
    apply Reaches.edge fun s h => h.1.busy (by decide)
    rintro s i ⟨h, hcur⟩ -
    simp only [clock, fsm, h.st, h.regs, if_neg hnot, hcur, if_neg hskip, hpush]
    cases hphase : r.phaseHi with
    | true =>
      simp only [if_true]
      refine ⟨h.next (i := i) rfl ?_ h.mem rfl rfl, hcur⟩
      simp only [tick, h.regs, ← hphase]
    | false =>
      simp only [Bool.false_eq_true, if_false]
      refine ⟨h.next (i := i) rfl ?_ h.mem rfl rfl, hcur⟩
      simp only [tick, h.regs]

theorem nib_low (b : BitVec 8) (h : r.phaseHi = false) : (r.nib b).toNat = b.toNat &&& 15 := by
  have hmask : (15 : Nat) = 2 ^ 4 - 1 := rfl
  rw [SmpRegs.nib, h, if_neg (by decide), BitVec.extractLsb'_toNat, Nat.shiftRight_zero, hmask,
    Nat.and_two_pow_sub_one_eq_mod]

theorem nib_high (b : BitVec 8) (h : r.phaseHi = true) : (r.nib b).toNat = b.toNat >>> 4 := by
  have hb := b.isLt
  rw [SmpRegs.nib, if_pos h, BitVec.extractLsb'_toNat, Nat.shiftRight_eq_div_pow]
  omega

theorem eta_round {m : SmpMode} (hm : m = .eta2 ∨ m = .eta4) (hx : Pq.wanting x = true) :
    Runs (HeadAt (EtaRegs m) stream dst pm x) (HeadAt (EtaRegs m) stream dst pm (Pq.etaBody stream (etaOf m) x)) := by
  apply round hx
  rintro r rfl hd hctr hret
  have hlen : x.1.length ≤ 256 := Nat.le_of_lt (of_decide_eq_true hx)
  have hgot : Runs (fun s => At stream .got r (filled pm dst x.1) (x.2 + 1) s ∧ s.cur = stream x.2) fun s =>
      At stream .n1 { r with phaseHi := false } (filled pm dst x.1) (x.2 + 1) s ∧ s.cur = stream x.2 := by
    apply Reaches.edge fun s h => h.1.busy (by decide)
    rintro s i ⟨h, hcur⟩ -
    rcases hm with hm | hm
    · simp only [clock, fsm, h.st, h.regs, hm]
      refine ⟨h.next (i := i) rfl ?_ h.mem rfl rfl, hcur⟩
      simp only [tick, h.regs, hm]
    · simp only [clock, fsm, h.st, h.regs, hm]
      refine ⟨h.next (i := i) rfl ?_ h.mem rfl rfl, hcur⟩
      simp only [tick, h.regs, hm]
  obtain ⟨c, hc, hlow, hfirst⟩ :=
    halves (r := { r with phaseHi := false }) stream pm (x.2 + 1) (stream x.2) hm hd hctr hlen
  obtain ⟨d, hdc, hhigh, hsecond⟩ :=
    halves (r := { r with ctr := c, phaseHi := true }) stream pm (x.2 + 1) (stream x.2) hm hd hc hlow
  rw [if_neg Bool.false_ne_true] at hfirst
  rw [if_pos rfl] at hsecond
  rw [nib_low _ rfl] at hfirst hc hlow hsecond hdc hhigh
  rw [nib_high _ rfl] at hsecond hdc hhigh
  apply (fetches .got hret).trans
  apply hgot.trans
  apply hfirst.trans
  apply hsecond.trans
  apply Reaches.weaken fun s h => h.1
  exact settles (.inr hm) rfl rfl hd hdc hhigh

/-! Unpacking gamma1. -/

open BitBuffer

/-- The bits of gamma1 in a mode. -/
def g1bits (m : SmpMode) : Nat := if m = .gamma17 then 17 else 19

theorem nb_toNat (r : SmpRegs) : r.nb.toNat = g1bits r.m + 1 := by
  rw [SmpRegs.nb, g1bits]
  split <;> rfl

theorem g1bits_le (m : SmpMode) : g1bits m ≤ 19 := by
  rw [g1bits]
  split <;> decide

/-- The first `k` coefficients that the number `v` stands for. -/
def gammas (m : SmpMode) (v k : Nat) : List Int :=
  (List.range k).map fun i => 2 ^ g1bits m - (field v ((g1bits m + 1) * i) (g1bits m + 1) : Int)

theorem length_gammas (m : SmpMode) (v k : Nat) : (gammas m v k).length = k := by
  rw [gammas, List.length_map, List.length_range]

theorem gammas_succ (m : SmpMode) (v k : Nat) : gammas m v (k + 1)
    = gammas m v k ++ [2 ^ g1bits m - (field v ((g1bits m + 1) * k) (g1bits m + 1) : Int)] := by
  rw [gammas, List.range_succ, List.map_append]
  rfl

/-- The registers after `k` coefficients, with `p` bits of `v` taken from the stream. -/
structure GammaRegs (m : SmpMode) (dst : BitVec 6) (v k p : Nat) (r : SmpRegs) : Prop where
  mode : r.m = m
  slot : r.dst = dst
  ctr : r.ctr.toNat = k
  acc : r.acc.toNat = buffer v p ((g1bits m + 1) * k)
  le : (g1bits m + 1) * k ≤ p
  accb : r.accb.toNat = p - (g1bits m + 1) * k

/-- The unit unpacks the number `v`, which begins at the byte `first`. -/
def GammaAt (stream : Nat → BitVec 8) (m : SmpMode) (dst : BitVec 6) (pm : BitVec 14 → BitVec 32) (first v : Nat)
    (st : SmpState) (k p : Nat) (s : PqSmp) : Prop :=
  ∃ r, GammaRegs m dst v k p r ∧ At stream st r (filled pm dst (gammas m v k)) (first + p / 8) s

variable {m : SmpMode} {first v k p : Nat}

theorem GammaAt.busy (h : GammaAt stream m dst pm first v st k p s) (hst : st ≠ .idle) : Busy s := by
  obtain ⟨r, -, h⟩ := h
  exact h.busy hst

/-- A byte is taken and put in. -/
theorem takes_byte (hm : m = .gamma17 ∨ m = .gamma19) (hr : GammaRegs m dst v k p r) (hret : r.ret = .got)
    (hdvd : 8 ∣ p) (hp : p < (g1bits m + 1) * k + (g1bits m + 1))
    (hv : (stream (first + p / 8)).toNat = field v p 8) :
    Runs (At stream .fetch r (filled pm dst (gammas m v k)) (first + p / 8))
      (GammaAt stream m dst pm first v .grd k (p + 8)) := by
  apply (fetches .got hret).trans
  apply Reaches.edge fun s h => h.1.busy (by decide)
  rintro s i ⟨h, hcur⟩ -
  have hbits := g1bits_le m
  have hle := hr.le
  have haccb := hr.accb
  have hbyte : (s.cur.setWidth 32).toNat = field v p 8 := by
    rw [BitVec.toNat_setWidth_of_le (by decide), hcur, hv]
  have hnext : GammaRegs m dst v k (p + 8) { r with acc := r.acc ||| s.cur.setWidth 32 <<< r.accb, accb := r.accb + 8 } := by
    refine ⟨hr.mode, hr.slot, hr.ctr, ?_, by omega, ?_⟩
    · have hlt : (s.cur.setWidth 32).toNat <<< r.accb.toNat < 2 ^ 32 := by
        rw [hbyte, Nat.shiftLeft_eq]
        calc field v p 8 * 2 ^ r.accb.toNat < 2 ^ 8 * 2 ^ r.accb.toNat :=
            Nat.mul_lt_mul_of_pos_right field_lt (Nat.two_pow_pos _)
          _ = 2 ^ (8 + r.accb.toNat) := (Nat.pow_add 2 8 _).symm
          _ ≤ 2 ^ 32 := Nat.pow_le_pow_right (by decide) (by omega)
      rw [BitVec.toNat_or, BitVec.shiftLeft_eq', BitVec.toNat_shiftLeft, Nat.mod_eq_of_lt hlt, hbyte, hr.acc, haccb,
        or_put hle]
    · rw [BitVec.toNat_add, haccb, show (8 : BitVec 6).toNat = 8 from rfl]
      omega
  have hpos : first + (p + 8) / 8 = first + p / 8 + 1 := by omega
  refine ⟨_, hnext, ?_⟩
  rw [hpos]
  rcases hm with rfl | rfl
  · simp only [clock, fsm, h.st, h.regs, hr.mode]
    refine h.next (i := i) rfl ?_ h.mem rfl rfl
    simp only [tick, h.regs, hr.mode]
  · simp only [clock, fsm, h.st, h.regs, hr.mode]
    refine h.next (i := i) rfl ?_ h.mem rfl rfl
    simp only [tick, h.regs, hr.mode]

/-- A coefficient is taken out and written. -/
theorem takes_coefficient (hk : k < 256) (hp : (g1bits m + 1) * k + (g1bits m + 1) ≤ p) :
    Runs (GammaAt stream m dst pm first v .grd k p) (GammaAt stream m dst pm first v .waitw (k + 1) p) := by
  apply Reaches.edge fun s h => h.busy (by decide)
  rintro s i ⟨r, hr, h⟩ -
  have hbits := g1bits_le m
  have hsucc : (g1bits m + 1) * (k + 1) = (g1bits m + 1) * k + (g1bits m + 1) := Nat.mul_succ _ _
  have hnb : r.nb.toNat = g1bits m + 1 := by rw [nb_toNat, hr.mode]
  have hle : r.nb ≤ r.accb := by
    rw [BitVec.le_def, hnb, hr.accb]
    omega
  have hvalue : r.g1c - (r.acc &&& ((1 : BitVec 32) <<< r.nb - 1))
      = BitVec.ofInt 32 (2 ^ g1bits m - (field v ((g1bits m + 1) * k) (g1bits m + 1) : Int)) := by
    have hconst : r.g1c = BitVec.ofInt 32 (2 ^ g1bits m) := by
      rw [SmpRegs.g1c, hr.mode, g1bits]
      split <;> rfl
    have hmask : ((1 : BitVec 32) <<< r.nb - 1).toNat = 2 ^ (g1bits m + 1) - 1 := by
      rw [SmpRegs.nb, hr.mode, g1bits]
      split <;> rfl
    have hlow : r.acc &&& ((1 : BitVec 32) <<< r.nb - 1)
        = BitVec.ofInt 32 (field v ((g1bits m + 1) * k) (g1bits m + 1) : Int) := by
      apply BitVec.eq_of_toNat_eq
      rw [BitVec.toNat_and, hmask, Nat.and_two_pow_sub_one_eq_mod, hr.acc, buffer_take hp, BitVec.ofInt_natCast,
        BitVec.toNat_ofNat, Nat.mod_eq_of_lt]
      exact Nat.lt_of_lt_of_le field_lt (Nat.pow_le_pow_right (by decide) (by omega))
    rw [hconst, hlow, Int.sub_eq_add_neg, BitVec.ofInt_add, BitVec.ofInt_neg, BitVec.sub_eq_add_neg]
  have hlength := (length_gammas m v k).symm
  have hwritten := put_written (n := s.tick i) hr.slot (hr.ctr.trans hlength) h.mem hvalue
  refine ⟨{ r with ctr := r.ctr + 1, acc := r.acc >>> r.nb, accb := r.accb - r.nb }, ?_, ?_⟩
  · refine ⟨hr.mode, hr.slot, ?_, ?_, by omega, ?_⟩
    · rw [BitVec.toNat_add, hr.ctr, show (1 : BitVec 9).toNat = 1 from rfl, Nat.mod_eq_of_lt (by omega)]
    · rw [BitVec.ushiftRight_eq', BitVec.toNat_ushiftRight, hr.acc, hnb, Nat.shiftRight_eq_div_pow, buffer_drop, hsucc]
    · rw [BitVec.toNat_sub_of_le hle, hr.accb, hnb, hsucc]
      omega
  · simp only [clock, fsm, h.st, h.regs, if_pos hle]
    refine h.next (i := i) rfl ?_ ?_ rfl rfl
    · simp only [put, tick, h.regs]
    · rw [gammas_succ]
      exact hwritten

/-- Whole bytes have been taken, and not more of them than the next coefficient needs. -/
def Aligned (m : SmpMode) (k p : Nat) : Prop := 8 ∣ p ∧ p < (g1bits m + 1) * k + (g1bits m + 1) + 8

/-- Bytes are taken until a coefficient is there. -/
theorem fills (hm : m = .gamma17 ∨ m = .gamma19) (hk : k < 256)
    (hv : ∀ j < 32 * (g1bits m + 1), (stream (first + j)).toNat = field v (8 * j) 8) :
    Runs (fun s => ∃ p, Aligned m k p ∧ GammaAt stream m dst pm first v .grd k p s)
      fun s => ∃ p, (g1bits m + 1) * k + (g1bits m + 1) ≤ p ∧ Aligned m k p ∧ GammaAt stream m dst pm first v .grd k p s := by
  have hbound : (g1bits m + 1) * k + (g1bits m + 1) ≤ (g1bits m + 1) * 256 := by
    rw [← Nat.mul_succ]
    exact Nat.mul_le_mul_left _ hk
  suffices h : ∀ d, Runs
      (fun s => ∃ p, (g1bits m + 1) * k + (g1bits m + 1) - p = d ∧ Aligned m k p ∧ GammaAt stream m dst pm first v .grd k p s)
      fun s => ∃ p, (g1bits m + 1) * k + (g1bits m + 1) ≤ p ∧ Aligned m k p ∧ GammaAt stream m dst pm first v .grd k p s by
    apply Reaches.exists
    intro p
    exact (h ((g1bits m + 1) * k + (g1bits m + 1) - p)).weaken fun s hs => ⟨p, rfl, hs⟩
  apply Reaches.descend
  intro d
  apply Reaches.exists
  intro p
  by_cases hp : (g1bits m + 1) * k + (g1bits m + 1) ≤ p
  · exact .of_imp fun s h => .inl ⟨p, hp, h.2⟩
  · apply Reaches.fact fun s h => h.1
    intro hd
    apply Reaches.fact fun s h => h.2.1
    rintro ⟨hdvd, hlast⟩
    apply Reaches.weaken fun s h => h.2.2
    apply Reaches.exists
    intro r
    apply Reaches.fact fun s h => h.1
    intro hr
    have hbyte : (stream (first + p / 8)).toNat = field v p 8 := by
      rw [hv (p / 8) (by omega), Nat.mul_div_cancel' hdvd]
    have hless : ¬ r.nb ≤ r.accb := by
      rw [BitVec.le_def, nb_toNat, hr.mode, hr.accb]
      have hle := hr.le
      omega
    have hgrd : Runs (fun s => GammaRegs m dst v k p r ∧ At stream .grd r (filled pm dst (gammas m v k)) (first + p / 8) s)
        (At stream .fetch { r with ret := .got } (filled pm dst (gammas m v k)) (first + p / 8)) := by
      apply Reaches.edge fun s h => h.2.busy (by decide)
      rintro s i ⟨-, h⟩ -
      simp only [clock, fsm, h.st, h.regs, if_neg hless]
      refine h.next (i := i) rfl ?_ h.mem rfl rfl
      simp only [fetch, tick, h.regs]
    have hnext : GammaRegs m dst v k p { r with ret := .got } := ⟨hr.mode, hr.slot, hr.ctr, hr.acc, hr.le, hr.accb⟩
    apply hgrd.trans
    apply (takes_byte hm hnext rfl hdvd (by omega) hbyte).imp fun s h => h
    intro s h
    exact .inr ⟨(g1bits m + 1) * k + (g1bits m + 1) - (p + 8), by omega, p + 8, rfl, ⟨by omega, by omega⟩, h⟩

theorem unpacks_gamma (hm : m = .gamma17 ∨ m = .gamma19)
    (hv : ∀ j < 32 * (g1bits m + 1), (stream (first + j)).toNat = field v (8 * j) 8) :
    Runs (fun s => ∃ r, GammaRegs m dst v 0 0 r ∧ r.ret = .got ∧ At stream .fetch r pm first s)
      (Finished stream (filled pm dst (gammas m v 256)) (first + 32 * (g1bits m + 1))) := by
  have hfirst : Runs (fun s => ∃ r, GammaRegs m dst v 0 0 r ∧ r.ret = .got ∧ At stream .fetch r pm first s)
      fun s => ∃ p, Aligned m 0 p ∧ GammaAt stream m dst pm first v .grd 0 p s := by
    apply Reaches.exists
    intro r
    apply Reaches.fact fun s h => h.1
    intro hr
    apply Reaches.fact fun s h => h.2.1
    intro hret
    apply Reaches.weaken fun s h => h.2.2
    have hbyte : (stream (first + 0 / 8)).toNat = field v 0 8 := hv 0 (by omega)
    apply (takes_byte hm hr hret ⟨0, rfl⟩ (by omega) hbyte).imp fun s h => h
    exact fun s h => ⟨0 + 8, ⟨⟨1, rfl⟩, by omega⟩, h⟩
  have hall : Runs (fun s => ∃ p, Aligned m 0 p ∧ GammaAt stream m dst pm first v .grd 0 p s)
      fun s => ∃ p, Aligned m 255 p ∧ GammaAt stream m dst pm first v .grd 255 p s := by
    apply Reaches.loop (I := fun k s => ∃ p, Aligned m k p ∧ GammaAt stream m dst pm first v .grd k p s)
    intro k hk
    apply (fills hm (by omega) hv).trans
    apply Reaches.exists
    intro p
    apply Reaches.fact fun s h => h.1
    intro hp
    apply Reaches.fact fun s h => h.2.1
    rintro ⟨hdvd, hlast⟩
    have hsucc : (g1bits m + 1) * (k + 1) = (g1bits m + 1) * k + (g1bits m + 1) := Nat.mul_succ _ _
    apply Reaches.weaken fun s h => h.2.2
    apply (takes_coefficient (by omega) hp).trans
    apply Reaches.edge fun s h => h.busy (by decide)
    rintro s i ⟨r, hr, h⟩ -
    have hless : ¬ (256 : BitVec 9) ≤ r.ctr := by
      rw [BitVec.le_def, hr.ctr, show (256 : BitVec 9).toNat = 256 from rfl]
      omega
    have hmode : r.m = .gamma17 ∨ r.m = .gamma19 ∨ r.m = .ball := by
      rcases hm with hm | hm
      · exact .inl (hr.mode.trans hm)
      · exact .inr (.inl (hr.mode.trans hm))
    refine ⟨p, ⟨hdvd, by omega⟩, r, hr, ?_⟩
    simp only [clock, fsm, h.st, h.regs, if_neg hless, if_pos hmode]
    refine h.next (i := i) rfl ?_ h.mem rfl rfl
    simp only [tick, h.regs]
  apply hfirst.trans (hall.trans _)
  apply (fills hm (by decide) hv).trans
  apply Reaches.exists
  intro p
  apply Reaches.fact fun s h => h.1
  intro hp
  apply Reaches.fact fun s h => h.2.1
  rintro ⟨hdvd, hlast⟩
  apply Reaches.weaken fun s h => h.2.2
  apply (takes_coefficient (by decide) hp).trans
  apply Reaches.edge fun s h => h.busy (by decide)
  rintro s i ⟨r, hr, h⟩ -
  obtain ⟨hs, hpos⟩ := h.squeeze (i := i)
  have hend : p / 8 = 32 * (g1bits m + 1) := by omega
  have hfull : (256 : BitVec 9) ≤ r.ctr := by
    rw [BitVec.le_def, hr.ctr]
    decide
  simp only [clock, fsm, h.st, h.regs, if_pos hfull]
  exact ⟨rfl, rfl, rfl, h.mem, hs, hend ▸ hpos⟩

end GoiKey.Rtl.PqSmp
