import GoiKey.Proofs.PqStreams

/-!
SampleInBall: the signs first, then the positions, each of them drawn until it is not above
the moving bound.
-/

namespace GoiKey.Rtl.PqSmp

open Clocked SyncRam BitBuffer

variable {pm : BitVec 14 → BitVec 32} {dst : BitVec 6} {c : Pq.Poly} {k : Nat}

/-! The signs. -/

variable {stream : Nat → BitVec 8} {st : SmpState} {r : SmpRegs} {first pos : Nat} {s : PqSmp} {i : SmpIn}

/-- The registers while `j` bytes of the signs `v` have been taken. -/
structure SignRegs (dst : BitVec 6) (bound v j : Nat) (r : SmpRegs) : Prop where
  ret : r.ret = .b1
  slot : r.dst = dst
  bound : r.biI.toNat = bound
  signs : r.signs.toNat = buffer v (8 * j) 0
  sc : r.sc.toNat = j

variable {bound v j : Nat}

theorem takes_sign (hj : j < 8) (hv : (stream (first + j)).toNat = field v (8 * j) 8) :
    Runs (fun s => ∃ r, SignRegs dst bound v j r ∧ At stream .fetch r pm (first + j) s) fun s =>
      ∃ r, r.dst = dst ∧ r.biI.toNat = bound ∧ r.signs.toNat = buffer v (8 * (j + 1)) 0 ∧
        if j = 7 then At stream .b2 r pm (first + (j + 1)) s
        else SignRegs dst bound v (j + 1) r ∧ At stream .fetch r pm (first + (j + 1)) s := by
  apply Reaches.exists
  intro r
  apply Reaches.fact fun s h => h.1
  intro hr
  apply Reaches.weaken fun s h => h.2
  apply (fetches .b1 hr.ret).trans
  apply Reaches.edge fun s h => h.1.busy (by decide)
  rintro s i ⟨h, hcur⟩ -
  have hsigns : (r.signs ||| s.cur.setWidth 64 <<< (8 * (r.sc.setWidth 3).toNat)).toNat = buffer v (8 * (j + 1)) 0 := by
    have hshift : 8 * (r.sc.setWidth 3).toNat = 8 * j - 0 := by
      rw [BitVec.toNat_setWidth, hr.sc]
      omega
    have hbyte : (s.cur.setWidth 64).toNat = field v (8 * j) 8 := by
      rw [BitVec.toNat_setWidth_of_le (by decide), hcur, hv]
    have hlt : (s.cur.setWidth 64).toNat <<< (8 * j - 0) < 2 ^ 64 := by
      rw [hbyte, Nat.shiftLeft_eq]
      calc field v (8 * j) 8 * 2 ^ (8 * j - 0) < 2 ^ 8 * 2 ^ (8 * j - 0) :=
          Nat.mul_lt_mul_of_pos_right field_lt (Nat.two_pow_pos _)
        _ = 2 ^ (8 + (8 * j - 0)) := (Nat.pow_add 2 8 _).symm
        _ ≤ 2 ^ 64 := Nat.pow_le_pow_right (by decide) (by omega)
    rw [BitVec.toNat_or, hshift, BitVec.toNat_shiftLeft, Nat.mod_eq_of_lt hlt, hr.signs, hbyte, or_put (Nat.zero_le _)]
    rfl
  by_cases hlast : j = 7
  · have hsc : r.sc = 7 := BitVec.eq_of_toNat_eq (hr.sc.trans hlast)
    refine ⟨{ r with signs := r.signs ||| s.cur.setWidth 64 <<< (8 * (r.sc.setWidth 3).toNat) }, hr.slot, hr.bound,
      hsigns, ?_⟩
    rw [if_pos hlast]
    simp only [clock, fsm, h.st, h.regs, if_pos hsc]
    refine h.next (i := i) rfl ?_ h.mem rfl rfl
    simp only [tick, h.regs]
  · have hsc : r.sc ≠ 7 := by
      intro hsc
      have hcount := hr.sc
      rw [hsc] at hcount
      exact hlast hcount.symm
    have hcount : (r.sc + 1).toNat = j + 1 := by
      rw [BitVec.toNat_add, hr.sc, show (1 : BitVec 4).toNat = 1 from rfl, Nat.mod_eq_of_lt (by omega)]
    refine ⟨{ r with
      signs := r.signs ||| s.cur.setWidth 64 <<< (8 * (r.sc.setWidth 3).toNat)
      sc := r.sc + 1
      ret := .b1 }, hr.slot, hr.bound, hsigns, ?_⟩
    rw [if_neg hlast]
    refine ⟨⟨rfl, hr.slot, hr.bound, hsigns, hcount⟩, ?_⟩
    simp only [clock, fsm, h.st, h.regs, if_neg hsc]
    refine h.next (i := i) rfl ?_ h.mem rfl rfl
    simp only [fetch, tick, h.regs]

/-- In front of the next position, with `c` in the slot. -/
def BallAt (stream : Nat → BitVec 8) (dst : BitVec 6) (pm : BitVec 14 → BitVec 32) (bound signs pos : Nat)
    (c : Pq.Poly) (s : PqSmp) : Prop :=
  ∃ r, r.dst = dst ∧ r.biI.toNat = bound ∧ r.signs.toNat = signs ∧ At stream .b2 r (withSlot pm dst c) pos s

theorem takes_signs (hv : ∀ j < 8, (stream (first + j)).toNat = field v (8 * j) 8) (hlt : v < 2 ^ 64)
    (hzero : ∀ k < 256, pm (coefAddr dst k) = 0) :
    Runs (fun s => ∃ r, SignRegs dst bound v 0 r ∧ At stream .fetch r pm first s)
      (BallAt stream dst pm bound v (first + 8) fun _ => 0) := by
  have hall : Runs (fun s => ∃ r, SignRegs dst bound v 0 r ∧ At stream .fetch r pm (first + 0) s)
      fun s => ∃ r, SignRegs dst bound v 7 r ∧ At stream .fetch r pm (first + 7) s := by
    apply Reaches.loop (I := fun j s => ∃ r, SignRegs dst bound v j r ∧ At stream .fetch r pm (first + j) s)
    intro j hj
    apply (takes_sign (by omega) (hv j (by omega))).imp fun s h => h
    rintro s ⟨r, -, -, -, h⟩
    rw [if_neg (by omega)] at h
    exact ⟨r, h⟩
  apply hall.trans
  apply (takes_sign (by decide) (hv 7 (by decide))).imp fun s h => h
  rintro s ⟨r, hd, hb, hsigns, h⟩
  rw [if_pos rfl] at h
  refine ⟨r, hd, hb, ?_, ?_⟩
  · rw [hsigns, buffer, Nat.pow_zero, Nat.div_one]
    exact Nat.mod_eq_of_lt hlt
  · rw [withSlot_zero hzero]
    exact h

/-! The positions. -/

/-- A candidate that is too high is passed over. -/
theorem passes_over (hret : r.ret = .b3) (hb : r.biI.toNat = bound) (hhigh : Pq.tooHigh stream bound pos = true) :
    Runs (At stream .fetch r pm pos) (At stream .fetch r pm (pos + 1)) := by
  apply (fetches .b3 hret).trans
  apply Reaches.edge fun s h => h.1.busy (by decide)
  rintro s i ⟨h, hcur⟩ -
  have habove : r.biI < s.cur.setWidth 9 := by
    rw [BitVec.lt_def, hb, hcur, BitVec.toNat_setWidth_of_le (by decide)]
    exact of_decide_eq_true hhigh
  simp only [clock, fsm, h.st, h.regs, if_pos habove]
  refine h.next (i := i) rfl ?_ h.mem rfl rfl
  simp only [fetch, tick, h.regs, ← hret]

/-- The coefficient at the candidate moves up to the bound, and the sign takes its place. -/
theorem swaps (hret : r.ret = .b3) (hd : r.dst = dst) (hb : r.biI.toNat = bound) (hbound : bound < 256)
    (hlow : Pq.tooHigh stream bound pos = false) :
    Runs (At stream .fetch r (withSlot pm dst c) pos)
      (BallAt stream dst pm (bound + 1) (r.signs.toNat >>> 1) (pos + 1)
        (Function.update (Function.update c bound (c (stream pos).toNat)) (stream pos).toNat
          (1 - 2 * (r.signs.toNat &&& 1 : Nat)))) := by
  have haddr : dst ++ stream pos = coefAddr dst (stream pos).toNat := by
    rw [coefAddr, BitVec.ofNat_toNat, BitVec.setWidth_eq]
  have hindex : r.biI.setWidth 8 = BitVec.ofNat 8 bound := by rw [← hb, BitVec.ofNat_toNat]
  have hb3 : Runs (fun s => At stream .b3 r (withSlot pm dst c) (pos + 1) s ∧ s.cur = stream pos) fun s =>
      At stream .b4 { r with jb := stream pos } (withSlot pm dst c) (pos + 1) s ∧
        s.pm.mem = withSlot pm dst c ∧ s.pm.ra = coefAddr dst (stream pos).toNat := by
    apply Reaches.edge fun s h => h.1.busy (by decide)
    rintro s i ⟨h, hcur⟩ -
    have hnot : ¬ r.biI < s.cur.setWidth 9 := by
      rw [BitVec.lt_def, hb, hcur, BitVec.toNat_setWidth_of_le (by decide)]
      exact of_decide_eq_false hlow
    simp only [clock, fsm, h.st, h.regs, if_neg hnot]
    refine ⟨h.next (i := i) rfl ?_ h.mem rfl rfl, h.mem, ?_⟩
    · simp only [tick, h.regs, hcur]
    · rw [ra_read, hd, hcur, haddr]
  have hb4 : Runs (fun s => At stream .b4 { r with jb := stream pos } (withSlot pm dst c) (pos + 1) s ∧
      s.pm.mem = withSlot pm dst c ∧ s.pm.ra = coefAddr dst (stream pos).toNat) fun s =>
      At stream .b5 { r with jb := stream pos } (withSlot pm dst c) (pos + 1) s ∧
        s.pm.rq = BitVec.ofInt 32 (c (stream pos).toNat) := by
    apply Reaches.edge fun s h => h.1.busy (by decide)
    rintro s i ⟨h, hmem, hra⟩ -
    simp only [clock, fsm, h.st, h.regs]
    refine ⟨h.next (i := i) rfl h.regs h.mem rfl rfl, ?_⟩
    have hread : withSlot pm dst c (coefAddr dst (stream pos).toNat) = _ := withSlot_at (stream pos).isLt
    rw [← hread, ← hmem, ← hra]
    rfl
  have hb5 : Runs (fun s => At stream .b5 { r with jb := stream pos } (withSlot pm dst c) (pos + 1) s ∧
      s.pm.rq = BitVec.ofInt 32 (c (stream pos).toNat))
      (At stream .bend { r with jb := stream pos }
        (withSlot pm dst (Function.update c bound (c (stream pos).toNat))) (pos + 1)) := by
    apply Reaches.edge fun s h => h.1.busy (by decide)
    rintro s i ⟨h, hrq⟩ -
    simp only [clock, fsm, h.st, h.regs]
    refine h.next (i := i) rfl h.regs ?_ rfl rfl
    rw [written_write, hrq, hd, hindex, withSlot_update hbound]
    exact congrArg (fun x => Function.update x _ _) h.mem
  have hbend : Runs (At stream .bend { r with jb := stream pos }
      (withSlot pm dst (Function.update c bound (c (stream pos).toNat))) (pos + 1))
      (BallAt stream dst pm (bound + 1) (r.signs.toNat >>> 1) (pos + 1)
        (Function.update (Function.update c bound (c (stream pos).toNat)) (stream pos).toNat
          (1 - 2 * (r.signs.toNat &&& 1 : Nat)))) := by
    apply Reaches.edge fun s h => h.busy (by decide)
    rintro s i h -
    have hsign : (if r.signs.getLsbD 0 then 0xFFFFFFFF else 1 : BitVec 32)
        = BitVec.ofInt 32 (1 - 2 * (r.signs.toNat &&& 1 : Nat)) := by
      have hbit : r.signs.getLsbD 0 = decide (r.signs.toNat % 2 = 1) := by
        rw [BitVec.getLsbD, Nat.testBit_zero]
      rw [hbit, Nat.and_one_is_mod]
      rcases Nat.mod_two_eq_zero_or_one r.signs.toNat with h0 | h1
      · rw [h0]
        rfl
      · rw [h1]
        rfl
    refine ⟨{ r with jb := stream pos, signs := r.signs >>> 1, biI := r.biI + 1 }, hd, ?_, ?_, ?_⟩
    · rw [BitVec.toNat_add, hb, show (1 : BitVec 9).toNat = 1 from rfl, Nat.mod_eq_of_lt (by omega)]
    · rw [BitVec.toNat_ushiftRight]
    · simp only [clock, fsm, h.st, h.regs]
      refine h.next (i := i) rfl ?_ ?_ rfl rfl
      · simp only [tick, h.regs]
      · rw [written_write, hsign, hd, haddr, withSlot_update (stream pos).isLt]
        exact congrArg (fun x => Function.update x _ _) h.mem
  exact (fetches .b3 hret).trans (hb3.trans (hb4.trans (hb5.trans hbend)))

theorem asks_next {signs : Nat} (hbound : bound < 256) :
    Runs (BallAt stream dst pm bound signs pos c) fun s => ∃ r : SmpRegs, r.ret = .b3 ∧ r.dst = dst ∧
      r.biI.toNat = bound ∧ r.signs.toNat = signs ∧ At stream .fetch r (withSlot pm dst c) pos s := by
  apply Reaches.edge fun s ⟨r, _, _, _, h⟩ => h.busy (by decide)
  rintro s i ⟨r, hd, hb, hsigns, h⟩ -
  have hless : ¬ (256 : BitVec 9) ≤ r.biI := by
    rw [BitVec.le_def, hb, show (256 : BitVec 9).toNat = 256 from rfl]
    omega
  refine ⟨{ r with ret := .b3 }, rfl, hd, hb, hsigns, ?_⟩
  simp only [clock, fsm, h.st, h.regs, if_neg hless]
  refine h.next (i := i) rfl ?_ h.mem rfl rfl
  simp only [fetch, tick, h.regs]

theorem ball_finishes {signs : Nat} :
    Runs (BallAt stream dst pm 256 signs pos c) (Finished stream (withSlot pm dst c) pos) := by
  apply Reaches.edge fun s ⟨r, _, _, _, h⟩ => h.busy (by decide)
  rintro s i ⟨r, hd, hb, hsigns, h⟩ -
  obtain ⟨hs, hp⟩ := h.squeeze (i := i)
  have hfull : (256 : BitVec 9) ≤ r.biI := by
    rw [BitVec.le_def, hb]
    decide
  simp only [clock, fsm, h.st, h.regs, if_pos hfull]
  exact ⟨rfl, rfl, rfl, h.mem, hs, hp⟩

/-- One turn of the loop of the reference. -/
theorem turns {signs at' : Nat} (hbound : bound < 256) (hl : Loops (Pq.tooHigh stream bound) (· + 1) pos at') :
    Runs (BallAt stream dst pm bound signs pos c)
      (BallAt stream dst pm (bound + 1) (signs >>> 1) (at' + 1)
        (Function.update (Function.update c bound (c (stream at').toNat)) (stream at').toNat
          (1 - 2 * (signs &&& 1 : Nat)))) := by
  apply (asks_next hbound).trans
  apply Reaches.exists
  intro r
  apply Reaches.fact (p := r.ret = .b3 ∧ r.dst = dst ∧ r.biI.toNat = bound ∧ r.signs.toNat = signs)
    fun s h => ⟨h.1, h.2.1, h.2.2.1, h.2.2.2.1⟩
  rintro ⟨hret, hd, hb, rfl⟩
  apply Reaches.weaken fun s h => h.2.2.2.2
  apply (Reaches.while (fun x hx => passes_over hret hb hx) hl).trans
  apply Reaches.fact fun s h => h.1
  intro hlow
  apply Reaches.weaken fun s h => h.2
  exact swaps hret hd hb hbound hlow

/-- Where the reference ends the unit ends with the same polynomial. -/
theorem swaps_ball {m signs last : Nat} {d : Pq.Poly} (hm : bound + m = 256)
    (h : Pq.SwapsBall stream m bound pos signs c d last) :
    Runs (BallAt stream dst pm bound signs pos c) (Finished stream (withSlot pm dst d) last) := by
  induction h with
  | done i pos signs c =>
    obtain rfl : i = 256 := hm
    exact ball_finishes
  | swap at' hl _ ih => exact (turns (by omega) hl).trans (ih (by omega))

/-- Where it does not end the unit goes on for ever. -/
theorem ball_forever {m signs : Nat} (hm : bound + m = 256)
    (h : ∀ d last, ¬ Pq.SwapsBall stream m bound pos signs c d last) {s : PqSmp}
    (hs : BallAt stream dst pm bound signs pos c s) {i : Nat → SmpIn} (hi : Given (fun _ => True) Comes i) (n : Nat) :
    Busy (after clock s i n) := by
  induction m generalizing bound signs pos c s i n with
  | zero => exact absurd (.done bound pos signs c) (h c pos)
  | succ m ih =>
    by_cases hl : ∃ at', Loops (Pq.tooHigh stream bound) (· + 1) pos at'
    · obtain ⟨at', hl⟩ := hl
      apply (turns (by omega) hl).never _ hs hi
      intro s hs i hi n
      exact ih (by omega) (fun d last hd => h d last (.swap at' hl hd)) hs hi n
    · apply (asks_next (by omega)).never _ hs hi
      rintro s ⟨r, hret, hd, hb, hsigns, hat⟩ i hi n
      apply Reaches.forever (C := fun pos s => At stream .fetch r (withSlot pm dst c) pos s)
        (fun x hx => passes_over hret hb hx) _ (fun y hy => hl ⟨y, hy⟩) hat hi
      intro x s _ hx hx'
      have hpos := hx.pos.symm.trans hx'.pos
      omega

end GoiKey.Rtl.PqSmp
