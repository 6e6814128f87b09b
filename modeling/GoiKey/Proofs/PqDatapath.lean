import GoiKey.Lib.Clocked
import GoiKey.Proofs.PolySlots
import GoiKey.Proofs.PqMontgomery

/-!
The polynomial unit from clock to clock: the words it reads, the products it waits for, and
which of its sums have to be exact.
-/

namespace GoiKey.Rtl.PqPoly

open Clocked SyncRam

/-- The unit works; what it is asked for meanwhile is not looked at. -/
def Busy (s : PqPoly) : Prop := s.st ≠ .idle

/-- None of the sums of the transforms and of the products that are formed on this clock
goes over the datapath. -/
structure Exact (s : PqPoly) : Prop where
  pipe : s.mont.v3 = true → Mont.Fits s.mont.p3 s.mont.m3
  zeta : s.st = .nr1c → s.regs.inv = true → ¬s.zq.negOverflow
  difference : s.st = .nr2c → s.regs.inv = true → ¬s.regs.x.ssubOverflow s.pm.rq
  low : s.st = .nw0 → ¬s.regs.x.saddOverflow (if s.regs.inv then s.regs.y else s.regs.tt)
  high : s.st = .nw1 → s.regs.inv = false → ¬s.regs.x.ssubOverflow s.regs.tt

/-- What is asked of the states on the way: the sums are exact as far as `F` holds. -/
def Works (F : Prop) (s : PqPoly) : Prop := Busy s ∧ (F → Exact s)

abbrev Runs (F : Prop) (P Q : PqPoly → Prop) : Prop := Reaches clock (fun _ => True) (fun _ => True) (Works F) P Q

/-- Where the unit is, its registers, what the memory holds, and what is in the multiplier. -/
structure Piped (mIn : Bool) (pipe : Mont → Prop) (st : PolyState) (r : PolyRegs) (pm : BitVec 14 → BitVec 32)
    (s : PqPoly) : Prop where
  st : s.st = st
  regs : s.regs = r
  mem : s.pm.written = pm
  rom : s.st ≠ .zw → s.zq = zrom r.za
  mIn : s.mIn = mIn
  mont : pipe s.mont

/-- Nothing is in the multiplier. -/
structure Drained (m : Mont) : Prop where
  v1 : m.v1 = false
  v2 : m.v2 = false
  v3 : m.v3 = false
  outV : m.outV = false

abbrev At : PolyState → PolyRegs → (BitVec 14 → BitVec 32) → PqPoly → Prop := Piped false Drained

variable {F : Prop} {mIn mIn' : Bool} {pipe pipe' : Mont → Prop} {st st' : PolyState} {r r' : PolyRegs}
variable {pm pm' : BitVec 14 → BitVec 32} {s n : PqPoly} {i : PolyIn}

theorem Drained.clock {m : Mont} (h : Drained m) (a b : BitVec 32) : Drained (m.clock false a b) :=
  ⟨rfl, h.v1, h.v2, h.v3⟩

/-- What a clock leaves. -/
theorem Piped.next (h : Piped mIn pipe st r pm s) (hst : n.st = st') (hregs : n.regs = r') (hmem : n.pm.written = pm')
    (hza : st' = .zw ∨ r'.za = r.za) (hrom : n.zq = s.tick.zq) (hin : n.mIn = mIn')
    (hmont : pipe' (s.mont.clock s.mIn r.ma r.mb)) (hsame : n.mont = s.tick.mont) : Piped mIn' pipe' st' r' pm' n := by
  refine ⟨hst, hregs, hmem, fun hne => ?_, hin, ?_⟩
  · rcases hza with hzw | hza
    · exact absurd (hst.trans hzw) hne
    · rw [hrom, hza, ← h.regs]
      rfl
  · rw [hsame, tick, h.regs]
    exact hmont

theorem Piped.drained (h : At st r pm s) (a b : BitVec 32) : Drained (s.mont.clock s.mIn a b) := by
  rw [h.mIn]
  exact h.mont.clock a b

/-- A clock on which nothing is asked of the multiplier. -/
theorem Piped.still (h : At st r pm s) (hst : n.st = st') (hregs : n.regs = r') (hmem : n.pm.written = pm')
    (hza : st' = .zw ∨ r'.za = r.za) (hrom : n.zq = s.tick.zq) (hin : n.mIn = false) (hsame : n.mont = s.tick.mont) :
    At st' r' pm' n := h.next hst hregs hmem hza hrom hin (h.drained r.ma r.mb) hsame

/-- The states in which no sum is formed. -/
def Plain (st : PolyState) : Prop := st ≠ .idle ∧ st ≠ .nr1c ∧ st ≠ .nr2c ∧ st ≠ .nw0 ∧ st ≠ .nw1

instance : Decidable (Plain st) := inferInstanceAs (Decidable (_ ∧ _))

theorem Piped.busy (h : Piped mIn pipe st r pm s) (hst : st ≠ .idle) : Busy s := by
  rw [Busy, h.st]
  exact hst

theorem Piped.works (h : Piped mIn pipe st r pm s) (hst : Plain st) (hpipe : s.mont.v3 = true → Mont.Fits s.mont.p3 s.mont.m3) :
    Works F s := by
  obtain ⟨hidle, hnr1c, hnr2c, hnw0, hnw1⟩ := hst
  refine ⟨h.busy hidle, fun _ => ⟨hpipe, fun hs => ?_, fun hs => ?_, fun hs => ?_, fun hs => ?_⟩⟩
  · exact absurd (h.st.symm.trans hs) hnr1c
  · exact absurd (h.st.symm.trans hs) hnr2c
  · exact absurd (h.st.symm.trans hs) hnw0
  · exact absurd (h.st.symm.trans hs) hnw1

theorem Piped.quiet (h : At st r pm s) : s.mont.v3 = true → Mont.Fits s.mont.p3 s.mont.m3 := by
  intro hv
  rw [h.mont.v3] at hv
  cases hv

/-- One clock in a state without sums. -/
theorem plain_edge {P Q : PqPoly → Prop} (hst : Plain st) (hP : ∀ s, P s → At st r pm s)
    (hnext : ∀ s i, P s → Q (clock s i)) : Runs F P Q :=
  Reaches.edge (fun s h => (hP s h).works hst (hP s h).quiet) fun s i h _ => hnext s i h

/-! Reading the memory. -/

/-- The word at `addr` is there. -/
structure Fetched (st : PolyState) (r : PolyRegs) (pm : BitVec 14 → BitVec 32) (addr : BitVec 14) (s : PqPoly) :
    Prop where
  at_ : At st r pm s
  mem : s.pm.mem = pm
  ra : s.pm.ra = addr
  rq : s.pm.rq = pm addr

theorem reads {st0 st2 : PolyState} (st1 : PolyState) {addr : BitVec 14} (hplain0 : Plain st0) (hplain1 : Plain st1)
    (h0 : ∀ s i, s.st = st0 → s.regs = r → clock s i = { s.tick with pm := s.tick.pm.read addr, st := st1 })
    (h1 : ∀ s i, s.st = st1 → clock s i = { s.tick with st := st2 }) :
    Runs F (At st0 r pm) (Fetched st2 r pm addr) := by
  have hask : Runs F (At st0 r pm) fun s => At st1 r pm s ∧ s.pm.mem = pm ∧ s.pm.ra = addr := by
    apply plain_edge hplain0 fun s h => h
    intro s i h
    rw [h0 s i h.st h.regs]
    exact ⟨h.still rfl h.regs h.mem (.inr rfl) rfl rfl rfl, h.mem, rfl⟩
  apply hask.trans
  apply plain_edge hplain1 fun s h => h.1
  rintro s i ⟨h, hmem, hra⟩
  rw [h1 s i h.st]
  refine ⟨h.still rfl h.regs h.mem (.inr rfl) rfl rfl rfl, h.mem, hra, ?_⟩
  rw [← hmem, ← hra]
  rfl

/-! The multiplier. -/

/-- After one clock of it. -/
def Stage1 (r : PolyRegs) (m : Mont) : Prop :=
  m.v1 = true ∧ m.p1 = Mont.product r.ma r.mb ∧ m.v2 = false ∧ m.v3 = false ∧ m.outV = false

def Stage2 (r : PolyRegs) (m : Mont) : Prop :=
  m.v2 = true ∧ m.p2 = Mont.product r.ma r.mb ∧ m.t2 = Mont.quotient (Mont.product r.ma r.mb) ∧
    m.v1 = false ∧ m.v3 = false ∧ m.outV = false

def Stage3 (r : PolyRegs) (m : Mont) : Prop :=
  m.v3 = true ∧ m.p3 = Mont.product r.ma r.mb ∧ m.m3 = Mont.multiple (Mont.quotient (Mont.product r.ma r.mb)) ∧
    m.v1 = false ∧ m.v2 = false ∧ m.outV = false

def Stage4 (r : PolyRegs) (m : Mont) : Prop :=
  m.outV = true ∧ m.r = Mont.reduced r.ma r.mb ∧ m.v1 = false ∧ m.v2 = false ∧ m.v3 = false

/-- A state that waits for the product. -/
theorem multiplies (hplain : Plain st)
    (hwait : ∀ s i, s.st = st → s.mont.outV = false → clock s i = s.tick) :
    Runs F (Piped true Drained st r pm) (Piped false (Stage4 r) st r pm) := by
  have h1 : Runs F (Piped true Drained st r pm) (Piped false (Stage1 r) st r pm) := by
    apply Reaches.edge fun s h => h.works hplain fun hv => by rw [h.mont.v3] at hv; cases hv
    intro s i h _
    rw [hwait s i h.st h.mont.outV]
    refine h.next h.st h.regs h.mem (.inr rfl) rfl rfl ?_ rfl
    rw [h.mIn]
    exact ⟨rfl, rfl, h.mont.v1, h.mont.v2, h.mont.v3⟩
  have h2 : Runs F (Piped false (Stage1 r) st r pm) (Piped false (Stage2 r) st r pm) := by
    apply Reaches.edge fun s h => h.works hplain fun hv => by
      obtain ⟨-, -, -, hv3, -⟩ := h.mont
      rw [hv3] at hv
      cases hv
    intro s i h _
    obtain ⟨hv1, hp1, hv2, hv3, hout⟩ := h.mont
    rw [hwait s i h.st hout]
    refine h.next h.st h.regs h.mem (.inr rfl) rfl rfl ?_ rfl
    rw [h.mIn]
    exact ⟨hv1, hp1, congrArg Mont.quotient hp1, rfl, hv2, hv3⟩
  have h3 : Runs F (Piped false (Stage2 r) st r pm) (Piped false (Stage3 r) st r pm) := by
    apply Reaches.edge fun s h => h.works hplain fun hv => by
      obtain ⟨-, -, -, -, hv3, -⟩ := h.mont
      rw [hv3] at hv
      cases hv
    intro s i h _
    obtain ⟨hv2, hp2, ht2, hv1, hv3, hout⟩ := h.mont
    rw [hwait s i h.st hout]
    refine h.next h.st h.regs h.mem (.inr rfl) rfl rfl ?_ rfl
    rw [h.mIn]
    exact ⟨hv2, hp2, congrArg Mont.multiple ht2, rfl, hv1, hv3⟩
  have h4 : Runs F (Piped false (Stage3 r) st r pm) (Piped false (Stage4 r) st r pm) := by
    apply Reaches.edge fun s h => h.works hplain fun _ => by
      obtain ⟨-, hp3, hm3, -⟩ := h.mont
      rw [hp3, hm3]
      exact Mont.fits r.ma r.mb
    intro s i h _
    obtain ⟨hv3, hp3, hm3, hv1, hv2, hout⟩ := h.mont
    rw [hwait s i h.st hout]
    refine h.next h.st h.regs h.mem (.inr rfl) rfl rfl ?_ rfl
    rw [h.mIn]
    refine ⟨hv3, ?_, rfl, hv1, hv2⟩
    have hhigh : (s.mont.clock false r.ma r.mb).r = Mont.high s.mont.p3 s.mont.m3 := rfl
    rw [hhigh, hp3, hm3]
    rfl
  exact h1.trans (h2.trans (h3.trans h4))

/-- The product is taken. -/
theorem Piped.taken (h : Piped false (Stage4 r) st r pm s) :
    s.mont.outV = true ∧ s.mont.r = Mont.reduced r.ma r.mb ∧ Drained (s.mont.clock s.mIn r.ma r.mb) := by
  obtain ⟨hout, hr, hv1, hv2, hv3⟩ := h.mont
  refine ⟨hout, hr, ?_⟩
  rw [h.mIn]
  exact ⟨rfl, hv1, hv2, hv3⟩

/-- The state that takes a product. -/
theorem takes {Q : PqPoly → Prop} (hplain : Plain st) (hnext : ∀ s i, Piped false (Stage4 r) st r pm s → Q (clock s i)) :
    Runs F (Piped false (Stage4 r) st r pm) Q := by
  apply Reaches.edge fun s h => h.works hplain fun hv => by
    obtain ⟨-, -, -, -, hv3⟩ := h.mont
    rw [hv3] at hv
    cases hv
  intro s i h _
  exact hnext s i h

end GoiKey.Rtl.PqPoly
