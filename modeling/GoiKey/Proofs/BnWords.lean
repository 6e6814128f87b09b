import GoiKey.Lib.Clocked
import GoiKey.Lib.Limbs
import GoiKey.Model.BnEngine

/-!
The word engine: what one pass over the words of its operands does, mode by mode.
-/

namespace GoiKey.Rtl.BnEngine

open Clocked

/-- The engine works; what the clients ask for meanwhile is not looked at. -/
def Busy (s : BnEngine) : Prop := s.st ≠ .idle

/-- Nothing is in the pipeline. -/
structure Empty (p : BnPipe) : Prop where
  vq0 : p.vq0 = false
  vq1 : p.vq1 = false
  vq2 : p.vq2 = false
  v0 : p.v0 = false
  v1 : p.v1 = false
  v2 : p.v2 = false
  t64p : p.t64p = false

theorem Empty.clock {p : BnPipe} (h : Empty p) (tnw : BitVec 7) (a b d : BitVec 16) :
    Empty (p.clock tnw a b d) := by
  obtain ⟨h1, h2, h3, h4, h5, h6, h7⟩ := h
  constructor <;> simp only [BnPipe.clock, h1, h2, h4, h5, h6, Bool.false_and]

theorem Empty.out {p : BnPipe} (h : Empty p) (tnw : BitVec 8) (t : BlockRam 8) : p.out tnw t = t := by
  simp only [BnPipe.out, h.v2, h.t64p, Bool.false_and, Bool.false_eq_true, if_false]

/-- Nor is any write on its way. -/
structure Still (s : BnEngine) : Prop where
  pipe : Empty s.pipe
  rf : s.rf.we = false
  m : s.m.we = false
  t : s.t.we = false

/-- Where the engine is, how it is set up, and what its memories hold. -/
structure Holds (st : BnState) (c : BnCtl) (o : BnOp) (rf : BitVec 11 → BitVec 16)
    (m : BitVec 6 → BitVec 16) (t : BitVec 8 → BitVec 16) (s : BnEngine) : Prop where
  st : s.st = st
  ctl : s.ctl = c
  op : s.op = o
  rf : s.rf.mem = rf
  m : s.m.mem = m
  t : s.t.mem = t
  still : Still s

variable {c : BnCtl} {o : BnOp} {rf : BitVec 11 → BitVec 16} {m : BitVec 6 → BitVec 16}
variable {t : BitVec 8 → BitVec 16} {s : BnEngine} {i : BnIn} {st : BnState}

theorem Holds.busy (h : Holds st c o rf m t s) (hst : st ≠ .idle) : Busy s := by
  rw [Busy, h.st]
  exact hst

/-- What the edge leaves before the state is looked at. -/
theorem Holds.tick (h : Holds st c o rf m t s) (hst : st ≠ .idle) :
    Holds st c o rf m t (s.tick i) ∧ (s.tick i).word = s.word ∧ (s.tick i).mul = s.mul ∧
      (s.tick i).rf.ra = s.rf.ra ∧ (s.tick i).m.ra = s.m.ra ∧ (s.tick i).t.ra = s.t.ra ∧
      (s.tick i).rf.rq = rf s.rf.ra ∧ (s.tick i).m.rq = m s.m.ra ∧ (s.tick i).t.rq = t s.t.ra := by
  have hbusy : s.st ≠ .idle := h.busy hst
  obtain ⟨hpipe, hrf, hm, ht⟩ := h.still
  refine ⟨⟨h.st, h.ctl, h.op, ?_, ?_, ?_, ?_⟩, rfl, rfl, ?_, rfl, ?_, ?_, ?_, ?_⟩
  all_goals simp only [BnEngine.tick, if_neg hbusy, hpipe.out, BlockRam.clock, BlockRam.written, hrf, hm, ht,
    h.rf, h.m, h.t, Bool.false_eq_true, if_false]
  exact ⟨hpipe.clock _ _ _ _, rfl, rfl, rfl⟩

/-- A state that differs only in the registers named here. -/
theorem Holds.move {n n' : BnEngine} {st' : BnState} {c' : BnCtl} {o' : BnOp} (h : Holds st c o rf m t n)
    (hst : n'.st = st') (hctl : n'.ctl = c') (hop : n'.op = o') (hpipe : n'.pipe = n.pipe)
    (hrf : n'.rf.mem = n.rf.mem ∧ n'.rf.we = n.rf.we) (hm : n'.m.mem = n.m.mem ∧ n'.m.we = n.m.we)
    (ht : n'.t.mem = n.t.mem ∧ n'.t.we = n.t.we) : Holds st' c' o' rf m t n' := by
  refine ⟨hst, hctl, hop, hrf.1.trans h.rf, hm.1.trans h.m, ht.1.trans h.t, ?_⟩
  exact ⟨hpipe ▸ h.still.pipe, hrf.2.trans h.still.rf, hm.2.trans h.still.m, ht.2.trans h.still.t⟩

/-! The words of a round. -/

/-- The word engine at a word, with the carry and the flag of the last comparison. -/
structure Round (st : BnState) (c : BnCtl) (o : BnOp) (rf : BitVec 11 → BitVec 16)
    (m : BitVec 6 → BitVec 16) (t : BitVec 8 → BitVec 16) (j : BitVec 7) (cy : BitVec 20) (ge : Bool)
    (s : BnEngine) : Prop where
  holds : Holds st c o rf m t s
  pj : s.word.pj = j
  cy : s.word.cy = cy
  ge : s.word.ge = ge

variable {j : BitVec 7} {cy : BitVec 20} {ge : Bool}

theorem Round.busy (h : Round st c o rf m t j cy ge s) (hst : st ≠ .idle) : Busy s := h.holds.busy hst

/-- The operands of a word are there. -/
structure Loaded (c : BnCtl) (o : BnOp) (rf : BitVec 11 → BitVec 16) (m : BitVec 6 → BitVec 16)
    (t : BitVec 8 → BitVec 16) (j : BitVec 7) (cy : BitVec 20) (ge : Bool) (s : BnEngine) : Prop
    extends Round .eF c o rf m t j cy ge s where
  x : s.word.x = rf (rfa o.emode c.psb (j.setWidth 6))
  y : s.word.y = rf (rfa o.emode c.psc (j.setWidth 6))
  z : s.word.z = m (j.setWidth 6)
  w : s.word.w = t (j.setWidth 8 + c.ptoff)

theorem loads : Leads clock Busy (Round .eA c o rf m t j cy ge) (Loaded c o rf m t j cy ge) := by
  -- The addresses stand for a clock, the words come on the next.
  have hA : Leads clock Busy (Round .eA c o rf m t j cy ge) fun s => Round .eB c o rf m t j cy ge s ∧
      s.rf.ra = rfa o.emode c.psb (j.setWidth 6) ∧ s.m.ra = j.setWidth 6 ∧
      s.t.ra = j.setWidth 8 + c.ptoff := by
    apply Leads.edge fun s h => h.busy (by decide)
    rintro s i ⟨h, hpj, hcy, hge⟩
    obtain ⟨ht, hw, -⟩ := h.tick (i := i) (by decide)
    simp only [clock, fsm, h.st]
    refine ⟨⟨ht.move rfl ht.ctl ht.op rfl ⟨rfl, rfl⟩ ⟨rfl, rfl⟩ ⟨rfl, rfl⟩, ?_, ?_, ?_⟩, ?_, ?_, ?_⟩
    · rw [hw, hpj]
    · rw [hw, hcy]
    · rw [hw, hge]
    · rw [BlockRam.read, h.op, h.ctl, hpj]
    · rw [BlockRam.read, hpj]
    · rw [BlockRam.read, h.ctl, hpj]
  have hB : Leads clock Busy (fun s => Round .eB c o rf m t j cy ge s ∧
      s.rf.ra = rfa o.emode c.psb (j.setWidth 6) ∧ s.m.ra = j.setWidth 6 ∧
      s.t.ra = j.setWidth 8 + c.ptoff) fun s => Round .eC c o rf m t j cy ge s ∧
      s.rf.rq = rf (rfa o.emode c.psb (j.setWidth 6)) ∧ s.m.rq = m (j.setWidth 6) ∧
      s.t.rq = t (j.setWidth 8 + c.ptoff) := by
    apply Leads.edge fun s h => h.1.busy (by decide)
    rintro s i ⟨⟨h, hpj, hcy, hge⟩, hrf, hm, ht'⟩
    obtain ⟨ht, hw, -, -, -, -, hrq, hmq, htq⟩ := h.tick (i := i) (by decide)
    simp only [clock, fsm, h.st]
    refine ⟨⟨ht.move rfl ht.ctl ht.op rfl ⟨rfl, rfl⟩ ⟨rfl, rfl⟩ ⟨rfl, rfl⟩, ?_, ?_, ?_⟩, ?_, ?_, ?_⟩
    · rw [hw, hpj]
    · rw [hw, hcy]
    · rw [hw, hge]
    · rw [hrq, hrf]
    · rw [hmq, hm]
    · rw [htq, ht']
  have hC : Leads clock Busy (fun s => Round .eC c o rf m t j cy ge s ∧
      s.rf.rq = rf (rfa o.emode c.psb (j.setWidth 6)) ∧ s.m.rq = m (j.setWidth 6) ∧
      s.t.rq = t (j.setWidth 8 + c.ptoff)) fun s => Round .eD c o rf m t j cy ge s ∧
      s.rf.ra = rfa o.emode c.psc (j.setWidth 6) ∧ s.word.x = rf (rfa o.emode c.psb (j.setWidth 6)) ∧
      s.word.z = m (j.setWidth 6) ∧ s.word.w = t (j.setWidth 8 + c.ptoff) := by
    apply Leads.edge fun s h => h.1.busy (by decide)
    rintro s i ⟨⟨h, hpj, hcy, hge⟩, hrq, hmq, htq⟩
    obtain ⟨ht, hw, -⟩ := h.tick (i := i) (by decide)
    simp only [clock, fsm, h.st]
    refine ⟨⟨ht.move rfl ht.ctl ht.op rfl ⟨rfl, rfl⟩ ⟨rfl, rfl⟩ ⟨rfl, rfl⟩, ?_, ?_, ?_⟩, ?_, hrq, hmq, htq⟩
    · rw [hw, hpj]
    · rw [hw, hcy]
    · rw [hw, hge]
    · rw [BlockRam.read, h.op, h.ctl, hpj]
  have hD : Leads clock Busy (fun s => Round .eD c o rf m t j cy ge s ∧
      s.rf.ra = rfa o.emode c.psc (j.setWidth 6) ∧ s.word.x = rf (rfa o.emode c.psb (j.setWidth 6)) ∧
      s.word.z = m (j.setWidth 6) ∧ s.word.w = t (j.setWidth 8 + c.ptoff)) fun s =>
      Round .eE c o rf m t j cy ge s ∧ s.rf.rq = rf (rfa o.emode c.psc (j.setWidth 6)) ∧
      s.word.x = rf (rfa o.emode c.psb (j.setWidth 6)) ∧ s.word.z = m (j.setWidth 6) ∧
      s.word.w = t (j.setWidth 8 + c.ptoff) := by
    apply Leads.edge fun s h => h.1.busy (by decide)
    rintro s i ⟨⟨h, hpj, hcy, hge⟩, hra, hx, hz, hw'⟩
    obtain ⟨ht, hw, -, -, -, -, hrq, -⟩ := h.tick (i := i) (by decide)
    simp only [clock, fsm, h.st]
    refine ⟨⟨ht.move rfl ht.ctl ht.op rfl ⟨rfl, rfl⟩ ⟨rfl, rfl⟩ ⟨rfl, rfl⟩, ?_, ?_, ?_⟩, ?_, ?_, ?_, ?_⟩
    · rw [hw, hpj]
    · rw [hw, hcy]
    · rw [hw, hge]
    · rw [hrq, hra]
    · rw [hw, hx]
    · rw [hw, hz]
    · rw [hw, hw']
  have hE : Leads clock Busy (fun s => Round .eE c o rf m t j cy ge s ∧
      s.rf.rq = rf (rfa o.emode c.psc (j.setWidth 6)) ∧
      s.word.x = rf (rfa o.emode c.psb (j.setWidth 6)) ∧ s.word.z = m (j.setWidth 6) ∧
      s.word.w = t (j.setWidth 8 + c.ptoff)) (Loaded c o rf m t j cy ge) := by
    apply Leads.edge fun s h => h.1.busy (by decide)
    rintro s i ⟨⟨h, hpj, hcy, hge⟩, hrq, hx, hz, hw'⟩
    obtain ⟨ht, hw, -⟩ := h.tick (i := i) (by decide)
    simp only [clock, fsm, h.st]
    refine ⟨⟨ht.move rfl ht.ctl ht.op rfl ⟨rfl, rfl⟩ ⟨rfl, rfl⟩ ⟨rfl, rfl⟩, ?_, ?_, ?_⟩, ?_, hrq, ?_, ?_⟩
    · rw [hw, hpj]
    · rw [hw, hcy]
    · rw [hw, hge]
    · rw [hw, hx]
    · rw [hw, hz]
    · rw [hw, hw']
  exact hA.trans (hB.trans (hC.trans (hD.trans hE)))

/-! What a mode makes of a word. -/

/-- A write, if there is one, and what it does. -/
def put {a : Nat} (f : BitVec a → BitVec 16) : Option (BitVec a × BitVec 16) → BitVec a → BitVec 16
  | none => f
  | some (wa, wd) => Function.update f wa wd

def putRam {a : Nat} (r : BlockRam a) : Option (BitVec a × BitVec 16) → BlockRam a
  | none => r
  | some (wa, wd) => r.write wa wd

theorem putRam_written {a : Nat} {r : BlockRam a} (h : r.we = false) (w : Option (BitVec a × BitVec 16)) :
    (putRam r w).written = put r.mem w := by
  cases w with
  | none => simp [putRam, put, BlockRam.written, h]
  | some w => rfl

structure Effect where
  cy : BitVec 20
  rf : Option (BitVec 11 × BitVec 16)
  m : Option (BitVec 6 × BitVec 16)
  t : Option (BitVec 8 × BitVec 16)

/-- The effect of E_F. -/
def effect (s : BnEngine) : Effect :=
  let dst := rfa s.op.emode s.ctl.pdst (s.word.pj.setWidth 6)
  match s.ctl.pm with
  | .add => ⟨(s.sumA.extractLsb' 16 1).setWidth 20, none, none,
      some (s.word.pj.setWidth 8, s.sumA.setWidth 16)⟩
  | .subm => ⟨(s.sumS.extractLsb' 16 2).setWidth 20, none, none,
      some (s.word.pj.setWidth 8, s.sumS.setWidth 16)⟩
  | .copy => ⟨s.word.cy, none, none, some (s.word.pj.setWidth 8, s.word.x)⟩
  | .fge => ⟨(s.dWZ.extractLsb' 16 1).setWidth 20, none, none, none⟩
  | .fwr => ⟨(s.dWZ.extractLsb' 16 1).setWidth 20,
      some (dst, if s.word.ge then s.dWZ.setWidth 16 else s.word.w), none, none⟩
  | .negm => ⟨(s.dNZ.extractLsb' 16 1).setWidth 20, some (dst, s.dNZ.setWidth 16), none, none⟩
  | .tom => ⟨s.word.cy, none, some (s.word.pj.setWidth 6, s.word.x), none⟩
  | .tomk => ⟨s.word.cy, none,
      some (s.word.pj.setWidth 6, modWord s.op.mselR (s.word.pj.setWidth 4)), none⟩

theorem eF_eq (s n : BnEngine) (h : n.word = s.word) : s.eF n =
    { n with
      word.cy := s.effect.cy
      rf := putRam n.rf s.effect.rf
      m := putRam n.m s.effect.m
      t := putRam n.t s.effect.t } := by
  unfold BnEngine.eF effect
  cases s.ctl.pm <;> simp only [putRam, ← h]

/-- The writes of a word are on their way. -/
structure Storing (c : BnCtl) (o : BnOp) (rf : BitVec 11 → BitVec 16) (m : BitVec 6 → BitVec 16)
    (t : BitVec 8 → BitVec 16) (j : BitVec 7) (ge : Bool) (e : Effect) (s : BnEngine) : Prop where
  st : s.st = .eG
  ctl : s.ctl = c
  op : s.op = o
  rf : s.rf.written = put rf e.rf
  m : s.m.written = put m e.m
  t : s.t.written = put t e.t
  pipe : Empty s.pipe
  pj : s.word.pj = j
  cy : s.word.cy = e.cy
  ge : s.word.ge = ge

theorem stores {e : Effect} : Leads clock Busy (fun s => Loaded c o rf m t j cy ge s ∧ s.effect = e)
    (Storing c o rf m t j ge e) := by
  apply Leads.edge fun s h => h.1.busy (by decide)
  rintro s i ⟨h, rfl⟩
  obtain ⟨ht, hw, -⟩ := h.holds.tick (i := i) (by decide)
  have heq : s.clock i = s.eF { s.tick i with st := .eG } := by
    simp only [clock, fsm, h.holds.st]
  have hword : ({ s.tick i with st := .eG } : BnEngine).word = s.word := hw
  rw [heq, eF_eq _ _ hword]
  exact {
    st := rfl
    ctl := ht.ctl
    op := ht.op
    rf := (putRam_written ht.still.rf _).trans (by rw [ht.rf])
    m := (putRam_written ht.still.m _).trans (by rw [ht.m])
    t := (putRam_written ht.still.t _).trans (by rw [ht.t])
    pipe := ht.still.pipe
    pj := by rw [← h.pj, ← hw]
    cy := rfl
    ge := by rw [← h.ge, ← hw] }

/-- The last word of a register. -/
def lastWord (o : BnOp) : BitVec 6 := if o.emode then 15 else 63

theorem Storing.nlast {e : Effect} (h : Storing c o rf m t j ge e s) : s.nlast = lastWord o := by
  rw [BnEngine.nlast, h.op, lastWord]

/-- The edge that stores, before the counter is looked at. -/
theorem Storing.tick {e : Effect} (h : Storing c o rf m t j ge e s) :
    Holds .eG c o (put rf e.rf) (put m e.m) (put t e.t) (s.tick i) ∧ (s.tick i).word = s.word := by
  have hbusy : s.st ≠ .idle := by
    rw [h.st]
    decide
  refine ⟨⟨h.st, h.ctl, h.op, ?_, h.m, ?_, ?_⟩, rfl⟩
  · rw [BnEngine.tick, if_neg hbusy]
    exact h.rf
  · rw [BnEngine.tick, h.pipe.out]
    exact h.t
  · refine ⟨h.pipe.clock _ _ _ _, ?_, rfl, ?_⟩
    · rw [BnEngine.tick, if_neg hbusy]
      rfl
    · rw [BnEngine.tick, h.pipe.out]
      rfl

theorem Storing.next {e : Effect} (hj : j ≠ (lastWord o).setWidth 7) :
    Leads clock Busy (Storing c o rf m t j ge e)
      (Round .eA c o (put rf e.rf) (put m e.m) (put t e.t) (j + 1) e.cy ge) := by
  apply Leads.edge fun s h => by rw [Busy, h.st]; decide
  intro s i h
  obtain ⟨ht, hw⟩ := h.tick (i := i)
  have hlast : ¬s.word.pj = s.nlast.setWidth 7 := by
    rw [h.pj, h.nlast]
    exact hj
  simp only [clock, fsm, h.st, if_neg hlast]
  exact ⟨ht.move rfl ht.ctl ht.op rfl ⟨rfl, rfl⟩ ⟨rfl, rfl⟩ ⟨rfl, rfl⟩, by rw [h.pj],
    by rw [hw, h.cy], by rw [hw, h.ge]⟩

theorem Storing.last {e : Effect} (hj : j = (lastWord o).setWidth 7) :
    Leads clock Busy (Storing c o rf m t j ge e)
      (Round .eFin c o (put rf e.rf) (put m e.m) (put t e.t) j e.cy ge) := by
  apply Leads.edge fun s h => by rw [Busy, h.st]; decide
  intro s i h
  obtain ⟨ht, hw⟩ := h.tick (i := i)
  have hlast : s.word.pj = s.nlast.setWidth 7 := by
    rw [h.pj, h.nlast]
    exact hj
  simp only [clock, fsm, h.st, if_pos hlast]
  exact ⟨ht.move rfl ht.ctl ht.op rfl ⟨rfl, rfl⟩ ⟨rfl, rfl⟩ ⟨rfl, rfl⟩, by rw [hw, h.pj],
    by rw [hw, h.cy], by rw [hw, h.ge]⟩

/-! The end of a pass. -/

def topAddress (o : BnOp) : BitVec 8 := (lastWord o).setWidth 8 + 1

/-- The word a pass leaves above the others. -/
def topWord (c : BnCtl) (o : BnOp) (cy : BitVec 20) : Option (BitVec 8 × BitVec 16) :=
  match c.pm with
  | .add => some (topAddress o, (cy.extractLsb' 0 1).setWidth 16)
  | .subm => some (topAddress o, (cy.extractLsb' 0 2).setWidth 16 - 1)
  | .copy => some (topAddress o, 0)
  | _ => none

/-- The flag a pass leaves. -/
def flagAfter (c : BnCtl) (o : BnOp) (t : BitVec 8 → BitVec 16) (cy : BitVec 20) (ge : Bool) : Bool :=
  if c.pm = .fge then t (topAddress o) ≠ 0 ∨ cy.getLsbD 0 = false else ge

/-- Selecting a modulus of the table sets its constant, too. -/
def opAfter (c : BnCtl) (o : BnOp) : BnOp := if c.pm = .tomk then { o with nprime := modN0 o.mselR } else o

theorem tnw_eq (h : s.op = o) : s.tnw = topAddress o := by
  rw [BnEngine.tnw, BnEngine.nlast, h, topAddress, lastWord]

theorem finishes : Leads clock Busy (Round .eFin c o rf m t j cy ge) fun s =>
    Holds c.pret c (opAfter c o) rf m (put t (topWord c o cy)) s ∧ s.word.ge = flagAfter c o t cy ge := by
  have hfin : Leads clock Busy (Round .eFin c o rf m t j cy ge) fun s =>
      (s.st = .eFin2 ∧ s.ctl = c ∧ s.op = o ∧ s.rf.mem = rf ∧ s.m.mem = m) ∧
      (s.rf.we = false ∧ s.m.we = false ∧ Empty s.pipe ∧ s.t.written = put t (topWord c o cy)) ∧
      (s.word.cy = cy ∧ s.word.ge = ge) ∧ (c.pm = .fge → s.t.ra = topAddress o ∧ s.t.mem = t) := by
    apply Leads.edge fun s h => h.busy (by decide)
    rintro s i ⟨h, -, hcy, hge⟩
    obtain ⟨ht, hw, -⟩ := h.tick (i := i) (by decide)
    have hkept : (s.tick i).t.written = t := by
      rw [BlockRam.written, ht.still.t, if_neg Bool.false_ne_true, ht.t]
    have hput : ∀ wa wd, ((s.tick i).t.write wa wd).written = Function.update t wa wd := by
      intro wa wd
      rw [← ht.t]
      rfl
    simp only [clock, fsm, h.st, BnEngine.eFin, tnw_eq h.op, topWord, ← h.ctl]
    cases hpm : s.ctl.pm
    case add =>
      exact ⟨⟨rfl, rfl, ht.op, ht.rf, ht.m⟩, ⟨ht.still.rf, ht.still.m, ht.still.pipe,
        by rw [← hcy]; exact hput _ _⟩, ⟨by rw [hw, hcy], by rw [hw, hge]⟩, fun hf => absurd hf (by decide)⟩
    case subm =>
      exact ⟨⟨rfl, rfl, ht.op, ht.rf, ht.m⟩, ⟨ht.still.rf, ht.still.m, ht.still.pipe,
        by rw [← hcy]; exact hput _ _⟩, ⟨by rw [hw, hcy], by rw [hw, hge]⟩, fun hf => absurd hf (by decide)⟩
    case copy =>
      exact ⟨⟨rfl, rfl, ht.op, ht.rf, ht.m⟩, ⟨ht.still.rf, ht.still.m, ht.still.pipe, hput _ _⟩,
        ⟨by rw [hw, hcy], by rw [hw, hge]⟩, fun hf => absurd hf (by decide)⟩
    case fge =>
      exact ⟨⟨rfl, rfl, ht.op, ht.rf, ht.m⟩, ⟨ht.still.rf, ht.still.m, ht.still.pipe, hkept⟩,
        ⟨by rw [hw, hcy], by rw [hw, hge]⟩, fun _ => ⟨rfl, ht.t⟩⟩
    all_goals
      exact ⟨⟨rfl, rfl, ht.op, ht.rf, ht.m⟩, ⟨ht.still.rf, ht.still.m, ht.still.pipe, hkept⟩,
        ⟨by rw [hw, hcy], by rw [hw, hge]⟩, fun hf => absurd hf (by decide)⟩
  refine hfin.trans ?_
  have hfin2 : Leads clock Busy (fun s =>
      (s.st = .eFin2 ∧ s.ctl = c ∧ s.op = o ∧ s.rf.mem = rf ∧ s.m.mem = m) ∧
      (s.rf.we = false ∧ s.m.we = false ∧ Empty s.pipe ∧ s.t.written = put t (topWord c o cy)) ∧
      (s.word.cy = cy ∧ s.word.ge = ge) ∧ (c.pm = .fge → s.t.ra = topAddress o ∧ s.t.mem = t)) fun s =>
      Holds .eFin3 c o rf m (put t (topWord c o cy)) s ∧ s.word.cy = cy ∧ s.word.ge = ge ∧
      (c.pm = .fge → s.t.rq = t (topAddress o)) := by
    apply Leads.edge fun s h => by rw [Busy, h.1.1]; decide
    rintro s i ⟨⟨hst, hctl, hop, hrf, hm⟩, ⟨hrfw, hmw, hpipe, hput⟩, ⟨hcy, hge⟩, hfge⟩
    have hbusy : s.st ≠ .idle := by
      rw [hst]
      decide
    have hclock : s.clock i = { s.tick i with st := .eFin3 } := by
      simp only [clock, fsm, hst]
    have hrf' : (s.tick i).rf = s.rf.clock := by rw [BnEngine.tick, if_neg hbusy]
    have ht' : (s.tick i).t = s.t.clock := by rw [BnEngine.tick, hpipe.out]
    rw [hclock]
    refine ⟨⟨rfl, hctl, hop, ?_, ?_, ?_, ⟨hpipe.clock _ _ _ _, ?_, rfl, ?_⟩⟩, hcy, hge, fun hf => ?_⟩
    · rw [hrf', ← hrf]
      exact if_neg (by rw [hrfw]; decide)
    · rw [← hm]
      exact if_neg (by rw [hmw]; decide)
    · rw [ht', ← hput]
      rfl
    · rw [hrf']
      rfl
    · rw [ht']
      rfl
    · obtain ⟨hra, hmem⟩ := hfge hf
      rw [ht', ← hra, ← hmem]
      rfl
  refine hfin2.trans (Leads.edge (fun s h => h.1.busy (by decide)) ?_)
  rintro s i ⟨h, hcy, hge, hfge⟩
  obtain ⟨ht, hw, -⟩ := h.tick (i := i) (by decide)
  simp only [clock, fsm, h.st, BnEngine.eFin3]
  have hctl : s.ctl = c := h.ctl
  cases hpm : s.ctl.pm
  case fge =>
    have hc : c.pm = .fge := by rw [← hctl, hpm]
    refine ⟨ht.move (by rw [hctl]) ht.ctl ?_ rfl ⟨rfl, rfl⟩ ⟨rfl, rfl⟩ ⟨rfl, rfl⟩, ?_⟩
    · rw [opAfter, if_neg (by rw [hc]; decide)]
      exact ht.op
    · rw [flagAfter, if_pos hc]
      simp only [hfge hc, hcy]
  case tomk =>
    have hc : c.pm = .tomk := by rw [← hctl, hpm]
    refine ⟨ht.move (by rw [hctl]) ht.ctl ?_ rfl ⟨rfl, rfl⟩ ⟨rfl, rfl⟩ ⟨rfl, rfl⟩, ?_⟩
    · rw [opAfter, if_pos hc, ← h.op]
      rfl
    · rw [flagAfter, if_neg (by rw [hc]; decide)]
      rw [hw, hge]
  all_goals
    have hc := hctl ▸ hpm
    refine ⟨ht.move (by rw [hctl]) ht.ctl ?_ rfl ⟨rfl, rfl⟩ ⟨rfl, rfl⟩ ⟨rfl, rfl⟩, ?_⟩
    · rw [opAfter, if_neg (by rw [hc]; decide)]
      exact ht.op
    · rw [flagAfter, if_neg (by rw [hc]; decide), hw, hge]

/-! A whole pass. -/

/-- The words of a register. -/
def words (o : BnOp) : Nat := if o.emode then 16 else 64

theorem words_pos (o : BnOp) : 0 < words o := by
  unfold words
  split <;> decide

theorem words_le (o : BnOp) : words o ≤ 64 := by
  unfold words
  split <;> decide

theorem lastWord_eq (o : BnOp) : (lastWord o).setWidth 7 = BitVec.ofNat 7 (words o - 1) := by
  unfold lastWord words
  split <;> rfl

/-- The rule for a pass: `I` says what holds of the memories and the carry after some words. -/
theorem passes {I : Nat → (BitVec 11 → BitVec 16) → (BitVec 6 → BitVec 16) → (BitVec 8 → BitVec 16) →
      BitVec 20 → Prop} (ge : Bool)
    (hI : ∀ k, k < words o → ∀ rf m t cy s, I k rf m t cy →
      Loaded c o rf m t (BitVec.ofNat 7 k) cy ge s →
      I (k + 1) (put rf s.effect.rf) (put m s.effect.m) (put t s.effect.t) s.effect.cy) :
    Leads clock Busy (fun s => Holds .eInit c o rf m t s ∧ s.word.ge = ge ∧
        I 0 rf m t (if c.pm = .subm then 1 else 0))
      (fun s => ∃ rf m t cy, I (words o) rf m t cy ∧
        Holds c.pret c (opAfter c o) rf m (put t (topWord c o cy)) s ∧
        s.word.ge = flagAfter c o t cy ge) := by
  have hinit : Leads clock Busy (fun s => Holds .eInit c o rf m t s ∧ s.word.ge = ge ∧
      I 0 rf m t (if c.pm = .subm then 1 else 0)) fun s =>
      ∃ rf m t cy, I 0 rf m t cy ∧ Round .eA c o rf m t (BitVec.ofNat 7 0) cy ge s := by
    apply Leads.edge fun s h => h.1.busy (by decide)
    rintro s i ⟨h, hge, hI0⟩
    obtain ⟨ht, hw, -⟩ := h.tick (i := i) (by decide)
    refine ⟨rf, m, t, _, hI0, ?_⟩
    simp only [clock, fsm, h.st]
    exact ⟨ht.move rfl ht.ctl ht.op rfl ⟨rfl, rfl⟩ ⟨rfl, rfl⟩ ⟨rfl, rfl⟩, rfl, by rw [h.ctl], by rw [hw, hge]⟩
  have hround : ∀ k, k < words o → ∀ rf m t cy, I k rf m t cy → Leads clock Busy
      (Round .eA c o rf m t (BitVec.ofNat 7 k) cy ge)
      (fun s => ∃ rf m t e, I (k + 1) (put rf e.rf) (put m e.m) (put t e.t) e.cy ∧
        Storing c o rf m t (BitVec.ofNat 7 k) ge e s) := by
    intro k hk rf m t cy hIk
    refine loads.trans ?_
    intro s hs i
    obtain ⟨n, hn, hstored⟩ := stores (e := s.effect) s ⟨hs, rfl⟩ i
    exact ⟨n, hn, rf, m, t, s.effect, hI k hk rf m t cy s hIk hs, hstored⟩
  have hnext : ∀ k < words o - 1, Leads clock Busy
      (fun s => ∃ rf m t cy, I k rf m t cy ∧ Round .eA c o rf m t (BitVec.ofNat 7 k) cy ge s)
      (fun s => ∃ rf m t cy, I (k + 1) rf m t cy ∧ Round .eA c o rf m t (BitVec.ofNat 7 (k + 1)) cy ge s) := by
    rintro k hk s ⟨rf, m, t, cy, hIk, hs⟩ i
    have hne : BitVec.ofNat 7 k ≠ (lastWord o).setWidth 7 := by
      rw [lastWord_eq]
      intro heq
      have htoNat := congrArg BitVec.toNat heq
      have hle := words_le o
      rw [BitVec.toNat_ofNat, BitVec.toNat_ofNat, Nat.mod_eq_of_lt (by omega), Nat.mod_eq_of_lt (by omega)]
        at htoNat
      omega
    suffices hlead : Leads clock Busy (Round .eA c o rf m t (BitVec.ofNat 7 k) cy ge) fun s =>
        ∃ rf m t cy, I (k + 1) rf m t cy ∧ Round .eA c o rf m t (BitVec.ofNat 7 (k + 1)) cy ge s from
      hlead s hs i
    apply (hround k (by omega) rf m t cy hIk).trans
    rintro s ⟨rf, m, t, e, hI', hs⟩ i
    obtain ⟨n, hn, hr⟩ := Storing.next hne s hs i
    have hsucc : BitVec.ofNat 7 k + 1 = BitVec.ofNat 7 (k + 1) := (BitVec.ofNat_add k 1).symm
    exact ⟨n, hn, _, _, _, _, hI', hsucc ▸ hr⟩
  have hall := Leads.loop (I := fun k s => ∃ rf m t cy, I k rf m t cy ∧
    Round .eA c o rf m t (BitVec.ofNat 7 k) cy ge s) hnext
  refine hinit.trans (hall.trans ?_)
  rintro s ⟨rf, m, t, cy, hIk, hs⟩ i
  have hpos := words_pos o
  suffices hlead : Leads clock Busy (Round .eA c o rf m t (BitVec.ofNat 7 (words o - 1)) cy ge) fun s =>
      ∃ rf m t cy, I (words o) rf m t cy ∧
        Holds c.pret c (opAfter c o) rf m (put t (topWord c o cy)) s ∧
        s.word.ge = flagAfter c o t cy ge from
    hlead s hs i
  apply (hround (words o - 1) (by omega) rf m t cy hIk).trans
  rintro s ⟨rf, m, t, e, hI', hs⟩ i
  rw [Nat.sub_add_cancel hpos] at hI'
  obtain ⟨n, hn, hdone⟩ := ((Storing.last (lastWord_eq o).symm).trans finishes) s hs i
  exact ⟨n, hn, _, _, _, _, hI', hdone⟩

end GoiKey.Rtl.BnEngine
