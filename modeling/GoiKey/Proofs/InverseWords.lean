import GoiKey.Model.BnInverse
import GoiKey.Proofs.BnPasses

/-! The word engine in the modes that RKINV and RDP use. -/

namespace GoiKey.Rtl.BnInverse

open Clocked

variable {c : InvCtl} {rf : BitVec 11 → BitVec 16} {s : BnInverse} {i : InvIn} {st : InvState}

def Busy (s : BnInverse) : Prop := s.st ≠ .idle

/-- Where the machine is, how it is set up and what the registers hold. -/
structure Holds (st : InvState) (c : InvCtl) (rf : BitVec 11 → BitVec 16) (s : BnInverse) : Prop where
  st : s.st = st
  ctl : s.ctl = c
  rf : s.rf.mem = rf
  still : s.rf.we = false

theorem Holds.busy (h : Holds st c rf s) (hst : st ≠ .idle) : Busy s := by
  rw [Busy, h.st]
  exact hst

/-- What the edge leaves before the state is looked at. -/
theorem Holds.tick (h : Holds st c rf s) (hst : st ≠ .idle) (i : InvIn) :
    Holds st c rf (s.tick i) ∧ (s.tick i).rf.ra = s.rf.ra ∧ (s.tick i).rf.rq = rf s.rf.ra := by
  have hbusy : s.st ≠ .idle := h.busy hst
  refine ⟨⟨h.st, h.ctl, ?_, ?_⟩, ?_, ?_⟩
  all_goals simp only [BnInverse.tick, if_neg hbusy, BlockRam.clock, BlockRam.written, h.still, h.rf,
    Bool.false_eq_true, if_false]

theorem Holds.move {n n' : BnInverse} {st' : InvState} {c' : InvCtl} (h : Holds st c rf n) (hst : n'.st = st')
    (hctl : n'.ctl = c') (hrf : n'.rf.mem = n.rf.mem ∧ n'.rf.we = n.rf.we) : Holds st' c' rf n' :=
  ⟨hst, hctl, hrf.1.trans h.rf, hrf.2.trans h.still⟩

/-! A round. -/

variable {j : BitVec 7} {w : InvWord}

structure Round (st : InvState) (c : InvCtl) (rf : BitVec 11 → BitVec 16) (w : InvWord) (s : BnInverse) : Prop where
  holds : Holds st c rf s
  word : s.word = w

/-- The word is there, and its product with the constant. -/
structure Loaded (c : InvCtl) (rf : BitVec 11 → BitVec 16) (w : InvWord) (s : BnInverse) : Prop
    extends Round .eF c rf w s where
  x : s.x = rf (addr c.psb (w.pj.setWidth 6))
  kp : s.prod.kp = c.pk.setWidth 34 * (s.x.setWidth 17).setWidth 34

theorem Round.pj (h : Round st c rf w s) : s.word.pj = w.pj := congrArg InvWord.pj h.word

theorem loads : Leads clock Busy (Round .eA c rf w) (Loaded c rf w) := by
  have hA : Leads clock Busy (Round .eA c rf w) fun s =>
      Round .eB c rf w s ∧ s.rf.ra = addr c.psb (w.pj.setWidth 6) := by
    apply Leads.edge fun s h => h.holds.busy (by decide)
    intro s i h
    obtain ⟨ht, -⟩ := h.holds.tick (by decide) i
    simp only [clock, fsm, h.holds.st]
    exact ⟨⟨ht.move rfl ht.ctl ⟨rfl, rfl⟩, h.word⟩, by rw [BlockRam.read, h.holds.ctl, h.pj]⟩
  have hB : Leads clock Busy (fun s => Round .eB c rf w s ∧ s.rf.ra = addr c.psb (w.pj.setWidth 6)) fun s =>
      Round .eC c rf w s ∧ s.rf.rq = rf (addr c.psb (w.pj.setWidth 6)) := by
    apply Leads.edge fun s h => h.1.holds.busy (by decide)
    rintro s i ⟨h, hra⟩
    obtain ⟨ht, -, hrq⟩ := h.holds.tick (by decide) i
    simp only [clock, fsm, h.holds.st]
    exact ⟨⟨ht.move rfl ht.ctl ⟨rfl, rfl⟩, h.word⟩, by rw [hrq, hra]⟩
  have hC : Leads clock Busy (fun s => Round .eC c rf w s ∧ s.rf.rq = rf (addr c.psb (w.pj.setWidth 6))) fun s =>
      Round .eD c rf w s ∧ s.x = rf (addr c.psb (w.pj.setWidth 6)) := by
    apply Leads.edge fun s h => h.1.holds.busy (by decide)
    rintro s i ⟨h, hrq⟩
    obtain ⟨ht, -⟩ := h.holds.tick (by decide) i
    simp only [clock, fsm, h.holds.st]
    exact ⟨⟨ht.move rfl ht.ctl ⟨rfl, rfl⟩, h.word⟩, hrq⟩
  have hD : Leads clock Busy (fun s => Round .eD c rf w s ∧ s.x = rf (addr c.psb (w.pj.setWidth 6))) fun s =>
      Round .eE c rf w s ∧ s.x = rf (addr c.psb (w.pj.setWidth 6)) ∧ s.prod.ka = c.pk ∧
        s.prod.kb = s.x.setWidth 17 := by
    apply Leads.edge fun s h => h.1.holds.busy (by decide)
    rintro s i ⟨h, hx⟩
    obtain ⟨ht, -⟩ := h.holds.tick (by decide) i
    simp only [clock, fsm, h.holds.st]
    exact ⟨⟨ht.move rfl ht.ctl ⟨rfl, rfl⟩, h.word⟩, hx, by rw [h.holds.ctl], rfl⟩
  have hE : Leads clock Busy (fun s => Round .eE c rf w s ∧ s.x = rf (addr c.psb (w.pj.setWidth 6)) ∧
      s.prod.ka = c.pk ∧ s.prod.kb = s.x.setWidth 17) (Loaded c rf w) := by
    apply Leads.edge fun s h => h.1.holds.busy (by decide)
    rintro s i ⟨h, hx, hka, hkb⟩
    obtain ⟨ht, -⟩ := h.holds.tick (by decide) i
    simp only [clock, fsm, h.holds.st]
    exact ⟨⟨ht.move rfl ht.ctl ⟨rfl, rfl⟩, h.word⟩, hx, by
      change s.prod.ka.setWidth 34 * s.prod.kb.setWidth 34 = _
      rw [hka, hkb]
      rfl⟩
  exact hA.trans (hB.trans (hC.trans (hD.trans hE)))

/-! What a mode makes of a word. -/

/-- The word that is written. -/
def stored (s : BnInverse) : Option (BitVec 16) :=
  match s.ctl.pm with
  | .fill => some s.immw
  | .rem => none
  | .dp => some (s.dpd.setWidth 16)

/-- What goes on to the next word. -/
def next (s : BnInverse) : InvWord :=
  match s.ctl.pm with
  | .fill => s.word
  | .rem => { s.word with
      racc := if s.word.pj.getLsbD 0 then s.word.racc - s.x.setWidth 24 else s.word.racc + s.x.setWidth 24 }
  | .dp => { s.word with
      cy := (s.kadd.extractLsb' 16 18).setWidth 20
      cc := s.dps.extractLsb' 16 2
      pv := s.dpd.setWidth 16 }

/-- The registers after the word. -/
def put (c : InvCtl) (rf : BitVec 11 → BitVec 16) (j : BitVec 7) (wd : Option (BitVec 16)) : BitVec 11 → BitVec 16 :=
  wd.elim rf (Function.update rf (addr c.pdst (j.setWidth 6)))

/-- The write of a word is on its way. -/
structure Storing (c : InvCtl) (rf : BitVec 11 → BitVec 16) (w : InvWord) (s : BnInverse) : Prop where
  st : s.st = .eG
  ctl : s.ctl = c
  rf : s.rf.written = rf
  word : s.word = w

theorem stores {rf' : BitVec 11 → BitVec 16} {v : InvWord} (hj : w.pj < 64) : Leads clock Busy
    (fun s => Loaded c rf w s ∧ put c rf w.pj s.stored = rf' ∧ s.next = v) (Storing c rf' v) := by
  apply Leads.edge fun s h => h.1.holds.busy (by decide)
  rintro s i ⟨h, rfl, rfl⟩
  obtain ⟨ht, -⟩ := h.holds.tick (by decide) i
  have hctl : s.ctl = c := h.holds.ctl
  have hword := h.word
  have hmem : (s.tick i).rf.written = rf := by
    rw [BlockRam.written, ht.still, ht.rf]
    rfl
  have heq : s.clock i = s.eF { s.tick i with st := .eG } := by
    simp only [clock, fsm, h.holds.st]
  rw [heq]
  have hdst : addr s.ctl.pdst (s.word.pj.setWidth 6) = addr c.pdst (w.pj.setWidth 6) := by rw [hctl, hword]
  cases hpm : s.ctl.pm with
  | fill =>
    simp only [eF, stored, next, hpm, hdst]
    exact ⟨rfl, ht.ctl, by rw [put, ← ht.rf]; rfl, rfl⟩
  | rem =>
    simp only [eF, stored, next, hpm]
    exact ⟨rfl, ht.ctl, hmem, rfl⟩
  | dp =>
    simp only [eF, stored, next, hpm, hdst]
    rw [if_pos (by rw [hword]; exact hj)]
    exact ⟨rfl, ht.ctl, by rw [put, ← ht.rf]; rfl, rfl⟩

/-- The edge that stores, before the counter is looked at. -/
theorem Storing.tick (h : Storing c rf w s) (i : InvIn) : Holds .eG c rf (s.tick i) ∧ (s.tick i).word = w := by
  have hbusy : s.st ≠ .idle := by
    rw [h.st]
    decide
  refine ⟨⟨h.st, h.ctl, ?_, ?_⟩, h.word⟩
  · rw [BnInverse.tick, if_neg hbusy]
    exact h.rf
  · rw [BnInverse.tick, if_neg hbusy]
    rfl

theorem Storing.next (hj : w.pj ≠ 63) :
    Leads clock Busy (Storing c rf w) (Round .eA c rf { w with pj := w.pj + 1 }) := by
  apply Leads.edge fun s h => by rw [Busy, h.st]; decide
  intro s i h
  obtain ⟨ht, hw⟩ := h.tick i
  have hlast : ¬s.word.pj = 63 := by
    rw [h.word]
    exact hj
  simp only [clock, fsm, h.st, if_neg hlast]
  exact ⟨ht.move rfl ht.ctl ⟨rfl, rfl⟩, by rw [hw, h.word]⟩

theorem Storing.last (hj : w.pj = 63) : Leads clock Busy (Storing c rf w) (Round .eFin c rf w) := by
  apply Leads.edge fun s h => by rw [Busy, h.st]; decide
  intro s i h
  obtain ⟨ht, hw⟩ := h.tick i
  have hlast : s.word.pj = 63 := by
    rw [h.word]
    exact hj
  simp only [clock, fsm, h.st, if_pos hlast]
  exact ⟨ht.move rfl ht.ctl ⟨rfl, rfl⟩, hw⟩

/-! A pass. -/

theorem begins : Leads clock Busy (Holds .eInit c rf) (Round .eA c rf ⟨0, 0, 0, 0, 0⟩) := by
  apply Leads.edge fun s h => h.busy (by decide)
  intro s i h
  obtain ⟨ht, -⟩ := h.tick (by decide) i
  simp only [clock, fsm, h.st]
  exact ⟨ht.move rfl ht.ctl ⟨rfl, rfl⟩, rfl⟩

/-- After the last word, when the pass is over. -/
def afterPass (c : InvCtl) : InvState := if c.pm = .rem then .eRed else c.pret

theorem ends : Leads clock Busy (Round .eFin c rf w) (Round (afterPass c) c rf w) := by
  have h1 : Leads clock Busy (Round .eFin c rf w) (Round .eFin2 c rf w) := by
    apply Leads.edge fun s h => h.holds.busy (by decide)
    intro s i h
    obtain ⟨ht, -⟩ := h.holds.tick (by decide) i
    simp only [clock, fsm, h.holds.st]
    exact ⟨ht.move rfl ht.ctl ⟨rfl, rfl⟩, h.word⟩
  have h2 : Leads clock Busy (Round .eFin2 c rf w) (Round .eFin3 c rf w) := by
    apply Leads.edge fun s h => h.holds.busy (by decide)
    intro s i h
    obtain ⟨ht, -⟩ := h.holds.tick (by decide) i
    simp only [clock, fsm, h.holds.st]
    exact ⟨ht.move rfl ht.ctl ⟨rfl, rfl⟩, h.word⟩
  have h3 : Leads clock Busy (Round .eFin3 c rf w) (Round (afterPass c) c rf w) := by
    apply Leads.edge fun s h => h.holds.busy (by decide)
    intro s i h
    obtain ⟨ht, -⟩ := h.holds.tick (by decide) i
    simp only [clock, fsm, h.holds.st, h.holds.ctl]
    exact ⟨ht.move rfl ht.ctl ⟨rfl, rfl⟩, h.word⟩
  exact h1.trans (h2.trans h3)

section Pass

variable {I : Nat → (BitVec 11 → BitVec 16) → InvWord → Prop}

/-- Before word `k`. -/
def At (c : InvCtl) (I : Nat → (BitVec 11 → BitVec 16) → InvWord → Prop) (k : Nat) (s : BnInverse) : Prop :=
  ∃ rf w, Round .eA c rf w s ∧ w.pj = BitVec.ofNat 7 k ∧ I k rf w

/-- The words one after the other: what the invariant says of a word, it says of the next. -/
theorem passes (h0 : I 0 rf ⟨0, 0, 0, 0, 0⟩)
    (hI : ∀ k, k < 64 → ∀ rf w s, w.pj = BitVec.ofNat 7 k → I k rf w → Loaded c rf w s →
      I (k + 1) (put c rf w.pj s.stored) s.next)
    (hpj : ∀ k rf w j, I k rf w → I k rf { w with pj := j }) :
    Leads clock Busy (Holds .eInit c rf) fun s => ∃ rf' w, Round (afterPass c) c rf' w s ∧ I 64 rf' w := by
  have hnext : ∀ s : BnInverse, s.next.pj = s.word.pj := by
    intro s
    unfold BnInverse.next
    cases s.ctl.pm <;> rfl
  have hword : ∀ k, k < 64 → Leads clock Busy (At c I k) fun s =>
      ∃ rf w, Storing c rf w s ∧ w.pj = BitVec.ofNat 7 k ∧ I (k + 1) rf w := by
    intro k hk
    apply Leads.exists
    intro rf
    apply Leads.exists
    intro w
    rintro s ⟨hs, hwk, hIk⟩ i
    have hlt : w.pj < 64 := by
      rw [hwk, BitVec.lt_def, BitVec.toNat_ofNat]
      exact Nat.lt_of_le_of_lt (Nat.mod_le _ _) hk
    obtain ⟨n, hn, hl⟩ := loads s hs i
    obtain ⟨m, hm, hst⟩ := stores hlt _ ⟨hl, rfl, rfl⟩ fun d => i (n + d)
    refine ⟨n + m, fun d hd => ?_, ?_⟩
    · rcases Nat.lt_or_ge d n with hlt' | hge
      · exact hn d hlt'
      · obtain ⟨e, rfl⟩ := Nat.exists_eq_add_of_le hge
        rw [after_add]
        exact hm e (by omega)
    · rw [after_add]
      exact ⟨_, _, hst, by rw [hnext, hl.pj, hwk], hI k hk rf w _ hwk hIk hl⟩
  have hround : ∀ k, k < 63 → Leads clock Busy (At c I k) (At c I (k + 1)) := by
    intro k hk
    apply (hword k (by omega)).trans
    apply Leads.exists
    intro rf
    apply Leads.exists
    intro w
    rintro s ⟨hs, hwk, hIk⟩ i
    have hne : w.pj ≠ 63 := by
      rw [hwk]
      intro h
      have hnat : k % 128 = 63 := congrArg BitVec.toNat h
      omega
    obtain ⟨n, hn, hr⟩ := Storing.next hne s hs i
    refine ⟨n, hn, _, _, hr, ?_, hpj _ _ _ _ hIk⟩
    rw [hwk]
    exact (BitVec.ofNat_add ..).symm
  have hlast : Leads clock Busy (At c I 63) fun s => ∃ rf' w, Round (afterPass c) c rf' w s ∧ I 64 rf' w := by
    apply (hword 63 (by decide)).trans
    apply Leads.exists
    intro rf
    apply Leads.exists
    intro w
    rintro s ⟨hs, hwk, hIk⟩ i
    obtain ⟨n, hn, hr⟩ := (Storing.last (by rw [hwk]; rfl)).trans ends s hs i
    exact ⟨n, hn, _, _, hr, hIk⟩
  have hbegin : Leads clock Busy (Holds .eInit c rf) (At c I 0) :=
    begins.imp (fun _ h => h) fun s h => ⟨rf, _, h, rfl, h0⟩
  exact hbegin.trans ((Leads.loop hround).trans hlast)

end Pass

end GoiKey.Rtl.BnInverse
