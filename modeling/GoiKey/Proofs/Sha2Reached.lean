import GoiKey.Proofs.Sha2Digests

/-! What holds of the unit in every run, whatever operations it is given. -/

namespace GoiKey.Rtl.Sha2Unit

open Clocked Sha2

variable {s n : Sha2Unit} {i : In} {M : BitVec 9 → BitVec 64}

/-- The tables are in place, and no write is on its way to them. -/
structure Low (r : SyncRam (BitVec 9) (BitVec 64)) : Prop where
  tables : Tables r.mem
  wa : r.we = true → r.wa.toNat < 128

/-- The states in which no word waits to be written. -/
def Written (c : Ctl) : Prop :=
  c.st = .wc ∨ c.st = .after ∨ c.st = .tpass ∨ c.st = .fin ∨ c.st = .idle ∨ c.st = .der ∧ c.sn ≠ 0

/-- The invariant. -/
structure Sound (s : Sha2Unit) : Prop where
  ram : Low s.ram
  wph : ∀ p, s.wph = some p → p.1.toNat < 128
  go : ∀ l, s.eng.cGo = some l → l.dst.toNat ≤ 72 ∧ s.eng.cp = .idle ∧ s.eng.cDone = false
  dst : s.eng.cp ≠ .idle → s.eng.dst.toNat ≤ 72 ∧ s.eng.cDone = false
  rest : s.ctl.st ≠ .wc → s.eng.cGo = none ∧ s.eng.cp = .idle ∧ s.eng.cDone = false
  busy : s.busy = false ↔ s.ctl.st = .idle
  quiet : Written s.ctl → s.wph = none
  settled : s.ctl.st = .idle → s.ram.we = false
  resume : s.ctl.st = .bend ∨ s.ctl.st = .wc ∧ s.ctl.aft = .blk →
    s.ctl.resume = .stream ∨ s.ctl.resume = .pad ∨ s.ctl.resume = .idx

theorem Tables.update (h : Tables M) {a : BitVec 9} (ha : a.toNat < 128) (x : BitVec 64) :
    Tables (Function.update M a x) where
  k256 n hn := by
    rw [Function.update_of_ne, h.k256 n hn]
    rintro rfl
    simp [K256] at ha
    omega
  k512 n hn := by
    rw [Function.update_of_ne, h.k512 n hn]
    rintro rfl
    simp [K512] at ha
    omega
  iv256 n hn := by
    rw [Function.update_of_ne, h.iv256 n hn]
    rintro rfl
    simp [IV256] at ha
    omega
  iv512 n hn := by
    rw [Function.update_of_ne, h.iv512 n hn]
    rintro rfl
    simp [IV512] at ha
    omega

theorem Low.written (h : Low s.ram) : Tables s.ram.written := by
  rw [SyncRam.written]
  split
  · exact h.tables.update (h.wa ‹_›) _
  · exact h.tables

theorem Low.read {r : SyncRam (BitVec 9) (BitVec 64)} (h : Low r) (a : BitVec 9) : Low (r.read a) := ⟨h.tables, h.wa⟩

theorem Low.write {r : SyncRam (BitVec 9) (BitVec 64)} (h : Low r) {a : BitVec 9} (ha : a.toNat < 128)
    (x : BitVec 64) : Low (r.write a x) := ⟨h.tables, fun _ => ha⟩

theorem Low.ite {p : Prop} [Decidable p] {r r' : SyncRam (BitVec 9) (BitVec 64)} (h : Low r) (h' : Low r') :
    Low (if p then r else r') := by
  split
  · exact h
  · exact h'

/-! The engine. -/

theorem tick_low (h : Sound s) : Low (s.shift (s.tick i)).ram := by
  have hw := h.ram.written
  simp only [shift, tick]
  cases hwph : s.wph with
  | none => exact ⟨hw, fun h => absurd h Bool.false_ne_true⟩
  | some p => exact ⟨hw, fun _ => h.wph p hwph⟩

/-- What the engine leaves alone, and what it ends with. -/
structure Engined (s n : Sha2Unit) : Prop where
  ctl : n.ctl = s.ctl
  busy : n.busy = s.busy
  wph : n.wph = none
  ram : Low n.ram
  cGo : n.eng.cGo = none
  done : n.eng.cDone = true → n.eng.cp = .idle ∧ s.eng.cp = .final
  dst : n.eng.cp ≠ .idle → n.eng.dst.toNat ≤ 72
  rest : s.eng.cp = .idle → s.eng.cGo = none → n.eng.cp = .idle
  we : s.wph = none → s.eng.cp = .idle → n.ram.we = false

/-- A phase that writes nothing. -/
theorem next_engined (h : Sound s) (hcp : s.eng.cp ≠ .idle) {m : Sha2Unit} (hram : Low m.ram)
    (hctl : m.ctl = s.ctl ∧ m.busy = s.busy ∧ m.wph = none)
    (heng : m.eng.cGo = none ∧ m.eng.cDone = false ∧ m.eng.dst = s.eng.dst) (last : BitVec 7) (cp : Phase) :
    Engined s (s.next m last cp) := by
  have hdst := (h.dst hcp).1
  rw [← heng.2.2] at hdst
  rw [next]
  split
  · refine ⟨hctl.1, hctl.2.1, hctl.2.2, hram, heng.1, fun hd => ?_, fun _ => hdst, fun hn => absurd hn hcp,
      fun _ hn => absurd hn hcp⟩
    exact absurd (heng.2.1.symm.trans hd) Bool.false_ne_true
  · refine ⟨hctl.1, hctl.2.1, hctl.2.2, hram, heng.1, fun hd => ?_, fun _ => hdst, fun hn => absurd hn hcp,
      fun _ hn => absurd hn hcp⟩
    exact absurd (heng.2.1.symm.trans hd) Bool.false_ne_true

theorem before_engined (h : Sound s) : Engined s (s.before i) := by
  have hlow := tick_low (i := i) h
  cases hcp : s.eng.cp with
  | idle =>
    cases hgo : s.eng.cGo with
    | none =>
      have heq : s.before i = s.shift (s.tick i) := by rw [before, engine, hcp, hgo]
      rw [heq]
      refine ⟨rfl, rfl, rfl, hlow, rfl, fun hd => absurd hd Bool.false_ne_true, fun hne => absurd hcp hne,
        fun _ _ => hcp, fun hwph _ => ?_⟩
      simp only [shift, tick, hwph]
      rfl
    | some l =>
      obtain ⟨hdst, -⟩ := h.go l hgo
      rw [before, engine, hcp, hgo]
      refine ⟨rfl, rfl, rfl, hlow, rfl, fun hd => absurd hd Bool.false_ne_true, fun _ => hdst,
        fun _ hn => absurd hn (by rw [hgo]; exact Option.some_ne_none l), fun hwph _ => ?_⟩
      simp only [shift, tick, hwph]
      rfl
  | chain =>
    rw [before, engine, hcp]
    exact next_engined (m := s.loadChain (s.shift (s.tick i))) h (by rw [hcp]; decide) ((hlow.read _).ite hlow)
      ⟨rfl, rfl, rfl⟩ ⟨rfl, rfl, rfl⟩ _ _
  | window =>
    rw [before, engine, hcp]
    exact next_engined (m := s.loadWindow (s.shift (s.tick i))) h (by rw [hcp]; decide) (hlow.read _) ⟨rfl, rfl, rfl⟩
      ⟨rfl, rfl, rfl⟩ _ _
  | rounds =>
    rw [before, engine, hcp]
    exact next_engined (m := s.roundStep (s.shift (s.tick i))) h (by rw [hcp]; decide) (hlow.read _) ⟨rfl, rfl, rfl⟩
      ⟨rfl, rfl, rfl⟩ _ _
  | final =>
    have hne : s.eng.cp ≠ .idle := by
      rw [hcp]
      decide
    have hdst := (h.dst hne).1
    have hwa : (s.eng.dst + (widx s.cj).setWidth 9).toNat < 128 := by
      have hlt := (widx s.cj).isLt
      rw [BitVec.toNat_add, BitVec.toNat_setWidth]
      omega
    have hfinal : Low (s.finalAdd (s.shift (s.tick i))).ram :=
      Low.ite (((hlow.read _).ite hlow).write hwa _) ((hlow.read _).ite hlow)
    rw [before, engine, hcp]
    by_cases h9 : s.eng.cn = 9
    · simp only [h9, if_true]
      exact ⟨rfl, rfl, rfl, hfinal, rfl, fun _ => ⟨rfl, hcp⟩, fun hne => absurd rfl hne, fun _ _ => rfl,
        fun _ hn => absurd hn hne⟩
    · simp only [h9, if_false]
      exact ⟨rfl, rfl, rfl, hfinal, rfl, fun hd => absurd hd Bool.false_ne_true, fun _ => hdst,
        fun hn => absurd hn hne, fun _ hn => absurd hn hne⟩

/-! The control. -/

/-- A state whose engine rests. -/
theorem Sound.of_rest (hram : Low n.ram) (hwph : ∀ p, n.wph = some p → p.1.toNat < 128)
    (heng : n.eng.cGo = none ∧ n.eng.cp = .idle ∧ n.eng.cDone = false) (hbusy : n.busy = false ↔ n.ctl.st = .idle)
    (hquiet : Written n.ctl → n.wph = none) (hsettled : n.ctl.st = .idle → n.ram.we = false)
    (hresume : n.ctl.st = .bend ∨ n.ctl.st = .wc ∧ n.ctl.aft = .blk →
      n.ctl.resume = .stream ∨ n.ctl.resume = .pad ∨ n.ctl.resume = .idx) : Sound n where
  ram := hram
  wph := hwph
  go l hl := absurd (heng.1.symm.trans hl) (Option.some_ne_none l).symm
  dst hne := absurd heng.2.1 hne
  rest _ := heng
  busy := hbusy
  quiet := hquiet
  settled := hsettled
  resume := hresume

/-- The engine is started. -/
theorem Sound.of_launch (hram : Low n.ram) (hwph : n.wph = none) (heng : n.eng.cp = .idle ∧ n.eng.cDone = false)
    (hbusy : n.busy = true) (src : Src) (dg : Bool) (dbase : BitVec 9) {dst : BitVec 9} (hdst : dst.toNat ≤ 72)
    {aft : After} (hresume : aft = .blk → n.ctl.resume = .stream ∨ n.ctl.resume = .pad ∨ n.ctl.resume = .idx) :
    Sound (n.launch src dg dbase dst aft) where
  ram := hram
  wph p hp := absurd (hwph.symm.trans hp) (Option.some_ne_none p).symm
  go l hl := by
    obtain rfl : Launch.mk src dg dbase dst = l := Option.some.inj hl
    exact ⟨hdst, heng⟩
  dst hne := absurd heng.1 hne
  rest hne := absurd rfl hne
  busy := by
    change n.busy = false ↔ State.wc = State.idle
    rw [hbusy]
    decide
  quiet _ := hwph
  settled h := by
    change State.wc = State.idle at h
    exact absurd h (by decide)
  resume h := by
    obtain h | h := h
    · change State.wc = State.bend at h
      exact absurd h (by decide)
    · exact hresume h.2

theorem not_some {α : Type} {o : Option α} (h : o = none) {P : α → Prop} : ∀ p, o = some p → P p :=
  fun p hp => absurd (h.symm.trans hp) (Option.some_ne_none p).symm

/-- The states that bytes are pushed in. -/
def Pushes (st : State) : Prop := st = .stream ∨ st = .pad ∨ st = .idx

theorem nxt_pushes {c : Ctl} (h : Pushes c.st) : Pushes c.nxt := by
  rw [Ctl.nxt]
  split
  · split
    · exact .inr (.inl rfl)
    · exact .inr (.inr rfl)
  · exact h

/-- Where the staging of a byte leads. -/
theorem stage_state {c : Ctl} (h : Pushes c.st) (b : BitVec 8) :
    Pushes (c.stage b).st ∨ (c.stage b).st = .bend ∧ Pushes (c.stage b).resume := by
  have hnxt := nxt_pushes h
  rw [Ctl.stage]
  split
  · exact .inr ⟨rfl, hnxt⟩
  · split
    · exact .inl hnxt
    · exact .inl h

/-- The control at work in a state in which a word may wait to be written. -/
theorem Sound.of_open (hram : Low n.ram) (hwph : ∀ p, n.wph = some p → p.1.toNat < 128)
    (heng : n.eng.cGo = none ∧ n.eng.cp = .idle ∧ n.eng.cDone = false) (hbusy : n.busy = true)
    (hst : Pushes n.ctl.st ∨ n.ctl.st = .bend ∧ Pushes n.ctl.resume ∨ n.ctl.st = .key ∨ n.ctl.st = .der ∧ n.ctl.sn = 0) :
    Sound n := by
  have hidle : n.ctl.st ≠ .idle ∧ n.ctl.st ≠ .wc ∧ ¬Written n.ctl := by
    rw [Written]
    obtain (h | h | h) | ⟨h, -⟩ | h | ⟨h, h0⟩ := hst
    all_goals simp [h]
    exact h0
  refine .of_rest hram hwph heng ?_ (fun h => absurd h hidle.2.2) (fun h => absurd h hidle.1) ?_
  · rw [hbusy]
    exact ⟨fun h => absurd h.symm Bool.false_ne_true, fun h => absurd h hidle.1⟩
  · rintro (h | ⟨h, -⟩)
    · obtain (h' | h' | h') | ⟨-, h'⟩ | h' | ⟨h', -⟩ := hst
      · exact absurd (h.symm.trans h') (by decide)
      · exact absurd (h.symm.trans h') (by decide)
      · exact absurd (h.symm.trans h') (by decide)
      · exact h'
      · exact absurd (h.symm.trans h') (by decide)
      · exact absurd (h.symm.trans h') (by decide)
    · exact absurd h hidle.2.1

theorem busy_of (h : Sound s) (hst : s.ctl.st ≠ .idle) : s.busy = true := by
  cases hb : s.busy with
  | true => rfl
  | false => exact absurd (h.busy.mp hb) hst

/-- The engine rests on. -/
theorem rests (h : Sound s) (hst : s.ctl.st ≠ .wc) :
    (s.before i).eng.cGo = none ∧ (s.before i).eng.cp = .idle ∧ (s.before i).eng.cDone = false := by
  obtain ⟨hgo, hcp, -⟩ := h.rest hst
  have he := before_engined (i := i) h
  refine ⟨he.cGo, he.rest hcp hgo, ?_⟩
  cases hd : (s.before i).eng.cDone with
  | false => rfl
  | true => exact absurd (hcp.symm.trans (he.done hd).2) (by decide)

theorem wordAddr_lt (c : Ctl) : c.wordAddr.toNat < 128 := by
  have h3 := (c.cnt.extractLsb' 3 4).isLt
  have h2 := (c.cnt.extractLsb' 2 4).isLt
  rw [Ctl.wordAddr, BitVec.toNat_add]
  change (0 + (if c.m512 then _ else _ : BitVec 9).toNat) % 512 < 128
  split <;> rw [BitVec.toNat_setWidth] <;> omega

/-- A byte is pushed. -/
theorem stage_sound (h : Sound s) (hst : Pushes s.ctl.st) (b : BitVec 8) {c : Ctl}
    (hc : c.st = (s.ctl.stage b).st ∧ c.resume = (s.ctl.stage b).resume) :
    Sound { s.stage (s.before i) b with ctl := c } := by
  have he := before_engined (i := i) h
  have hidle : s.ctl.st ≠ .idle ∧ s.ctl.st ≠ .wc := by
    obtain h | h | h := hst <;> rw [h] <;> decide
  refine .of_open he.ram ?_ (rests h hidle.2) (he.busy.trans (busy_of h hidle.1)) ?_
  · intro p hp
    simp only [stage, he.wph] at hp
    split at hp
    · obtain rfl := Option.some.inj hp
      exact wordAddr_lt s.ctl
    · exact absurd hp.symm (Option.some_ne_none p)
  · simp only [hc.1, hc.2]
    obtain hp | hb := stage_state hst b
    · exact .inl hp
    · exact .inr (.inl hb)

/-- A state in which nothing is on its way. -/
theorem Sound.of_written (h : Engined s n) (hs : Sound s) (hst : s.ctl.st ≠ .idle)
    (heng : n.eng.cGo = none ∧ n.eng.cp = .idle ∧ n.eng.cDone = false) {r : SyncRam (BitVec 9) (BitVec 64)} {c : Ctl}
    {xa : BitVec 64} (hram : Low r) (hc : c.st = .after ∨ c.st = .tpass ∨ c.st = .fin ∨ c.st = .der ∨ Pushes c.st) :
    Sound { n with ram := r, ctl := c, xa := xa } := by
  refine .of_rest hram (not_some h.wph) heng ?_ (fun _ => h.wph) (fun hidle => ?_) (fun hw => ?_)
  · rw [h.busy, busy_of hs hst]
    refine ⟨fun h => absurd h.symm Bool.false_ne_true, fun hidle => ?_⟩
    rw [hidle] at hc
    revert hc
    simp [Pushes]
  · rw [hidle] at hc
    revert hc
    simp [Pushes]
  · obtain hw | ⟨hw, -⟩ := hw
    · rw [hw] at hc
      revert hc
      simp [Pushes]
    · rw [hw] at hc
      revert hc
      simp [Pushes]

theorem derive_sound (h : Sound s) (hst : s.ctl.st = .der) : Sound (s.derive (s.before i)) := by
  have he := before_engined (i := i) h
  have hne : s.ctl.st ≠ .idle ∧ s.ctl.st ≠ .wc := by
    rw [hst]
    decide
  have heng := rests (i := i) h hne.2
  have hder : (s.before i).ctl.st = .der := by rw [he.ctl, hst]
  have hwrite : ∀ (r : SyncRam (BitVec 9) (BitVec 64)) (x : BitVec 64), Low r →
      Low (r.write (BLK + (s.ctl.sn.extractLsb' 0 4 - 3).setWidth 9) x) := by
    intro r x hr
    apply hr.write
    have hlt := (s.ctl.sn.extractLsb' 0 4 - 3).isLt
    rw [BitVec.toNat_add, BitVec.toNat_setWidth]
    change (0 + _) % 512 < 128
    omega
  rw [derive]
  by_cases h0 : s.ctl.sn = 0
  · rw [if_pos h0]
    split
    · exact .of_written he h hne.1 heng he.ram (.inr (.inr (.inr (.inl hder))))
    · exact .of_written he h hne.1 heng he.ram (.inr (.inr (.inr (.inl hder))))
  · have hlow := ((he.ram.read (KEY + (s.ctl.sn.extractLsb' 0 4 - 1).setWidth 9)).ite (p := s.ctl.sn ≤ 16) he.ram)
    have hlow' := (hwrite _ ((if s.ctl.sn.extractLsb' 0 5 - 3 < s.ctl.nkw then low s.ram.rq ^^^ s.ctl.padConst
      else s.ctl.padConst).setWidth 64) hlow).ite (p := 3 ≤ s.ctl.sn) hlow
    rw [if_neg h0]
    by_cases h18 : s.ctl.sn = 18
    · simp only
      rw [if_pos h18]
      refine .of_launch (n := { s.before i with ram := _, ctl := { (s.before i).ctl with sn := 0 } }) hlow' he.wph heng.2 (he.busy.trans (busy_of h hne.1)) _ _ _ ?_ ?_
      · split <;> decide
      · split <;> exact fun h => absurd h (by decide)
    · simp only
      rw [if_neg h18]
      exact .of_written he h hne.1 heng hlow' (.inr (.inr (.inr (.inl hder))))

theorem afterwards_sound (h : Sound s) (hst : s.ctl.st = .wc) (hdone : s.eng.cDone = true) :
    Sound (s.afterwards (s.before i)) := by
  have he := before_engined (i := i) h
  have hne : s.ctl.st ≠ .idle := by
    rw [hst]
    decide
  have hcp : s.eng.cp = .idle := by
    by_contra hcp
    exact Bool.false_ne_true ((h.dst hcp).2.symm.trans hdone)
  have hgo : s.eng.cGo = none := by
    cases hgo : s.eng.cGo with
    | none => rfl
    | some l => exact absurd ((h.go l hgo).2.2.symm.trans hdone) Bool.false_ne_true
  have heng : (s.before i).eng.cGo = none ∧ (s.before i).eng.cp = .idle ∧ (s.before i).eng.cDone = false := by
    refine ⟨he.cGo, he.rest hcp hgo, ?_⟩
    cases hd : (s.before i).eng.cDone with
    | false => rfl
    | true => exact absurd (hcp.symm.trans (he.done hd).2) (by decide)
  rw [afterwards]
  cases haft : s.ctl.aft with
  | ipad => exact .of_written he h hne heng he.ram (.inr (.inr (.inr (.inl rfl))))
  | opad => exact .of_written he h hne heng he.ram (.inr (.inr (.inr (.inr (.inl rfl)))))
  | blk =>
    have hres := h.resume (.inr ⟨hst, haft⟩)
    refine .of_written he h hne heng he.ram ?_
    cases hlast : s.ctl.last with
    | true => exact .inl rfl
    | false => exact .inr (.inr (.inr (.inr hres)))
  | outer =>
    simp only
    split
    · exact .of_written he h hne heng he.ram (.inr (.inr (.inl rfl)))
    · exact .of_written he h hne heng he.ram (.inr (.inl rfl))
  | l1 =>
    exact .of_launch he.ram he.wph heng.2 (he.busy.trans (busy_of h hne)) _ _ _ (by decide)
      fun h => absurd h (by decide)
  | l2 => exact .of_written he h hne heng he.ram (.inr (.inl rfl))

theorem tpass_sound (h : Sound s) (hst : s.ctl.st = .tpass) : Sound (s.tpass (s.before i)) := by
  have he := before_engined (i := i) h
  have hne : s.ctl.st ≠ .idle ∧ s.ctl.st ≠ .wc := by
    rw [hst]
    decide
  have heng := rests (i := i) h hne.2
  have htp : (s.before i).ctl.st = .tpass := by rw [he.ctl, hst]
  have hwrite : ∀ (r : SyncRam (BitVec 9) (BitVec 64)) (x : BitVec 64), Low r →
      Low (r.write (TACC + (s.ctl.sn.extractLsb' 1 3 - 1).setWidth 9) x) := by
    intro r x hr
    apply hr.write
    have hlt := (s.ctl.sn.extractLsb' 1 3 - 1).isLt
    rw [BitVec.toNat_add, BitVec.toNat_setWidth]
    change (64 + _) % 512 < 128
    omega
  have hlow := (he.ram.read (if s.ctl.sn.getLsbD 0 then TACC + (s.ctl.sn.extractLsb' 1 3).setWidth 9
    else UREG + (s.ctl.sn.extractLsb' 1 3).setWidth 9)).ite (p := s.ctl.sn < 16) he.ram
  have hlow' := (hwrite _ (if s.ctl.tcopy then s.xa else s.xa ^^^ s.ram.rq) hlow).ite
    (p := 3 ≤ s.ctl.sn ∧ s.ctl.sn.getLsbD 0 = true) hlow
  rw [tpass]
  simp only
  by_cases h17 : s.ctl.sn = 17
  · rw [if_pos h17]
    by_cases hlast : s.ctl.itersR ≤ s.ctl.jcnt
    · rw [if_pos hlast]
      exact .of_written he h hne.1 heng hlow' (.inr (.inr (.inl rfl)))
    · rw [if_neg hlast]
      exact .of_launch
        (n := { s.before i with ram := _, ctl := { (s.before i).ctl with sn := 0, jcnt := s.ctl.jcnt + 1 }, xa := _ })
        hlow' he.wph heng.2 (he.busy.trans (busy_of h hne.1)) _ _ _ (by decide) fun h => absurd h (by decide)
  · rw [if_neg h17]
    exact .of_written he h hne.1 heng hlow' (.inr (.inl htp))

theorem begin_sound (h : Sound s) (hbusy : s.busy = false) (mode : Mode) (iters : BitVec 32) :
    Sound ((s.before i).start mode iters) := by
  have he := before_engined (i := i) h
  have hst := h.busy.mp hbusy
  refine .of_open he.ram (not_some rfl) (rests h (by rw [hst]; decide)) rfl ?_
  simp only [start]
  cases (mode = .sha || mode = .sha512 : Bool) with
  | true => exact .inl (.inl rfl)
  | false => exact .inr (.inr (.inl rfl))

theorem key_sound (h : Sound s) (hst : s.ctl.st = .key) :
    Sound (s.fsm (s.before i) i) := by
  have he := before_engined (i := i) h
  have hne : s.ctl.st ≠ .idle ∧ s.ctl.st ≠ .wc := by
    rw [hst]
    decide
  have heng := rests (i := i) h hne.2
  have hbusy := he.busy.trans (busy_of h hne.1)
  have hkey : (s.before i).ctl.st = .key := by rw [he.ctl, hst]
  have haddr : s.keyAddr.toNat < 128 := by
    have hlt := (s.ctl.kcnt.extractLsb' 2 4).isLt
    rw [keyAddr, BitVec.toNat_add, BitVec.toNat_setWidth]
    change (16 + _) % 512 < 128
    omega
  have hwritten : ∀ (m : Sha2Unit), Low m.ram → m.eng = (s.before i).eng → m.busy = (s.before i).busy →
      m.ctl.st = .key → (∀ p, m.wph = some p → p.1.toNat < 128) → Sound (if i.keyDone then s.keyDone m else m) := by
    intro m hram hm hb hctl hwph
    rw [← hm] at heng
    rw [← hb] at hbusy
    split
    · refine .of_open hram ?_ heng hbusy (.inr (.inr (.inr ⟨rfl, rfl⟩)))
      intro p hp
      simp only [Sha2Unit.keyDone] at hp
      split at hp
      · exact hwph p hp
      · obtain rfl := Option.some.inj hp
        exact haddr
    · exact .of_open hram hwph heng hbusy (.inr (.inr (.inl hctl)))
  simp only [fsm, hst]
  cases i.keyWr with
  | none => exact hwritten _ he.ram rfl rfl hkey (not_some he.wph)
  | some b =>
    refine hwritten (s.keyWrite (s.before i) b) he.ram rfl rfl hkey ?_
    intro p hp
    simp only [keyWrite] at hp
    split at hp
    · obtain rfl := Option.some.inj hp
      exact haddr
    · exact absurd (he.wph.symm.trans hp).symm (Option.some_ne_none p)

/-- One clock. -/
theorem Sound.clock (h : Sound s) (hi : i.beginOp ≠ none → s.busy = false) : Sound (s.clock i) := by
  have he := before_engined (i := i) h
  cases hb : i.beginOp with
  | some op =>
    obtain ⟨mode, iters⟩ := op
    have hbusy := hi (by rw [hb]; exact Option.some_ne_none _)
    have hpush : s.ctl.push i = none := by rw [Ctl.push, h.busy.mp hbusy]
    have hclock : s.clock i = (s.before i).start mode iters := by
      simp only [Sha2Unit.clock, hb, hpush]
      rfl
    rw [hclock]
    exact begin_sound h hbusy mode iters
  | none =>
    rw [clock_eq hb]
    cases hst : s.ctl.st with
    | idle =>
      have hpush : s.ctl.push i = none := by rw [Ctl.push, hst]
      have hquiet := h.quiet (.inr (.inr (.inr (.inr (.inl hst)))))
      have heng := rests (i := i) h (by rw [hst]; decide)
      have hctl : (s.before i).ctl.st = .idle := by rw [he.ctl, hst]
      simp only [hpush, Option.elim_none, fsm, hst]
      refine .of_rest he.ram (not_some he.wph) heng ?_ (fun _ => he.wph) (fun _ => ?_) (fun hw => ?_)
      · rw [he.busy, he.ctl]
        exact h.busy
      · exact he.we hquiet (h.rest (by rw [hst]; decide)).2.1
      · rw [hctl] at hw
        revert hw
        simp
    | key =>
      have hpush : s.ctl.push i = none := by rw [Ctl.push, hst]
      rw [hpush]
      exact key_sound h hst
    | der =>
      have hpush : s.ctl.push i = none := by rw [Ctl.push, hst]
      simp only [hpush, Option.elim_none, fsm, hst]
      exact derive_sound h hst
    | wc =>
      have hpush : s.ctl.push i = none := by rw [Ctl.push, hst]
      have hctl : (s.before i).ctl.st = .wc := by rw [he.ctl, hst]
      simp only [hpush, Option.elim_none, fsm, hst]
      cases hdone : s.eng.cDone with
      | true => exact afterwards_sound h hst hdone
      | false =>
        rw [if_neg Bool.false_ne_true]
        refine ⟨he.ram, not_some he.wph, not_some he.cGo, fun hne => ⟨he.dst hne, ?_⟩, fun hne => absurd hctl hne, ?_,
          fun _ => he.wph, fun hidle => ?_, ?_⟩
        · cases hd : (s.before i).eng.cDone with
          | false => rfl
          | true => exact absurd (he.done hd).1 hne
        · rw [he.busy, he.ctl]
          exact h.busy
        · exact absurd (hctl.symm.trans hidle) (by decide)
        · rw [he.ctl]
          exact h.resume
    | stream =>
      have hne : s.ctl.st ≠ .idle ∧ s.ctl.st ≠ .wc := by
        rw [hst]
        decide
      cases hbyte : i.inByte with
      | some b =>
        have hpush : s.ctl.push i = some b := by rw [Ctl.push, hst, hbyte]
        simp only [hpush, Option.elim_some, fsm, hst, hbyte]
        rw [if_neg (by simp)]
        exact stage_sound h (.inl hst) b ⟨rfl, rfl⟩
      | none =>
        have hpush : s.ctl.push i = none := by rw [Ctl.push, hst, hbyte]
        have hbusy := he.busy.trans (busy_of h hne.1)
        have heng := rests (i := i) h hne.2
        simp only [hpush, Option.elim_none, fsm, hst, hbyte, true_and]
        split
        · split
          · exact .of_open he.ram (not_some he.wph) heng hbusy (.inl (.inr (.inr rfl)))
          · exact .of_open he.ram (not_some he.wph) heng hbusy (.inl (.inr (.inl rfl)))
        · exact .of_open he.ram (not_some he.wph) heng hbusy (.inl (.inl (by rw [he.ctl, hst])))
    | pad =>
      have hpush : s.ctl.push i = some s.ctl.padByte := by rw [Ctl.push, hst]
      simp only [hpush, Option.elim_some, fsm, hst]
      refine stage_sound h (.inr (.inl hst)) _ ?_
      rw [padStep_eq]
      exact ⟨rfl, rfl⟩
    | idx =>
      have hpush : s.ctl.push i = some s.ctl.idxByte := by rw [Ctl.push, hst]
      simp only [hpush, Option.elim_some, fsm, hst]
      split
      · exact stage_sound h (.inr (.inr hst)) _ ⟨rfl, rfl⟩
      · exact stage_sound h (.inr (.inr hst)) _ ⟨rfl, rfl⟩
    | bend =>
      have hpush : s.ctl.push i = none := by rw [Ctl.push, hst]
      have hne : s.ctl.st ≠ .idle ∧ s.ctl.st ≠ .wc := by
        rw [hst]
        decide
      have hbusy := he.busy.trans (busy_of h hne.1)
      have heng := rests (i := i) h hne.2
      have hres := h.resume (.inl hst)
      rw [← he.ctl] at hres
      simp only [hpush, Option.elim_none, fsm, hst]
      split
      · exact .of_launch he.ram he.wph heng.2 hbusy _ _ _ (by decide) fun _ => hres
      · exact .of_open he.ram (not_some he.wph) heng hbusy (.inr (.inl ⟨by rw [he.ctl, hst], hres⟩))
    | after =>
      have hpush : s.ctl.push i = none := by rw [Ctl.push, hst]
      have hne : s.ctl.st ≠ .idle ∧ s.ctl.st ≠ .wc := by
        rw [hst]
        decide
      have heng := rests (i := i) h hne.2
      simp only [hpush, Option.elim_none, fsm, hst]
      split
      · exact .of_written he h hne.1 heng he.ram (.inr (.inr (.inl rfl)))
      · refine .of_launch he.ram he.wph heng.2 (he.busy.trans (busy_of h hne.1)) _ _ _ ?_ fun h => absurd h (by decide)
        split <;> decide
    | tpass =>
      have hpush : s.ctl.push i = none := by rw [Ctl.push, hst]
      simp only [hpush, Option.elim_none, fsm, hst]
      exact tpass_sound h hst
    | fin =>
      have hpush : s.ctl.push i = none := by rw [Ctl.push, hst]
      have hne : s.ctl.st ≠ .idle ∧ s.ctl.st ≠ .wc := by
        rw [hst]
        decide
      have hquiet := h.quiet (.inr (.inr (.inr (.inl hst))))
      have hctl : (s.before i).ctl.st = .fin := by rw [he.ctl, hst]
      have heng := rests (i := i) h hne.2
      simp only [hpush, Option.elim_none, fsm, hst]
      split
      · refine .of_rest he.ram (not_some he.wph) heng ⟨fun _ => rfl, fun _ => rfl⟩ (fun _ => he.wph) (fun _ => ?_)
          (fun hw => ?_)
        · exact he.we hquiet (h.rest hne.2).2.1
        · revert hw
          simp
      · exact .of_written he h hne.1 heng he.ram (.inr (.inr (.inl hctl)))

/-- A state of a run from a reset, with the tables loaded, in which operations begin when the
unit is not busy. -/
def Reached (s : Sha2Unit) : Prop :=
  ∃ (u : Sha2Unit) (i : Nat → In) (n : Nat), Tables u.ram.mem ∧ (∀ k, (i k).beginOp ≠ none → (after clock u.reset i k).busy = false) ∧
    s = after clock u.reset i n

theorem reset_sound {u : Sha2Unit} (h : Tables u.ram.mem) : Sound u.reset := by
  have hst : u.reset.ctl.st = .idle := rfl
  refine .of_rest ⟨h, fun hw => absurd hw Bool.false_ne_true⟩ (not_some rfl) ⟨rfl, rfl, rfl⟩ ⟨fun _ => rfl, fun _ => rfl⟩
    (fun _ => rfl) (fun _ => rfl) ?_
  rw [hst]
  simp

theorem Reached.sound (h : Reached s) : Sound s := by
  obtain ⟨u, i, n, hM, hbegin, rfl⟩ := h
  exact invariant (I := fun _ => Sound) (reset_sound hM) (fun n t ht heq => ht.clock fun hb => by
    rw [heq]
    exact hbegin n hb) n

/-- When it is not busy the unit rests, whatever it did before. -/
theorem Reached.resting (h : Reached s) (hbusy : s.busy = false) : Resting s := by
  have hs := h.sound
  have hst := hs.busy.mp hbusy
  obtain ⟨hgo, hcp, hdone⟩ := hs.rest (by rw [hst]; decide)
  exact ⟨hbusy, hst, hgo, hdone, hcp, ⟨hs.quiet (.inr (.inr (.inr (.inr (.inl hst))))), hs.settled hst⟩, hs.ram.tables⟩

end GoiKey.Rtl.Sha2Unit
