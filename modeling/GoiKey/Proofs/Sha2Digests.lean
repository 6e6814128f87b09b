import GoiKey.Proofs.Sha2Padding

/-! The digest of a message, from the last byte on. -/

namespace GoiKey.Rtl.Sha2Unit

open SecureHash (Family wordAt block)
open Clocked Sha2

variable {w : Nat} {F : Family w} {s : Sha2Unit} {i : In} {M M₀ : BitVec 9 → BitVec 64} {c c₀ : Ctl}
  {t : List (BitVec 8)} {b : BitVec 8} {k : Nat}

theorem padStep_eq (c n : Ctl) : c.padStep n =
    { n with
      lsh := (c.padStep n).lsh
      nolen := (c.padStep n).nolen
      pstage := (c.padStep n).pstage
      last := (c.padStep n).last } := by
  rw [Ctl.padStep]
  split
  · rfl
  · split <;> rfl

theorem Same.padStep (c n : Ctl) : Same n (c.padStep n) := by
  rw [Same, padStep_eq]

theorem Staged.padStep {n : Ctl} (h : Staged F t n M) (c : Ctl) : Staged F t (c.padStep n) M := by
  rw [padStep_eq]
  exact ⟨⟨h.counted.cnt, h.counted.bc⟩, h.total, h.shifting, h.filled, h.chain, h.tables⟩

theorem Full.padStep {n : Ctl} (h : Full F t n M) (c : Ctl) : Full F t (c.padStep n) M := by
  rw [padStep_eq]
  exact ⟨⟨h.counted.cnt, h.counted.bc⟩, h.total, h.shifting, h.whole, h.filled, h.chain, h.tables, h.nonempty⟩

/-- The text so far: a message and some of its padding. -/
def padText (c₀ : Ctl) (t : List (BitVec 8)) (k : Nat) : List (BitVec 8) := t ++ (padOf c₀.m512 t.length).take k

/-- The bytes of the padding. -/
def padLength (c₀ : Ctl) (t : List (BitVec 8)) : Nat := zerosOf c₀.m512 t.length + 9

/-- The unit pads. -/
def Padding (F : Family w) (c₀ : Ctl) (M₀ : BitVec 9 → BitVec 64) (t : List (BitVec 8)) (k : Nat) (s : Sha2Unit) :
    Prop :=
  ∃ c M, Calm c M s ∧ Staged F (padText c₀ t k) c M ∧ PadAt c₀.m512 t.length k c ∧ Same c₀ c ∧ Outside M₀ M ∧
    (k < padLength c₀ t → c.st = .pad) ∧ (k = padLength c₀ t → c.st = .after ∧ c.first = false ∧ Settled s)

theorem padText_succ (hk : k < (padOf c₀.m512 t.length).length) :
    padText c₀ t (k + 1) = padText c₀ t k ++ [(padOf c₀.m512 t.length)[k]] := by
  rw [padText, padText, List.append_assoc, List.take_append_getElem]

theorem padText_take (hk : k ≤ padLength c₀ t) : ((padOf c₀.m512 t.length).take k).length = k := by
  rw [List.length_take, padOf_length]
  exact Nat.min_eq_left hk

/-- A byte of the padding. -/
theorem pads_byte (hF : For c₀ F) (hk : k < padLength c₀ t) :
    Steps (Padding F c₀ M₀ t k) (Padding F c₀ M₀ t (k + 1)) := by
  have hl : 2 * w = if c₀.m512 then 128 else 64 := by
    obtain ⟨hm, rfl⟩ | ⟨hm, rfl⟩ := For.cases hF <;> rw [hm] <;> rfl
  have hpush : Steps (Padding F c₀ M₀ t k) fun s => Padding F c₀ M₀ t (k + 1) s ∨ ∃ c M,
      Waits F (padText c₀ t (k + 1)) c M s ∧ For c F ∧ c.resume = .pad ∧ PadAt c₀.m512 t.length (k + 1) c ∧
        Same c₀ c ∧ Outside M₀ M := by
    apply Steps.edge
    · rintro s ⟨c, M, hcalm, -, -, -, -, hst, -⟩
      exact hcalm.working (by rw [hst hk]; decide)
    rintro s i ⟨c, M, hcalm, hstaged, hpad, hsame, hout, hst, -⟩ hi
    have hst := hst hk
    have hFc := hsame.computes hF
    have hm : c.m512 = c₀.m512 := by rw [Ctl.m512, Ctl.m512, hsame.md]
    have hlt : k < (padOf c₀.m512 t.length).length := by
      rw [padOf_length]
      exact hk
    have hbyte := hpad.padByte hlt
    have htext := padText_succ hlt
    rw [← hbyte] at htext
    have hclock : s.clock i = { s.stage (s.before i) c.padByte with ctl := c.padStep (c.stage c.padByte) } := by
      have hp : c.push i = some c.padByte := by rw [Ctl.push, hst]
      rw [clock_eq hi, hcalm.ctl, hp]
      simp only [Option.elim_some, fsm, hcalm.ctl, hst, Sha2Unit.stage]
    obtain ⟨hcalm', hwph⟩ := hcalm.stage (b := c.padByte) (i := i)
    rw [← hm] at hpad
    obtain ⟨hnext, hblk⟩ := hpad.step (b := c.padByte) hFc (by rw [hm]; exact hk) (padText_take (Nat.le_of_lt hk))
      hstaged.counted hstaged.total
    rw [hm] at hnext
    have hcalm'' : Calm (c.padStep (c.stage c.padByte)) (pushed c c.padByte M) (s.clock i) := by
      rw [hclock]
      exact ⟨rfl, hcalm'.busy, hcalm'.cGo, hcalm'.cDone, hcalm'.cp, hcalm'.pending⟩
    have hsame' : Same c₀ (c.padStep (c.stage c.padByte)) := (hsame.trans (.stage c _)).trans (.padStep c _)
    have hout' : Outside M₀ (pushed c c.padByte M) := hout.trans fun a ha _ => pushed_outside hFc hstaged.counted ha
    cases hlast : c.blkLast with
    | false =>
      refine .inl ⟨_, _, hcalm'', ?_, hnext, hsame', hout', fun _ => ?_, fun he => ?_⟩
      · rw [htext]
        exact (hstaged.push hFc hlast).padStep c
      · rw [padStep_eq]
        exact (stage_within hlast (by rw [hst]; decide)).trans hst
      · have hmod := zeros_within (n := t.length) hl
        rw [hlast] at hblk
        refine absurd (hblk.mpr ?_) Bool.false_ne_true
        rw [Nat.add_assoc, he]
        exact hmod
    | true =>
      obtain ⟨hbend, hresume⟩ := stage_last (b := c.padByte) hlast
      refine .inr ⟨_, _, ⟨hcalm'', ?_, ?_, ?_⟩, hsame'.computes hF, ?_, hnext, hsame', hout'⟩
      · rw [padStep_eq]
        exact hbend
      · rw [hclock]
        exact hwph.trans (wordDone_of_last hFc hstaged.counted hlast)
      · rw [htext]
        exact (hstaged.full hFc hlast).padStep c
      · rw [padStep_eq]
        exact hresume.trans (by rw [Ctl.nxt, hst]; rfl)
  apply hpush.trans
  rintro s (h | ⟨c, M, hwaits, hFc, hresume, hpad, hsame, hout⟩)
  · exact Reaches.of_imp (fun _ h => h) s h
  · have hnext : ∀ s, (∃ M', Calm (ended c) M' s ∧ Settled s ∧ Staged F (padText c₀ t (k + 1)) (ended c) M' ∧
        Outside M M') → Padding F c₀ M₀ t (k + 1) s := by
      rintro s ⟨M', hcalm, hsettled, hstaged, hout'⟩
      refine ⟨_, M', hcalm, hstaged, ⟨hpad.marker, hpad.zeros, hpad.length, hpad.lsh, hpad.last⟩, hsame.trans (.ended c),
        hout.trans hout', fun hlt => ?_, fun he => ⟨?_, rfl, hsettled⟩⟩
      · have hlast : c.last = false := by
          rw [hpad.last, decide_eq_false_iff_not]
          exact Nat.ne_of_lt hlt
        simp only [ended, hlast, hresume]
        rfl
      · have hlast : c.last = true := by
          rw [hpad.last, decide_eq_true_iff]
          exact he
        simp only [ended, hlast, if_true]
    exact (ends_block hFc).imp (fun _ h => h) hnext s hwaits

/-- The message has ended. -/
theorem Taking.ends (h : Taking F c₀ M₀ t s) (hi : NoBegin i) (hb : i.inByte = none) (hend : i.msgEnd = true)
    (hmd : c₀.md ≠ .pbkdf2) : Padding F c₀ M₀ t 0 (s.clock i) := by
  obtain ⟨c, M, hcalm, hst, hlast, hstaged, hsame, hout⟩ := h
  have hpush : c.push i = none := by
    rw [Ctl.push, hst]
    exact hb
  have hclock : s.clock i = { s.before i with ctl := { c with pstage := 0, st := .pad } } := by
    rw [hcalm.clock hi hpush]
    simp only [fsm, hcalm.ctl, hst, hend, hb, and_self, if_true, hsame.md, hmd, if_false, hcalm.before.1.ctl]
  obtain ⟨hb', -⟩ := hcalm.before (i := i)
  rw [hclock]
  refine ⟨_, M, ⟨rfl, hb'.busy, hb'.cGo, hb'.cDone, hb'.cp, hb'.pending⟩, ?_, ?_, ?_, hout, fun _ => rfl, fun he => ?_⟩
  · rw [padText, List.take_zero, List.append_nil]
    exact ⟨⟨hstaged.counted.cnt, hstaged.counted.bc⟩, hstaged.total, hstaged.shifting, hstaged.filled, hstaged.chain,
      hstaged.tables⟩
  · refine ⟨fun _ => rfl, fun h => absurd h (by decide), fun h => absurd h (Nat.not_lt_zero _),
      fun h => absurd h (by decide), ?_⟩
    rw [decide_eq_false (by omega)]
    exact hlast
  · exact hsame.trans rfl
  · exact absurd he.symm (Nat.succ_ne_zero _)

theorem pads (hF : For c₀ F) : Steps (Padding F c₀ M₀ t 0) (Padding F c₀ M₀ t (padLength c₀ t)) :=
  Reaches.loop fun _ hk => pads_byte hF hk

/-- The padded message. -/
def padded (m512 : Bool) (t : List (BitVec 8)) : List (BitVec 8) := t ++ padOf m512 t.length

/-- The unit rests. -/
structure Resting (s : Sha2Unit) : Prop where
  busy : s.busy = false
  st : s.ctl.st = .idle
  cGo : s.eng.cGo = none
  cDone : s.eng.cDone = false
  cp : s.eng.cp = .idle
  settled : Settled s
  tables : Tables s.ram.mem

/-- The unit rests, and these words are its digest. -/
structure Answering (w : Nat) (d : Nat → BitVec w) (s : Sha2Unit) : Prop extends Resting s where
  words : ∀ n < 8, part w (value s.ram.mem s.ctl.obase n) = d n

/-- The words of the chaining value after a text. -/
def digestOf (F : Family w) (text : List (BitVec 8)) : Nat → BitVec w :=
  F.chaining (block w text) (text.length / (2 * w))

/-- The padding is over, and the digest is given out. -/
theorem answers (hplain : c₀.plain = true) :
    Steps (Padding F c₀ M₀ t (padLength c₀ t)) fun s =>
      Answering w (digestOf F (padded c₀.m512 t)) s ∧ s.done = true := by
  have htext : padText c₀ t (padLength c₀ t) = padded c₀.m512 t := by
    rw [padText, padded, List.take_of_length_le (by rw [padOf_length]; rfl)]
  have hafter : Steps (Padding F c₀ M₀ t (padLength c₀ t)) fun s => ∃ c M, Calm c M s ∧ Settled s ∧ c.st = .fin ∧
      c.obase = CUR ∧ Staged F (padded c₀.m512 t) c M ∧ c.first = false := by
    apply Steps.edge
    · rintro s ⟨c, M, hcalm, -, -, -, -, -, hst⟩
      exact hcalm.working (by rw [(hst rfl).1]; decide)
    rintro s i ⟨c, M, hcalm, hstaged, -, hsame, -, -, hst⟩ hi
    obtain ⟨hst, hfirst, hwph, -⟩ := hst rfl
    obtain ⟨hb, hnone, hwe, -⟩ := hcalm.before (i := i)
    have hpush : c.push i = none := by rw [Ctl.push, hst]
    have hp : c.plain = true := by
      rw [Ctl.plain, hsame.md]
      exact hplain
    have hclock : s.clock i = { s.before i with ctl := { c with obase := CUR, st := .fin } } := by
      rw [hcalm.clock hi hpush]
      simp only [fsm, hcalm.ctl, hst, hp, if_true, hb.ctl]
    rw [htext] at hstaged
    rw [hwph] at hwe
    rw [hclock]
    exact ⟨_, M, ⟨rfl, hb.busy, hb.cGo, hb.cDone, hb.cp, hb.pending⟩, ⟨hnone, hwe⟩, rfl, rfl,
      ⟨⟨hstaged.counted.cnt, hstaged.counted.bc⟩, hstaged.total, hstaged.shifting, hstaged.filled, hstaged.chain,
        hstaged.tables⟩, hfirst⟩
  apply hafter.trans
  apply Steps.edge
  · rintro s ⟨c, M, hcalm, -, hst, -⟩
    exact hcalm.working (by rw [hst]; decide)
  rintro s i ⟨c, M, hcalm, hsettled, hst, hobase, hstaged, hfirst⟩ hi
  obtain ⟨hb, hnone, hwe, hwritten, -⟩ := hcalm.before (i := i)
  have hpush : c.push i = none := by rw [Ctl.push, hst]
  have hclock : s.clock i = { s.before i with done := true, busy := false, ctl := { c with st := .idle } } := by
    rw [hcalm.clock hi hpush]
    simp only [fsm, hcalm.ctl, hst, hsettled.2, if_true, hb.ctl]
  rw [hsettled.1] at hwe
  have hmem : (s.before i).ram.mem = M := by
    rw [← SyncRam.written_of_still hwe]
    exact hwritten
  have hbase : baseOf c (source c) = CUR := by
    rw [source, hfirst]
    rfl
  rw [hclock]
  refine ⟨⟨⟨rfl, rfl, hb.cGo, hb.cDone, hb.cp, ⟨hnone, hwe⟩, ?_⟩, ?_⟩, rfl⟩
  · change Tables (s.before i).ram.mem
    rw [hmem]
    exact hstaged.tables
  · intro n hn
    change part w (value (s.before i).ram.mem c.obase n) = _
    rw [hmem, hobase, ← hbase]
    exact hstaged.chain n hn

/-- The words are read through the port while the unit rests. -/
theorem Answering.clock {d : Nat → BitVec w} (h : Answering w d s) (hi : NoBegin i) :
    Answering w d (s.clock i) ∧ part w (s.clock i).dgQ = d i.dgRa.toNat := by
  have hbefore : s.before i = s.shift (s.tick i) := by
    rw [before, engine, h.cp, h.cGo]
  have hpush : s.ctl.push i = none := by rw [Ctl.push, h.st]
  have hclock : s.clock i = s.shift (s.tick i) := by
    rw [clock_eq hi, hpush, hbefore]
    simp only [Option.elim_none, fsm, h.st]
  obtain ⟨hwph, hwe⟩ := h.settled
  have hram : (s.shift (s.tick i)).ram =
      { s.ram with mem := s.ram.mem, rq := s.ram.mem (s.ctl.obase + i.dgRa.setWidth 9), we := false } := by
    have hwritten := SyncRam.written_of_still hwe
    simp only [shift, tick, hwph, Option.elim_none, h.busy, hwritten, Bool.false_eq_true, if_false]
  rw [hclock]
  refine ⟨⟨⟨h.busy, h.st, rfl, rfl, h.cp, ⟨rfl, ?_⟩, ?_⟩, ?_⟩, ?_⟩
  · rw [hram]
  · rw [hram]
    exact h.tables
  · rw [hram]
    exact h.words
  · rw [dgQ, hram, ← h.words i.dgRa.toNat i.dgRa.isLt, value]
    rw [BitVec.ofNat_toNat]

end GoiKey.Rtl.Sha2Unit
