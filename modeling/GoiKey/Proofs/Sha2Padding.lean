import GoiKey.Proofs.Sha2Blocks

/-! A message is taken up, and padded. -/

namespace GoiKey.Rtl.Sha2Unit

open SecureHash (Family wordAt block octets)
open Clocked Sha2

variable {w : Nat} {F : Family w} {s : Sha2Unit} {i : In} {M M₀ : BitVec 9 → BitVec 64} {c c₀ c₁ : Ctl}
  {t : List (BitVec 8)} {b : BitVec 8}

/-- The controls differ in what the staging of bytes works with. -/
def Same (c c' : Ctl) : Prop :=
  c' =
    { c with
      st := c'.st
      resume := c'.resume
      aft := c'.aft
      sn := c'.sn
      total := c'.total
      lsh := c'.lsh
      cnt := c'.cnt
      bc := c'.bc
      sh64 := c'.sh64
      first := c'.first
      last := c'.last
      nolen := c'.nolen
      pstage := c'.pstage }

theorem Same.refl (c : Ctl) : Same c c := rfl

theorem Same.trans {c c' c'' : Ctl} (h : Same c c') (h' : Same c' c'') : Same c c'' := by
  rw [Same] at h h' ⊢
  rw [h] at h'
  exact h'

theorem Same.stage (c : Ctl) (b : BitVec 8) : Same c (c.stage b) := by
  rw [Same, stage_eq]

theorem Same.ended (c : Ctl) : Same c (ended c) := rfl

theorem Same.md (h : Same c₀ c) : c.md = c₀.md := by rw [h]

theorem Same.computes (h : Same c₀ c) (hF : For c₀ F) : For c F := by
  rw [For, h.md]
  exact hF

/-! The message. -/

/-- The unit takes bytes, and has taken these. -/
def Taking (F : Family w) (c₀ : Ctl) (M₀ : BitVec 9 → BitVec 64) (t : List (BitVec 8)) (s : Sha2Unit) : Prop :=
  ∃ c M, Calm c M s ∧ c.st = .stream ∧ c.last = false ∧ Staged F t c M ∧ Same c₀ c ∧ Outside M₀ M

theorem Taking.ready (h : Taking F c₀ M₀ t s) : s.ctl.st = .stream := by
  obtain ⟨c, M, hcalm, hst, -⟩ := h
  rw [hcalm.ctl, hst]

theorem Taking.waits (h : Taking F c₀ M₀ t s) (hi : NoBegin i) (hb : i.inByte = none) (hend : i.msgEnd = false) :
    Taking F c₀ M₀ t (s.clock i) := by
  obtain ⟨c, M, hcalm, hst, hrest⟩ := h
  have hpush : c.push i = none := by
    rw [Ctl.push, hst]
    exact hb
  have hclock : s.clock i = s.before i := by
    rw [hcalm.clock hi hpush]
    simp only [fsm, hcalm.ctl, hst, hend]
    exact if_neg (by simp)
  rw [hclock]
  exact ⟨c, M, hcalm.before.1, hst, hrest⟩

theorem stage_last (h : c.blkLast = true) : (c.stage b).st = .bend ∧ (c.stage b).resume = c.nxt := by
  rw [Ctl.stage, if_pos h]
  exact ⟨rfl, rfl⟩

theorem stage_within (h : c.blkLast = false) (hst : c.st ≠ .idx) : (c.stage b).st = c.st := by
  rw [Ctl.stage, if_neg (by rw [h]; decide), if_neg hst]

theorem wordDone_of_last (hF : For c F) (hc : Counted w t c) (h : c.blkLast = true) : c.wordDone = true := by
  obtain ⟨-, -, h16, -⟩ := hF.widths
  rw [hc.blkLast hF, decide_eq_true_iff] at h
  rw [hc.wordDone hF, decide_eq_true_iff]
  apply Nat.mod_eq_zero_of_dvd
  apply Nat.dvd_trans _ (Nat.dvd_of_mod_eq_zero h)
  rw [h16]
  exact Nat.dvd_mul_left _ _

theorem Taking.stages (h : ∃ c M, Calm c M s ∧ c.st = .stream) (hi : NoBegin i) (hb : i.inByte = some b) :
    s.clock i = s.stage (s.before i) b := by
  obtain ⟨c, M, hcalm, hst⟩ := h
  have hpush : c.push i = some b := by
    rw [Ctl.push, hst]
    exact hb
  rw [clock_eq hi, hcalm.ctl, hpush]
  simp only [Option.elim_some, fsm, hcalm.ctl, hst, hb]
  exact if_neg (by simp)

/-- A byte within a block. -/
theorem Taking.within (h : Taking F c₀ M₀ t s) (hF : For c₀ F) (hi : NoBegin i) (hb : i.inByte = some b)
    (hlen : (t.length + 1) % (2 * w) ≠ 0) : Taking F c₀ M₀ (t ++ [b]) (s.clock i) := by
  obtain ⟨c, M, hcalm, hst, hlast, hstaged, hsame, hout⟩ := h
  have hFc := hsame.computes hF
  have hblk : c.blkLast = false := by
    rw [hstaged.counted.blkLast hFc, decide_eq_false_iff_not]
    exact hlen
  rw [Taking.stages ⟨c, M, hcalm, hst⟩ hi hb]
  refine ⟨_, _, hcalm.stage.1, (stage_within hblk (by rw [hst]; decide)).trans hst, ?_, hstaged.push hFc hblk,
    hsame.trans (.stage c b), hout.trans fun a ha _ => pushed_outside hFc hstaged.counted ha⟩
  rw [stage_eq]
  exact hlast

/-- A byte of the message. -/
theorem takes_byte (hF : For c₀ F) (t : List (BitVec 8)) (b : BitVec 8) :
    Steps (fun s => ∃ u i, Taking F c₀ M₀ t u ∧ NoBegin i ∧ i.inByte = some b ∧ s = u.clock i)
      (Taking F c₀ M₀ (t ++ [b])) := by
  rintro s ⟨u, i, htaking, hi, hb, rfl⟩
  by_cases hlen : (t.length + 1) % (2 * w) = 0
  · obtain ⟨c, M, hcalm, hst, hlast, hstaged, hsame, hout⟩ := htaking
    have hFc := hsame.computes hF
    have hblk : c.blkLast = true := by
      rw [hstaged.counted.blkLast hFc, decide_eq_true_iff]
      exact hlen
    obtain ⟨hcalm', hwph⟩ := hcalm.stage (b := b) (i := i)
    obtain ⟨hbend, hresume⟩ := stage_last (b := b) hblk
    have hlast' : (c.stage b).last = false := by
      rw [stage_eq]
      exact hlast
    have hout' : Outside M₀ (pushed c b M) := hout.trans fun a ha _ => pushed_outside hFc hstaged.counted ha
    have hwaits : Waits F (t ++ [b]) (c.stage b) (pushed c b M) (u.clock i) := by
      rw [Taking.stages ⟨c, M, hcalm, hst⟩ hi hb]
      exact ⟨hcalm', hbend, hwph.trans (wordDone_of_last hFc hstaged.counted hblk), hstaged.full hFc hblk⟩
    have hnext : ∀ s, (∃ M', Calm (ended (c.stage b)) M' s ∧ Settled s ∧ Staged F (t ++ [b]) (ended (c.stage b)) M' ∧
        Outside (pushed c b M) M') → Taking F c₀ M₀ (t ++ [b]) s := by
      rintro s ⟨M', h, -, hM', houtside⟩
      refine ⟨_, M', h, ?_, hlast', hM', (hsame.trans (.stage c b)).trans (.ended _), hout'.trans houtside⟩
      simp only [ended, hlast', hresume, Ctl.nxt, hst]
      rfl
    exact (ends_block hFc.stage).imp (fun _ h => h) hnext _ hwaits
  · exact Reaches.of_imp (fun _ h => h) _ (htaking.within hF hi hb hlen)

end GoiKey.Rtl.Sha2Unit

/-! The padding that the unit puts behind a message. -/

namespace GoiKey.Rtl.Sha2Unit

open SecureHash (Family wordAt block octets octets_length octets_getElem)
open Clocked Sha2

variable {w : Nat} {F : Family w} {s : Sha2Unit} {i : In} {M M₀ : BitVec 9 → BitVec 64} {c c₀ c₁ : Ctl}
  {t : List (BitVec 8)} {b : BitVec 8} {n k : Nat}

/-- The zeros behind the marker. In a block of SHA-512 that ends its message at byte 118 the
marker stands where the length begins one byte later, and none follow. -/
def zerosOf (m512 : Bool) (n : Nat) : Nat :=
  if m512 then (if n % 128 < 112 ∨ n % 128 = 119 then 119 - n % 128 else 247 - n % 128)
  else if n % 64 < 56 then 55 - n % 64 else 119 - n % 64

/-- The padding of a message of `n` bytes. -/
def padOf (m512 : Bool) (n : Nat) : List (BitVec 8) :=
  0x80 :: List.replicate (zerosOf m512 n) 0 ++ octets 8 (8 * (n % 2 ^ 32))

theorem padOf_length (m512 : Bool) (n : Nat) : (padOf m512 n).length = zerosOf m512 n + 9 := by
  simp only [padOf, List.cons_append, List.length_cons, List.length_append, List.length_replicate, octets_length]

/-- The length field of the unit. -/
def lengthOf (n : Nat) : BitVec 64 := BitVec.ofNat 64 (8 * (n % 2 ^ 32))

theorem lengthByte {n j : Nat} (hj : j < 8) :
    (lengthOf n <<< (8 * j)).extractLsb' 56 8 = BitVec.ofNat 8 (8 * (n % 2 ^ 32) / 256 ^ (7 - j)) := by
  apply BitVec.eq_of_getLsbD_eq
  intro i hi
  have hlt : 56 + i < 64 := by omega
  have hge : ¬56 + i < 8 * j := by omega
  have hsub : 56 + i - 8 * j < 64 := by omega
  have hpow : 256 ^ (7 - j) = 2 ^ (8 * (7 - j)) := by rw [Nat.pow_mul]
  have hbit : 8 * (7 - j) + i = 56 + i - 8 * j := by omega
  simp only [BitVec.getLsbD_extractLsb', BitVec.getLsbD_shiftLeft, BitVec.getLsbD_ofNat, lengthOf, hi, hlt, hge, hsub,
    decide_true, decide_false, Bool.true_and, Bool.not_false, hpow, Nat.testBit_div_two_pow]
  rw [Nat.add_comm i, hbit]

/-- The padding registers when `k` bytes of the padding have been pushed. -/
structure PadAt (m512 : Bool) (n k : Nat) (c : Ctl) : Prop where
  marker : k = 0 → c.pstage = 0
  zeros : 1 ≤ k → k ≤ zerosOf m512 n →
    c.pstage = 1 ∧ c.nolen = (m512 && decide (112 ≤ n % 128 ∧ n % 128 + k < 128))
  length : zerosOf m512 n < k → c.pstage = 2
  lsh : 1 ≤ k → c.lsh = lengthOf n <<< (8 * (k - (zerosOf m512 n + 1)))
  last : c.last = decide (k = zerosOf m512 n + 9)

theorem PadAt.padByte {m512 : Bool} (h : PadAt m512 n k c) (hk : k < (padOf m512 n).length) :
    c.padByte = (padOf m512 n)[k] := by
  have hlen := padOf_length m512 n
  rw [Ctl.padByte]
  obtain _ | k := k
  · rw [if_pos (h.marker rfl)]
    rfl
  · simp only [padOf, List.cons_append, List.getElem_cons_succ]
    by_cases hz : k + 1 ≤ zerosOf m512 n
    · obtain ⟨hp, -⟩ := h.zeros (by omega) hz
      rw [hp, if_neg (by decide), if_pos rfl, List.getElem_append_left (by rw [List.length_replicate]; omega),
        List.getElem_replicate]
    · rw [h.length (by omega), if_neg (by decide), if_neg (by decide), h.lsh (by omega), lengthByte (by omega),
        List.getElem_append_right (by rw [List.length_replicate]; omega), octets_getElem]
      rw [List.length_replicate]
      congr 3
      omega

/-! Where the zeros end. -/

section Zeros

variable {m512 : Bool} {l : Nat}

theorem zeros_none (hl : l = if m512 then 128 else 64) : zerosOf m512 n = 0 ↔ n % l = l - 9 := by
  subst hl
  cases m512 <;> simp only [zerosOf, Bool.false_eq_true, if_true, if_false] <;> split <;> omega

theorem zeros_end (hl : l = if m512 then 128 else 64) (h1 : 1 ≤ k) (hk : k ≤ zerosOf m512 n) :
    ((n + k) % l = l - 9 ∧ ¬(m512 = true ∧ 112 ≤ n % 128 ∧ n % 128 + k < 128)) ↔ k = zerosOf m512 n := by
  subst hl
  cases m512 with
  | false =>
    by_cases hr : n % 64 < 56 <;>
      simp only [zerosOf, Bool.false_eq_true, if_true, if_false, false_and, not_false_eq_true, and_true, hr] at hk ⊢ <;>
      omega
  | true =>
    by_cases hr : n % 128 < 112 ∨ n % 128 = 119 <;> simp only [zerosOf, if_true, if_false, true_and, hr] at hk ⊢ <;>
      omega

theorem zeros_block (hl : l = 128) :
    (112 ≤ n % 128 ∧ n % 128 + (k + 1) < 128) ↔ ¬(n + k + 1) % l = 0 ∧ 112 ≤ n % 128 ∧ n % 128 + k < 128 := by
  subst hl
  omega

theorem zeros_length (hl : l = if m512 then 128 else 64) (hz : zerosOf m512 n < k) (hk : k < zerosOf m512 n + 9) :
    (n + k + 1) % l = 0 ↔ k + 1 = zerosOf m512 n + 9 := by
  subst hl
  cases m512 with
  | false =>
    by_cases hr : n % 64 < 56 <;> simp only [zerosOf, Bool.false_eq_true, if_true, if_false, hr] at hz hk ⊢ <;> omega
  | true =>
    by_cases hr : n % 128 < 112 ∨ n % 128 = 119 <;> simp only [zerosOf, if_true, if_false, hr] at hz hk ⊢ <;> omega

theorem zeros_within (hl : l = if m512 then 128 else 64) : (n + (zerosOf m512 n + 9)) % l = 0 := by
  subst hl
  cases m512 with
  | false =>
    by_cases hr : n % 64 < 56 <;> simp only [zerosOf, Bool.false_eq_true, if_true, if_false, hr] <;> omega
  | true =>
    by_cases hr : n % 128 < 112 ∨ n % 128 = 119 <;> simp only [zerosOf, if_true, if_false, hr] <;> omega

end Zeros

theorem length_field (h : c.total = BitVec.ofNat 32 n) : 0#29 ++ c.total ++ 0#3 = lengthOf n := by
  apply BitVec.eq_of_toNat_eq
  rw [h, lengthOf, BitVec.toNat_append, BitVec.toNat_append, BitVec.toNat_ofNat, BitVec.toNat_ofNat, BitVec.toNat_ofNat,
    BitVec.toNat_ofNat]
  simp only [Nat.zero_mod, Nat.shiftLeft_eq, Nat.zero_mul, Nat.zero_or, Nat.or_zero]
  omega

theorem shifted_zeros (x : BitVec 64) : x.extractLsb' 0 56 ++ 0#8 = x <<< 8 := by
  apply BitVec.eq_of_getLsbD_eq
  intro i hi
  rw [BitVec.getLsbD_append, BitVec.getLsbD_shiftLeft, BitVec.getLsbD_extractLsb']
  by_cases h : i < 8
  · simp [h, hi]
  · have hsub : i - 8 < 56 := by omega
    simp [h, hi, hsub]

/-- Where the counters are in the padding. -/
theorem PadAt.counters (hF : For c F) {p : List (BitVec 8)} (hp : p.length = k) (hc : Counted w (t ++ p) c) :
    c.blkLast = decide ((t.length + k + 1) % (2 * w) = 0) ∧ c.lenPos = decide ((t.length + k) % (2 * w) = 2 * w - 9) := by
  rw [hc.blkLast hF, hc.lenPos hF, List.length_append, hp]
  exact ⟨rfl, rfl⟩

theorem PadAt.step (h : PadAt c.m512 t.length k c) (hF : For c F) (hk : k < zerosOf c.m512 t.length + 9)
    {p : List (BitVec 8)} (hp : p.length = k) (hc : Counted w (t ++ p) c)
    (htotal : c.total = BitVec.ofNat 32 (t ++ p).length) :
    PadAt c.m512 t.length (k + 1) (c.padStep (c.stage b)) ∧
      (c.blkLast = true ↔ (t.length + k + 1) % (2 * w) = 0) := by
  obtain ⟨hblk, hpos⟩ := PadAt.counters hF hp hc
  refine ⟨?_, by rw [hblk, decide_eq_true_iff]⟩
  have hkeep : (c.stage b).pstage = c.pstage ∧ (c.stage b).nolen = c.nolen ∧ (c.stage b).lsh = c.lsh ∧
      (c.stage b).last = c.last := by
    rw [stage_eq]
    exact ⟨rfl, rfl, rfl, rfl⟩
  obtain ⟨hpst, hnolen, hlsh, hlast⟩ := hkeep
  have hl : 2 * w = if c.m512 then 128 else 64 := by
    obtain ⟨hm, rfl⟩ | ⟨hm, rfl⟩ := hF.cases <;> rw [hm] <;> rfl
  obtain rfl | hk0 := Nat.eq_zero_or_pos k
  · -- the marker
    obtain rfl : p = [] := List.length_eq_zero_iff.mp hp
    rw [List.append_nil] at htotal hc
    rw [Ctl.padStep, if_pos (h.marker rfl)]
    refine ⟨fun h0 => absurd h0 (Nat.succ_ne_zero 0), fun _ hz => ⟨?_, ?_⟩, fun hz => ?_, fun _ => ?_, ?_⟩
    · have hne : ¬t.length % (2 * w) = 2 * w - 9 := fun he => by
        rw [(zeros_none hl).mpr he] at hz
        omega
      simp only [hpos, Nat.add_zero, decide_eq_true_eq, hne, if_false]
    · simp only [hblk, Nat.add_zero]
      cases hm : c.m512 with
      | false => rfl
      | true =>
        rw [hm] at hl hz
        have hcnt : 111 < c.cnt ↔ 112 ≤ t.length % 128 := by
          rw [BitVec.lt_def, hc.cnt, hl]
          exact Iff.rfl
        have hiff := zeros_block (n := t.length) (k := 0) hl
        rw [Bool.eq_iff_iff]
        simp only [Bool.true_and, Bool.and_eq_true, decide_eq_true_eq, Bool.not_eq_true', decide_eq_false_iff_not, hcnt,
          Nat.zero_add] at hiff ⊢
        rw [hiff, Nat.add_zero, Nat.add_zero]
        omega
    · have he : t.length % (2 * w) = 2 * w - 9 := (zeros_none hl).mp (by omega)
      simp only [hpos, Nat.add_zero, decide_eq_true_eq, he, if_true]
    · simp only [length_field htotal]
      rw [Nat.zero_add, Nat.sub_eq_zero_of_le (by omega), Nat.mul_zero, BitVec.shiftLeft_zero]
    · simp only [hlast, h.last]
      rw [decide_eq_decide]
      omega
  · by_cases hz : k ≤ zerosOf c.m512 t.length
    · obtain ⟨hp1, hn⟩ := h.zeros hk0 hz
      rw [Ctl.padStep, hp1, if_neg (by decide), if_pos rfl]
      have hend := zeros_end hl hk0 hz
      have hnext : (c.lenPos && !c.nolen) = decide (k = zerosOf c.m512 t.length) := by
        rw [Bool.eq_iff_iff, decide_eq_true_eq, ← hend, Bool.and_eq_true, hpos, hn, decide_eq_true_eq, Bool.not_eq_true',
          ← Bool.not_eq_true, Bool.and_eq_true, decide_eq_true_eq]
      refine ⟨fun h0 => absurd h0 (Nat.succ_ne_zero k), fun _ hz' => ⟨?_, ?_⟩, fun hz' => ?_, fun _ => ?_, ?_⟩
      · have hne : ¬k = zerosOf c.m512 t.length := by omega
        simp only [hnext, decide_eq_true_eq, hne, if_false, hpst, hp1]
      · simp only [hblk, hnolen, hn]
        cases hm : c.m512 with
        | false => simp
        | true =>
          rw [hm] at hl hz'
          have hiff := zeros_block (n := t.length) (k := k) hl
          rw [Bool.eq_iff_iff]
          simp only [Bool.true_and, decide_eq_true_eq, hiff]
          by_cases hb : (t.length + k + 1) % (2 * w) = 0 <;> simp [hb]
      · have he : k = zerosOf c.m512 t.length := by omega
        simp only [hnext, decide_eq_true_eq, ← he, if_true]
      · simp only [hlsh, h.lsh hk0]
        congr 2
        omega
      · simp only [hlast, h.last]
        rw [decide_eq_decide]
        omega
    · rw [Ctl.padStep, h.length (by omega), if_neg (by decide), if_neg (by decide)]
      refine ⟨fun h0 => absurd h0 (Nat.succ_ne_zero k), fun _ hz' => ?_, fun hz' => ?_, fun _ => ?_, ?_⟩
      · omega
      · exact hpst.trans (h.length (by omega))
      · simp only [h.lsh hk0]
        have hsub : k + 1 - (zerosOf c.m512 t.length + 1) = k - (zerosOf c.m512 t.length + 1) + 1 := by omega
        rw [hsub, Nat.mul_succ, BitVec.shiftLeft_add]
        exact shifted_zeros _
      · simp only [hlast, h.last, hblk, decide_eq_true_eq]
        have hiff := zeros_length hl (by omega) hk
        have hne : ¬k = zerosOf c.m512 t.length + 9 := by omega
        simp only [hiff, hne, decide_false]
        split
        · exact (decide_eq_true ‹_›).symm
        · exact (decide_eq_false ‹_›).symm

end GoiKey.Rtl.Sha2Unit
