import Mathlib.Tactic.IntervalCases
import GoiKey.Proofs.Sha2Loads

/-! The rounds of the compression engine, and what it leaves in the RAM. -/

namespace GoiKey.Rtl.Sha2Unit

open SecureHash (Family Vars)
open Clocked Sha2

variable {w : Nat} {F : Family w} {s : Sha2Unit} {i : In} {M : BitVec 9 → BitVec 64} {j : Job}

/-! The rounds. -/

/-- The block and the chaining value, as far as they count. -/
def blockOf (w : Nat) (M : BitVec 9 → BitVec 64) (j : Job) (n : Nat) : BitVec w := part w (words M j.dg j.dbase n)

def chainOf (w : Nat) (M : BitVec 9 → BitVec 64) (j : Job) (n : Nat) : BitVec w := part w (value M j.sbase n)

structure Rounding (F : Family w) (j : Job) (M : BitVec 9 → BitVec 64) (t : Nat) (s : Sha2Unit) : Prop where
  run : Running j s
  cp : s.eng.cp = .rounds
  cn : s.eng.cn = BitVec.ofNat 7 t
  mem : s.ram.mem = M
  we : s.ram.we = false
  ra : s.ram.ra = s.kbase + BitVec.ofNat 9 (t + 1)
  rq : s.ram.rq = M (s.kbase + BitVec.ofNat 9 t)
  v : view w s.eng.v = F.rounds (blockOf w M j) (.of (chainOf w M j)) t
  w : ∀ x < 16, part w (s.eng.w x) = F.schedule (blockOf w M j) (t + x)

theorem window_rounds (F : Family w) (h : Windowing j M 17 s) (hi : NoBegin i) : Rounding F j M 0 (s.clock i) := by
  obtain ⟨n, hn, hrun, hmem, hwe, hv, hra, hrq, hw⟩ := h.loadWindow (i := i) (by omega)
  have hclock : s.clock i = { n with eng.cn := 0, eng.cp := .rounds } := by
    rw [h.run.clock hi, engine, h.cp, hn]
    exact if_pos h.cn
  have hkb : ({ n with eng.cn := 0, eng.cp := .rounds } : Sha2Unit).kbase = s.kbase := by
    rw [kbase_eq h.run.ctl]
    exact kbase_eq hrun.ctl
  rw [hclock]
  refine ⟨hrun.move rfl ⟨rfl, rfl⟩ ⟨rfl, rfl⟩ ⟨rfl, rfl, rfl, rfl⟩, rfl, rfl, hmem, hwe, ?_, ?_, ?_, ?_⟩
  · rw [hkb]
    exact hra
  · rw [hkb]
    simp only [hrq, h.ra (by omega)]
    rw [if_neg (by decide), BitVec.add_zero]
  · simp only [hv]
    rfl
  · intro x hx
    simp only [hw x hx (by omega), Nat.zero_add]
    rw [Family.schedule, if_pos hx]
    rfl

/-- The tables of constants are where they belong. -/
structure Tables (M : BitVec 9 → BitVec 64) : Prop where
  k256 : ∀ n < 64, M (K256 + BitVec.ofNat 9 n) = k256Rom.getD n 0
  k512 : ∀ n < 80, M (K512 + BitVec.ofNat 9 n) = k512Rom.getD n 0
  iv256 : ∀ n < 8, M (IV256 + BitVec.ofNat 9 n) = iv256Rom.getD n 0
  iv512 : ∀ n < 8, M (IV512 + BitVec.ofNat 9 n) = iv512Rom.getD n 0

/-- The unit in this mode works for the family. -/
abbrev For (c : Ctl) (F : Family w) : Prop := Computes (decide (c.md = .sha512)) F

theorem m512_eq {c : Ctl} (h : s.ctl = c) : s.ctl.m512 = decide (c.md = .sha512) := by
  rw [Ctl.m512, h]

theorem For.length {c : Ctl} (h : For c F) : F.constants.length = if c.md = .sha512 then 80 else 64 := by
  rw [h.constants, List.length_map]
  by_cases hmd : c.md = .sha512
  · simp [hmd, k512Rom]
  · simp [hmd, k256Rom]

theorem For.constant {c : Ctl} (h : For c F) (hM : Tables M) (hs : s.ctl = c) {t : Nat} (ht : t < F.constants.length) :
    part w (M (s.kbase + BitVec.ofNat 9 t)) = F.constants.getD t 0 := by
  have hlen := h.length
  have hdef : part w 0 = 0 := BitVec.setWidth_zero _ _
  rw [kbase_eq hs, h.constants]
  by_cases hmd : c.md = .sha512
  · rw [if_pos hmd] at hlen
    rw [if_pos hmd, hM.k512 t (by omega), decide_eq_true hmd, if_pos rfl, ← hdef, List.getD_map]
  · rw [if_neg hmd] at hlen
    rw [if_neg hmd, hM.k256 t (by omega), decide_eq_false hmd, if_neg (by decide), ← hdef, List.getD_map]

theorem For.last {c : Ctl} (h : For c F) (hs : s.ctl = c) :
    s.lastRound = BitVec.ofNat 7 (F.constants.length - 1) := by
  rw [h.length, lastRound, m512_eq hs]
  by_cases hmd : c.md = .sha512
  · simp [hmd]
  · simp [hmd]

/-- A clock of the rounds, the last one too. -/
theorem Rounding.round {t : Nat} (h : Rounding F j M t s) (hF : For j.ctl F) (hM : Tables M)
    (ht : t < F.constants.length) : ∃ n, n = s.roundStep (s.shift (s.tick i)) ∧
    Running j n ∧ n.ram.mem = M ∧ n.ram.we = false ∧ n.ram.ra = s.kbase + BitVec.ofNat 9 (t + 2) ∧
    n.ram.rq = M (s.kbase + BitVec.ofNat 9 (t + 1)) ∧
    view w n.eng.v = F.rounds (blockOf w M j) (.of (chainOf w M j)) (t + 1) ∧
    ∀ x < 16, part w (n.eng.w x) = F.schedule (blockOf w M j) (t + 1 + x) := by
  have hram := h.run.ram (i := i)
  have hwritten : s.ram.written = M := (SyncRam.written_of_still h.we).trans h.mem
  have hlen := hF.length
  have hlt : t < 80 := by
    split at hlen <;> omega
  have hmode : Computes s.ctl.m512 F := by
    rw [m512_eq h.run.ctl]
    exact hF
  have hk : part w s.ram.rq = F.constants.getD t 0 := by
    rw [h.rq]
    exact hF.constant hM h.run.ctl ht
  have hx : part w (s.eng.w 0) = F.schedule (blockOf w M j) t := h.w 0 (by decide)
  refine ⟨_, rfl, h.run.tick.move rfl ⟨rfl, rfl⟩ ⟨rfl, rfl⟩ ⟨rfl, rfl, rfl, rfl⟩, ?_, ?_, ?_, ?_, ?_, ?_⟩
  · simp only [roundStep, hram]
    exact hwritten
  · simp only [roundStep, hram]
    rfl
  · rw [roundStep, SyncRam.ra_read, h.cn, BitVec.add_assoc]
    congr 1
    apply BitVec.eq_of_toNat_eq
    simp [Nat.mod_eq_of_lt (show t < 128 by omega)]
  · simp only [roundStep, hram, SyncRam.rq_read, h.mem, h.ra]
  · have hshift : s.chShift = true := by
      rw [chShift, h.cp]
      rfl
    have hv := h.v
    have hround : view w (s.roundStep (s.shift (s.tick i))).eng.v =
        F.round (F.constants.getD t 0) (F.schedule (blockOf w M j) t) (view w s.eng.v) := by
      simp only [roundStep, shift, hshift, if_true, aIn, eIn, h.cp]
      simp only [view, part_add hF.le, part_T1 hmode hk hx, part_T2 hmode]
      rfl
    rw [hround, hv]
    rfl
  · intro x hx16
    have hshift : s.wShift = true := by
      rw [wShift, h.cp]
      rfl
    simp only [roundStep, shift, hshift, if_true]
    by_cases hx15 : x < 15
    · rw [if_pos hx15, h.w (x + 1) (by omega)]
      congr 1
      omega
    · obtain rfl : x = 15 := by omega
      rw [if_neg hx15, if_pos rfl, wIn, h.cp, if_pos rfl, part_wnew hmode h.w]

theorem round_next {t : Nat} (ht : t + 1 < F.constants.length) (hF : For j.ctl F) (hM : Tables M)
    (h : Rounding F j M t s) (hi : NoBegin i) : Rounding F j M (t + 1) (s.clock i) := by
  obtain ⟨n, hn, hrun, hmem, hwe, hra, hrq, hv, hw⟩ := h.round (i := i) hF hM (by omega)
  have hlen := hF.length
  have hlt : F.constants.length ≤ 80 := by
    split at hlen <;> omega
  have hclock : s.clock i = { n with eng.cn := s.eng.cn + 1 } := by
    rw [h.run.clock hi, engine, h.cp, hn]
    refine if_neg ?_
    rw [h.cn, hF.last h.run.ctl]
    exact cn_ne (by omega) (by omega)
  have hkb : ({ n with eng.cn := s.eng.cn + 1 } : Sha2Unit).kbase = s.kbase := by
    rw [kbase_eq h.run.ctl]
    exact kbase_eq hrun.ctl
  rw [hclock]
  refine ⟨hrun.move rfl ⟨rfl, rfl⟩ ⟨rfl, rfl⟩ ⟨rfl, rfl, rfl, rfl⟩, ?_, ?_, hmem, hwe, ?_, ?_, hv, hw⟩
  · rw [hn]
    exact h.cp
  · simp only [h.cn, cn_succ]
  · rw [hkb]
    exact hra
  · rw [hkb]
    exact hrq

/-! The sums go into the RAM. -/

/-- The chains after some pairs of words have been taken. -/
def pop (v : Chains) : Chains := ⟨0, v.a, v.b, v.c, 0, v.e, v.f, v.g⟩

/-- The words of the working variables. -/
def wordOf (v : Chains) (n : Nat) : BitVec 64 :=
  [v.a, v.b, v.c, v.d, v.e, v.f, v.g, v.h].getD n 0

/-- The place of the words in the order in which they are read and written. -/
def order (k : Nat) : Nat := if k % 2 = 1 then 7 - k / 2 else 3 - k / 2

theorem widx_eq {k : Nat} (hk : k < 8) : (widx (BitVec.ofNat 4 k)).setWidth 9 = BitVec.ofNat 9 (order k) := by
  interval_cases k <;> rfl

/-- The word that is taken. -/
theorem taken {k : Nat} (hk : k < 8) (v : Chains) :
    (if k % 2 = 1 then (pop^[k / 2] v).h else (pop^[k / 2] v).d) = wordOf v (order k) := by
  interval_cases k <;> rfl

/-- The sums, in the order in which they are written. -/
def sum (M : BitVec 9 → BitVec 64) (j : Job) (v : Chains) (k : Nat) : BitVec 64 :=
  value M j.sbase (order k) + wordOf v (order k)

/-- The RAM after some of them. -/
def stored (M : BitVec 9 → BitVec 64) (j : Job) (v : Chains) (k : Nat) : BitVec 9 → BitVec 64 :=
  fill M (fun x => j.dst + BitVec.ofNat 9 (order x)) (sum M j v) k

/-- The words of the chaining value and those of the result come from multiples of 8. -/
def Aligned (j : Job) : Prop := j.sbase.toNat % 8 = 0 ∧ j.dst.toNat % 8 = 0

theorem order_lt (k : Nat) : order k < 8 := by
  rw [order]
  split <;> omega

theorem order_inj {k l : Nat} (hk : k < 8) (hl : l < 8) (h : order k = order l) : k = l := by
  simp only [order] at h
  split at h <;> split at h <;> omega

theorem Aligned.apart (h : Aligned j) {a b : Nat} (ha : a < 8) (hb : b < 8)
    (heq : j.sbase + BitVec.ofNat 9 a = j.dst + BitVec.ofNat 9 b) : a = b := by
  have hnat := congrArg BitVec.toNat heq
  rw [BitVec.toNat_add, BitVec.toNat_add, BitVec.toNat_ofNat, BitVec.toNat_ofNat] at hnat
  obtain ⟨hs, hd⟩ := h
  omega

/-- A word of the chaining value is read before it is overwritten. -/
theorem stored_value {v : Chains} (h : Aligned j) {k m : Nat} (hk : k < 8) (hm : m ≤ k) :
    stored M j v m (j.sbase + BitVec.ofNat 9 (order k)) = value M j.sbase (order k) := by
  apply fill_elsewhere
  intro x hx heq
  have hsame := order_inj hk (by omega) (h.apart (order_lt k) (order_lt x) heq)
  omega

structure Adding (j : Job) (M : BitVec 9 → BitVec 64) (v : Chains) (k : Nat) (s : Sha2Unit) : Prop where
  run : Running j s
  cp : s.eng.cp = .final
  cn : s.eng.cn = BitVec.ofNat 7 k
  mem : s.ram.mem = stored M j v (k - 3)
  written : s.ram.written = stored M j v (k - 2)
  ra : 1 ≤ k → k ≤ 8 → s.ram.ra = j.sbase + BitVec.ofNat 9 (order (k - 1))
  rq : 2 ≤ k → s.ram.rq = value M j.sbase (order (k - 2))
  v : s.eng.v = pop^[(k - 2) / 2] v

theorem cn_lt {k m : Nat} (hk : k < 128) (hm : m < 128) : BitVec.ofNat 7 k < BitVec.ofNat 7 m ↔ k < m := by
  rw [BitVec.lt_def, BitVec.toNat_ofNat, BitVec.toNat_ofNat]
  omega

theorem cn_le {k m : Nat} (hk : k < 128) (hm : m < 128) : BitVec.ofNat 7 k ≤ BitVec.ofNat 7 m ↔ k ≤ m := by
  rw [BitVec.le_def, BitVec.toNat_ofNat, BitVec.toNat_ofNat]
  omega

theorem cn_odd (k : Nat) : (BitVec.ofNat 7 k).getLsbD 0 = decide (k % 2 = 1) := by
  rw [BitVec.getLsbD_ofNat, Nat.testBit_zero]
  rfl

theorem Adding.finw {v : Chains} {k : Nat} (h : Adding j M v k s) (hlo : 2 ≤ k) (hhi : k ≤ 9) :
    s.finw = sum M j v (k - 2) := by
  have hodd : k % 2 = (k - 2) % 2 := by omega
  rw [Sha2Unit.finw, h.rq hlo, h.cn, cn_odd, h.v, sum, ← taken (by omega), hodd]
  by_cases ho : (k - 2) % 2 = 1
  · simp [ho]
  · simp [ho]

/-- A clock of the phase, the last one too. -/
theorem Adding.finalAdd {v : Chains} {k : Nat} (h : Adding j M v k s) (hj : Aligned j) (hk : k ≤ 9) :
    ∃ n, n = s.finalAdd (s.shift (s.tick i)) ∧ Running j n ∧ n.ram.mem = stored M j v (k + 1 - 3) ∧
      n.ram.written = stored M j v (k + 1 - 2) ∧ (k < 8 → n.ram.ra = j.sbase + BitVec.ofNat 9 (order k)) ∧
      (1 ≤ k → k ≤ 8 → n.ram.rq = value M j.sbase (order (k - 1))) ∧ n.eng.v = pop^[(k + 1 - 2) / 2] v := by
  have hram := h.run.ram (i := i)
  have hlt8 : s.eng.cn < 8 ↔ k < 8 := by
    rw [h.cn, show (8 : BitVec 7) = BitVec.ofNat 7 8 from rfl, cn_lt (by omega) (by decide)]
  have hle2 : 2 ≤ s.eng.cn ↔ 2 ≤ k := by
    rw [h.cn, show (2 : BitVec 7) = BitVec.ofNat 7 2 from rfl, cn_le (by decide) (by omega)]
  refine ⟨_, rfl, h.run.tick.move rfl ⟨rfl, rfl⟩ ⟨rfl, rfl⟩ ⟨rfl, rfl, rfl, rfl⟩, ?_, ?_, ?_, ?_, ?_⟩
  · have hmem : (s.finalAdd (s.shift (s.tick i))).ram.mem = s.ram.written := by
      simp only [Sha2Unit.finalAdd, hram]
      split <;> split <;> rfl
    rw [hmem, h.written, show k + 1 - 3 = k - 2 by omega]
  · by_cases h2 : 2 ≤ k
    · have hcj : s.cj = BitVec.ofNat 4 (k - 2) := by
        rw [cj, h.cn]
        apply BitVec.eq_of_toNat_eq
        simp only [BitVec.toNat_sub, BitVec.extractLsb'_toNat, BitVec.toNat_ofNat, Nat.shiftRight_zero]
        omega
      have hwritten : (s.finalAdd (s.shift (s.tick i))).ram.written =
          Function.update s.ram.written (s.eng.dst + (widx s.cj).setWidth 9) s.finw := by
        simp only [Sha2Unit.finalAdd, hram, hle2, h2, if_true]
        split <;> rfl
      rw [hwritten, h.written, h.run.dst, hcj, widx_eq (by omega), h.finw h2 hk, show k + 1 - 2 = k - 2 + 1 by omega]
      rfl
    · have hwritten : (s.finalAdd (s.shift (s.tick i))).ram.written = s.ram.written := by
        simp only [Sha2Unit.finalAdd, hram, hle2, h2, if_false]
        split <;> rfl
      rw [hwritten, h.written, show k + 1 - 2 = k - 2 by omega]
  · intro h8
    have hra : (s.finalAdd (s.shift (s.tick i))).ram.ra = s.chainAddr := by
      simp only [Sha2Unit.finalAdd, hlt8, h8, if_true]
      split <;> rfl
    have hcn : s.eng.cn.extractLsb' 0 4 = BitVec.ofNat 4 k := by
      rw [h.cn]
      apply BitVec.eq_of_toNat_eq
      simp only [BitVec.extractLsb'_toNat, BitVec.toNat_ofNat, Nat.shiftRight_zero]
      omega
    rw [hra, chainAddr, h.run.sbase, hcn, widx_eq h8]
  · intro h1 h8
    have hrq : (s.finalAdd (s.shift (s.tick i))).ram.rq = s.ram.mem s.ram.ra := by
      simp only [Sha2Unit.finalAdd, hram]
      split <;> split <;> rfl
    rw [hrq, h.mem, h.ra h1 h8, stored_value hj (by omega) (by omega)]
  · have hshift : s.chShift = decide (2 ≤ k ∧ k % 2 = 1) := by
      rw [chShift, h.cp, decide_eq_decide.mpr hle2, h.cn, cn_odd, Bool.decide_and]
      rfl
    have hv : (s.finalAdd (s.shift (s.tick i))).eng.v = if 2 ≤ k ∧ k % 2 = 1 then pop s.eng.v else s.eng.v := by
      simp only [Sha2Unit.finalAdd, shift, hshift, aIn, eIn, h.cp, decide_eq_true_eq]
      rfl
    rw [hv, h.v]
    by_cases hodd : 2 ≤ k ∧ k % 2 = 1
    · rw [if_pos hodd, show (k + 1 - 2) / 2 = (k - 2) / 2 + 1 by omega, Function.iterate_succ_apply']
    · rw [if_neg hodd, show (k + 1 - 2) / 2 = (k - 2) / 2 by omega]

theorem rounds_final {t : Nat} (ht : t + 1 = F.constants.length) (hF : For j.ctl F) (hM : Tables M)
    (h : Rounding F j M t s) (hi : NoBegin i) : ∃ v : Chains,
    view w v = F.rounds (blockOf w M j) (.of (chainOf w M j)) F.constants.length ∧ Adding j M v 0 (s.clock i) := by
  obtain ⟨n, hn, hrun, hmem, hwe, -, -, hv, -⟩ := h.round (i := i) hF hM (by omega)
  have hclock : s.clock i = { n with eng.cn := 0, eng.cp := .final } := by
    rw [h.run.clock hi, engine, h.cp, hn]
    refine if_pos ?_
    rw [h.cn, hF.last h.run.ctl, ← ht, Nat.add_sub_cancel]
  rw [ht] at hv
  refine ⟨n.eng.v, hv, ?_⟩
  rw [hclock]
  refine ⟨hrun.move rfl ⟨rfl, rfl⟩ ⟨rfl, rfl⟩ ⟨rfl, rfl, rfl, rfl⟩, rfl, rfl, hmem, ?_, ?_, ?_, rfl⟩
  · exact (SyncRam.written_of_still hwe).trans hmem
  · omega
  · omega

theorem final_next {v : Chains} {k : Nat} (hk : k < 9) (hj : Aligned j) (h : Adding j M v k s) (hi : NoBegin i) :
    Adding j M v (k + 1) (s.clock i) := by
  obtain ⟨n, hn, hrun, hmem, hwritten, hra, hrq, hv⟩ := h.finalAdd (i := i) hj (by omega)
  have hclock : s.clock i = { n with eng.cn := s.eng.cn + 1 } := by
    rw [h.run.clock hi, engine, h.cp, hn]
    exact if_neg (by rw [h.cn]; exact cn_ne (by decide) hk)
  rw [hclock]
  refine ⟨hrun.move rfl ⟨rfl, rfl⟩ ⟨rfl, rfl⟩ ⟨rfl, rfl, rfl, rfl⟩, ?_, ?_, hmem, hwritten, ?_, ?_, hv⟩
  · rw [hn]
    exact h.cp
  · simp only [h.cn, cn_succ]
  · intro _ h8
    exact hra (by omega)
  · intro h2
    exact hrq (by omega) (by omega)

/-! A compression. -/

/-- The engine is to start. -/
structure Launched (c : Ctl) (l : Launch) (M : BitVec 9 → BitVec 64) (s : Sha2Unit) : Prop where
  wait : c.st = .wc
  ctl : s.ctl = c
  busy : s.busy = true
  wph : s.wph = none
  cGo : s.eng.cGo = some l
  cDone : s.eng.cDone = false
  cp : s.eng.cp = .idle
  written : s.ram.written = M

/-- The engine is done. -/
structure Finished (c : Ctl) (M : BitVec 9 → BitVec 64) (s : Sha2Unit) : Prop where
  ctl : s.ctl = c
  busy : s.busy = true
  wph : s.wph = none
  cGo : s.eng.cGo = none
  cDone : s.eng.cDone = true
  cp : s.eng.cp = .idle
  written : s.ram.written = M

def baseOf (c : Ctl) (src : Src) : BitVec 9 :=
  match src with
  | .initial => if c.md = .sha512 then IV512 else IV256
  | .ipad => IST
  | .opad => OST
  | .cur => CUR

def jobOf (c : Ctl) (l : Launch) : Job := ⟨c, baseOf c l.src, l.dg, l.dbase, l.dst⟩

/-- What a compression changes: the words of the result. -/
structure Compressed (F : Family w) (j : Job) (M M' : BitVec 9 → BitVec 64) : Prop where
  result : ∀ n < 8, part w (value M' j.dst n) = F.compress (chainOf w M j) (blockOf w M j) n
  others : ∀ a, (∀ n < 8, a ≠ j.dst + BitVec.ofNat 9 n) → M' a = M a

theorem launch_starts {c : Ctl} {l : Launch} (h : Launched c l M s) (hi : NoBegin i) :
    Chaining (jobOf c l) M 0 (s.clock i) := by
  have hclock := clock_waiting hi (by rw [h.ctl, h.wait]) h.cDone
  have hbase : s.base l.src = baseOf c l.src := by
    cases hsrc : l.src with
    | initial =>
      rw [base, baseOf, m512_eq h.ctl]
      simp
    | ipad => rfl
    | opad => rfl
    | cur => rfl
  rw [hclock, engine, h.cp, h.cGo]
  refine ⟨⟨h.wait, h.ctl, h.busy, rfl, rfl, rfl, hbase, rfl, rfl, rfl⟩, rfl, ?_, ?_, _, rfl, rfl⟩
  · simp only [shift, tick, h.wph, Option.elim_none]
    exact h.written
  · simp only [shift, tick, h.wph, Option.elim_none]

theorem wordOf_view {v : Chains} {n : Nat} (hn : n < 8) : part w (wordOf v n) = (view w v).word n := by
  interval_cases n <;> rfl

theorem order_order {n : Nat} (hn : n < 8) : ∃ k < 8, order k = n := by
  interval_cases n
  · exact ⟨6, by decide, rfl⟩
  · exact ⟨4, by decide, rfl⟩
  · exact ⟨2, by decide, rfl⟩
  · exact ⟨0, by decide, rfl⟩
  · exact ⟨7, by decide, rfl⟩
  · exact ⟨5, by decide, rfl⟩
  · exact ⟨3, by decide, rfl⟩
  · exact ⟨1, by decide, rfl⟩

theorem stored_compressed {v : Chains} (hw : w ≤ 64)
    (hv : view w v = F.rounds (blockOf w M j) (.of (chainOf w M j)) F.constants.length) :
    Compressed F j M (stored M j v 8) where
  result n hn := by
    obtain ⟨k, hk, rfl⟩ := order_order hn
    have hat : value (stored M j v 8) j.dst (order k) = sum M j v k := by
      apply fill_at (fun a ha b hb hab => ?_) hk
      have hnat := congrArg BitVec.toNat hab
      rw [BitVec.toNat_add, BitVec.toNat_add, BitVec.toNat_ofNat, BitVec.toNat_ofNat] at hnat
      have ha8 := order_lt a
      have hb8 := order_lt b
      exact order_inj ha hb (by omega)
    rw [hat, sum, part_add hw, wordOf_view hn, hv]
    rfl
  others a ha := fill_elsewhere fun k _ => ha _ (order_lt k)

/-- Every run goes from the one to the other, and no byte is taken on the way. -/
abbrev Steps (P Q : Sha2Unit → Prop) : Prop := Reaches clock NoBegin (fun _ => True) Working P Q

theorem Steps.edge {P Q : Sha2Unit → Prop} (hB : ∀ s, P s → Working s)
    (h : ∀ s i, P s → NoBegin i → Q (s.clock i)) : Steps P Q := Reaches.edge hB h

/-- The engine ends whatever comes in, with the result in its place. -/
theorem compresses {c : Ctl} {l : Launch} (hF : For c F) (hM : Tables M) (hj : Aligned (jobOf c l)) :
    Steps (Launched c l M) fun s => ∃ M', Compressed F (jobOf c l) M M' ∧ Finished c M' s := by
  have hpos : F.constants.length = F.constants.length - 1 + 1 := by
    have hlen := hF.length
    split at hlen <;> omega
  have hstart : Steps (Launched c l M) (Chaining (jobOf c l) M 0) := by
    apply Steps.edge
    · intro s h
      refine ⟨h.busy, ?_⟩
      rw [h.ctl, h.wait]
      decide
    · intro s i h hi
      exact launch_starts h hi
  have hchain : Steps (Chaining (jobOf c l) M 0) (Chaining (jobOf c l) M 9) :=
    Reaches.loop fun k hk => Steps.edge (fun _ h => h.run.working) fun _ _ h hi => chain_next hk h hi
  have hwindow : Steps (Chaining (jobOf c l) M 9) (Windowing (jobOf c l) M 0) :=
    Steps.edge (fun _ h => h.run.working) fun _ _ h hi => chain_window h hi
  have hloaded : Steps (Windowing (jobOf c l) M 0) (Windowing (jobOf c l) M 17) :=
    Reaches.loop fun k hk => Steps.edge (fun _ h => h.run.working) fun _ _ h hi => window_next hk h hi
  have hround : Steps (Windowing (jobOf c l) M 17) (Rounding F (jobOf c l) M 0) :=
    Steps.edge (fun _ h => h.run.working) fun _ _ h hi => window_rounds F h hi
  have hrounds : Steps (Rounding F (jobOf c l) M 0) (Rounding F (jobOf c l) M (F.constants.length - 1)) :=
    Reaches.loop fun t ht => Steps.edge (fun _ h => h.run.working) fun _ _ h hi =>
      round_next (by omega) hF hM h hi
  have hfinal : Steps (Rounding F (jobOf c l) M (F.constants.length - 1)) fun s => ∃ v : Chains,
      view w v = F.rounds (blockOf w M (jobOf c l)) (.of (chainOf w M (jobOf c l))) F.constants.length ∧
        Adding (jobOf c l) M v 0 s :=
    Steps.edge (fun _ h => h.run.working) fun _ _ h hi => rounds_final hpos.symm hF hM h hi
  refine hstart.trans (hchain.trans (hwindow.trans (hloaded.trans (hround.trans (hrounds.trans (hfinal.trans ?_))))))
  refine Reaches.exists fun v => Reaches.fact (fun _ h => h.1) fun hv => ?_
  have hadd : Steps (Adding (jobOf c l) M v 0) (Adding (jobOf c l) M v 9) :=
    Reaches.loop fun k hk => Steps.edge (fun _ h => h.run.working) fun _ _ h hi => final_next hk hj h hi
  refine (Reaches.weaken (fun _ h => h.2) hadd).trans (Steps.edge (fun _ h => h.run.working) ?_)
  intro s i h hi
  obtain ⟨n, hn, hrun, -, hwritten, -⟩ := h.finalAdd (i := i) hj (by omega)
  refine ⟨_, stored_compressed hF.le hv, ?_⟩
  rw [h.run.clock hi, engine, h.cp]
  simp only [← hn]
  rw [if_pos (show s.eng.cn = 9 from h.cn)]
  exact ⟨hrun.ctl, hrun.busy, hrun.wph, hrun.cGo, rfl, rfl, hwritten⟩

end GoiKey.Rtl.Sha2Unit
