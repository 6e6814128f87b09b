import GoiKey.Lib.SecureHash
import GoiKey.Model.Sha2Unit
import GoiKey.Lib.Clocked

/-! The datapath of the compression engine, in words of the width of the mode. -/

namespace GoiKey.Rtl.Sha2Unit

open SecureHash (Family Vars)
open Sha2

variable {w : Nat} {m512 : Bool} {F : Family w}

/-- The part of a word that counts. -/
abbrev part (w : Nat) (x : BitVec 64) : BitVec w := x.setWidth w

/-- The engine in this mode works for the family. -/
structure Computes (m512 : Bool) (F : Family w) : Prop where
  width : w = if m512 then 64 else 32
  bigSigma1 : ∀ x, part w (S1 m512 x) = F.bigSigma1 (part w x)
  bigSigma0 : ∀ x, part w (S0 m512 x) = F.bigSigma0 (part w x)
  smallSigma0 : ∀ x, part w (sg0 m512 x) = F.smallSigma0 (part w x)
  smallSigma1 : ∀ x, part w (sg1 m512 x) = F.smallSigma1 (part w x)
  constants : F.constants = (if m512 then k512Rom else k256Rom).map (part w)
  initial : F.initial = (if m512 then iv512Rom else iv256Rom).map (part w)

theorem Computes.le (h : Computes m512 F) : w ≤ 64 := by
  rw [h.width]
  split <;> decide

theorem part_add (h : w ≤ 64) (x y : BitVec 64) : part w (x + y) = part w x + part w y :=
  BitVec.setWidth_add x y h

/-! SHA-256. -/

theorem part_merge (l : BitVec 64) (s : BitVec 32) : part 32 (merge false l s) = s := by
  apply BitVec.eq_of_getLsbD_eq
  intro i hi
  rw [part, BitVec.getLsbD_setWidth, merge, BitVec.getLsbD_append]
  simp [hi]

theorem low_eq (x : BitVec 64) : low x = part 32 x := by
  apply BitVec.eq_of_toNat_eq
  simp [low, part]

theorem rotr32_eq {n : Nat} (h : n < 32) (x : BitVec 32) : rotr32 x n = x.rotateRight n := by
  rw [rotr32, BitVec.rotateRight_def, Nat.mod_eq_of_lt h]

theorem sha256_computes : Computes false SecureHash.sha256 where
  width := rfl
  bigSigma1 x := by
    rw [S1, part_merge, low_eq, rotr32_eq (by decide), rotr32_eq (by decide), rotr32_eq (by decide)]
    rfl
  bigSigma0 x := by
    rw [S0, part_merge, low_eq, rotr32_eq (by decide), rotr32_eq (by decide), rotr32_eq (by decide)]
    rfl
  smallSigma0 x := by
    rw [sg0, part_merge, low_eq, rotr32_eq (by decide), rotr32_eq (by decide)]
    rfl
  smallSigma1 x := by
    rw [sg1, part_merge, low_eq, rotr32_eq (by decide), rotr32_eq (by decide)]
    rfl
  constants := by decide +kernel
  initial := by decide +kernel

/-! SHA-512. -/

theorem part_self (x : BitVec 64) : part 64 x = x := BitVec.setWidth_eq x

theorem merge_self (l : BitVec 64) (s : BitVec 32) : merge true l s = l := by
  apply BitVec.eq_of_getLsbD_eq
  intro i hi
  rw [merge, if_pos rfl, low, BitVec.getLsbD_append]
  by_cases h : i < 32
  · simp [h]
  · have hsplit : 32 + (i - 32) = i := by omega
    have hlt : i - 32 < 32 := by omega
    simp [h, hsplit, hlt]

theorem rotr64_eq {n : Nat} (h : n < 64) (x : BitVec 64) : rotr64 x n = x.rotateRight n := by
  rw [rotr64, BitVec.rotateRight_def, Nat.mod_eq_of_lt h]

theorem sha512_computes : Computes true SecureHash.sha512 where
  width := rfl
  bigSigma1 x := by
    rw [S1, merge_self, part_self, part_self, rotr64_eq (by decide), rotr64_eq (by decide), rotr64_eq (by decide)]
    rfl
  bigSigma0 x := by
    rw [S0, merge_self, part_self, part_self, rotr64_eq (by decide), rotr64_eq (by decide), rotr64_eq (by decide)]
    rfl
  smallSigma0 x := by
    rw [sg0, merge_self, part_self, part_self, rotr64_eq (by decide), rotr64_eq (by decide)]
    rfl
  smallSigma1 x := by
    rw [sg1, merge_self, part_self, part_self, rotr64_eq (by decide), rotr64_eq (by decide)]
    rfl
  constants := by decide +kernel
  initial := by decide +kernel

/-! A round. -/

/-- The working variables, as far as they count. -/
def view (w : Nat) (v : Chains) : Vars w :=
  ⟨part w v.a, part w v.b, part w v.c, part w v.d, part w v.e, part w v.f, part w v.g, part w v.h⟩

theorem part_ch (h : w ≤ 64) (v : Chains) : part w (ch v) = SecureHash.ch (part w v.e) (part w v.f) (part w v.g) := by
  simp only [part, ch, SecureHash.ch, BitVec.setWidth_xor, BitVec.setWidth_and, BitVec.setWidth_not h]

theorem part_maj (v : Chains) : part w (maj v) = SecureHash.maj (part w v.a) (part w v.b) (part w v.c) := by
  simp only [part, maj, SecureHash.maj, BitVec.setWidth_xor, BitVec.setWidth_and]

variable {s : Sha2Unit}

theorem part_T1 (h : Computes s.ctl.m512 F) {k x : BitVec w} (hk : part w s.ram.rq = k) (hx : part w (s.eng.w 0) = x) :
    part w s.T1 = F.temp1 k x (view w s.eng.v) := by
  rw [T1, part_add h.le, part_add h.le, part_add h.le, part_add h.le, h.bigSigma1, part_ch h.le, hk, hx]
  rfl

theorem part_T2 (h : Computes s.ctl.m512 F) : part w s.T2 = F.temp2 (view w s.eng.v) := by
  rw [T2, part_add h.le, h.bigSigma0, part_maj]
  rfl

theorem part_wnew (h : Computes s.ctl.m512 F) {M : Nat → BitVec w} {t : Nat}
    (hw : ∀ j < 16, part w (s.eng.w j) = F.schedule M (t + j)) : part w s.wnew = F.schedule M (t + 16) := by
  rw [wnew, part_add h.le, part_add h.le, part_add h.le, h.smallSigma0, h.smallSigma1, hw 14 (by decide),
    hw 9 (by decide), hw 1 (by decide), hw 0 (by decide), F.schedule_add]
  rfl

end GoiKey.Rtl.Sha2Unit

/-! How the compression engine loads the chaining value and the block. -/

namespace GoiKey.Rtl.Sha2Unit

open SecureHash (Family Vars)
open Clocked Sha2

variable {w : Nat} {F : Family w} {s : Sha2Unit} {i : In} {M : BitVec 9 → BitVec 64}

def NoBegin (i : In) : Prop := i.beginOp = none

/-- The unit is at work, and takes no byte. -/
def Working (s : Sha2Unit) : Prop := s.busy = true ∧ s.ctl.st ≠ .stream

/-- What a compression works on. -/
structure Job where
  ctl : Ctl
  sbase : BitVec 9
  dg : Bool
  dbase : BitVec 9
  dst : BitVec 9

/-- The engine is at work, and the control waits for it. -/
structure Running (j : Job) (s : Sha2Unit) : Prop where
  wait : j.ctl.st = .wc
  ctl : s.ctl = j.ctl
  busy : s.busy = true
  wph : s.wph = none
  cGo : s.eng.cGo = none
  cDone : s.eng.cDone = false
  sbase : s.eng.sbase = j.sbase
  dg : s.eng.dg = j.dg
  dbase : s.eng.dbase = j.dbase
  dst : s.eng.dst = j.dst

variable {j : Job}

theorem Running.working (h : Running j s) : Working s := by
  refine ⟨h.busy, ?_⟩
  rw [h.ctl, h.wait]
  decide

theorem clock_waiting (hi : NoBegin i) (hst : s.ctl.st = .wc) (hdone : s.eng.cDone = false) :
    s.clock i = s.engine (s.shift (s.tick i)) := by
  have hpush : s.ctl.push i = none := by rw [Ctl.push, hst]
  simp [clock, hpush, show i.beginOp = none from hi, fsm, hst, hdone]

theorem Running.clock (h : Running j s) (hi : NoBegin i) : s.clock i = s.engine (s.shift (s.tick i)) :=
  clock_waiting hi (by rw [h.ctl, h.wait]) h.cDone

/-- The RAM after the edge, before the engine asks for anything. -/
theorem Running.ram (h : Running j s) :
    (s.shift (s.tick i)).ram = { s.ram with mem := s.ram.written, rq := s.ram.mem s.ram.ra, we := false } := by
  simp only [shift, tick, h.wph, h.busy, Option.elim_none, if_true]

theorem Running.tick (h : Running j s) : Running j (s.shift (s.tick i)) where
  wait := h.wait
  ctl := h.ctl
  busy := h.busy
  wph := rfl
  cGo := rfl
  cDone := rfl
  sbase := h.sbase
  dg := h.dg
  dbase := h.dbase
  dst := h.dst

/-- What the engine changes beside what a job is made of. -/
theorem Running.move {n n' : Sha2Unit} (h : Running j n) (hctl : n'.ctl = n.ctl)
    (hrest : n'.busy = n.busy ∧ n'.wph = n.wph) (heng : n'.eng.cGo = n.eng.cGo ∧ n'.eng.cDone = n.eng.cDone)
    (hjob : n'.eng.sbase = n.eng.sbase ∧ n'.eng.dg = n.eng.dg ∧ n'.eng.dbase = n.eng.dbase ∧ n'.eng.dst = n.eng.dst) :
    Running j n' where
  wait := h.wait
  ctl := hctl.trans h.ctl
  busy := hrest.1.trans h.busy
  wph := hrest.2.trans h.wph
  cGo := heng.1.trans h.cGo
  cDone := heng.2.trans h.cDone
  sbase := hjob.1.trans h.sbase
  dg := hjob.2.1.trans h.dg
  dbase := hjob.2.2.1.trans h.dbase
  dst := hjob.2.2.2.trans h.dst

theorem cn_ne {k m : Nat} (hm : m < 128) (hk : k < m) : BitVec.ofNat 7 k ≠ BitVec.ofNat 7 m := by
  intro h
  have hnat : k % 128 = m % 128 := congrArg BitVec.toNat h
  omega

theorem cn_succ (k : Nat) : BitVec.ofNat 7 k + 1 = BitVec.ofNat 7 (k + 1) := by
  rw [BitVec.ofNat_add]
  rfl

/-! The chaining value goes into the chains. -/

/-- The registers that the phase works with. -/
structure Loading where
  cn : BitVec 7
  ra : BitVec 9
  rq : BitVec 64
  xa : BitVec 64
  v : Chains

def loading (s : Sha2Unit) : Loading := ⟨s.eng.cn, s.ram.ra, s.ram.rq, s.xa, s.eng.v⟩

/-- A clock of the phase. -/
def Loading.step (M : BitVec 9 → BitVec 64) (base : BitVec 9) (l : Loading) : Loading where
  cn := l.cn + 1
  ra := if l.cn < 8 then base + (widx (l.cn.extractLsb' 0 4)).setWidth 9 else l.ra
  rq := M l.ra
  xa := if 2 ≤ l.cn ∧ l.cn.getLsbD 0 = false then l.rq else l.xa
  v := if 2 ≤ l.cn && l.cn.getLsbD 0 then ⟨l.xa, l.v.a, l.v.b, l.v.c, l.rq, l.v.e, l.v.f, l.v.g⟩ else l.v

/-- The words of a chaining value. -/
def value (M : BitVec 9 → BitVec 64) (base : BitVec 9) (n : Nat) : BitVec 64 := M (base + BitVec.ofNat 9 n)

def chains (M : BitVec 9 → BitVec 64) (base : BitVec 9) : Chains :=
  ⟨value M base 0, value M base 1, value M base 2, value M base 3, value M base 4, value M base 5, value M base 6,
    value M base 7⟩

theorem loading_v (base : BitVec 9) (l : Loading) (h : l.cn = 0) : ((Loading.step M base)^[10] l).v = chains M base := by
  obtain ⟨cn, ra, rq, xa, v⟩ := l
  obtain rfl : cn = 0 := h
  simp [Loading.step, widx, chains, value]

theorem loading_cn (base : BitVec 9) (l : Loading) (k : Nat) (h : l.cn = 0) :
    ((Loading.step M base)^[k] l).cn = BitVec.ofNat 7 k := by
  induction k with
  | zero => exact h
  | succ k ih =>
    rw [Function.iterate_succ_apply']
    change ((Loading.step M base)^[k] l).cn + 1 = _
    rw [ih, cn_succ]

structure Chaining (j : Job) (M : BitVec 9 → BitVec 64) (k : Nat) (s : Sha2Unit) : Prop where
  run : Running j s
  cp : s.eng.cp = .chain
  mem : s.ram.mem = M
  we : s.ram.we = false
  regs : ∃ l : Loading, l.cn = 0 ∧ loading s = (Loading.step M j.sbase)^[k] l

theorem Chaining.cn {k : Nat} (h : Chaining j M k s) : s.eng.cn = BitVec.ofNat 7 k := by
  obtain ⟨l, hl, hregs⟩ := h.regs
  rw [← loading_cn (M := M) j.sbase l k hl, ← hregs]
  rfl

theorem Chaining.loadChain {k : Nat} (h : Chaining j M k s) : ∃ n, n = s.loadChain (s.shift (s.tick i)) ∧
    Running j n ∧ n.ram.mem = M ∧ n.ram.we = false ∧
    { loading n with cn := s.eng.cn + 1 } = Loading.step M j.sbase (loading s) := by
  have hram := h.run.ram (i := i)
  have hwritten : s.ram.written = M := (SyncRam.written_of_still h.we).trans h.mem
  refine ⟨_, rfl, h.run.tick.move rfl ⟨rfl, rfl⟩ ⟨rfl, rfl⟩ ⟨rfl, rfl, rfl, rfl⟩, ?_, ?_, ?_⟩
  · simp only [Sha2Unit.loadChain, hram]
    split <;> exact hwritten
  · simp only [Sha2Unit.loadChain, hram]
    split <;> rfl
  · have hra : (s.loadChain (s.shift (s.tick i))).ram.ra =
        if s.eng.cn < 8 then j.sbase + (widx (s.eng.cn.extractLsb' 0 4)).setWidth 9 else s.ram.ra := by
      simp only [Sha2Unit.loadChain, hram, chainAddr, h.run.sbase]
      split <;> rfl
    have hrq : (s.loadChain (s.shift (s.tick i))).ram.rq = M s.ram.ra := by
      simp only [Sha2Unit.loadChain, hram, ← h.mem]
      split <;> rfl
    have hv : (s.shift (s.tick i)).eng.v = if 2 ≤ s.eng.cn && s.eng.cn.getLsbD 0 then
        ⟨s.xa, s.eng.v.a, s.eng.v.b, s.eng.v.c, s.ram.rq, s.eng.v.e, s.eng.v.f, s.eng.v.g⟩ else s.eng.v := by
      simp [shift, chShift, aIn, eIn, h.cp]
    simp only [loading, hra, hrq]
    exact congrArg (Loading.mk _ _ _ _) hv

theorem chain_next {k : Nat} (hk : k < 9) (h : Chaining j M k s) (hi : NoBegin i) :
    Chaining j M (k + 1) (s.clock i) := by
  obtain ⟨n, hn, hrun, hmem, hwe, hstep⟩ := h.loadChain (i := i)
  obtain ⟨l, hl, hregs⟩ := h.regs
  have hclock : s.clock i = { n with eng.cn := s.eng.cn + 1 } := by
    rw [h.run.clock hi, engine, h.cp, hn]
    exact if_neg (by rw [h.cn]; exact cn_ne (by decide) hk)
  rw [hclock]
  refine ⟨hrun.move rfl ⟨rfl, rfl⟩ ⟨rfl, rfl⟩ ⟨rfl, rfl, rfl, rfl⟩, ?_, hmem, hwe, l, hl, ?_⟩
  · rw [hn]
    exact h.cp
  · rw [Function.iterate_succ_apply', ← hregs, ← hstep]
    rfl

/-! The block goes into the window. -/

/-- The words of the block that is compressed. -/
def words (M : BitVec 9 → BitVec 64) (dg : Bool) (dbase : BitVec 9) (n : Nat) : BitVec 64 :=
  if dg then (if n < 8 then M (dbase + BitVec.ofNat 9 n) else if n = 8 then 0x80000000 else if n = 15 then 0x300 else 0)
  else M (BLK + BitVec.ofNat 9 n)

/-- Where they are read. -/
def wordsAddr (dg : Bool) (dbase : BitVec 9) (n : Nat) : BitVec 9 :=
  if dg then dbase + BitVec.ofNat 9 (n % 8) else BLK + BitVec.ofNat 9 n

structure Windowing (j : Job) (M : BitVec 9 → BitVec 64) (k : Nat) (s : Sha2Unit) : Prop where
  run : Running j s
  cp : s.eng.cp = .window
  cn : s.eng.cn = BitVec.ofNat 7 k
  mem : s.ram.mem = M
  we : s.ram.we = false
  v : s.eng.v = chains M j.sbase
  ra : 1 ≤ k → s.ram.ra = if k ≤ 16 then wordsAddr j.dg j.dbase (k - 1) else s.kbase
  rq : 2 ≤ k → s.ram.rq = M (wordsAddr j.dg j.dbase (k - 2))
  w : ∀ n < 16, 18 ≤ n + k → s.eng.w n = words M j.dg j.dbase (n + k - 18)

theorem chain_window (h : Chaining j M 9 s) (hi : NoBegin i) : Windowing j M 0 (s.clock i) := by
  obtain ⟨n, hn, hrun, hmem, hwe, hstep⟩ := h.loadChain (i := i)
  obtain ⟨l, hl, hregs⟩ := h.regs
  have hclock : s.clock i = { n with eng.cn := 0, eng.cp := .window } := by
    rw [h.run.clock hi, engine, h.cp, hn]
    exact if_pos h.cn
  have hv : n.eng.v = chains M j.sbase := by
    rw [← loading_v (M := M) j.sbase l hl, Function.iterate_succ_apply', ← hregs, ← hstep]
    rfl
  rw [hclock]
  refine ⟨hrun.move rfl ⟨rfl, rfl⟩ ⟨rfl, rfl⟩ ⟨rfl, rfl, rfl, rfl⟩, rfl, rfl, hmem, hwe, hv, ?_, ?_, ?_⟩
  · omega
  · omega
  · omega

theorem Windowing.blkw {k : Nat} (h : Windowing j M k s) (hlo : 2 ≤ k) (hhi : k ≤ 17) :
    s.blkw = words M j.dg j.dbase (k - 2) := by
  have hrq := h.rq hlo
  have htw : s.tw = BitVec.ofNat 5 (k - 2) := by
    rw [tw, h.cn]
    apply BitVec.eq_of_toNat_eq
    simp only [BitVec.toNat_sub, BitVec.extractLsb'_toNat, BitVec.toNat_ofNat, Nat.shiftRight_zero]
    omega
  rw [Sha2Unit.blkw, h.run.dg, words]
  cases hdg : j.dg with
  | false =>
    rw [hrq, wordsAddr, hdg]
    rfl
  | true =>
    obtain ⟨n, rfl⟩ : ∃ n, k = n + 2 := ⟨k - 2, by omega⟩
    have hlt : BitVec.ofNat 5 n < 8 ↔ n < 8 := by
      rw [BitVec.lt_def, BitVec.toNat_ofNat, Nat.mod_eq_of_lt (by omega)]
      rfl
    have heq : ∀ m < 16, BitVec.ofNat 5 n = BitVec.ofNat 5 m ↔ n = m := by
      intro m hm
      refine ⟨fun he => ?_, fun he => by rw [he]⟩
      have hnat : n % 32 = m % 32 := congrArg BitVec.toNat he
      omega
    simp only [htw, hrq, wordsAddr, hdg, Nat.add_sub_cancel, hlt, Bool.not_true, Bool.false_eq_true, if_false, if_true]
    by_cases h8 : n < 8
    · rw [if_pos h8, if_pos h8, Nat.mod_eq_of_lt h8]
    · rw [if_neg h8, if_neg h8, show (8 : BitVec 5) = BitVec.ofNat 5 8 from rfl,
        show (15 : BitVec 5) = BitVec.ofNat 5 15 from rfl]
      simp only [heq 8 (by decide), heq 15 (by decide)]

theorem Windowing.loadWindow {k : Nat} (h : Windowing j M k s) (hk : k ≤ 17) :
    ∃ n, n = s.loadWindow (s.shift (s.tick i)) ∧ Running j n ∧ n.ram.mem = M ∧ n.ram.we = false ∧
      n.eng.v = chains M j.sbase ∧
      n.ram.ra = (if k < 16 then wordsAddr j.dg j.dbase k else if k = 16 then s.kbase else s.kbase + 1) ∧
      n.ram.rq = M s.ram.ra ∧
      ∀ x < 16, 18 ≤ x + (k + 1) → n.eng.w x = words M j.dg j.dbase (x + (k + 1) - 18) := by
  have hram := h.run.ram (i := i)
  have hwritten : s.ram.written = M := (SyncRam.written_of_still h.we).trans h.mem
  have hcn : ∀ m < 128, s.eng.cn < BitVec.ofNat 7 m ↔ k < m := by
    intro m hm
    rw [h.cn, BitVec.lt_def, BitVec.toNat_ofNat, BitVec.toNat_ofNat]
    omega
  have heq : s.eng.cn = BitVec.ofNat 7 16 ↔ k = 16 := by
    rw [h.cn]
    refine ⟨fun he => ?_, fun he => by rw [he]⟩
    have hnat : k % 128 = 16 := congrArg BitVec.toNat he
    omega
  refine ⟨_, rfl, h.run.tick.move rfl ⟨rfl, rfl⟩ ⟨rfl, rfl⟩ ⟨rfl, rfl, rfl, rfl⟩, ?_, ?_, ?_, ?_, ?_, ?_⟩
  · simp only [Sha2Unit.loadWindow, hram]
    exact hwritten
  · simp only [Sha2Unit.loadWindow, hram]
    rfl
  · simp [Sha2Unit.loadWindow, shift, tick, chShift, h.cp, h.v]
  · rw [Sha2Unit.loadWindow, SyncRam.ra_read, show (16 : BitVec 7) = BitVec.ofNat 7 16 from rfl]
    simp only [heq, hcn 16 (by decide)]
    by_cases hlt : k < 16
    · rw [if_pos hlt, if_pos hlt, blockAddr, h.run.dg, h.run.dbase, h.cn, wordsAddr]
      congr 2
      · apply BitVec.eq_of_toNat_eq
        simp
      · apply BitVec.eq_of_toNat_eq
        simp [Nat.mod_eq_of_lt (show k < 128 by omega), Nat.mod_eq_of_lt (show k < 512 by omega), Nat.mod_eq_of_lt hlt]
    · rw [if_neg hlt, if_neg hlt]
  · simp only [Sha2Unit.loadWindow, hram, SyncRam.rq_read, h.mem]
  · intro x hx hlo
    have hshift : s.wShift = decide (2 ≤ k) := by
      have hle : (2 : BitVec 7) ≤ s.eng.cn ↔ 2 ≤ k := by
        rw [← BitVec.not_lt, show (2 : BitVec 7) = BitVec.ofNat 7 2 from rfl, hcn 2 (by decide), Nat.not_lt]
      rw [wShift, h.cp, decide_eq_decide.mpr hle]
      rfl
    have hk2 : 2 ≤ k := by omega
    simp only [Sha2Unit.loadWindow, shift, hshift, hk2, decide_true, if_true]
    by_cases hx15 : x < 15
    · rw [if_pos hx15, h.w (x + 1) (by omega) (by omega)]
      congr 1
      omega
    · obtain rfl : x = 15 := by omega
      rw [if_neg hx15, if_pos rfl, wIn, h.cp, if_neg (by decide), h.blkw hk2 hk]
      congr 1
      omega

theorem kbase_eq {c : Ctl} (h : s.ctl = c) : s.kbase = if c.md = .sha512 then K512 else K256 := by
  rw [kbase, Ctl.m512, h]
  simp

theorem window_next {k : Nat} (hk : k < 17) (h : Windowing j M k s) (hi : NoBegin i) :
    Windowing j M (k + 1) (s.clock i) := by
  obtain ⟨n, hn, hrun, hmem, hwe, hv, hra, hrq, hw⟩ := h.loadWindow (i := i) (by omega)
  have hclock : s.clock i = { n with eng.cn := s.eng.cn + 1 } := by
    rw [h.run.clock hi, engine, h.cp, hn]
    exact if_neg (by rw [h.cn]; exact cn_ne (by decide) hk)
  have hkb : ({ n with eng.cn := s.eng.cn + 1 } : Sha2Unit).kbase = s.kbase := by
    rw [kbase_eq h.run.ctl]
    exact kbase_eq hrun.ctl
  rw [hclock]
  refine ⟨hrun.move rfl ⟨rfl, rfl⟩ ⟨rfl, rfl⟩ ⟨rfl, rfl, rfl, rfl⟩, ?_, ?_, hmem, hwe, hv, ?_, ?_, hw⟩
  · rw [hn]
    exact h.cp
  · simp only [h.cn, cn_succ]
  · intro _
    rw [hkb]
    simp only [hra]
    by_cases h16 : k < 16
    · rw [if_pos h16, if_pos (by omega), Nat.add_sub_cancel]
    · rw [if_neg h16, if_pos (by omega), if_neg (by omega)]
  · intro h2
    simp only [hrq, h.ra (by omega), if_pos (show k ≤ 16 by omega)]
    congr 2

end GoiKey.Rtl.Sha2Unit
