import GoiKey.Proofs.Sha2Keys

/-! The outer hash, and the iterations over it. -/

namespace GoiKey.Rtl.Sha2Unit

open SecureHash (Family bytesOf block)
open Clocked Sha2

variable {s : Sha2Unit} {i : In} {M M' M₀ : BitVec 9 → BitVec 64} {c c₀ : Ctl} {k t : List (BitVec 8)} {F : Family 32}

/-! A digest as the block of a compression. -/

theorem words_digest {dbase : BitVec 9} {d : Nat → BitVec 32} (hd : ∀ n < 8, part 32 (value M dbase n) = d n) (n : Nat) :
    part 32 (words M true dbase n) = SecureHash.digestBlock d n := by
  rw [words, if_pos rfl, SecureHash.digestBlock]
  by_cases h8 : n < 8
  · rw [if_pos h8, if_pos h8]
    exact hd n h8
  · rw [if_neg h8, if_neg h8]
    split
    · rfl
    · split <;> rfl

/-- The compression of a digest ends the hash of a block and the digest. -/
theorem Compressed.digest {src : Src} {dbase dst : BitVec 9} {p : List (BitVec 8)} {d : Nat → BitVec 32}
    (h : Compressed F (jobOf c ⟨src, true, dbase, dst⟩) M M') (hp : p.length = 64)
    (hchain : ∀ n < 8, part 32 (value M (baseOf c src) n) = F.chaining (block 32 p) 1 n)
    (hd : ∀ n < 8, part 32 (value M dbase n) = d n) {n : Nat} (hn : n < 8) :
    part 32 (value M' dst n) = F.digest (p ++ bytesOf d) n := by
  rw [SecureHash.digest_digest hp d hn]
  exact (h.result n hn).trans (F.compress_congr (fun j hj => hchain j hj) (fun j _ => words_digest hd j) hn)

/-- What is outside the eight words of the result stays. -/
theorem Compressed.keeps {l : Launch} (h : Compressed F (jobOf c l) M M') (hdst : l.dst.toNat + 8 ≤ 128) {a : BitVec 9}
    (ha : a.toNat < l.dst.toNat ∨ l.dst.toNat + 8 ≤ a.toNat) : M' a = M a := by
  apply h.others
  intro n hn he
  have hsum : (l.dst + BitVec.ofNat 9 n).toNat = l.dst.toNat + n := offset_toNat hdst hn
  have hnat : a.toNat = l.dst.toNat + n := (congrArg BitVec.toNat he).trans hsum
  omega

/-- The words at a place that a compression does not write to. -/
theorem Compressed.keeps_value {l : Launch} (h : Compressed F (jobOf c l) M M') (hdst : l.dst.toNat + 8 ≤ 128)
    {base : BitVec 9} (hbase : base.toNat + 8 ≤ l.dst.toNat ∨ l.dst.toNat + 8 ≤ base.toNat)
    (hle : base.toNat + 8 ≤ 128) {n : Nat} (hn : n < 8) : value M' base n = value M base n := by
  apply h.keeps hdst
  rw [offset_toNat hle hn]
  omega

theorem Keys.keeps {l : Launch} (hK : Keys F k M) (h : Compressed F (jobOf c l) M M') (hlo : 48 ≤ l.dst.toNat)
    (hhi : l.dst.toNat + 8 ≤ 128) : Keys F k M' where
  inner n hn := by
    rw [h.keeps_value hhi (.inl (Nat.le_trans (by decide) hlo)) (by decide : IST.toNat + 8 ≤ 128) hn]
    exact hK.inner n hn
  outer n hn := by
    rw [h.keeps_value hhi (.inl (show OST.toNat + 8 ≤ l.dst.toNat from hlo)) (by decide) hn]
    exact hK.outer n hn
  tables := hK.tables.above fun a ha => h.keeps hhi (.inr (by omega))

theorem Keys.outside (hK : Keys F k M) (h : Outside M M') : Keys F k M' where
  inner n hn := by
    have haddr : (IST + BitVec.ofNat 9 n).toNat = 32 + n := offset_toNat (l := 8) (by decide) hn
    rw [← hK.inner n hn, value, value, h _ (by omega) (by omega)]
  outer n hn := by
    have haddr : (OST + BitVec.ofNat 9 n).toNat = 40 + n := offset_toNat (l := 8) (by decide) hn
    rw [← hK.outer n hn, value, value, h _ (by omega) (by omega)]
  tables := hK.tables.outside h

/-! The end of an operation. -/

/-- The unit ends with the words of its result in place. -/
theorem finishes (hst : c.st = .fin) (hM : Tables M) : Steps (fun s => Calm c M s ∧ s.wph = none) fun s =>
    Answering 32 (fun n => part 32 (value M c.obase n)) s ∧ s.done = true := by
  have hne : c.st ≠ .stream := by
    rw [hst]
    decide
  have hwait : Steps (fun s => Calm c M s ∧ s.wph = none) fun s => Calm c M s ∧ Settled s := by
    rintro s ⟨hcalm, hwph⟩
    by_cases hs : Settled s
    · have hdone : Steps (fun s => Calm c M s ∧ Settled s) fun s => Calm c M s ∧ Settled s := Reaches.of_imp fun _ h => h
      exact hdone s ⟨hcalm, hs⟩
    · have hedge : Steps (fun u => u = s) fun u => Calm c M u ∧ Settled u := by
        apply Steps.edge
        · rintro u rfl
          exact hcalm.working hne
        rintro u i rfl hi
        obtain ⟨hb, hnone, hwe, -⟩ := hcalm.before (i := i)
        have hclock : u.clock i = u.before i := by
          rw [hcalm.clock hi (by rw [Ctl.push, hst])]
          simp only [fsm, hcalm.ctl, hst]
          exact if_neg fun he => hs ⟨hwph, he⟩
        rw [hwph] at hwe
        rw [hclock]
        exact ⟨hb, hnone, hwe⟩
      exact hedge s rfl
  apply hwait.trans
  apply Steps.edge fun _ h => h.1.working hne
  rintro s i ⟨hcalm, hs⟩ hi
  obtain ⟨hb, hnone, hwe, hwritten, -⟩ := hcalm.before (i := i)
  have hclock : s.clock i = { s.before i with done := true, busy := false, ctl := { c with st := .idle } } := by
    rw [hcalm.clock hi (by rw [Ctl.push, hst])]
    simp only [fsm, hcalm.ctl, hst, hs.2, if_true, hb.ctl]
  rw [hs.1] at hwe
  have hmem : (s.before i).ram.mem = M := by
    rw [← SyncRam.written_of_still hwe]
    exact hwritten
  rw [hclock]
  refine ⟨⟨⟨rfl, rfl, hb.cGo, hb.cDone, hb.cp, ⟨hnone, hwe⟩, ?_⟩, fun n hn => ?_⟩, rfl⟩
  · change Tables (s.before i).ram.mem
    rw [hmem]
    exact hM
  · change part 32 (value (s.before i).ram.mem c.obase n) = _
    rw [hmem]

/-! The outer hash. -/

/-- Where the outer hash of the message goes. -/
def outerDst (c : Ctl) : BitVec 9 := if c.md = .pbkdf2 then UREG else CUR

theorem outerDst_cases (c : Ctl) : (outerDst c).toNat % 8 = 0 ∧ 48 ≤ (outerDst c).toNat ∧ (outerDst c).toNat + 8 ≤ 128 := by
  rw [outerDst]
  split <;> decide

/-- The words of the keyed hash of what is hashed behind the inner pad. -/
def outerOf (F : Family 32) (k text : List (BitVec 8)) : Nat → BitVec 32 :=
  F.digest (F.keyPad 0x5c k ++ bytesOf (digestOf F text))

/-- The padding is over, and the outer hash is computed. -/
theorem hashes_outer (hF : For c₀ F) (hplain : c₀.plain = false) (hk : k.length ≤ 64) (hK : Keys F k M₀) :
    Steps (Padding F c₀ M₀ t (padLength c₀ t)) fun s => ∃ c M, Finished c M s ∧ c.st = .wc ∧ c.aft = .outer ∧
      c.md = c₀.md ∧ c.itersR = c₀.itersR ∧ Keys F k M ∧
      ∀ n < 8, part 32 (value M (outerDst c₀) n) = outerOf F k (padded c₀.m512 t) n := by
  have htext : padText c₀ t (padLength c₀ t) = padded c₀.m512 t := by
    rw [padText, padded, List.take_of_length_le (by rw [padOf_length]; rfl)]
  have hlaunch : Steps (Padding F c₀ M₀ t (padLength c₀ t)) fun s => ∃ c M,
      Launched { c with aft := .outer, st := .wc } ⟨.opad, true, CUR, outerDst c₀⟩ M s ∧ Same c₀ c ∧ Keys F k M ∧
      ∀ n < 8, part 32 (value M CUR n) = digestOf F (padded c₀.m512 t) n := by
    apply Steps.edge
    · rintro s ⟨c, M, hcalm, -, -, -, -, -, hst⟩
      exact hcalm.working (by rw [(hst rfl).1]; decide)
    rintro s i ⟨c, M, hcalm, hstaged, -, hsame, hout, -, hst⟩ hi
    obtain ⟨hst, hfirst, -, -⟩ := hst rfl
    obtain ⟨hb, hnone, -, hwritten, -⟩ := hcalm.before (i := i)
    have hpush : c.push i = none := by rw [Ctl.push, hst]
    have hp : c.plain = false := by
      rw [Ctl.plain, hsame.md]
      exact hplain
    have hclock : s.clock i = (s.before i).launch .opad true CUR (outerDst c₀) .outer := by
      rw [hcalm.clock hi hpush, outerDst, ← hsame.md]
      simp only [fsm, hcalm.ctl, hst, hp, Bool.false_eq_true, if_false]
    rw [htext] at hstaged
    rw [hclock]
    refine ⟨c, M, ⟨rfl, ?_, hb.busy, hnone, rfl, hb.cDone, hb.cp, hwritten⟩, hsame, hK.outside hout, fun n hn => ?_⟩
    · simp only [launch, hb.ctl]
    · have hbase : baseOf c (source c) = CUR := by
        rw [source, hfirst]
        rfl
      rw [← hbase]
      exact hstaged.chain n hn
  refine hlaunch.trans (Reaches.exists fun c => Reaches.exists fun M => Reaches.fact (fun _ h => h.2) fun hand => ?_)
  obtain ⟨hsame, hKM, hd⟩ := hand
  obtain ⟨halign, hlo, hhi⟩ := outerDst_cases c₀
  refine Reaches.weaken (fun _ h => h.1) ((compresses (F := F)
    (show For { c with aft := .outer, st := .wc } F from hsame.computes hF) hKM.tables (aligned _ _ _ _ _ halign)).imp
    (fun _ h => h) ?_)
  rintro s ⟨M', hc, hs⟩
  refine ⟨_, M', hs, rfl, rfl, hsame.md, ?_, hKM.keeps hc hlo hhi, fun n hn => ?_⟩
  · rw [hsame]
  · exact hc.digest (SecureHash.keyPad_length hk _) (fun j hj => hKM.outer j hj) hd hn

/-- The keyed hash is given out. -/
theorem hmac_answers (hF : For c₀ F) (hmd : c₀.md = .hmac) (hk : k.length ≤ 64) (hK : Keys F k M₀) :
    Steps (Padding F c₀ M₀ t (padLength c₀ t)) fun s =>
      Answering 32 (outerOf F k (padded c₀.m512 t)) s ∧ s.done = true := by
  have hplain : c₀.plain = false := by
    rw [Ctl.plain, hmd]
    rfl
  have hdst : outerDst c₀ = CUR := by
    rw [outerDst, hmd]
    rfl
  have hend : Steps (Padding F c₀ M₀ t (padLength c₀ t)) fun s => ∃ c M, (Calm c M s ∧ s.wph = none) ∧ c.st = .fin ∧
      c.obase = CUR ∧ Tables M ∧ ∀ n < 8, part 32 (value M CUR n) = outerOf F k (padded c₀.m512 t) n := by
    refine (hashes_outer hF hplain hk hK).trans (Reaches.exists fun c => Reaches.exists fun M => ?_)
    apply Steps.edge fun s h => h.1.working h.2.1
    rintro s i ⟨h, hst, haft, hmode, -, hKM, hd⟩ hi
    obtain ⟨hb, hs⟩ := h.before (i := i)
    have hclock : s.clock i = { s.before i with ctl := { c with obase := CUR, st := .fin } } := by
      rw [h.clock hst hi]
      simp only [afterwards, h.ctl, haft, hmode, hmd, if_true, hb.ctl]
    rw [hdst] at hd
    rw [hclock]
    exact ⟨_, M, ⟨⟨rfl, hb.busy, hb.cGo, hb.cDone, hb.cp, hb.pending⟩, hs.1⟩, rfl, rfl, hKM.tables, hd⟩
  refine hend.trans (Reaches.exists fun c => Reaches.exists fun M => Reaches.fact (fun _ h => h.2) fun hand => ?_)
  obtain ⟨hst, hobase, hM, hd⟩ := hand
  refine Reaches.weaken (fun _ h => h.1) ((finishes hst hM).imp (fun _ h => h) ?_)
  rintro s ⟨h, hdone⟩
  refine ⟨⟨h.toResting, fun n hn => ?_⟩, hdone⟩
  rw [h.words n hn, hobase, hd n hn]

/-! A pass over the words of the result. -/

def accAt (n : Nat) : BitVec 9 := TACC + BitVec.ofNat 9 n

/-- A word of the result after the pass. -/
def accWord (c : Ctl) (M : BitVec 9 → BitVec 64) (n : Nat) : BitVec 64 :=
  if c.tcopy then value M UREG n else value M UREG n ^^^ value M TACC n

/-- The RAM after a clock of the state. -/
def passRam (s n : Sha2Unit) : SyncRam (BitVec 9) (BitVec 64) :=
  let k := (s.ctl.sn.extractLsb' 1 3).setWidth 9
  let r := if s.ctl.sn < 16 then n.ram.read (if s.ctl.sn.getLsbD 0 then TACC + k else UREG + k) else n.ram
  if 3 ≤ s.ctl.sn ∧ s.ctl.sn.getLsbD 0 = true then
    r.write (TACC + (s.ctl.sn.extractLsb' 1 3 - 1).setWidth 9) (if s.ctl.tcopy then s.xa else s.xa ^^^ s.ram.rq)
  else r

/-- The unit after it, but for the control. -/
def passed (s n : Sha2Unit) : Sha2Unit :=
  { n with
    ram := passRam s n
    xa := if 2 ≤ s.ctl.sn ∧ s.ctl.sn.getLsbD 0 = false then s.ram.rq else n.xa }

theorem tpass_eq {n : Sha2Unit} : s.tpass n =
    if s.ctl.sn = 17 then
      if s.ctl.itersR ≤ s.ctl.jcnt then { passed s n with ctl := { n.ctl with sn := 0, obase := TACC, st := .fin } }
      else { passed s n with ctl := { n.ctl with sn := 0, jcnt := s.ctl.jcnt + 1 } }.launch .ipad true UREG XI .l1
    else { passed s n with ctl := { n.ctl with sn := s.ctl.sn + 1 } } := rfl

/-- Where a word is read: the two values take turns. -/
def passAddr (m : Nat) : BitVec 9 := (if m % 2 = 1 then TACC else UREG) + BitVec.ofNat 9 (m / 2)

/-- Before clock `m` of the state. -/
structure PassingAt (c : Ctl) (M : BitVec 9 → BitVec 64) (m : Nat) (s : Sha2Unit) : Prop where
  calm : Calm { c with sn := BitVec.ofNat 7 m } (fill M accAt (accWord c M) ((m - 2) / 2)) s
  wph : s.wph = none
  mem : s.ram.mem = fill M accAt (accWord c M) ((m - 3) / 2)
  ra : 1 ≤ m → m ≤ 16 → s.ram.ra = passAddr (m - 1)
  rq : 2 ≤ m → s.ram.rq = M (passAddr (m - 2))
  xa : 3 ≤ m → m % 2 = 1 → s.xa = value M UREG ((m - 3) / 2)

theorem passAddr_toNat {m : Nat} (hm : m < 16) :
    (passAddr m).toNat = (if m % 2 = 1 then 64 else 56) + m / 2 := by
  rw [passAddr]
  split
  · exact offset_toNat (a := TACC) (l := 8) (by decide) (by omega)
  · exact offset_toNat (a := UREG) (l := 8) (by decide) (by omega)

theorem accAt_toNat {n : Nat} (hn : n < 8) : (accAt n).toNat = 64 + n := offset_toNat (a := TACC) (l := 8) (by decide) hn

/-- A word is read before it is written. -/
theorem pass_before {m n : Nat} (hm : m < 16) (hn : n ≤ m / 2) :
    fill M accAt (accWord c M) n (passAddr m) = M (passAddr m) := by
  apply fill_elsewhere
  intro l hl he
  have hnat := congrArg BitVec.toNat he
  rw [passAddr_toNat hm, accAt_toNat (by omega)] at hnat
  split at hnat <;> omega

theorem pass_addr {m : Nat} (hm : m < 16) :
    (if (BitVec.ofNat 7 m).getLsbD 0 then TACC + ((BitVec.ofNat 7 m).extractLsb' 1 3).setWidth 9
      else UREG + ((BitVec.ofNat 7 m).extractLsb' 1 3).setWidth 9) = passAddr m := by
  interval_cases m <;> rfl

theorem pass_dst {m : Nat} (hlo : 3 ≤ m) (hhi : m ≤ 17) (hodd : m % 2 = 1) :
    TACC + ((BitVec.ofNat 7 m).extractLsb' 1 3 - 1).setWidth 9 = accAt ((m - 3) / 2) := by
  interval_cases m <;> first | rfl | exact absurd hodd (by decide)

theorem PassingAt.clock {m : Nat} (h : PassingAt c M m s) (hst : c.st = .tpass) (hi : NoBegin i) :
    s.ctl.sn = BitVec.ofNat 7 m ∧ s.clock i = s.tpass (s.before i) := by
  refine ⟨by rw [h.calm.ctl], ?_⟩
  rw [h.calm.clock hi (by rw [Ctl.push, hst])]
  simp only [fsm, h.calm.ctl, hst]

/-- A clock of the state, the last one too. -/
theorem PassingAt.passed {m : Nat} (h : PassingAt c M m s) (hm : m ≤ 17) :
    (passRam s (s.before i)).mem = fill M accAt (accWord c M) ((m - 2) / 2) ∧
      (passRam s (s.before i)).written = fill M accAt (accWord c M) ((m - 1) / 2) ∧
      (m < 16 → (passRam s (s.before i)).ra = passAddr m) ∧
      (1 ≤ m → m ≤ 16 → (passRam s (s.before i)).rq = M (passAddr (m - 1))) ∧
      (2 ≤ m → m % 2 = 0 → (Sha2Unit.passed s (s.before i)).xa = value M UREG ((m - 2) / 2)) := by
  have hbefore : s.before i = s.shift (s.tick i) := by
    rw [before, engine, h.calm.cp, h.calm.cGo]
  have hram : (s.before i).ram = { s.ram with mem := s.ram.written, rq := s.ram.mem s.ram.ra, we := false } := by
    rw [hbefore]
    simp only [shift, tick, h.wph, h.calm.busy, Option.elim_none, if_true]
  have hwritten : s.ram.written = fill M accAt (accWord c M) ((m - 2) / 2) := by
    have hpending := h.calm.pending
    rwa [pending, h.wph] at hpending
  have hsn : s.ctl.sn = BitVec.ofNat 7 m := by rw [h.calm.ctl]
  have hlt16 : s.ctl.sn < 16 ↔ m < 16 := by
    rw [hsn, show (16 : BitVec 7) = BitVec.ofNat 7 16 from rfl, cn_lt (by omega) (by decide)]
  have hle3 : 3 ≤ s.ctl.sn ↔ 3 ≤ m := by
    rw [hsn, show (3 : BitVec 7) = BitVec.ofNat 7 3 from rfl, cn_le (by decide) (by omega)]
  have hle2 : 2 ≤ s.ctl.sn ↔ 2 ≤ m := by
    rw [hsn, show (2 : BitVec 7) = BitVec.ofNat 7 2 from rfl, cn_le (by decide) (by omega)]
  have hodd : s.ctl.sn.getLsbD 0 = decide (m % 2 = 1) := by rw [hsn, cn_odd]
  have hr : ∀ a : BitVec 9, (if s.ctl.sn < 16 then (s.before i).ram.read a else (s.before i).ram).mem = s.ram.written := by
    intro a
    rw [hram]
    split <;> rfl
  refine ⟨?_, ?_, fun h16 => ?_, fun h1 h16 => ?_, fun h2 heven => ?_⟩
  · rw [← hwritten]
    simp only [passRam, hram]
    split <;> split <;> rfl
  · by_cases h3 : 3 ≤ m ∧ m % 2 = 1
    · obtain ⟨h3, ho⟩ := h3
      have hword : (if s.ctl.tcopy then s.xa else s.xa ^^^ s.ram.rq) = accWord c M ((m - 3) / 2) := by
        have hacc : passAddr (m - 2) = TACC + BitVec.ofNat 9 ((m - 3) / 2) := by
          rw [passAddr, if_pos (by omega)]
          congr 2
          omega
        rw [h.xa h3 ho, h.rq (by omega), h.calm.ctl, hacc]
        rfl
      have hdst : TACC + (s.ctl.sn.extractLsb' 1 3 - 1).setWidth 9 = accAt ((m - 3) / 2) := by
        rw [hsn]
        exact pass_dst h3 hm ho
      rw [show (m - 1) / 2 = (m - 3) / 2 + 1 by omega, fill_succ, ← hword, ← hdst,
        show (m - 3) / 2 = (m - 2) / 2 by omega, ← hwritten, ← hr]
      exact congrArg SyncRam.written (if_pos ⟨hle3.mpr h3, by rw [hodd, decide_eq_true ho]⟩)
    · rw [show (m - 1) / 2 = (m - 2) / 2 by omega, ← hwritten]
      have hnot : ¬(3 ≤ s.ctl.sn ∧ s.ctl.sn.getLsbD 0 = true) := by
        rw [hle3, hodd, decide_eq_true_iff]
        exact h3
      simp only [passRam, hram]
      rw [if_neg hnot]
      split <;> rfl
  · have hra : (passRam s (s.before i)).ra = if s.ctl.sn.getLsbD 0 then TACC + (s.ctl.sn.extractLsb' 1 3).setWidth 9
        else UREG + (s.ctl.sn.extractLsb' 1 3).setWidth 9 := by
      simp only [passRam, hlt16, h16, if_true]
      split <;> rfl
    rw [hra, hsn, pass_addr h16]
  · have hrq : s.ram.mem s.ram.ra = M (passAddr (m - 1)) := by
      rw [h.mem, h.ra h1 h16, pass_before (by omega) (by omega)]
    rw [← hrq]
    simp only [passRam, hram]
    split <;> split <;> rfl
  · have hureg : passAddr (m - 2) = UREG + BitVec.ofNat 9 ((m - 2) / 2) := by
      rw [passAddr, if_neg (by omega)]
    have hxa : (Sha2Unit.passed s (s.before i)).xa = s.ram.rq :=
      if_pos ⟨hle2.mpr h2, by rw [hodd]; exact decide_eq_false (by omega)⟩
    rw [hxa, h.rq h2, hureg]
    rfl

theorem pass_starts (hsn : c.sn = 0) (h : Calm c M s) (hs : Settled s) : PassingAt c M 0 s := by
  have hctl : ({ c with sn := BitVec.ofNat 7 0 } : Ctl) = c := by
    obtain ⟨md, st, resume, aft, sn, rest⟩ := c
    obtain rfl : sn = 0 := hsn
    rfl
  have hmem : s.ram.mem = M := by
    have hpending := h.pending
    rw [pending, hs.1] at hpending
    exact (SyncRam.written_of_still hs.2).symm.trans hpending
  refine ⟨?_, hs.1, hmem, by omega, by omega, by omega⟩
  rw [hctl]
  exact h

theorem pass_next {m : Nat} (hst : c.st = .tpass) (hm : m < 17) (h : PassingAt c M m s) (hi : NoBegin i) :
    PassingAt c M (m + 1) (s.clock i) := by
  obtain ⟨hsn, hclock⟩ := h.clock hst hi
  obtain ⟨hmem, hwritten, hra, hrq, hxa⟩ := h.passed (i := i) (Nat.le_of_lt hm)
  obtain ⟨hb, hnone, -⟩ := h.calm.before (i := i)
  have hlast : s.ctl.sn ≠ 17 := by
    rw [hsn]
    exact cn_ne (by decide) hm
  rw [hclock, tpass_eq, if_neg hlast]
  refine ⟨⟨?_, hb.busy, hb.cGo, hb.cDone, hb.cp, ?_⟩, hnone, hmem, fun _ h16 => hra (by omega), fun h2 => ?_,
    fun h3 ho => ?_⟩
  · simp only [hb.ctl, hsn, cn_succ]
  · have hstill : (passed s (s.before i)).wph = none := hnone
    simp only [pending, hstill]
    exact hwritten
  · exact hrq (by omega) (by omega)
  · exact hxa (by omega) (by omega)

/-- The RAM after a pass. -/
def passedRam (c : Ctl) (M : BitVec 9 → BitVec 64) : BitVec 9 → BitVec 64 := fill M accAt (accWord c M) 8

theorem passedRam_acc {n : Nat} (hn : n < 8) : value (passedRam c M) TACC n = accWord c M n := by
  refine fill_at (fun a ha b hb hab => ?_) hn
  have hnat := congrArg BitVec.toNat hab
  rw [accAt_toNat ha, accAt_toNat hb] at hnat
  exact Nat.add_left_cancel hnat

theorem passedRam_other {a : BitVec 9} (ha : a.toNat < 64 ∨ 72 ≤ a.toNat) : passedRam c M a = M a := by
  apply fill_elsewhere
  intro l hl he
  rw [he, accAt_toNat hl] at ha
  omega

theorem passedRam_value {base : BitVec 9} (hbase : base.toNat + 8 ≤ 64 ∨ 72 ≤ base.toNat) (hle : base.toNat + 8 ≤ 128)
    {n : Nat} (hn : n < 8) : value (passedRam c M) base n = value M base n := by
  apply passedRam_other
  rw [offset_toNat hle hn]
  omega

theorem Keys.passed (hK : Keys F k M) : Keys F k (passedRam c M) where
  inner n hn := by
    rw [passedRam_value (.inl (by decide)) (by decide : IST.toNat + 8 ≤ 128) hn]
    exact hK.inner n hn
  outer n hn := by
    rw [passedRam_value (.inl (by decide)) (by decide : OST.toNat + 8 ≤ 128) hn]
    exact hK.outer n hn
  tables := hK.tables.above fun a ha => passedRam_other (.inr (by omega))

/-- The passes go on while there are iterations left. -/
theorem passes (hst : c.st = .tpass) (hsn : c.sn = 0) : Steps (fun s => Calm c M s ∧ Settled s) fun s =>
    if c.itersR ≤ c.jcnt then Calm { c with sn := 0, obase := TACC, st := .fin } (passedRam c M) s ∧ s.wph = none
    else Launched { c with sn := 0, jcnt := c.jcnt + 1, aft := .l1, st := .wc } ⟨.ipad, true, UREG, XI⟩ (passedRam c M) s := by
  have hne : c.st ≠ .stream := by
    rw [hst]
    decide
  have hloop : Steps (PassingAt c M 0) (PassingAt c M 17) :=
    Reaches.loop fun m hm => Steps.edge (fun _ h => h.calm.working hne) fun _ _ h hi => pass_next hst hm h hi
  refine Reaches.trans (Reaches.of_imp fun s h => pass_starts hsn h.1 h.2) (hloop.trans ?_)
  apply Steps.edge fun _ h => h.calm.working hne
  intro s i h hi
  obtain ⟨hseq, hclock⟩ := h.clock hst hi
  obtain ⟨-, hwritten, -⟩ := h.passed (i := i) (Nat.le_refl 17)
  obtain ⟨hb, hnone, -⟩ := h.calm.before (i := i)
  have hstill : (Sha2Unit.passed s (s.before i)).wph = none := hnone
  have hcond : s.ctl.itersR ≤ s.ctl.jcnt ↔ c.itersR ≤ c.jcnt := by rw [h.calm.ctl]
  rw [hclock, tpass_eq, if_pos (show s.ctl.sn = 17 from hseq)]
  by_cases hend : c.itersR ≤ c.jcnt
  · rw [if_pos hend, if_pos (hcond.mpr hend)]
    refine ⟨⟨?_, hb.busy, hb.cGo, hb.cDone, hb.cp, ?_⟩, hnone⟩
    · simp only [hb.ctl]
    · simp only [pending, hstill]
      exact hwritten
  · rw [if_neg hend, if_neg fun he => hend (hcond.mp he)]
    refine ⟨rfl, ?_, hb.busy, hnone, rfl, hb.cDone, hb.cp, hwritten⟩
    simp only [launch, hb.ctl, h.calm.ctl]

/-! The iterations. -/

/-- The words of the values of the iterations, from those of the first. -/
def iterateWords (F : Family 32) (k : List (BitVec 8)) (u : Nat → BitVec 32) : Nat → Nat → BitVec 32
  | 0 => u
  | j + 1 => F.digest (F.keyPad 0x5c k ++ bytesOf (F.digest (F.keyPad 0x36 k ++ bytesOf (iterateWords F k u j))))

/-- The words of the result so far. -/
def resultWords (F : Family 32) (k : List (BitVec 8)) (u : Nat → BitVec 32) : Nat → Nat → BitVec 32
  | 0 => u
  | j + 1 => fun n => resultWords F k u j n ^^^ iterateWords F k u (j + 1) n

/-- Before the pass over iteration `j`. -/
structure Iterating (F : Family 32) (k : List (BitVec 8)) (u : Nat → BitVec 32) (iters : BitVec 32) (j : Nat) (c : Ctl)
    (M : BitVec 9 → BitVec 64) : Prop where
  st : c.st = .tpass
  sn : c.sn = 0
  tcopy : c.tcopy = decide (j = 0)
  jcnt : c.jcnt = BitVec.ofNat 32 (j + 1)
  itersR : c.itersR = iters
  mode : For c F
  keys : Keys F k M
  value : ∀ n < 8, part 32 (value M UREG n) = iterateWords F k u j n
  result : j ≠ 0 → ∀ n < 8, part 32 (Sha2Unit.value M TACC n) = resultWords F k u (j - 1) n

theorem Iterating.passed {u : Nat → BitVec 32} {iters : BitVec 32} {j : Nat} (h : Iterating F k u iters j c M) {n : Nat}
    (hn : n < 8) : part 32 (Sha2Unit.value (passedRam c M) TACC n) = resultWords F k u j n := by
  rw [passedRam_acc hn, accWord, h.tcopy]
  obtain _ | j := j
  · exact h.value n hn
  · have hvalue := h.value n hn
    have hresult := h.result (Nat.succ_ne_zero j) n hn
    rw [part] at hvalue hresult
    rw [decide_eq_false (Nat.succ_ne_zero j), if_neg Bool.false_ne_true, part, BitVec.setWidth_xor, hvalue, hresult,
      BitVec.xor_comm]
    rfl

theorem iters_le {iters : BitVec 32} {j : Nat} (hc : c.itersR = iters) (hj : c.jcnt = BitVec.ofNat 32 (j + 1))
    (hlt : j + 1 < 2 ^ 32) : c.itersR ≤ c.jcnt ↔ iters.toNat ≤ j + 1 := by
  rw [hc, hj, BitVec.le_def, BitVec.toNat_ofNat, Nat.mod_eq_of_lt hlt]

/-- A compression that another one follows. -/
theorem Finished.launches {l : Launch} {aft : After} (h : Finished c M s) (hst : c.st = .wc) (hi : NoBegin i)
    (haft : ∀ n, s.afterwards n = n.launch l.src l.dg l.dbase l.dst aft) :
    Launched { c with aft := aft, st := .wc } l M (s.clock i) := by
  obtain ⟨hb, hs⟩ := h.before (i := i)
  have hwritten : (s.before i).ram.written = M := by
    have hpending := hb.pending
    rwa [pending, hs.1] at hpending
  rw [h.clock hst hi, haft]
  refine ⟨rfl, ?_, hb.busy, hs.1, rfl, hb.cDone, hb.cp, hwritten⟩
  simp only [launch, hb.ctl]

/-- An iteration: the inner and the outer hash of the value before. -/
theorem iterates {u : Nat → BitVec 32} {iters : BitVec 32} {j : Nat} (hj : j + 1 < iters.toNat) (hk : k.length ≤ 64)
    (h : Iterating F k u iters j c M) : Steps (fun s => Calm c M s ∧ Settled s) fun s =>
      ∃ c M, (Calm c M s ∧ Settled s) ∧ Iterating F k u iters (j + 1) c M := by
  have hlt : j + 1 < 2 ^ 32 := Nat.lt_trans hj iters.isLt
  have hmore : ¬c.itersR ≤ c.jcnt := by
    rw [iters_le h.itersR h.jcnt hlt]
    exact Nat.not_le_of_lt hj
  have hpass := passes (M := M) h.st h.sn
  simp only [hmore, if_false] at hpass
  have hK := h.keys.passed (c := c)
  refine hpass.trans ((compresses (F := F) (show For { c with sn := 0, jcnt := c.jcnt + 1, aft := .l1, st := .wc } F
    from h.mode) hK.tables (aligned _ _ _ _ _ (by decide))).trans (Reaches.exists fun M₁ =>
    Reaches.fact (fun _ h => h.1) fun hc₁ => ?_))
  have hK₁ := hK.keeps hc₁ (by decide) (by decide)
  have hvalue : ∀ n < 8, part 32 (Sha2Unit.value (passedRam c M) UREG n) = iterateWords F k u j n := by
    intro n hn
    rw [passedRam_value (.inl (by decide)) (by decide : UREG.toNat + 8 ≤ 128) hn, h.value n hn]
  have hinner : ∀ n < 8, part 32 (Sha2Unit.value M₁ XI n) =
      F.digest (F.keyPad 0x36 k ++ bytesOf (iterateWords F k u j)) n :=
    fun n hn => hc₁.digest (SecureHash.keyPad_length hk _) (fun j hj => hK.inner j hj) hvalue hn
  have hlaunch : Steps (Finished { c with sn := 0, jcnt := c.jcnt + 1, aft := .l1, st := .wc } M₁)
      (Launched { c with sn := 0, jcnt := c.jcnt + 1, aft := .l2, st := .wc } ⟨.opad, true, XI, UREG⟩ M₁) := by
    apply Steps.edge fun s h => h.working rfl
    intro s i hs hi
    exact hs.launches rfl hi fun n => by simp only [afterwards, hs.ctl]
  refine Reaches.weaken (fun _ h => h.2) (hlaunch.trans ((compresses (F := F)
    (show For { c with sn := 0, jcnt := c.jcnt + 1, aft := .l2, st := .wc } F from h.mode) hK₁.tables
    (aligned _ _ _ _ _ (by decide))).trans (Reaches.exists fun M₂ => Reaches.fact (fun _ h => h.1) fun hc₂ => ?_)))
  have hK₂ := hK₁.keeps hc₂ (by decide) (by decide)
  have houter : ∀ n < 8, part 32 (Sha2Unit.value M₂ UREG n) = iterateWords F k u (j + 1) n :=
    fun n hn => hc₂.digest (SecureHash.keyPad_length hk _) (fun j hj => hK₁.outer j hj) hinner hn
  have hacc : ∀ n < 8, part 32 (Sha2Unit.value M₂ TACC n) = resultWords F k u j n := by
    intro n hn
    rw [hc₂.keeps_value (by decide) (.inr (by decide)) (by decide : TACC.toNat + 8 ≤ 128) hn,
      hc₁.keeps_value (by decide) (.inl (by decide)) (by decide : TACC.toNat + 8 ≤ 128) hn, h.passed hn]
  apply Steps.edge fun s h => h.2.working rfl
  rintro s i ⟨-, hs⟩ hi
  obtain ⟨hb, hsettled⟩ := hs.before (i := i)
  have hclock : s.clock i = { s.before i with ctl :=
      { c with sn := 0, jcnt := c.jcnt + 1, aft := .l2, tcopy := false, st := .tpass } } := by
    rw [hs.clock rfl hi]
    simp only [afterwards, hs.ctl, hb.ctl]
  have hjcnt : c.jcnt + 1 = BitVec.ofNat 32 (j + 1 + 1) := by
    rw [h.jcnt, BitVec.ofNat_add (j + 1) 1]
    rfl
  rw [hclock]
  exact ⟨_, M₂, ⟨⟨rfl, hb.busy, hb.cGo, hb.cDone, hb.cp, hb.pending⟩, hsettled⟩,
    ⟨rfl, rfl, (decide_eq_false (Nat.succ_ne_zero j)).symm, hjcnt, h.itersR, h.mode, hK₂, houter, fun _ => hacc⟩⟩

/-- After the last iteration the result is given out. -/
theorem iterations_end {u : Nat → BitVec 32} {iters : BitVec 32} {j : Nat} (hj : iters.toNat ≤ j + 1)
    (hlt : j + 1 < 2 ^ 32) (h : Iterating F k u iters j c M) : Steps (fun s => Calm c M s ∧ Settled s) fun s =>
      Answering 32 (resultWords F k u j) s ∧ s.done = true := by
  have hlast : c.itersR ≤ c.jcnt := by
    rw [iters_le h.itersR h.jcnt hlt]
    exact hj
  have hpass := passes (M := M) h.st h.sn
  simp only [hlast, if_true] at hpass
  refine hpass.trans ((finishes (c := { c with sn := 0, obase := TACC, st := .fin }) rfl (h.keys.passed (c := c)).tables).imp
    (fun _ h => h) ?_)
  rintro s ⟨hs, hdone⟩
  refine ⟨⟨hs.toResting, fun n hn => ?_⟩, hdone⟩
  rw [hs.words n hn]
  exact h.passed hn

/-- All the iterations. -/
theorem iterations {u : Nat → BitVec 32} {iters : BitVec 32} (hk : k.length ≤ 64) :
    Steps (fun s => ∃ c M, (Calm c M s ∧ Settled s) ∧ Iterating F k u iters 0 c M) fun s =>
      Answering 32 (resultWords F k u (iters.toNat - 1)) s ∧ s.done = true := by
  have hlt := iters.isLt
  have hloop : Steps (fun s => ∃ c M, (Calm c M s ∧ Settled s) ∧ Iterating F k u iters 0 c M) fun s =>
      ∃ c M, (Calm c M s ∧ Settled s) ∧ Iterating F k u iters (iters.toNat - 1) c M := by
    apply Reaches.loop (I := fun j s => ∃ c M, (Calm c M s ∧ Settled s) ∧ Iterating F k u iters j c M)
    intro j hj
    refine Reaches.exists fun c => Reaches.exists fun M => Reaches.fact (fun _ h => h.2) fun h => ?_
    exact Reaches.weaken (fun _ h => h.1) (iterates (by omega) hk h)
  refine hloop.trans (Reaches.exists fun c => Reaches.exists fun M => Reaches.fact (fun _ h => h.2) fun h => ?_)
  exact Reaches.weaken (fun _ h => h.1) (iterations_end (by omega) (by omega) h)

/-- The outer hash of the salt begins the iterations. -/
theorem pbkdf2_answers (hF : For c₀ F) (hmd : c₀.md = .pbkdf2) (hk : k.length ≤ 64) (hK : Keys F k M₀) :
    Steps (Padding F c₀ M₀ t (padLength c₀ t)) fun s =>
      Answering 32 (resultWords F k (outerOf F k (padded c₀.m512 t)) (c₀.itersR.toNat - 1)) s ∧ s.done = true := by
  have hplain : c₀.plain = false := by
    rw [Ctl.plain, hmd]
    rfl
  have hdst : outerDst c₀ = UREG := by
    rw [outerDst, hmd]
    rfl
  refine (hashes_outer hF hplain hk hK).trans (Reaches.trans ?_ (iterations hk))
  refine Reaches.exists fun c => Reaches.exists fun M => ?_
  apply Steps.edge fun s h => h.1.working h.2.1
  rintro s i ⟨h, hst, haft, hmode, hiters, hKM, hd⟩ hi
  obtain ⟨hb, hs⟩ := h.before (i := i)
  have hclock : s.clock i = { s.before i with ctl := { c with tcopy := true, jcnt := 1, sn := 0, st := .tpass } } := by
    rw [h.clock hst hi]
    simp only [afterwards, h.ctl, haft, hmode, hmd, hb.ctl]
    rfl
  have hFor : For c F := by
    rw [For, hmode]
    exact hF
  rw [hdst] at hd
  rw [hclock]
  exact ⟨_, M, ⟨⟨rfl, hb.busy, hb.cGo, hb.cDone, hb.cp, hb.pending⟩, hs⟩,
    ⟨rfl, rfl, rfl, rfl, hiters, hFor, hKM, hd, fun h0 => absurd rfl h0⟩⟩

end GoiKey.Rtl.Sha2Unit
