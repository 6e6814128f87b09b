import GoiKey.Lib.KeyedHash
import GoiKey.Proofs.Sha2Hash

/-! The key is taken up, and the two hashes are begun with it. -/

namespace GoiKey.Rtl.Sha2Unit

open SecureHash (Family sha256 wordAt shiftIn Ending)
open Clocked Sha2

variable {s : Sha2Unit} {i : In} {M M' : BitVec 9 → BitVec 64} {c : Ctl} {k : List (BitVec 8)} {b : BitVec 8}

theorem key_ne {m n : Nat} (hm : m < 16) (hn : n < 16) (h : m ≠ n) : KEY + BitVec.ofNat 9 m ≠ KEY + BitVec.ofNat 9 n := by
  intro he
  have hnat := congrArg BitVec.toNat he
  rw [BitVec.toNat_add, BitVec.toNat_add, BitVec.toNat_ofNat, BitVec.toNat_ofNat] at hnat
  change (16 + m % 512) % 512 = (16 + n % 512) % 512 at hnat
  omega

/-- The bytes of a key so far. -/
structure Keyed (k : List (BitVec 8)) (c : Ctl) (M : BitVec 9 → BitVec 64) : Prop where
  kcnt : c.kcnt.toNat = k.length
  words : ∀ n, (n + 1) * 4 ≤ k.length → part 32 (M (KEY + BitVec.ofNat 9 n)) = wordAt 32 k n
  ending : Ending k c.kw32

/-- The control with one byte more. -/
def keyedCtl (c : Ctl) (b : BitVec 8) : Ctl := { c with kw32 := shiftIn c.kw32 b, kcnt := c.kcnt + 1 }

/-- The RAM with the word that a byte of the key ends. -/
def keyedRam (c : Ctl) (b : BitVec 8) (M : BitVec 9 → BitVec 64) : BitVec 9 → BitVec 64 :=
  if c.kcnt.extractLsb' 0 2 = 3 then
    Function.update M (KEY + (c.kcnt.extractLsb' 2 4).setWidth 9) ((shiftIn c.kw32 b).setWidth 64)
  else M

theorem kcnt_low (h : c.kcnt.toNat = k.length) (x : BitVec 2) :
    c.kcnt.extractLsb' 0 2 = x ↔ k.length % 4 = x.toNat := by
  rw [← BitVec.toNat_inj, BitVec.extractLsb'_toNat, h, Nat.shiftRight_zero]

theorem key_addr (h : c.kcnt.toNat = k.length) (hk : k.length < 64) :
    KEY + (c.kcnt.extractLsb' 2 4).setWidth 9 = KEY + BitVec.ofNat 9 (k.length / 4) := by
  congr 1
  apply BitVec.eq_of_toNat_eq
  rw [BitVec.toNat_setWidth, BitVec.extractLsb'_toNat, h, BitVec.toNat_ofNat, Nat.shiftRight_eq_div_pow]
  change k.length / 4 % 16 % 512 = k.length / 4 % 512
  omega

theorem Keyed.push (h : Keyed k c M) (hk : k.length < 64) (b : BitVec 8) :
    Keyed (k ++ [b]) (keyedCtl c b) (keyedRam c b M) := by
  refine ⟨?_, fun n hn => ?_, h.ending.push b⟩
  · have hlt : c.kcnt.toNat + 1 < 128 := by
      rw [h.kcnt]
      omega
    rw [List.length_append, List.length_singleton, ← h.kcnt]
    exact (BitVec.toNat_add _ _).trans (Nat.mod_eq_of_lt hlt)
  · rw [List.length_append, List.length_singleton] at hn
    have hold : (n + 1) * 4 ≤ k.length → part 32 (M (KEY + BitVec.ofNat 9 n)) = wordAt 32 (k ++ [b]) n := by
      intro hle
      rw [h.words n hle, SecureHash.wordAt_append _ hle]
    rw [keyedRam]
    by_cases hend : k.length % 4 = 3
    · rw [if_pos ((kcnt_low h.kcnt 3).mpr hend), key_addr h.kcnt hk]
      by_cases hnk : n = k.length / 4
      · have hlen : k.length + 1 = (n + 1) * 4 := by omega
        rw [← hnk, Function.update_self, part, BitVec.setWidth_setWidth_of_le _ (by decide), BitVec.setWidth_eq]
        exact h.ending.word rfl hlen (by decide)
      · rw [Function.update_of_ne (key_ne (by omega) (by omega) hnk)]
        exact hold (by omega)
    · rw [if_neg fun he => hend ((kcnt_low h.kcnt 3).mp he)]
      exact hold (by omega)

/-- The control when the key has ended. -/
def keyedEnd (c : Ctl) : Ctl :=
  { c with
    nkw := c.kcnt.extractLsb' 2 5 + if c.kcnt.extractLsb' 0 2 = 0 then 0 else 1
    sn := 0
    dpad := false
    st := .der }

/-- The words of the key that the unit makes its blocks of. -/
def keyWord (c : Ctl) (M : BitVec 9 → BitVec 64) (n : Nat) : BitVec 32 :=
  if BitVec.ofNat 5 n < c.nkw then low (M (KEY + BitVec.ofNat 9 n)) else 0

theorem nkw_toNat (h : c.kcnt.toNat = k.length) (hk : k.length ≤ 64) : (keyedEnd c).nkw.toNat = (k.length + 3) / 4 := by
  have hdiv : (c.kcnt.extractLsb' 2 5).toNat = k.length / 4 := by
    rw [BitVec.extractLsb'_toNat, h, Nat.shiftRight_eq_div_pow]
    change k.length / 4 % 32 = _
    omega
  have hlow := kcnt_low h 0
  simp only [keyedEnd]
  rw [BitVec.toNat_add, hdiv]
  by_cases h0 : k.length % 4 = 0
  · rw [if_pos (hlow.mpr h0)]
    change (k.length / 4 + 0) % 32 = _
    omega
  · rw [if_neg fun he => h0 (hlow.mp he)]
    change (k.length / 4 + 1) % 32 = _
    omega

/-- What is left of a key is filled up with zero bytes. -/
theorem keyRest_eq (hs : s.ctl = c) (h : c.kcnt.toNat = k.length) (hr : k.length % 4 ≠ 0) :
    s.keyRest = (List.replicate (4 - k.length % 4) 0).foldl shiftIn c.kw32 := by
  have hlt : k.length % 4 < 4 := Nat.mod_lt _ (by decide)
  rw [keyRest, hs]
  obtain h1 | h2 | h3 : k.length % 4 = 1 ∨ k.length % 4 = 2 ∨ k.length % 4 = 3 := by omega
  · rw [if_pos ((kcnt_low h 1).mpr h1), h1]
    exact SecureHash.append_zeros (v := 8) (n := 3) c.kw32
  · rw [if_neg fun he => absurd ((kcnt_low h 1).mp he) (by rw [h2]; decide), if_pos ((kcnt_low h 2).mpr h2), h2]
    exact SecureHash.append_zeros (v := 16) (n := 2) c.kw32
  · rw [if_neg fun he => absurd ((kcnt_low h 1).mp he) (by rw [h3]; decide),
      if_neg fun he => absurd ((kcnt_low h 2).mp he) (by rw [h3]; decide), h3]
    exact SecureHash.append_zeros (v := 24) (n := 1) c.kw32

/-- The RAM when the key has ended. -/
def keyedEndRam (s : Sha2Unit) (M : BitVec 9 → BitVec 64) : BitVec 9 → BitVec 64 :=
  if s.ctl.kcnt.extractLsb' 0 2 = 0 then M else Function.update M s.keyAddr (s.keyRest.setWidth 64)

/-- The word that the zeros fill up. -/
theorem key_last (h : Keyed k c M) (hr : k.length % 4 ≠ 0) (hk : k.length ≤ 64) (F : Family 32) :
    (List.replicate (4 - k.length % 4) 0).foldl shiftIn c.kw32 = wordAt 32 (F.keyBlock k) (k.length / 4) := by
  obtain ⟨x, hx⟩ := h.ending
  have hlen : (k.drop (k.length / 4 * 4)).length = k.length % 4 := by
    rw [List.length_drop]
    omega
  have hword : ((F.keyBlock k).drop (k.length / 4 * 4)).take 4 =
      k.drop (k.length / 4 * 4) ++ List.replicate (4 - k.length % 4) 0 := by
    rw [SecureHash.keyBlock_short hk, List.drop_append_of_le_length (Nat.div_mul_le_self _ _), List.take_append, hlen,
      List.take_of_length_le (by omega), List.take_replicate, Nat.min_eq_left (by omega)]
  rw [hx, ← List.foldl_append, wordAt]
  change (k.drop (k.length / 4 * 4) ++ List.replicate (4 - k.length % 4) 0).foldl shiftIn x =
    SecureHash.wordOf 32 (((F.keyBlock k).drop (k.length / 4 * 4)).take 4)
  rw [hword]
  refine SecureHash.foldl_shiftIn_full ?_ x
  rw [List.length_append, hlen, List.length_replicate]
  omega

/-- The words of the block of the key. -/
theorem Keyed.ends (h : Keyed k c M) (hs : s.ctl = c) (hk : k.length ≤ 64) (F : Family 32) {n : Nat} (hn : n < 16) :
    keyWord (keyedEnd c) (keyedEndRam s M) n = wordAt 32 (F.keyBlock k) n := by
  have hlt : BitVec.ofNat 5 n < (keyedEnd c).nkw ↔ n < (k.length + 3) / 4 := by
    rw [BitVec.lt_def, nkw_toNat h.kcnt hk, BitVec.toNat_ofNat, Nat.mod_eq_of_lt (by omega)]
  have hlow := kcnt_low h.kcnt 0
  rw [keyWord]
  by_cases hin : n < (k.length + 3) / 4
  · rw [if_pos (hlt.mpr hin), low_eq, keyedEndRam, hs]
    have hold : (n + 1) * 4 ≤ k.length → part 32 (M (KEY + BitVec.ofNat 9 n)) = wordAt 32 (F.keyBlock k) n := by
      intro hle
      rw [h.words n hle, SecureHash.keyBlock_short hk, SecureHash.wordAt_append _ hle]
    by_cases hr : k.length % 4 = 0
    · rw [if_pos (hlow.mpr hr)]
      exact hold (by omega)
    · rw [if_neg fun he => hr (hlow.mp he), keyAddr, hs, key_addr h.kcnt (by omega)]
      by_cases hlast : n = k.length / 4
      · rw [hlast, Function.update_self, part, BitVec.setWidth_setWidth_of_le _ (by decide), BitVec.setWidth_eq,
          keyRest_eq hs h.kcnt hr, key_last h hr hk F]
      · rw [Function.update_of_ne (key_ne hn (by omega) hlast)]
        exact hold (by omega)
  · rw [if_neg fun he => hin (hlt.mp he), SecureHash.keyBlock_short hk,
      SecureHash.wordAt_zeros (show k.length ≤ n * (32 / 8) by omega)]

/-! The clocks on which the key is taken up. -/

/-- What an operation with a key begins with. -/
structure Begun (md : Mode) (iters : BitVec 32) (c : Ctl) : Prop where
  md : c.md = md
  itersR : c.itersR = iters
  total : c.total = 64
  cnt : c.cnt = 0
  bc : c.bc = 0
  first : c.first = true
  last : c.last = false

/-- The unit has taken up these bytes of a key. -/
def Keying (md : Mode) (iters : BitVec 32) (k : List (BitVec 8)) (s : Sha2Unit) : Prop :=
  ∃ c M, Calm c M s ∧ c.st = .key ∧ Keyed k c M ∧ Begun md iters c ∧ Tables M

theorem Resting.begins_key (h : Resting s) {md : Mode} (hmd : md = .hmac ∨ md = .pbkdf2) {iters : BitVec 32}
    (hi : i.beginOp = some (md, iters)) : Keying md iters [] (s.clock i) := by
  have hbefore : s.before i = s.shift (s.tick i) := by
    rw [before, engine, h.cp, h.cGo]
  have hpush : s.ctl.push i = none := by rw [Ctl.push, h.st]
  have hplain : (decide (md = .sha) || decide (md = .sha512)) = false := by
    obtain rfl | rfl := hmd <;> rfl
  have hclock : s.clock i = (s.shift (s.tick i)).start md iters := by
    rw [← hbefore]
    simp only [clock, hi, hpush]
    rfl
  obtain ⟨hwph, hwe⟩ := h.settled
  have hmem : (s.shift (s.tick i)).ram.written = s.ram.mem := by
    simp only [shift, tick, hwph, Option.elim_none]
    exact SyncRam.written_of_still hwe
  rw [hclock]
  refine ⟨_, s.ram.mem, ⟨rfl, rfl, rfl, rfl, h.cp, hmem⟩, ?_, ⟨rfl, fun n hn => ?_, ⟨_, rfl⟩⟩,
    ⟨rfl, rfl, ?_, rfl, rfl, rfl, rfl⟩, h.tables⟩
  · simp only [start, hplain]
    rfl
  · exact absurd hn (Nat.not_le_of_gt (Nat.mul_pos (Nat.succ_pos n) (by decide)))
  · simp only [start, hplain]
    rfl

theorem key_push (h : c.st = .key) : c.push i = none := by rw [Ctl.push, h]

theorem key_addr_lt (x : BitVec 4) : (KEY + x.setWidth 9).toNat < 128 := by
  have hlt := x.isLt
  rw [BitVec.toNat_add, BitVec.toNat_setWidth]
  change (16 + _) % 512 < 128
  omega

theorem keyedRam_tables (h : Tables M) : Tables (keyedRam c b M) := by
  rw [keyedRam]
  split
  · exact h.update (key_addr_lt _) _
  · exact h

theorem keyedEndRam_tables (h : Tables M) : Tables (keyedEndRam s M) := by
  rw [keyedEndRam]
  split
  · exact h
  · exact h.update (key_addr_lt _) _

/-- A clock on which nothing of the key comes. -/
theorem Keying.waits {md : Mode} {iters : BitVec 32} (h : Keying md iters k s) (hi : NoBegin i) (hb : i.keyWr = none)
    (hend : i.keyDone = false) : Keying md iters k (s.clock i) := by
  obtain ⟨c, M, hcalm, hst, hrest⟩ := h
  have hclock : s.clock i = s.before i := by
    rw [hcalm.clock hi (key_push hst)]
    simp only [fsm, hcalm.ctl, hst, hb, hend]
    rfl
  rw [hclock]
  exact ⟨c, M, hcalm.before.1, hst, hrest⟩

/-- A byte of the key. -/
theorem Keying.byte {md : Mode} {iters : BitVec 32} (h : Keying md iters k s) (hk : k.length < 64) (hi : NoBegin i)
    (hb : i.keyWr = some b) (hend : i.keyDone = false) : Keying md iters (k ++ [b]) (s.clock i) := by
  obtain ⟨c, M, hcalm, hst, hkeyed, hbegun, hM⟩ := h
  obtain ⟨hbefore, hwph, -, hwritten, -⟩ := hcalm.before (i := i)
  have hkw : c.kw32.extractLsb' 0 24 ++ b = shiftIn c.kw32 b := SecureHash.append_shiftIn (v := 24) c.kw32 b
  have hclock : s.clock i = s.keyWrite (s.before i) b := by
    rw [hcalm.clock hi (key_push hst)]
    simp only [fsm, hcalm.ctl, hst, hb, hend]
    rfl
  rw [hclock]
  refine ⟨keyedCtl c b, keyedRam c b M, ⟨?_, hbefore.busy, hbefore.cGo, hbefore.cDone, hbefore.cp, ?_⟩, hst,
    hkeyed.push hk b, ⟨hbegun.md, hbegun.itersR, hbegun.total, hbegun.cnt, hbegun.bc, hbegun.first, hbegun.last⟩,
    keyedRam_tables hM⟩
  · simp only [keyWrite, hbefore.ctl, hcalm.ctl, hkw]
    rfl
  · simp only [pending, keyWrite, keyedRam, hcalm.ctl, hkw, hwph, keyAddr]
    split
    · rw [← hwritten]
      rfl
    · exact hwritten

/-! The blocks of the two hashes. -/

/-- The unit is to make the block of the key under a pad, and the one under the other pad if
it is the first. -/
structure Deriving (F : Family 32) (md : Mode) (iters : BitVec 32) (k : List (BitVec 8)) (dpad : Bool) (c : Ctl)
    (M : BitVec 9 → BitVec 64) : Prop where
  st : c.st = .der
  sn : c.sn = 0
  words : ∀ n < 16, keyWord c M n = wordAt 32 (F.keyBlock k) n
  begun : Begun md iters c
  dpad : c.dpad = dpad
  tables : Tables M

/-- The key has ended. -/
theorem Keying.ends {md : Mode} {iters : BitVec 32} (h : Keying md iters k s) (hk : k.length ≤ 64) (hi : NoBegin i)
    (hb : i.keyWr = none) (hend : i.keyDone = true) (F : Family 32) :
    ∃ c M, Calm c M (s.clock i) ∧ Deriving F md iters k false c M := by
  obtain ⟨c, M, hcalm, hst, hkeyed, hbegun, hM⟩ := h
  obtain ⟨hbefore, hwph, -, hwritten, -⟩ := hcalm.before (i := i)
  have hclock : s.clock i = s.keyDone (s.before i) := by
    rw [hcalm.clock hi (key_push hst)]
    simp only [fsm, hcalm.ctl, hst, hb, hend]
    rfl
  rw [hclock]
  refine ⟨keyedEnd c, keyedEndRam s M, ⟨?_, hbefore.busy, hbefore.cGo, hbefore.cDone, hbefore.cp, ?_⟩,
    ⟨rfl, rfl, fun n hn => hkeyed.ends hcalm.ctl hk F hn,
      ⟨hbegun.md, hbegun.itersR, hbegun.total, hbegun.cnt, hbegun.bc, hbegun.first, hbegun.last⟩, rfl,
      keyedEndRam_tables hM⟩⟩
  · simp only [Sha2Unit.keyDone, hbefore.ctl, hcalm.ctl]
    rfl
  · simp only [pending, Sha2Unit.keyDone, keyedEndRam, hwph]
    split
    · exact hwritten
    · rw [← hwritten]
      rfl

/-- A state that goes on only when what is on its way has been written. -/
theorem settles (hst : c.st ≠ .stream)
    (hwait : ∀ s i, Calm c M s → NoBegin i → ¬Settled s → s.clock i = s.before i) :
    Steps (Calm c M) fun s => Calm c M s ∧ Settled s := by
  have hdone : Steps (fun s => Calm c M s ∧ Settled s) fun s => Calm c M s ∧ Settled s := Reaches.of_imp fun _ h => h
  have hlast : Steps (fun s => Calm c M s ∧ s.wph = none) fun s => Calm c M s ∧ Settled s := by
    rintro s ⟨hcalm, hwph⟩
    by_cases hs : Settled s
    · exact hdone s ⟨hcalm, hs⟩
    · have hedge : Steps (fun u => u = s) fun u => Calm c M u ∧ Settled u := by
        apply Steps.edge
        · rintro u rfl
          exact hcalm.working hst
        rintro u i rfl hi
        obtain ⟨hb, hnone, hwe, -⟩ := hcalm.before (i := i)
        rw [hwph] at hwe
        rw [hwait u i hcalm hi hs]
        exact ⟨hb, hnone, hwe⟩
      exact hedge s rfl
  intro s hcalm
  by_cases hs : Settled s
  · exact hdone s ⟨hcalm, hs⟩
  · have hedge : Steps (fun u => u = s) fun u => Calm c M u ∧ u.wph = none := by
      apply Steps.edge
      · rintro u rfl
        exact hcalm.working hst
      rintro u i rfl hi
      obtain ⟨hb, hnone, -⟩ := hcalm.before (i := i)
      rw [hwait u i hcalm hi hs]
      exact ⟨hb, hnone⟩
    exact (hedge.trans hlast) s rfl

/-- A word of the block. -/
def padWord (c : Ctl) (M : BitVec 9 → BitVec 64) (n : Nat) : BitVec 64 :=
  (if BitVec.ofNat 5 n < c.nkw then low (M (KEY + BitVec.ofNat 9 n)) ^^^ c.padConst else c.padConst).setWidth 64

def blkAt (n : Nat) : BitVec 9 := BLK + BitVec.ofNat 9 n

/-- The RAM after a clock of the state. -/
def padRam (s n : Sha2Unit) : SyncRam (BitVec 9) (BitVec 64) :=
  let r := if s.ctl.sn ≤ 16 then n.ram.read (KEY + (s.ctl.sn.extractLsb' 0 4 - 1).setWidth 9) else n.ram
  let x := if s.ctl.sn.extractLsb' 0 5 - 3 < s.ctl.nkw then low s.ram.rq ^^^ s.ctl.padConst else s.ctl.padConst
  if 3 ≤ s.ctl.sn then r.write (BLK + (s.ctl.sn.extractLsb' 0 4 - 3).setWidth 9) (x.setWidth 64) else r

theorem derive_eq {n : Sha2Unit} (h : s.ctl.sn ≠ 0) : s.derive n =
    if s.ctl.sn = 18 then
      { n with ram := padRam s n, ctl.sn := 0 }.launch .initial false BLK (if s.ctl.dpad then OST else IST)
        (if s.ctl.dpad then .opad else .ipad)
    else { n with ram := padRam s n, ctl.sn := s.ctl.sn + 1 } := by
  rw [derive, if_neg h]
  rfl

/-- Before clock `m` of the state. -/
structure DerivingAt (c : Ctl) (M : BitVec 9 → BitVec 64) (m : Nat) (s : Sha2Unit) : Prop where
  calm : Calm { c with sn := BitVec.ofNat 7 m } (fill M blkAt (padWord c M) (m - 3)) s
  wph : s.wph = none
  mem : s.ram.mem = fill M blkAt (padWord c M) (m - 4)
  ra : 2 ≤ m → m ≤ 17 → s.ram.ra = KEY + BitVec.ofNat 9 (m - 2)
  rq : 3 ≤ m → s.ram.rq = M (KEY + BitVec.ofNat 9 (m - 3))

theorem pad_key {n k : Nat} (hn : n < 16) : fill M blkAt (padWord c M) (min k 16) (KEY + BitVec.ofNat 9 n) =
    M (KEY + BitVec.ofNat 9 n) := by
  apply fill_elsewhere
  intro l hl he
  have hnat := congrArg BitVec.toNat he
  rw [blkAt, BitVec.toNat_add, BitVec.toNat_add, BitVec.toNat_ofNat, BitVec.toNat_ofNat] at hnat
  change (16 + n % 512) % 512 = (0 + l % 512) % 512 at hnat
  omega

theorem fill_high {d : Nat → BitVec 64} {a : BitVec 9} (ha : 16 ≤ a.toNat) : fill M blkAt d 16 a = M a := by
  apply fill_elsewhere
  intro n hn he
  rw [he, blkAt, BitVec.toNat_add, BitVec.toNat_ofNat] at ha
  change 16 ≤ (0 + n % 512) % 512 at ha
  omega

theorem fill_outside (d : Nat → BitVec 64) : Outside M (fill M blkAt d 16) := fun _ ha _ => fill_high ha

theorem sn_sub1 {m : Nat} (hlo : 1 ≤ m) (hhi : m ≤ 16) :
    ((BitVec.ofNat 7 m).extractLsb' 0 4 - 1).setWidth 9 = BitVec.ofNat 9 (m - 1) := by
  interval_cases m <;> rfl

theorem sn_sub3 {m : Nat} (hlo : 3 ≤ m) (hhi : m ≤ 18) :
    ((BitVec.ofNat 7 m).extractLsb' 0 4 - 3).setWidth 9 = BitVec.ofNat 9 (m - 3) ∧
      (BitVec.ofNat 7 m).extractLsb' 0 5 - 3 = BitVec.ofNat 5 (m - 3) := by
  interval_cases m <;> exact ⟨rfl, rfl⟩

theorem DerivingAt.ram {m : Nat} (h : DerivingAt c M m s) (hlo : 1 ≤ m) (hhi : m ≤ 18) :
    (padRam s (s.before i)).mem = fill M blkAt (padWord c M) (m - 3) ∧
      (padRam s (s.before i)).written = fill M blkAt (padWord c M) (m - 2) ∧
      (m ≤ 16 → (padRam s (s.before i)).ra = KEY + BitVec.ofNat 9 (m - 1)) ∧
      (2 ≤ m → m ≤ 17 → (padRam s (s.before i)).rq = M (KEY + BitVec.ofNat 9 (m - 2))) := by
  have hbefore : s.before i = s.shift (s.tick i) := by
    rw [before, engine, h.calm.cp, h.calm.cGo]
  have hram : (s.before i).ram = { s.ram with mem := s.ram.written, rq := s.ram.mem s.ram.ra, we := false } := by
    rw [hbefore]
    simp only [shift, tick, h.wph, h.calm.busy, Option.elim_none, if_true]
  have hwritten : s.ram.written = fill M blkAt (padWord c M) (m - 3) := by
    have hpending := h.calm.pending
    rwa [pending, h.wph] at hpending
  have hsn : s.ctl.sn = BitVec.ofNat 7 m := by rw [h.calm.ctl]
  have hle16 : s.ctl.sn ≤ 16 ↔ m ≤ 16 := by
    rw [hsn, show (16 : BitVec 7) = BitVec.ofNat 7 16 from rfl, cn_le (by omega) (by decide)]
  have hle3 : 3 ≤ s.ctl.sn ↔ 3 ≤ m := by
    rw [hsn, show (3 : BitVec 7) = BitVec.ofNat 7 3 from rfl, cn_le (by decide) (by omega)]
  refine ⟨?_, ?_, fun h16 => ?_, fun h2 h17 => ?_⟩
  · rw [← hwritten]
    simp only [padRam, hram]
    split <;> split <;> rfl
  · by_cases h3 : 3 ≤ m
    · obtain ⟨haddr, hnum⟩ := sn_sub3 h3 hhi
      have hmem : (if s.ctl.sn ≤ 16 then (s.before i).ram.read (KEY + (s.ctl.sn.extractLsb' 0 4 - 1).setWidth 9)
          else (s.before i).ram).mem = s.ram.written := by
        rw [hram]
        split <;> rfl
      have hword : (if s.ctl.sn.extractLsb' 0 5 - 3 < s.ctl.nkw then low s.ram.rq ^^^ s.ctl.padConst
          else s.ctl.padConst).setWidth 64 = padWord c M (m - 3) := by
        rw [h.rq h3, hsn, hnum, h.calm.ctl]
        rfl
      have haddr' : BLK + (s.ctl.sn.extractLsb' 0 4 - 3).setWidth 9 = blkAt (m - 3) := by
        rw [hsn, haddr]
        rfl
      rw [show m - 2 = m - 3 + 1 by omega, fill_succ, ← hwritten, ← hword, ← haddr', ← hmem]
      exact congrArg SyncRam.written (if_pos (hle3.mpr h3))
    · rw [show m - 2 = m - 3 by omega, ← hwritten]
      simp only [padRam, hram, hle3, h3, if_false]
      split <;> rfl
  · have hra : (padRam s (s.before i)).ra = KEY + (s.ctl.sn.extractLsb' 0 4 - 1).setWidth 9 := by
      simp only [padRam, hle16, h16, if_true]
      split <;> rfl
    rw [hra, hsn, sn_sub1 hlo h16]
  · have hkey : s.ram.mem s.ram.ra = M (KEY + BitVec.ofNat 9 (m - 2)) := by
      rw [h.mem, h.ra h2 h17, ← Nat.min_eq_left (show m - 4 ≤ 16 by omega), pad_key (by omega)]
    rw [← hkey]
    simp only [padRam, hram]
    split <;> split <;> rfl

theorem der_push (h : c.st = .der) : c.push i = none := by rw [Ctl.push, h]

theorem derive_starts (hst : c.st = .der) (hsn : c.sn = 0) (h : Calm c M s) (hs : Settled s) (hi : NoBegin i) :
    DerivingAt c M 1 (s.clock i) := by
  obtain ⟨hb, hnone, hwe, hwritten, -⟩ := h.before (i := i)
  have hclock : s.clock i = { s.before i with ctl := { c with sn := 1 } } := by
    rw [h.clock hi (der_push hst)]
    simp only [fsm, h.ctl, hst, derive, hsn, if_true, hb.ctl]
    exact if_pos hs
  rw [hs.1] at hwe
  have hmem : (s.before i).ram.mem = M := (SyncRam.written_of_still hwe).symm.trans hwritten
  rw [hclock]
  exact ⟨⟨rfl, hb.busy, hb.cGo, hb.cDone, hb.cp, hb.pending⟩, hnone, hmem, by omega, by omega⟩

theorem DerivingAt.clock {m : Nat} (h : DerivingAt c M m s) (hst : c.st = .der) (hi : NoBegin i) (hlo : 1 ≤ m)
    (hhi : m ≤ 18) : s.ctl.sn = BitVec.ofNat 7 m ∧ s.clock i = s.derive (s.before i) ∧ s.ctl.sn ≠ 0 := by
  have hsn : s.ctl.sn = BitVec.ofNat 7 m := by rw [h.calm.ctl]
  refine ⟨hsn, ?_, ?_⟩
  · rw [h.calm.clock hi (der_push hst)]
    simp only [fsm, h.calm.ctl, hst]
  · rw [hsn]
    exact (cn_ne (by omega) hlo).symm

theorem derive_next {m : Nat} (hst : c.st = .der) (hlo : 1 ≤ m) (hhi : m < 18) (h : DerivingAt c M m s)
    (hi : NoBegin i) : DerivingAt c M (m + 1) (s.clock i) := by
  obtain ⟨hsn, hclock, hne⟩ := h.clock hst hi hlo (Nat.le_of_lt hhi)
  obtain ⟨hmem, hwritten, hra, hrq⟩ := h.ram (i := i) hlo (Nat.le_of_lt hhi)
  obtain ⟨hb, hnone, -⟩ := h.calm.before (i := i)
  have hlast : s.ctl.sn ≠ 18 := by
    rw [hsn]
    exact cn_ne (by decide) hhi
  rw [hclock, derive_eq hne, if_neg hlast]
  refine ⟨⟨?_, hb.busy, hb.cGo, hb.cDone, hb.cp, ?_⟩, hnone, hmem, fun _ h17 => hra (by omega), fun h3 => ?_⟩
  · simp only [hb.ctl, hsn, cn_succ]
  · rw [pending, hnone]
    exact hwritten
  · exact hrq (by omega) (by omega)

/-- The control while the block is compressed. -/
def awaiting (c : Ctl) : Ctl := { c with sn := 0, aft := if c.dpad then .opad else .ipad, st := .wc }

/-- Where the result of the compression goes. -/
def padDst (c : Ctl) : BitVec 9 := if c.dpad then OST else IST

theorem derive_launches (hst : c.st = .der) (h : DerivingAt c M 18 s) (hi : NoBegin i) :
    Launched (awaiting c) ⟨.initial, false, BLK, padDst c⟩ (fill M blkAt (padWord c M) 16) (s.clock i) := by
  obtain ⟨hsn, hclock, hne⟩ := h.clock hst hi (by decide) (Nat.le_refl 18)
  obtain ⟨-, hwritten, -⟩ := h.ram (i := i) (by decide) (Nat.le_refl 18)
  obtain ⟨hb, hnone, -⟩ := h.calm.before (i := i)
  rw [hclock, derive_eq hne, if_pos (show s.ctl.sn = 18 from hsn)]
  refine ⟨rfl, ?_, hb.busy, hnone, ?_, hb.cDone, hb.cp, hwritten⟩
  · simp only [launch, hb.ctl, h.calm.ctl, awaiting]
  · simp only [launch, h.calm.ctl, padDst]

/-- The block of the key under the pad is made and compressed. -/
theorem derives {F : Family 32} {md : Mode} {iters : BitVec 32} {dpad : Bool} (hF : For c F)
    (h : Deriving F md iters k dpad c M) :
    Steps (Calm c M) fun s => ∃ M', Compressed F (jobOf (awaiting c) ⟨.initial, false, BLK, padDst c⟩)
      (fill M blkAt (padWord c M) 16) M' ∧ Finished (awaiting c) M' s := by
  have hne : c.st ≠ .stream := by
    rw [h.st]
    decide
  have hsettle : Steps (Calm c M) fun s => Calm c M s ∧ Settled s := by
    refine settles hne fun s i hcalm hi hs => ?_
    rw [hcalm.clock hi (der_push h.st)]
    simp only [fsm, hcalm.ctl, h.st, derive, h.sn, if_true]
    exact if_neg hs
  have hstart : Steps (fun s => Calm c M s ∧ Settled s) (DerivingAt c M 1) :=
    Steps.edge (fun _ h => h.1.working hne) fun _ _ hs hi => derive_starts h.st h.sn hs.1 hs.2 hi
  have hloop : Steps (DerivingAt c M (0 + 1)) (DerivingAt c M (17 + 1)) :=
    Reaches.loop (I := fun m => DerivingAt c M (m + 1)) fun m hm =>
      Steps.edge (fun _ h => h.calm.working hne) fun _ _ hs hi => derive_next h.st (by omega) (by omega) hs hi
  have hlaunch : Steps (DerivingAt c M 18)
      (Launched (awaiting c) ⟨.initial, false, BLK, padDst c⟩ (fill M blkAt (padWord c M) 16)) :=
    Steps.edge (fun _ h => h.calm.working hne) fun _ _ hs hi => derive_launches h.st hs hi
  have htables : Tables (fill M blkAt (padWord c M) 16) := h.tables.outside (fill_outside _)
  refine hsettle.trans (hstart.trans (hloop.trans (hlaunch.trans ?_)))
  refine compresses (F := F) hF htables (aligned _ _ _ _ _ ?_)
  rw [padDst]
  split <;> decide

/-! What the two compressions leave. -/

/-- The chaining values that the hashes of a key begin with are in the RAM. -/
structure Keys (F : Family 32) (k : List (BitVec 8)) (M : BitVec 9 → BitVec 64) : Prop where
  inner : ∀ n < 8, part 32 (value M IST n) = F.chaining (SecureHash.block 32 (F.keyPad 0x36 k)) 1 n
  outer : ∀ n < 8, part 32 (value M OST n) = F.chaining (SecureHash.block 32 (F.keyPad 0x5c k)) 1 n
  tables : Tables M

/-- The pad under the key. -/
def padByteOf (c : Ctl) : BitVec 8 := if c.dpad then 0x5c else 0x36

theorem pad_value (hk : k.length ≤ 64) {F : Family 32} {n : Nat} (hn : n < 16)
    (h : ∀ n < 16, keyWord c M n = wordAt 32 (F.keyBlock k) n) :
    part 32 (fill M blkAt (padWord c M) 16 (BLK + BitVec.ofNat 9 n)) =
      SecureHash.block 32 (F.keyPad (padByteOf c) k) 0 n := by
  have hat : fill M blkAt (padWord c M) 16 (BLK + BitVec.ofNat 9 n) = padWord c M n :=
    fill_at (fun a ha b hb hab => by_contra fun hne => blk_ne ha hb hne hab) hn
  have hconst : c.padConst = SecureHash.wordOf 32 (List.replicate (32 / 8) (padByteOf c)) := by
    rw [Ctl.padConst, padByteOf]
    split <;> rfl
  have hword : part 32 (padWord c M n) = keyWord c M n ^^^ c.padConst := by
    rw [padWord, part, BitVec.setWidth_setWidth_of_le _ (by decide), BitVec.setWidth_eq, keyWord]
    split
    · rfl
    · exact BitVec.zero_xor.symm
  rw [hat, hword, h n hn, hconst, SecureHash.block, Nat.mul_zero, Nat.zero_add,
    SecureHash.keyPad_word hk _ (show (n + 1) * (32 / 8) ≤ 2 * 32 by omega)]

/-- What a compression leaves: the chaining value after the block of the key. -/
structure Derived (F : Family 32) (k : List (BitVec 8)) (c : Ctl) (M M' : BitVec 9 → BitVec 64) : Prop where
  result : ∀ n < 8, part 32 (value M' (padDst c) n) = F.chaining (SecureHash.block 32 (F.keyPad (padByteOf c) k)) 1 n
  others : ∀ a : BitVec 9, 16 ≤ a.toNat → a.toNat < (padDst c).toNat ∨ (padDst c).toNat + 8 ≤ a.toNat → M' a = M a

theorem Deriving.derived {F : Family 32} {md : Mode} {iters : BitVec 32} {dpad : Bool}
    (h : Deriving F md iters k dpad c M) (hF : For c F) (hk : k.length ≤ 64)
    (hc : Compressed F (jobOf (awaiting c) ⟨.initial, false, BLK, padDst c⟩) (fill M blkAt (padWord c M) 16) M') :
    Derived F k c M M' := by
  have htables : Tables (fill M blkAt (padWord c M) 16) := h.tables.outside (fill_outside _)
  refine ⟨fun n hn => ?_, fun a h16 ha => ?_⟩
  · rw [Family.chaining]
    refine (hc.result n hn).trans (F.compress_congr (fun j hj => ?_) (fun j hj => ?_) hn)
    · change part 32 (value _ (baseOf c .initial) j) = _
      rw [For.initial hF htables hj]
      rfl
    · exact pad_value hk hj h.words
  · rw [← fill_high (M := M) (d := padWord c M) h16]
    apply hc.others
    intro n hn he
    have hdst : (padDst c).toNat + 8 ≤ 128 := by
      rw [padDst]
      split <;> decide
    have hsum : (padDst c + BitVec.ofNat 9 n).toNat = (padDst c).toNat + n := by
      rw [BitVec.toNat_add, BitVec.toNat_ofNat]
      omega
    rw [he] at ha
    change (padDst c + BitVec.ofNat 9 n).toNat < _ ∨ _ ≤ (padDst c + BitVec.ofNat 9 n).toNat at ha
    omega

theorem Tables.above (h : Tables M) (ho : ∀ a : BitVec 9, 128 ≤ a.toNat → M' a = M a) : Tables M' where
  k256 n hn := by
    rw [← h.k256 n hn]
    apply ho
    simp [K256]
    omega
  k512 n hn := by
    rw [← h.k512 n hn]
    apply ho
    simp [K512]
    omega
  iv256 n hn := by
    rw [← h.iv256 n hn]
    apply ho
    simp [IV256]
    omega
  iv512 n hn := by
    rw [← h.iv512 n hn]
    apply ho
    simp [IV512]
    omega

theorem offset_toNat {a : BitVec 9} {n l : Nat} (ha : a.toNat + l ≤ 128) (hn : n < l) :
    (a + BitVec.ofNat 9 n).toNat = a.toNat + n := by
  rw [BitVec.toNat_add, BitVec.toNat_ofNat]
  omega

/-- The control after the compression. -/
def derivedCtl (c : Ctl) : Ctl :=
  if c.dpad then { c with sn := 0, aft := .opad, first := true, cnt := 0, st := .stream }
  else { c with sn := 0, aft := .ipad, dpad := true, st := .der }

theorem derived_calm (h : Finished (awaiting c) M s) (hi : NoBegin i) : Calm (derivedCtl c) M (s.clock i) := by
  obtain ⟨hb, -⟩ := h.before (i := i)
  rw [h.clock rfl hi]
  cases hd : c.dpad with
  | true =>
    simp only [afterwards, h.ctl, awaiting, derivedCtl, hd, if_true]
    refine ⟨?_, hb.busy, hb.cGo, hb.cDone, hb.cp, hb.pending⟩
    simp only [hb.ctl, awaiting, hd, if_true]
  | false =>
    simp only [afterwards, h.ctl, awaiting, derivedCtl, hd, Bool.false_eq_true, if_false]
    refine ⟨?_, hb.busy, hb.cGo, hb.cDone, hb.cp, hb.pending⟩
    simp only [hb.ctl, awaiting, hd, Bool.false_eq_true, if_false]

/-- The derivation with a pad, to its end. -/
theorem derives_block {F : Family 32} {md : Mode} {iters : BitVec 32} {dpad : Bool} (hF : For c F) (hk : k.length ≤ 64)
    (h : Deriving F md iters k dpad c M) :
    Steps (Calm c M) fun s => ∃ M', Derived F k c M M' ∧ Calm (derivedCtl c) M' s := by
  refine (derives hF h).trans (Reaches.exists fun M' => Reaches.fact (fun _ h => h.1) fun hc => ?_)
  apply Steps.edge fun s h => h.2.working rfl
  rintro s i ⟨-, hs⟩ hi
  exact ⟨M', h.derived hF hk hc, derived_calm hs hi⟩

/-- The block of the inner pad is followed by that of the outer one. -/
theorem Deriving.next {F : Family 32} {md : Mode} {iters : BitVec 32} (h : Deriving F md iters k false c M)
    (hd : Derived F k c M M') : Deriving F md iters k true (derivedCtl c) M' ∧
      ∀ n < 8, part 32 (value M' IST n) = F.chaining (SecureHash.block 32 (F.keyPad 0x36 k)) 1 n := by
  have hctl : derivedCtl c = { c with sn := 0, aft := .ipad, dpad := true, st := .der } := by
    rw [derivedCtl, h.dpad]
    rfl
  have hresult := hd.result
  have hothers := hd.others
  simp only [padDst, padByteOf, h.dpad, Bool.false_eq_true, if_false] at hresult hothers
  rw [hctl]
  refine ⟨⟨rfl, rfl, fun n hn => ?_, ⟨h.begun.md, h.begun.itersR, h.begun.total, h.begun.cnt, h.begun.bc, h.begun.first,
    h.begun.last⟩, rfl, h.tables.above fun a ha => hothers a (by omega) (.inr ?_)⟩, hresult⟩
  · have hkey : (KEY + BitVec.ofNat 9 n).toNat = 16 + n := offset_toNat (l := 16) (by decide) hn
    rw [← h.words n hn, keyWord, keyWord, hothers _ (by omega) (.inl ?_)]
    rw [hkey]
    exact Nat.add_lt_add_left hn 16
  · exact Nat.le_trans (by decide) ha

/-- After the outer pad the unit takes bytes, behind the block of the inner one. -/
theorem Deriving.taking {F : Family 32} {md : Mode} {iters : BitVec 32} (h : Deriving F md iters k true c M)
    (hk : k.length ≤ 64) (hmd : md = .hmac ∨ md = .pbkdf2) (hd : Derived F k c M M')
    (hinner : ∀ n < 8, part 32 (value M IST n) = F.chaining (SecureHash.block 32 (F.keyPad 0x36 k)) 1 n)
    (hs : Calm (derivedCtl c) M' s) :
    Keys F k M' ∧ (derivedCtl c).md = md ∧ (derivedCtl c).itersR = iters ∧
      Taking F (derivedCtl c) M' (F.keyPad 0x36 k) s := by
  have hctl : derivedCtl c = { c with sn := 0, aft := .opad, first := true, cnt := 0, st := .stream } := by
    rw [derivedCtl, h.dpad]
    rfl
  have hresult := hd.result
  have hothers := hd.others
  simp only [padDst, padByteOf, h.dpad, if_true] at hresult hothers
  have hist : ∀ n < 8, part 32 (value M' IST n) = F.chaining (SecureHash.block 32 (F.keyPad 0x36 k)) 1 n := by
    intro n hn
    have haddr : (IST + BitVec.ofNat 9 n).toNat = 32 + n := offset_toNat (l := 8) (by decide) hn
    rw [← hinner n hn, value, value, hothers _ (by omega) (.inl ?_)]
    rw [haddr]
    exact Nat.add_lt_add_left hn 32
  have htables : Tables M' := h.tables.above fun a ha => hothers a (by omega) (.inr (Nat.le_trans (by decide) ha))
  have hlen : (F.keyPad 0x36 k).length = 64 := SecureHash.keyPad_length hk _
  rw [hctl] at hs ⊢
  refine ⟨⟨hist, hresult, htables⟩, h.begun.md, h.begun.itersR, _, M', hs, rfl, h.begun.last,
    ⟨⟨?_, ?_⟩, ?_, ?_, fun n hn => ?_, fun n hn => ?_, htables⟩, .refl _, fun _ _ _ => rfl⟩
  · rw [hlen]
    rfl
  · rw [hlen]
    exact congrArg BitVec.toNat h.begun.bc
  · rw [hlen]
    exact h.begun.total
  · rw [Shifting, hlen, List.drop_of_length_le (by rw [hlen])]
    exact ⟨_, rfl⟩
  · rw [hlen] at hn
    exact absurd (Nat.le_zero.mp hn) (Nat.mul_pos (Nat.succ_pos n) (by decide)).ne'
  · have hmode : c.plain = false := by
      rw [Ctl.plain, h.begun.md]
      obtain rfl | rfl := hmd <;> rfl
    rw [hlen, ← hist n hn]
    change part 32 (value M' (baseOf _ (if c.plain then .initial else .ipad)) n) = _
    rw [hmode]
    rfl

/-- From the end of the key the unit comes to take bytes. -/
theorem derives_keys {F : Family 32} {md : Mode} {iters : BitVec 32} (hF : Computes false F) (hk : k.length ≤ 64)
    (hmd : md = .hmac ∨ md = .pbkdf2) : Steps (fun s => ∃ c M, Calm c M s ∧ Deriving F md iters k false c M) fun s =>
      ∃ c M, Keys F k M ∧ c.md = md ∧ c.itersR = iters ∧ Taking F c M (F.keyPad 0x36 k) s := by
  have hFor : ∀ c : Ctl, c.md = md → For c F := by
    intro c hc
    have hne : md ≠ .sha512 := by
      obtain rfl | rfl := hmd <;> decide
    rw [For, hc, decide_eq_false hne]
    exact hF
  refine Reaches.exists fun c => Reaches.exists fun M => Reaches.fact (fun _ h => h.2) fun hfirst => ?_
  refine Reaches.weaken (fun _ h => h.1) ((derives_block (hFor c hfirst.begun.md) hk hfirst).trans
    (Reaches.exists fun M₁ => Reaches.fact (fun _ h => h.1) fun hd₁ => ?_))
  obtain ⟨hnext, hinner⟩ := hfirst.next hd₁
  refine Reaches.weaken (fun _ h => h.2) ((derives_block (hFor _ hnext.begun.md) hk hnext).imp (fun _ h => h) ?_)
  rintro s ⟨M₂, hd₂, hs⟩
  exact ⟨_, M₂, hnext.taking hk hmd hd₂ hinner hs⟩

end GoiKey.Rtl.Sha2Unit
