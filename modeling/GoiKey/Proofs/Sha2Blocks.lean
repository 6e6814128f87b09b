import GoiKey.Proofs.Sha2Compress

/-! How bytes become words of the block. -/

namespace GoiKey.Rtl.Sha2Unit

open SecureHash (Family wordAt shiftIn)
open Clocked Sha2

variable {w : Nat} {F : Family w} {s : Sha2Unit} {i : In} {M : BitVec 9 → BitVec 64} {c : Ctl}
  {t : List (BitVec 8)} {b : BitVec 8}

theorem For.cases (h : For c F) : (c.m512 = true ∧ w = 64) ∨ (c.m512 = false ∧ w = 32) := by
  have hw := h.width
  cases hm : c.m512 with
  | true =>
    rw [Ctl.m512] at hm
    rw [hm] at hw
    exact .inl ⟨rfl, hw⟩
  | false =>
    rw [Ctl.m512] at hm
    rw [hm] at hw
    exact .inr ⟨rfl, hw⟩

/-- The RAM once what is on its way has been written. -/
def pending (s : Sha2Unit) : BitVec 9 → BitVec 64 :=
  s.wph.elim s.ram.written fun p => Function.update s.ram.written p.1 p.2

/-- The RAM with the word that a byte ends. -/
def pushed (c : Ctl) (b : BitVec 8) (M : BitVec 9 → BitVec 64) : BitVec 9 → BitVec 64 :=
  if c.wordDone then Function.update M c.wordAddr (c.shifted b) else M

theorem shifted_eq : c.shifted b = shiftIn c.sh64 b := by
  apply BitVec.eq_of_getLsbD_eq
  intro i hi
  rw [Ctl.shifted, shiftIn, BitVec.getLsbD_append, BitVec.getLsbD_or, BitVec.getLsbD_shiftLeft,
    BitVec.getLsbD_setWidth, BitVec.getLsbD_extractLsb']
  by_cases h : i < 8
  · simp [h, hi]
  · have hsub : i - 8 < 56 := by omega
    have hge : b.getLsbD i = false := BitVec.getLsbD_of_ge b i (by omega)
    simp [h, hi, hsub, hge]

/-- Where the counters stand after the bytes of a text. -/
structure Counted (w : Nat) (t : List (BitVec 8)) (c : Ctl) : Prop where
  cnt : c.cnt.toNat = t.length % (2 * w)
  bc : c.bc.toNat = t.length % (w / 8)

theorem Counted.blkLast (h : Counted w t c) (hF : For c F) : c.blkLast = decide ((t.length + 1) % (2 * w) = 0) := by
  have hcnt := h.cnt
  obtain ⟨hm, rfl⟩ | ⟨hm, rfl⟩ := hF.cases
  · rw [Ctl.blkLast, hm, if_pos rfl, decide_eq_decide, ← BitVec.toNat_inj, hcnt]
    change t.length % 128 = 127 ↔ (t.length + 1) % 128 = 0
    omega
  · rw [Ctl.blkLast, hm, if_neg (by decide), decide_eq_decide, ← BitVec.toNat_inj, BitVec.extractLsb'_toNat, hcnt]
    change (t.length % 64) >>> 0 % 64 = 63 ↔ (t.length + 1) % 64 = 0
    rw [Nat.shiftRight_zero]
    omega

theorem Counted.wordDone (h : Counted w t c) (hF : For c F) :
    c.wordDone = decide ((t.length + 1) % (w / 8) = 0) := by
  have hbc := h.bc
  obtain ⟨hm, rfl⟩ | ⟨hm, rfl⟩ := hF.cases
  · rw [Ctl.wordDone, hm, if_pos rfl, decide_eq_decide, ← BitVec.toNat_inj, hbc]
    change t.length % 8 = 7 ↔ (t.length + 1) % 8 = 0
    omega
  · rw [Ctl.wordDone, hm, if_neg (by decide), decide_eq_decide, ← BitVec.toNat_inj, BitVec.extractLsb'_toNat, hbc]
    change (t.length % 4) >>> 0 % 4 = 3 ↔ (t.length + 1) % 4 = 0
    rw [Nat.shiftRight_zero]
    omega

theorem Counted.lenPos (h : Counted w t c) (hF : For c F) :
    c.lenPos = decide (t.length % (2 * w) = 2 * w - 9) := by
  have hcnt := h.cnt
  obtain ⟨hm, rfl⟩ | ⟨hm, rfl⟩ := hF.cases
  · rw [Ctl.lenPos, hm, if_pos rfl, decide_eq_decide, ← BitVec.toNat_inj, hcnt]
    rfl
  · rw [Ctl.lenPos, hm, if_neg (by decide), decide_eq_decide, ← BitVec.toNat_inj, BitVec.extractLsb'_toNat, hcnt]
    change (t.length % 64) >>> 0 % 64 = 55 ↔ t.length % 64 = 55
    rw [Nat.shiftRight_zero]
    omega

theorem Counted.wordAddr (h : Counted w t c) (hF : For c F) :
    c.wordAddr = BLK + BitVec.ofNat 9 (t.length % (2 * w) / (w / 8)) := by
  have hcnt := h.cnt
  rw [Ctl.wordAddr]
  congr 1
  apply BitVec.eq_of_toNat_eq
  obtain ⟨hm, rfl⟩ | ⟨hm, rfl⟩ := hF.cases
  · rw [hm, if_pos rfl, BitVec.toNat_setWidth, BitVec.extractLsb'_toNat, hcnt, BitVec.toNat_ofNat]
    change (t.length % 128) >>> 3 % 16 % 512 = t.length % 128 / 8 % 512
    rw [Nat.shiftRight_eq_div_pow]
    omega
  · rw [hm, if_neg (by decide), BitVec.toNat_setWidth, BitVec.extractLsb'_toNat, hcnt, BitVec.toNat_ofNat]
    change (t.length % 64) >>> 2 % 16 % 512 = t.length % 64 / 4 % 512
    rw [Nat.shiftRight_eq_div_pow]
    omega

theorem Counted.stage (h : Counted w t c) (hF : For c F) : Counted w (t ++ [b]) (c.stage b) := by
  have hcnt : (c.stage b).cnt = if c.blkLast then 0 else c.cnt + 1 := by
    rw [Ctl.stage]
    split
    · rfl
    · split <;> rfl
  have hbc : (c.stage b).bc = if c.wordDone then 0 else c.bc + 1 := by
    rw [Ctl.stage]
    split
    · rfl
    · split <;> rfl
  have hc := h.cnt
  have hb := h.bc
  constructor
  · rw [hcnt, h.blkLast hF, List.length_append, List.length_singleton]
    by_cases hlast : (t.length + 1) % (2 * w) = 0
    · rw [decide_eq_true hlast, if_pos rfl, hlast]
      rfl
    · rw [decide_eq_false hlast, if_neg (by decide), BitVec.toNat_add, hc]
      change (t.length % (2 * w) + 1) % 128 = _
      obtain ⟨-, rfl⟩ | ⟨-, rfl⟩ := hF.cases <;> omega
  · rw [hbc, h.wordDone hF, List.length_append, List.length_singleton]
    by_cases hlast : (t.length + 1) % (w / 8) = 0
    · rw [decide_eq_true hlast, if_pos rfl, hlast]
      rfl
    · rw [decide_eq_false hlast, if_neg (by decide), BitVec.toNat_add, hb]
      change (t.length % (w / 8) + 1) % 8 = _
      obtain ⟨-, rfl⟩ | ⟨-, rfl⟩ := hF.cases
      · change (t.length % 8 + 1) % 8 = (t.length + 1) % 8
        omega
      · change ¬(t.length + 1) % 4 = 0 at hlast
        change (t.length % 4 + 1) % 8 = (t.length + 1) % 4
        omega

/-- The words that the first `r` bytes of a block make. -/
def Filled (w : Nat) (t : List (BitVec 8)) (r : Nat) (M : BitVec 9 → BitVec 64) : Prop :=
  ∀ k, (k + 1) * (w / 8) ≤ r →
    part w (M (BLK + BitVec.ofNat 9 k)) = wordAt w t (16 * (t.length / (2 * w)) + k)

/-- The bytes of the word that is not ended yet. -/
def Shifting (w : Nat) (t : List (BitVec 8)) (c : Ctl) : Prop :=
  ∃ x, c.sh64 = (t.drop (w / 8 * (t.length / (w / 8)))).foldl shiftIn x

theorem stage_sh64 : (c.stage b).sh64 = c.shifted b := by
  rw [Ctl.stage]
  split
  · rfl
  · split <;> rfl

/-- The bytes of the word with one more. -/
theorem Shifting.shifted (h : Shifting w t c) : ∃ x : BitVec 64,
    c.shifted b = ((t ++ [b]).drop (w / 8 * (t.length / (w / 8)))).foldl shiftIn x := by
  obtain ⟨x, hx⟩ := h
  refine ⟨x, ?_⟩
  rw [shifted_eq, hx, List.drop_append_of_le_length (Nat.mul_div_le _ _), List.foldl_append]
  rfl

theorem Shifting.stage (h : Shifting w t c) : Shifting w (t ++ [b]) (c.stage b) := by
  obtain ⟨x, hx⟩ := h.shifted (b := b)
  rw [Shifting, stage_sh64, List.length_append, List.length_singleton]
  by_cases hend : (t.length + 1) / (w / 8) = t.length / (w / 8)
  · rw [hend]
    exact ⟨x, hx⟩
  · have hmul : w / 8 * ((t.length + 1) / (w / 8)) = t.length + 1 := by
      rw [Nat.succ_div] at hend ⊢
      by_cases hdvd : w / 8 ∣ t.length + 1
      · rw [if_pos hdvd]
        obtain ⟨q, hq⟩ := hdvd
        have hpos : 0 < w / 8 := Nat.pos_of_ne_zero fun h0 => by
          rw [h0, Nat.zero_mul] at hq
          exact absurd hq (Nat.succ_ne_zero _)
        have hsucc := Nat.succ_div_of_dvd (Dvd.intro q hq.symm)
        rw [hq, Nat.mul_div_cancel_left q hpos] at hsucc
        rw [← hsucc, ← hq]
      · rw [if_neg hdvd] at hend
        exact absurd rfl hend
    rw [hmul, List.drop_of_length_le (by simp)]
    exact ⟨c.shifted b, rfl⟩

theorem For.widths (h : For c F) : 0 < w / 8 ∧ 8 * (w / 8) = w ∧ 2 * w = 16 * (w / 8) ∧ 2 * w ≤ 128 := by
  obtain ⟨-, rfl⟩ | ⟨-, rfl⟩ := h.cases <;> decide

theorem blk_ne {k l : Nat} (hk : k < 16) (hl : l < 16) (h : k ≠ l) : BLK + BitVec.ofNat 9 k ≠ BLK + BitVec.ofNat 9 l := by
  intro he
  have hnat := congrArg BitVec.toNat he
  rw [BitVec.toNat_add, BitVec.toNat_add, BitVec.toNat_ofNat, BitVec.toNat_ofNat] at hnat
  change (0 + k % 512) % 512 = (0 + l % 512) % 512 at hnat
  omega

theorem Filled.pushed (h : Filled w t (t.length % (2 * w)) M) (hF : For c F) (hc : Counted w t c) (hs : Shifting w t c)
    {k : Nat} (hk : (k + 1) * (w / 8) ≤ t.length % (2 * w) + 1) :
    part w (pushed c b M (BLK + BitVec.ofNat 9 k)) = wordAt w (t ++ [b]) (16 * (t.length / (2 * w)) + k) := by
  obtain ⟨hpos, h8, h16, -⟩ := hF.widths
  have hlt : t.length % (2 * w) < 16 * (w / 8) := by
    rw [← h16]
    exact Nat.mod_lt _ (by omega)
  have hsplit : t.length = 16 * (t.length / (2 * w)) * (w / 8) + t.length % (2 * w) := by
    have hdiv := Nat.div_add_mod t.length (2 * w)
    rw [Nat.mul_right_comm, ← h16]
    exact hdiv.symm
  have hmod : (t.length + 1) % (w / 8) = (t.length % (2 * w) + 1) % (w / 8) := by
    conv_lhs => rw [hsplit, Nat.add_assoc, Nat.mul_add_mod_self_right]
  have hsplit1 : (t ++ [b]).length = 16 * (t.length / (2 * w)) * (w / 8) + (t.length % (2 * w) + 1) := by
    rw [List.length_append, List.length_singleton, ← Nat.add_assoc, ← hsplit]
  rw [Sha2Unit.pushed, hc.wordDone hF, hc.wordAddr hF, hmod]
  generalize hr : t.length % (2 * w) = r at *
  generalize hq : 16 * (t.length / (2 * w)) = q at *
  -- a word that was there before
  have hold : (k + 1) * (w / 8) ≤ r → part w (M (BLK + BitVec.ofNat 9 k)) = wordAt w (t ++ [b]) (q + k) := by
    intro hle
    rw [h k hle, hq, SecureHash.wordAt_append]
    rw [Nat.add_assoc, Nat.add_mul]
    omega
  by_cases hend : (r + 1) % (w / 8) = 0
  · obtain ⟨a, ha⟩ := Nat.dvd_of_mod_eq_zero hend
    obtain _ | a := a
    · exact absurd ha (Nat.succ_ne_zero r)
    have hra : r = w / 8 * a + (w / 8 - 1) := by
      rw [Nat.mul_succ] at ha
      omega
    have hdiv : r / (w / 8) = a := by
      rw [hra, Nat.mul_add_div hpos, Nat.div_eq_of_lt (by omega), Nat.add_zero]
    have ha16 : a < 16 := by
      rw [← hdiv]
      exact Nat.div_lt_of_lt_mul (by rwa [Nat.mul_comm])
    rw [decide_eq_true hend, if_pos rfl, hdiv]
    by_cases hka : k = a
    · rw [hka, Function.update_self]
      obtain ⟨x, hx⟩ := hs.shifted (b := b)
      have hlast : (t ++ [b]).length = (q + a + 1) * (w / 8) := by
        rw [hsplit1, ha, Nat.add_assoc, Nat.add_mul, Nat.mul_comm (w / 8)]
      have hword : t.length / (w / 8) = q + a := by
        rw [hsplit, Nat.mul_comm q, Nat.mul_add_div hpos, hdiv]
      have hlen : ((t ++ [b]).drop ((q + a) * (w / 8))).length = w / 8 := by
        rw [List.length_drop, hlast, Nat.succ_mul, Nat.add_sub_cancel_left]
      rw [hword, Nat.mul_comm] at hx
      rw [hx, SecureHash.wordAt_last hlast]
      refine (SecureHash.foldl_shiftIn_setWidth hF.le _ x).trans (SecureHash.foldl_shiftIn_full ?_ _)
      rw [hlen, h8]
    · have hlt' : k < a := by
        rw [ha, Nat.mul_comm] at hk
        have hle := Nat.le_of_mul_le_mul_left hk hpos
        omega
      have hmul : (k + 1) * (w / 8) ≤ a * (w / 8) := Nat.mul_le_mul_right _ hlt'
      rw [Function.update_of_ne (blk_ne (by omega) ha16 hka), hold]
      rw [hra, Nat.mul_comm (w / 8) a]
      omega
  · rw [decide_eq_false hend, if_neg (by decide)]
    apply hold
    have hne : (k + 1) * (w / 8) ≠ r + 1 := by
      intro he
      rw [← he, Nat.mul_mod_left] at hend
      exact hend rfl
    omega

end GoiKey.Rtl.Sha2Unit

/-! The blocks of a text, one after the other. -/

namespace GoiKey.Rtl.Sha2Unit

open SecureHash (Family wordAt block)
open Clocked Sha2

variable {w : Nat} {F : Family w} {s : Sha2Unit} {i : In} {M M' : BitVec 9 → BitVec 64} {c : Ctl}
  {t : List (BitVec 8)} {b : BitVec 8}

/-- Where the chaining value is. -/
def source (c : Ctl) : Src := if c.first then (if c.plain then .initial else .ipad) else .cur

/-- A text is taken up as far as it goes. -/
structure Staged (F : Family w) (t : List (BitVec 8)) (c : Ctl) (M : BitVec 9 → BitVec 64) : Prop where
  counted : Counted w t c
  total : c.total = BitVec.ofNat 32 t.length
  shifting : Shifting w t c
  filled : Filled w t (t.length % (2 * w)) M
  chain : ∀ n < 8, part w (value M (baseOf c (source c)) n) = F.chaining (block w t) (t.length / (2 * w)) n
  tables : Tables M

/-- A text is taken up, and its last block is to be compressed. -/
structure Full (F : Family w) (t : List (BitVec 8)) (c : Ctl) (M : BitVec 9 → BitVec 64) : Prop where
  counted : Counted w t c
  total : c.total = BitVec.ofNat 32 t.length
  shifting : Shifting w t c
  whole : t.length % (2 * w) = 0
  filled : ∀ k < 16, part w (M (BLK + BitVec.ofNat 9 k)) = block w t (t.length / (2 * w) - 1) k
  chain : ∀ n < 8, part w (value M (baseOf c (source c)) n) = F.chaining (block w t) (t.length / (2 * w) - 1) n
  tables : Tables M
  nonempty : 0 < t.length

/-- Nothing but the block and the chaining value has changed. -/
def Outside (M M' : BitVec 9 → BitVec 64) : Prop :=
  ∀ a : BitVec 9, 16 ≤ a.toNat → a.toNat < 48 ∨ 56 ≤ a.toNat → M' a = M a

theorem Outside.trans {M₁ M₂ M₃ : BitVec 9 → BitVec 64} (h : Outside M₁ M₂) (h' : Outside M₂ M₃) : Outside M₁ M₃ :=
  fun a ha hout => (h' a ha hout).trans (h a ha hout)

theorem Tables.outside (h : Tables M) (ho : Outside M M') : Tables M' where
  k256 n hn := by
    rw [← h.k256 n hn]
    apply ho <;> simp [K256] <;> omega
  k512 n hn := by
    rw [← h.k512 n hn]
    apply ho <;> simp [K512] <;> omega
  iv256 n hn := by
    rw [← h.iv256 n hn]
    apply ho <;> simp [IV256] <;> omega
  iv512 n hn := by
    rw [← h.iv512 n hn]
    apply ho <;> simp [IV512] <;> omega

theorem stage_eq (c : Ctl) (b : BitVec 8) : c.stage b =
    { c with
      sh64 := (c.stage b).sh64
      bc := (c.stage b).bc
      cnt := (c.stage b).cnt
      total := c.total + 1
      resume := (c.stage b).resume
      st := (c.stage b).st
      sn := (c.stage b).sn } := by
  rw [Ctl.stage]
  split
  · rfl
  · split <;> rfl

theorem stage_base : baseOf (c.stage b) (source (c.stage b)) = baseOf c (source c) := by
  rw [stage_eq]
  rfl

theorem For.stage (h : For c F) : For (c.stage b) F := by
  rw [stage_eq]
  exact h

theorem pushed_outside (hF : For c F) (hc : Counted w t c) {a : BitVec 9} (ha : 16 ≤ a.toNat) :
    pushed c b M a = M a := by
  obtain ⟨hpos, -, h16, -⟩ := hF.widths
  rw [pushed]
  split
  · apply Function.update_of_ne
    intro he
    have hlt : t.length % (2 * w) / (w / 8) < 16 := by
      apply Nat.div_lt_of_lt_mul
      have hmod := Nat.mod_lt t.length (show 2 * w > 0 by omega)
      omega
    rw [he, hc.wordAddr hF, BitVec.toNat_add, BitVec.toNat_ofNat] at ha
    change 16 ≤ (0 + t.length % (2 * w) / (w / 8) % 512) % 512 at ha
    generalize t.length % (2 * w) / (w / 8) = k at hlt ha
    omega
  · rfl

/-- The blocks that are complete stay what they are. -/
theorem chaining_append (hF : For c F) (rest : List (BitVec 8)) {q : Nat} (hq : q * (2 * w) ≤ t.length) :
    ∀ n < 8, F.chaining (block w (t ++ rest)) q n = F.chaining (block w t) q n := by
  obtain ⟨hpos, -, h16, -⟩ := hF.widths
  apply SecureHash.Family.chaining_congr
  intro k hk j hj
  apply SecureHash.wordAt_append
  apply Nat.le_trans _ hq
  rw [h16, ← Nat.mul_assoc]
  apply Nat.mul_le_mul_right
  omega

theorem base_ge (c : Ctl) (src : Src) : 32 ≤ (baseOf c src).toNat ∧ (baseOf c src).toNat ≤ 280 := by
  cases src with
  | initial =>
    rw [baseOf]
    split <;> decide
  | ipad => exact (by decide : 32 ≤ IST.toNat ∧ IST.toNat ≤ 280)
  | opad => exact (by decide : 32 ≤ OST.toNat ∧ OST.toNat ≤ 280)
  | cur => exact (by decide : 32 ≤ CUR.toNat ∧ CUR.toNat ≤ 280)

theorem value_outside (h : ∀ a : BitVec 9, 16 ≤ a.toNat → M' a = M a) {src : Src} {n : Nat} (hn : n < 8) :
    value M' (baseOf c src) n = value M (baseOf c src) n := by
  obtain ⟨hlo, hhi⟩ := base_ge c src
  apply h
  rw [BitVec.toNat_add, BitVec.toNat_ofNat]
  omega

theorem Staged.push (h : Staged F t c M) (hF : For c F) (hlast : c.blkLast = false) :
    Staged F (t ++ [b]) (c.stage b) (pushed c b M) := by
  have hout : ∀ a : BitVec 9, 16 ≤ a.toNat → pushed c b M a = M a := fun a ha => pushed_outside hF h.counted ha
  rw [h.counted.blkLast hF, decide_eq_false_iff_not] at hlast
  have hlen : (t ++ [b]).length = t.length + 1 := by rw [List.length_append, List.length_singleton]
  have hdiv : (t.length + 1) / (2 * w) = t.length / (2 * w) := by
    rw [Nat.succ_div, if_neg fun hd => hlast (Nat.mod_eq_zero_of_dvd hd), Nat.add_zero]
  have hmod : (t.length + 1) % (2 * w) = t.length % (2 * w) + 1 := by
    have h1 := Nat.div_add_mod (t.length + 1) (2 * w)
    have h2 := Nat.div_add_mod t.length (2 * w)
    rw [hdiv] at h1
    omega
  refine ⟨h.counted.stage hF, ?_, h.shifting.stage, ?_, ?_, h.tables.outside fun a ha _ => hout a ha⟩
  · rw [stage_eq, hlen]
    simp only [h.total, BitVec.ofNat_add]
    rfl
  · intro k hk
    rw [hlen, hmod] at hk
    rw [hlen, hdiv]
    exact h.filled.pushed hF h.counted h.shifting hk
  · intro n hn
    rw [stage_base, value_outside hout hn, h.chain n hn, hlen, hdiv,
      chaining_append hF [b] (Nat.div_mul_le_self _ _) n hn]

theorem Staged.full (h : Staged F t c M) (hF : For c F) (hlast : c.blkLast = true) :
    Full F (t ++ [b]) (c.stage b) (pushed c b M) := by
  obtain ⟨hpos, -, h16, -⟩ := hF.widths
  have hout : ∀ a : BitVec 9, 16 ≤ a.toNat → pushed c b M a = M a := fun a ha => pushed_outside hF h.counted ha
  rw [h.counted.blkLast hF, decide_eq_true_iff] at hlast
  have hlen : (t ++ [b]).length = t.length + 1 := by rw [List.length_append, List.length_singleton]
  have hdiv : (t.length + 1) / (2 * w) - 1 = t.length / (2 * w) := by
    rw [Nat.succ_div, if_pos (Nat.dvd_of_mod_eq_zero hlast), Nat.add_sub_cancel]
  have hmod : t.length % (2 * w) + 1 = 16 * (w / 8) := by
    have h1 := Nat.div_add_mod (t.length + 1) (2 * w)
    have h2 := Nat.div_add_mod t.length (2 * w)
    rw [Nat.succ_div, if_pos (Nat.dvd_of_mod_eq_zero hlast), hlast, Nat.mul_succ] at h1
    omega
  refine ⟨h.counted.stage hF, ?_, h.shifting.stage, ?_, ?_, ?_, h.tables.outside fun a ha _ => hout a ha, ?_⟩
  · rw [stage_eq, hlen]
    simp only [h.total, BitVec.ofNat_add]
    rfl
  · rw [hlen]
    exact hlast
  · intro k hk
    rw [hlen, hdiv]
    refine h.filled.pushed hF h.counted h.shifting ?_
    rw [hmod]
    exact Nat.mul_le_mul_right _ hk
  · intro n hn
    rw [stage_base, value_outside hout hn, h.chain n hn, hlen, hdiv,
      chaining_append hF [b] (Nat.div_mul_le_self _ _) n hn]
  · rw [hlen]
    exact Nat.succ_pos _

/-! The unit with the engine at rest. -/

structure Calm (c : Ctl) (M : BitVec 9 → BitVec 64) (s : Sha2Unit) : Prop where
  ctl : s.ctl = c
  busy : s.busy = true
  cGo : s.eng.cGo = none
  cDone : s.eng.cDone = false
  cp : s.eng.cp = .idle
  pending : pending s = M

/-- The RAM is written. -/
def Settled (s : Sha2Unit) : Prop := s.wph = none ∧ s.ram.we = false

/-- What an edge leaves before the bytes and the control. -/
def before (s : Sha2Unit) (i : In) : Sha2Unit := s.engine (s.shift (s.tick i))

theorem Calm.before (h : Calm c M s) : Calm c M (s.before i) ∧ (s.before i).wph = none ∧
    (s.before i).ram.we = s.wph.isSome ∧ (s.before i).ram.written = M ∧ (s.before i).done = false := by
  have heq : s.before i = s.shift (s.tick i) := by
    rw [Sha2Unit.before, engine, h.cp, h.cGo]
  rw [heq]
  have hM := h.pending
  refine ⟨⟨h.ctl, h.busy, rfl, rfl, h.cp, ?_⟩, rfl, ?_, ?_, rfl⟩
  · rw [← hM, Sha2Unit.pending, Sha2Unit.pending, shift, tick]
    cases s.wph <;> rfl
  · rw [shift, tick]
    cases s.wph <;> rfl
  · rw [← hM, Sha2Unit.pending, shift, tick]
    cases s.wph <;> rfl

theorem clock_eq (hi : NoBegin i) : s.clock i = s.fsm ((s.ctl.push i).elim (s.before i) (s.stage (s.before i))) i := by
  simp only [clock, show i.beginOp = none from hi]
  rfl

/-- A clock without a byte. -/
theorem Calm.clock (h : Calm c M s) (hi : NoBegin i) (hpush : c.push i = none) : s.clock i = s.fsm (s.before i) i := by
  rw [clock_eq hi, h.ctl, hpush]
  rfl

/-- A clock with a byte. -/
theorem Calm.stage (h : Calm c M s) : Calm (c.stage b) (pushed c b M) (s.stage (s.before i) b) ∧
    (s.stage (s.before i) b).wph.isSome = c.wordDone := by
  obtain ⟨hb, hwph, -, hwritten, -⟩ := h.before (i := i)
  refine ⟨⟨?_, hb.busy, hb.cGo, hb.cDone, hb.cp, ?_⟩, ?_⟩
  · rw [← h.ctl]
    rfl
  · simp only [Sha2Unit.pending, Sha2Unit.stage, h.ctl, hwph, pushed]
    split
    · rw [← hwritten]
      rfl
    · exact hwritten
  · simp only [Sha2Unit.stage, h.ctl, hwph]
    split
    · simp_all
    · simp_all

theorem Calm.working (h : Calm c M s) (hc : c.st ≠ .stream) : Working s := by
  refine ⟨h.busy, ?_⟩
  rw [h.ctl]
  exact hc

/-! The end of a block. -/

/-- The control after a block. -/
def ended (c : Ctl) : Ctl := { c with aft := .blk, first := false, st := if c.last then .after else c.resume }

def Waits (F : Family w) (t : List (BitVec 8)) (c : Ctl) (M : BitVec 9 → BitVec 64) (s : Sha2Unit) : Prop :=
  Calm c M s ∧ c.st = .bend ∧ s.wph.isSome = true ∧ Full F t c M

theorem bend_push (h : c.st = .bend) : c.push i = none := by rw [Ctl.push, h]

theorem bend_waits (h : Calm c M s) (hc : c.st = .bend) (hi : NoBegin i) (hs : ¬Settled s) :
    s.clock i = s.before i := by
  rw [h.clock hi (bend_push hc)]
  simp only [fsm, h.ctl, hc]
  exact if_neg hs

theorem bend_launches (h : Calm c M s) (hc : c.st = .bend) (hi : NoBegin i) (hs : Settled s) :
    Launched { c with aft := .blk, st := .wc } ⟨source c, false, BLK, CUR⟩ M (s.clock i) := by
  obtain ⟨hb, hwph, -, hwritten, -⟩ := h.before (i := i)
  have heq : s.clock i = (s.before i).launch (source c) false BLK CUR .blk := by
    rw [h.clock hi (bend_push hc)]
    simp only [fsm, h.ctl, hc]
    exact if_pos hs
  rw [heq]
  refine ⟨rfl, ?_, hb.busy, hwph, rfl, hb.cDone, hb.cp, hwritten⟩
  simp only [launch, hb.ctl]

theorem chaining_last (hF : For c F) (h : Full F t c M) {n : Nat} :
    F.chaining (block w t) (t.length / (2 * w)) n =
      F.compress (F.chaining (block w t) (t.length / (2 * w) - 1)) (block w t (t.length / (2 * w) - 1)) n := by
  obtain ⟨hpos, h8, -, -⟩ := hF.widths
  have hq : t.length / (2 * w) = t.length / (2 * w) - 1 + 1 := by
    have hdiv := Nat.div_add_mod t.length (2 * w)
    have hne := h.nonempty
    rw [h.whole] at hdiv
    refine (Nat.sub_add_cancel (Nat.pos_of_ne_zero fun h0 => ?_)).symm
    rw [h0, Nat.mul_zero] at hdiv
    omega
  conv_lhs => rw [hq]
  rfl

/-- A compression of a full block. -/
theorem Full.compressed (h : Full F t c M) (hF : For c F) {c' : Ctl} (hmd : c'.md = c.md)
    (hc : Compressed F (jobOf c' ⟨source c, false, BLK, CUR⟩) M M') : Staged F t (ended c) M' ∧ Outside M M' := by
  have hcur : ∀ a : BitVec 9, a.toNat < 48 ∨ 56 ≤ a.toNat → M' a = M a := by
    intro a ha
    apply hc.others
    intro n hn he
    rw [he] at ha
    change (48 + n % 512) % 512 < 48 ∨ 56 ≤ (48 + n % 512) % 512 at ha
    omega
  have hout : Outside M M' := fun a _ ha => hcur a ha
  have hbase : baseOf c' (source c) = baseOf c (source c) := by
    cases hsrc : source c <;> simp only [baseOf, hmd]
  refine ⟨⟨⟨h.counted.cnt, h.counted.bc⟩, h.total, h.shifting, ?_, ?_, h.tables.outside hout⟩, hout⟩
  · intro k hk
    rw [h.whole] at hk
    obtain ⟨hpos, -⟩ := hF.widths
    exact absurd (Nat.le_zero.mp hk) (Nat.mul_pos (Nat.succ_pos k) hpos).ne'
  · intro n hn
    have hsrc : baseOf (ended c) (source (ended c)) = CUR := rfl
    rw [hsrc, chaining_last hF h, ← F.compress_congr (H := chainOf w M (jobOf c' ⟨source c, false, BLK, CUR⟩))
      (M := blockOf w M (jobOf c' ⟨source c, false, BLK, CUR⟩)) _ _ hn]
    · exact hc.result n hn
    · intro j hj
      rw [← h.chain j hj, ← hbase]
      rfl
    · intro j hj
      rw [← h.filled j hj]
      rfl

theorem aligned (c : Ctl) (src : Src) (dg : Bool) (dbase dst : BitVec 9) (h : dst.toNat % 8 = 0) :
    Aligned (jobOf c ⟨src, dg, dbase, dst⟩) := by
  refine ⟨?_, h⟩
  change (baseOf c src).toNat % 8 = 0
  cases src with
  | initial =>
    rw [baseOf]
    split <;> decide
  | ipad => exact (by decide : IST.toNat % 8 = 0)
  | opad => exact (by decide : OST.toNat % 8 = 0)
  | cur => exact (by decide : CUR.toNat % 8 = 0)

/-- What an edge leaves after a compression. -/
theorem Finished.before (h : Finished c M s) : Calm c M (s.before i) ∧ Settled (s.before i) := by
  have heq : s.before i = s.shift (s.tick i) := by
    rw [Sha2Unit.before, engine, h.cp, h.cGo]
  have hpend : Sha2Unit.pending (s.before i) = s.ram.written := by
    rw [heq, Sha2Unit.pending, shift, tick, h.wph]
    rfl
  refine ⟨⟨?_, ?_, ?_, ?_, ?_, hpend.trans h.written⟩, ?_, ?_⟩ <;> rw [heq]
  · exact h.ctl
  · exact h.busy
  · rfl
  · rfl
  · exact h.cp
  · rfl
  · rw [shift, tick, h.wph]
    rfl

theorem Finished.clock (h : Finished c M s) (hst : c.st = .wc) (hi : NoBegin i) :
    s.clock i = s.afterwards (s.before i) := by
  have hpush : s.ctl.push i = none := by rw [Ctl.push, h.ctl, hst]
  rw [clock_eq hi, hpush]
  simp only [Option.elim_none, fsm, h.ctl, hst, h.cDone, if_true]

theorem Finished.working (h : Finished c M s) (hst : c.st = .wc) : Working s := by
  refine ⟨h.busy, ?_⟩
  rw [h.ctl, hst]
  decide

/-- A full block is compressed, and the control goes on. -/
theorem ends_block (hF : For c F) : Steps (Waits F t c M) fun s =>
    ∃ M', Calm (ended c) M' s ∧ Settled s ∧ Staged F t (ended c) M' ∧ Outside M M' := by
  have hwrite : Steps (Waits F t c M) fun s =>
      Calm c M s ∧ c.st = .bend ∧ s.ram.we = true ∧ s.wph = none ∧ Full F t c M := by
    apply Steps.edge fun s h => h.1.working (by rw [h.2.1]; decide)
    rintro s i ⟨h, hc, hwph, hfull⟩ hi
    obtain ⟨hb, hnone, hwe, -⟩ := h.before (i := i)
    rw [bend_waits h hc hi fun hs => by rw [hs.1] at hwph; exact Bool.false_ne_true hwph]
    exact ⟨hb, hc, hwe.trans hwph, hnone, hfull⟩
  have hsettle : Steps (fun s => Calm c M s ∧ c.st = .bend ∧ s.ram.we = true ∧ s.wph = none ∧ Full F t c M) fun s =>
      Calm c M s ∧ c.st = .bend ∧ Settled s ∧ Full F t c M := by
    apply Steps.edge fun s h => h.1.working (by rw [h.2.1]; decide)
    rintro s i ⟨h, hc, hwe, hwph, hfull⟩ hi
    obtain ⟨hb, hnone, hwe', -⟩ := h.before (i := i)
    rw [bend_waits h hc hi fun hs => by rw [hs.2] at hwe; exact Bool.false_ne_true hwe]
    rw [hwph] at hwe'
    exact ⟨hb, hc, ⟨hnone, hwe'⟩, hfull⟩
  have hlaunch : Steps (fun s => Calm c M s ∧ c.st = .bend ∧ Settled s ∧ Full F t c M) fun s =>
      Launched { c with aft := .blk, st := .wc } ⟨source c, false, BLK, CUR⟩ M s ∧ Full F t c M := by
    apply Steps.edge fun s h => h.1.working (by rw [h.2.1]; decide)
    rintro s i ⟨h, hc, hs, hfull⟩ hi
    exact ⟨bend_launches h hc hi hs, hfull⟩
  refine hwrite.trans (hsettle.trans (hlaunch.trans ?_))
  refine Reaches.fact (fun _ h => h.2) fun hfull => Reaches.weaken (fun _ h => h.1) ?_
  have hcomp := compresses (c := { c with aft := .blk, st := .wc }) (l := ⟨source c, false, BLK, CUR⟩) (M := M)
    (show For { c with aft := .blk, st := .wc } F from hF) hfull.tables (aligned _ _ _ _ _ (by decide))
  refine hcomp.trans (Reaches.exists fun M' => Reaches.fact (fun _ h => h.1) fun hM' => ?_)
  apply Steps.edge fun s h => h.2.working rfl
  rintro s i ⟨-, h⟩ hi
  obtain ⟨hb, hs⟩ := h.before (i := i)
  obtain ⟨hstaged, hout⟩ := hfull.compressed hF (show ({ c with aft := .blk, st := .wc } : Ctl).md = c.md from rfl) hM'
  refine ⟨M', ?_, ?_, hstaged, hout⟩
  · rw [h.clock rfl hi]
    simp only [afterwards, h.ctl]
    refine ⟨?_, hb.busy, hb.cGo, hb.cDone, hb.cp, hb.pending⟩
    rw [hb.ctl]
    rfl
  · rw [h.clock rfl hi]
    simp only [afterwards, h.ctl]
    exact hs

end GoiKey.Rtl.Sha2Unit
