import GoiKey.Proofs.Sha2Iterations

/-! HMAC and PBKDF2 of sha2_unit.v against RFC 2104 and RFC 8018. -/

namespace GoiKey.Rtl.Sha2Unit

open SecureHash (Family sha256 bytesOf octets wordAt accumulated derivedBlock)
open Clocked Sha2

variable {s : Sha2Unit} {i : In} {M M' M₀ : BitVec 9 → BitVec 64} {c c₀ : Ctl} {k m t : List (BitVec 8)}
  {F : Family 32} {b : BitVec 8}

/-! The index behind the salt. -/

/-- The bytes that are pushed for some bytes of the index, behind a text of `n` bytes: one that
ends a block is pushed again, but for the last. -/
def indexFrom : Nat → List (BitVec 8) → List (BitVec 8)
  | _, [] => []
  | _, [b] => [b]
  | n, b :: b' :: bs =>
    if (n + 1) % 64 = 0 then b :: b :: indexFrom (n + 2) (b' :: bs) else b :: indexFrom (n + 1) (b' :: bs)

/-- The bytes of the index from byte `j` on are still to be pushed. -/
def Indexing (F : Family 32) (c₀ : Ctl) (M₀ : BitVec 9 → BitVec 64) (t : List (BitVec 8)) (j : Nat) (s : Sha2Unit) :
    Prop :=
  ∃ c M, Calm c M s ∧ c.st = .idx ∧ c.sn = BitVec.ofNat 7 j ∧ c.last = false ∧ Staged F t c M ∧ Same c₀ c ∧ Outside M₀ M

/-- The control after a byte of the index. -/
def idxStep (c : Ctl) (b : BitVec 8) : Ctl :=
  if c.sn.extractLsb' 0 2 = 3 then { c.stage b with pstage := 0 } else c.stage b

theorem idxStep_eq (c : Ctl) (b : BitVec 8) : idxStep c b = { c.stage b with pstage := (idxStep c b).pstage } := by
  rw [idxStep]
  split <;> rfl

theorem Staged.idxStep (h : Staged F t (c.stage b) M) : Staged F t (idxStep c b) M := by
  rw [idxStep_eq]
  exact ⟨⟨h.counted.cnt, h.counted.bc⟩, h.total, h.shifting, h.filled, h.chain, h.tables⟩

theorem Full.idxStep (h : Full F t (c.stage b) M) : Full F t (idxStep c b) M := by
  rw [idxStep_eq]
  exact ⟨⟨h.counted.cnt, h.counted.bc⟩, h.total, h.shifting, h.whole, h.filled, h.chain, h.tables, h.nonempty⟩

theorem Same.idxStep (c : Ctl) (b : BitVec 8) : Same c (idxStep c b) := by
  refine (Same.stage c b).trans ?_
  rw [Same, idxStep_eq]

theorem idx_byte {j : Nat} (hj : j < 4) (hsn : c.sn = BitVec.ofNat 7 j) :
    c.idxByte = (octets 4 c.pbi.toNat).getD j 0 := by
  rw [Ctl.idxByte, hsn]
  apply BitVec.eq_of_toNat_eq
  interval_cases j
  · change (c.pbi.extractLsb' 24 8).toNat = c.pbi.toNat / 256 / 256 / 256 % 256
    rw [BitVec.extractLsb'_toNat, Nat.shiftRight_eq_div_pow]
    omega
  · change (c.pbi.extractLsb' 16 8).toNat = c.pbi.toNat / 256 / 256 % 256
    rw [BitVec.extractLsb'_toNat, Nat.shiftRight_eq_div_pow]
    omega
  · change (c.pbi.extractLsb' 8 8).toNat = c.pbi.toNat / 256 % 256
    rw [BitVec.extractLsb'_toNat, Nat.shiftRight_eq_div_pow]
  · change (c.pbi.extractLsb' 0 8).toNat = c.pbi.toNat % 256
    rw [BitVec.extractLsb'_toNat, Nat.shiftRight_zero]

theorem idx_last {j : Nat} (hj : j < 4) (hsn : c.sn = BitVec.ofNat 7 j) : c.sn.extractLsb' 0 2 = 3 ↔ j = 3 := by
  rw [hsn]
  interval_cases j <;> decide

/-- The unit pads from here on. -/
theorem padding_starts (hcalm : Calm c M s) (hstaged : Staged F t c M) (hst : c.st = .pad) (hpstage : c.pstage = 0)
    (hlast : c.last = false) (hsame : Same c₀ c) (hout : Outside M₀ M) : Padding F c₀ M₀ t 0 s := by
  refine ⟨c, M, hcalm, ?_, ⟨fun _ => hpstage, fun h => absurd h (by decide), fun h => absurd h (Nat.not_lt_zero _),
    fun h => absurd h (by decide), ?_⟩, hsame, hout, fun _ => hst, fun he => absurd he.symm (Nat.succ_ne_zero _)⟩
  · rw [padText, List.take_zero, List.append_nil]
    exact hstaged
  · rw [decide_eq_false (by omega)]
    exact hlast

/-- Byte `j` of the index has been pushed. -/
def Indexed (F : Family 32) (c₀ : Ctl) (M₀ : BitVec 9 → BitVec 64) (t : List (BitVec 8)) (b : BitVec 8) (j : Nat)
    (s : Sha2Unit) : Prop :=
  if j = 3 then Padding F c₀ M₀ (t ++ [b]) 0 s
  else Indexing F c₀ M₀ (t ++ [b]) (if (t.length + 1) % 64 = 0 then j else j + 1) s

/-- A byte of the index. -/
theorem indexes_byte (hF : For c₀ F) {j : Nat} (hj : j < 4) {b : BitVec 8} (hb : b = (octets 4 c₀.pbi.toNat).getD j 0) :
    Steps (Indexing F c₀ M₀ t j) (Indexed F c₀ M₀ t b j) := by
  have hpush : Steps (Indexing F c₀ M₀ t j) fun s => Indexed F c₀ M₀ t b j s ∨ ∃ c M, Waits F (t ++ [b]) c M s ∧ For c F ∧ (t.length + 1) % 64 = 0 ∧
        c.resume = (if j = 3 then .pad else .idx) ∧ c.sn = BitVec.ofNat 7 j ∧ (j = 3 → c.pstage = 0) ∧ c.last = false ∧
        Same c₀ c ∧ Outside M₀ M := by
    apply Steps.edge
    · rintro s ⟨c, M, hcalm, hst, -⟩
      exact hcalm.working (by rw [hst]; decide)
    rintro s i ⟨c, M, hcalm, hst, hsn, hlast, hstaged, hsame, hout⟩ hi
    have hFc := hsame.computes hF
    have hpbi : c.pbi = c₀.pbi := by rw [hsame]
    have hbyte : c.idxByte = b := by rw [idx_byte hj hsn, hpbi, hb]
    have hiff := idx_last hj hsn
    have hclock : s.clock i = { s.stage (s.before i) b with ctl := idxStep c b } := by
      have hp : c.push i = some b := by rw [Ctl.push, hst, ← hbyte]
      rw [clock_eq hi, hcalm.ctl, hp]
      simp only [Option.elim_some, fsm, hcalm.ctl, hst, Sha2Unit.stage, idxStep]
      split <;> rfl
    obtain ⟨hcalm', hwph⟩ := hcalm.stage (b := b) (i := i)
    have hcalm'' : Calm (idxStep c b) (pushed c b M) (s.clock i) := by
      rw [hclock]
      exact ⟨rfl, hcalm'.busy, hcalm'.cGo, hcalm'.cDone, hcalm'.cp, hcalm'.pending⟩
    have hsame' : Same c₀ (idxStep c b) := hsame.trans (.idxStep c b)
    have hout' : Outside M₀ (pushed c b M) := hout.trans fun a ha _ => pushed_outside hFc hstaged.counted ha
    have hlast' : (idxStep c b).last = false := by
      rw [idxStep_eq, stage_eq]
      exact hlast
    have hnxt : c.nxt = if j = 3 then .pad else .idx := by
      rw [Ctl.nxt, if_pos hst]
      simp only [hiff]
    have hpstage : j = 3 → (idxStep c b).pstage = 0 := by
      intro h3
      rw [idxStep, if_pos (hiff.mpr h3)]
    have hblk := hstaged.counted.blkLast hFc
    change c.blkLast = decide ((t.length + 1) % 64 = 0) at hblk
    by_cases hend : (t.length + 1) % 64 = 0
    · rw [decide_eq_true hend] at hblk
      obtain ⟨hbend, hresume⟩ := stage_last (b := b) hblk
      refine .inr ⟨_, _, ⟨hcalm'', ?_, ?_, (hstaged.full hFc hblk).idxStep⟩, hsame'.computes hF, hend, ?_, ?_, hpstage,
        hlast', hsame', hout'⟩
      · rw [idxStep_eq]
        exact hbend
      · rw [hclock]
        exact hwph.trans (wordDone_of_last hFc hstaged.counted hblk)
      · rw [idxStep_eq]
        exact hresume.trans hnxt
      · rw [idxStep_eq, Ctl.stage, if_pos hblk]
        exact hsn
    · rw [decide_eq_false hend] at hblk
      have hstage : (c.stage b).st = c.nxt ∧ (c.stage b).sn = c.sn + 1 := by
        rw [Ctl.stage, if_neg (by rw [hblk]; decide), if_pos hst]
        exact ⟨rfl, rfl⟩
      have hstaged' := (hstaged.push (b := b) hFc hblk).idxStep
      refine .inl ?_
      rw [Indexed]
      by_cases h3 : j = 3
      · rw [if_pos h3]
        refine padding_starts hcalm'' hstaged' ?_ (hpstage h3) hlast' hsame' hout'
        rw [idxStep_eq]
        exact hstage.1.trans (by rw [hnxt, if_pos h3])
      · rw [if_neg h3, if_neg hend]
        refine ⟨_, _, hcalm'', ?_, ?_, hlast', hstaged', hsame', hout'⟩
        · rw [idxStep_eq]
          exact hstage.1.trans (by rw [hnxt, if_neg h3])
        · rw [idxStep_eq]
          exact hstage.2.trans (by rw [hsn, cn_succ])
  apply hpush.trans
  rintro s (h | ⟨c, M, hwaits, hFc, hend, hresume, hsn, hpstage, hlast, hsame, hout⟩)
  · exact Reaches.of_imp (fun _ h => h) s h
  · have hst : (ended c).st = if j = 3 then .pad else .idx := by
      simp only [ended, hlast, hresume]
      rfl
    have hnext : ∀ s, (∃ M', Calm (ended c) M' s ∧ Settled s ∧ Staged F (t ++ [b]) (ended c) M' ∧ Outside M M') →
        Indexed F c₀ M₀ t b j s := by
      rintro s ⟨M', hcalm, -, hstaged, hout'⟩
      rw [Indexed]
      by_cases h3 : j = 3
      · rw [if_pos h3] at hst ⊢
        exact padding_starts hcalm hstaged hst (hpstage h3) hlast (hsame.trans (.ended c)) (hout.trans hout')
      · rw [if_neg h3] at hst ⊢
        rw [if_pos hend]
        exact ⟨_, M', hcalm, hst, hsn, hlast, hstaged, hsame.trans (.ended c), hout.trans hout'⟩
    exact (ends_block hFc).imp (fun _ h => h) hnext s hwaits

theorem indexFrom_cons {n : Nat} {bs : List (BitVec 8)} (h : bs ≠ []) (b : BitVec 8) : indexFrom n (b :: bs) =
    if (n + 1) % 64 = 0 then b :: b :: indexFrom (n + 2) bs else b :: indexFrom (n + 1) bs := by
  obtain _ | ⟨b', bs⟩ := bs
  · exact absurd rfl h
  · rfl

/-- The rest of the index, to the beginning of the padding. -/
theorem indexes_from (hF : For c₀ F) (M₀ : BitVec 9 → BitVec 64) {d j : Nat} (hj : j + d = 3) : Steps (Indexing F c₀ M₀ t j)
    (Padding F c₀ M₀ (t ++ indexFrom t.length ((octets 4 c₀.pbi.toNat).drop j)) 0) := by
  have hlen : (octets 4 c₀.pbi.toNat).length = 4 := SecureHash.octets_length 4 _
  have hlt : j < (octets 4 c₀.pbi.toNat).length := by omega
  have hbyte : (octets 4 c₀.pbi.toNat)[j] = (octets 4 c₀.pbi.toNat).getD j 0 := (List.getElem_eq_getD 0)
  induction d generalizing j t with
  | zero =>
    obtain rfl : j = 3 := hj
    have hrest : (octets 4 c₀.pbi.toNat).drop (3 + 1) = [] := List.drop_of_length_le (by omega)
    rw [List.drop_eq_getElem_cons hlt, hrest]
    exact indexes_byte hF (by decide) hbyte
  | succ d ih =>
    have hrest : (octets 4 c₀.pbi.toNat).drop (j + 1) ≠ [] := by
      intro he
      have hnil := congrArg List.length he
      rw [List.length_drop, hlen] at hnil
      exact absurd hnil (Nat.sub_ne_zero_of_lt (by omega))
    have hnext : ∀ t, Steps (Indexing F c₀ M₀ t (j + 1))
        (Padding F c₀ M₀ (t ++ indexFrom t.length ((octets 4 c₀.pbi.toNat).drop (j + 1))) 0) :=
      fun t => ih (t := t) (by omega) (by omega) (List.getElem_eq_getD 0)
    have hne : j ≠ 3 := by omega
    have hstep : ∀ t, Steps (Indexing F c₀ M₀ t j) (Indexing F c₀ M₀ (t ++ [(octets 4 c₀.pbi.toNat)[j]])
        (if (t.length + 1) % 64 = 0 then j else j + 1)) := by
      intro t
      apply (indexes_byte hF (by omega) hbyte).imp (fun _ h => h)
      intro s h
      rwa [Indexed, if_neg hne] at h
    rw [List.drop_eq_getElem_cons hlt, indexFrom_cons hrest]
    by_cases hend : (t.length + 1) % 64 = 0
    · -- the byte ends a block, and comes again
      have hlonger : (t ++ [(octets 4 c₀.pbi.toNat)[j]]).length = t.length + 1 := List.length_append
      have hagain := hstep (t ++ [(octets 4 c₀.pbi.toNat)[j]])
      have hfirst := hstep t
      have hnot : ¬(t.length + 1 + 1) % 64 = 0 := by omega
      simp only [hlonger, hnot, if_false, List.append_assoc, List.singleton_append] at hagain
      simp only [hend, if_true] at hfirst ⊢
      have hlast := hnext (t ++ [(octets 4 c₀.pbi.toNat)[j], (octets 4 c₀.pbi.toNat)[j]])
      have htwo : (t ++ [(octets 4 c₀.pbi.toNat)[j], (octets 4 c₀.pbi.toNat)[j]]).length = t.length + 2 :=
        List.length_append
      rw [htwo, List.append_assoc] at hlast
      exact hfirst.trans (hagain.trans hlast)
    · have hfirst := hstep t
      have hlast := hnext (t ++ [(octets 4 c₀.pbi.toNat)[j]])
      have hone : (t ++ [(octets 4 c₀.pbi.toNat)[j]]).length = t.length + 1 := List.length_append
      simp only [hend, if_false] at hfirst ⊢
      rw [hone, List.append_assoc] at hlast
      exact hfirst.trans hlast

/-- The salt has ended, and the index is latched. -/
theorem Taking.ends_index (h : Taking F c₀ M₀ t s) (hi : NoBegin i) (hb : i.inByte = none) (hend : i.msgEnd = true)
    (hmd : c₀.md = .pbkdf2) : Indexing F { c₀ with pbi := i.pbIdx } M₀ t 0 (s.clock i) := by
  obtain ⟨c, M, hcalm, hst, hlast, hstaged, hsame, hout⟩ := h
  have hpush : c.push i = none := by
    rw [Ctl.push, hst]
    exact hb
  have hclock : s.clock i = { s.before i with ctl := { c with pbi := i.pbIdx, sn := 0, st := .idx } } := by
    rw [hcalm.clock hi hpush]
    simp only [fsm, hcalm.ctl, hst, hend, hb, and_self, if_true, hsame.md, hmd, hcalm.before.1.ctl]
  obtain ⟨hb', -⟩ := hcalm.before (i := i)
  rw [hclock]
  refine ⟨_, M, ⟨rfl, hb'.busy, hb'.cGo, hb'.cDone, hb'.cp, hb'.pending⟩, rfl, rfl, hlast, ?_, ?_, hout⟩
  · exact ⟨⟨hstaged.counted.cnt, hstaged.counted.bc⟩, hstaged.total, hstaged.shifting, hstaged.filled, hstaged.chain,
      hstaged.tables⟩
  · rw [Same] at hsame ⊢
    rw [hsame]

/-! The operations with a key. -/

/-- A key is presented from clock 0 on: its bytes come on any clocks, until clock `K + 1` ends it. -/
structure PresentsKey (md : Mode) (iters : BitVec 32) (k : List (BitVec 8)) (s : Sha2Unit) (i : Nat → In) (K : Nat) :
    Prop where
  begins : (i 0).beginOp = some (md, iters)
  once : ∀ n, (i (n + 1)).beginOp = none
  key : outputs clock (fun _ i => i.keyWr) (s.clock (i 0)) (fun n => i (1 + n)) K = k
  keyEnd : (i (K + 1)).keyWr = none ∧ (i (K + 1)).keyDone = true
  keyFirst : ∀ n < K, (i (1 + n)).keyDone = false

/-- A message follows, which clock `T` ends. -/
structure PresentsKeyed (md : Mode) (iters : BitVec 32) (k m : List (BitVec 8)) (s : Sha2Unit) (i : Nat → In)
    (K T : Nat) : Prop extends PresentsKey md iters k s i K where
  ready : ∀ n, (i n).inByte ≠ none → (after clock s i n).inReady = true
  bytes : outputs clock (fun _ i => i.inByte) s i T = m
  ending : (after clock s i T).inReady = true ∧ (i T).inByte = none ∧ (i T).msgEnd = true
  first : ∀ n < T, (i n).msgEnd = false

section Runs

variable {md : Mode} {iters : BitVec 32} {i : Nat → In} {K T : Nat}

theorem PresentsKey.given (hp : PresentsKey md iters k s i K) (n : Nat) :
    Given NoBegin (fun _ => True) fun k => i (n + 1 + k) := by
  refine ⟨fun k => ?_, fun k => ⟨k, Nat.le_refl k, trivial⟩⟩
  change (i (n + 1 + k)).beginOp = none
  rw [Nat.add_right_comm]
  exact hp.once (n + k)

theorem Keying.not_ready (h : Keying md iters k s) : s.inReady = false := by
  obtain ⟨c, M, hcalm, hst, -⟩ := h
  rw [inReady, hcalm.ctl, hst]
  rfl

/-- The key is taken up. -/
theorem PresentsKey.keying (hp : PresentsKey md iters k s i K) (hs : Resting s) (hk : k.length ≤ 64)
    (hmd : md = .hmac ∨ md = .pbkdf2) {n : Nat} (hn : n ≤ K) :
    Keying md iters (outputs clock (fun _ i => i.keyWr) (s.clock (i 0)) (fun n => i (1 + n)) n)
      (after clock s i (1 + n)) := by
  induction n with
  | zero => exact hs.begins_key hmd hp.begins
  | succ n ih =>
    have hwas := ih (Nat.le_of_succ_le hn)
    have hbegin : NoBegin (i (1 + n)) := by
      rw [Nat.add_comm]
      exact hp.once n
    have hopen := hp.keyFirst n hn
    rw [outputs_succ]
    cases hb : (i (1 + n)).keyWr with
    | none =>
      rw [Option.toList_none, List.append_nil]
      exact hwas.waits hbegin hb hopen
    | some b =>
      have hlen : (outputs clock (fun _ i => i.keyWr) (s.clock (i 0)) (fun n => i (1 + n)) (n + 1)).length ≤ k.length := by
        obtain ⟨d, rfl⟩ := Nat.exists_eq_add_of_le hn
        rw [← hp.key, outputs_add _ (n + 1) d]
        exact (List.prefix_append _ _).length_le
      rw [outputs_succ, hb, Option.toList_some, List.length_append, List.length_singleton] at hlen
      exact hwas.byte (by omega) hbegin hb hopen

/-- The unit comes to take bytes, behind the block of the inner pad, and takes none before. -/
theorem PresentsKey.opens (hp : PresentsKey md iters k s i K) (hs : Resting s) (hF : Computes false F)
    (hk : k.length ≤ 64) (hmd : md = .hmac ∨ md = .pbkdf2) : ∃ D, K + 1 < D ∧ (∀ n < D, (after clock s i n).inReady = false) ∧
      ∃ c M, Keys F k M ∧ c.md = md ∧ c.itersR = iters ∧ Taking F c M (F.keyPad 0x36 k) (after clock s i D) := by
  have hended : ∃ c M, Calm c M (after clock s i (K + 1 + 1)) ∧ Deriving F md iters k false c M := by
    have hkey := hp.keying hs hk hmd (Nat.le_refl K)
    rw [hp.key, Nat.add_comm] at hkey
    exact hkey.ends hk (hp.once K) hp.keyEnd.1 hp.keyEnd.2 F
  obtain ⟨d, hworks, htaking⟩ := derives_keys hF hk hmd _ hended _ (hp.given (K + 1))
  rw [← after_add (K + 1 + 1) d] at htaking
  refine ⟨K + 1 + 1 + d, by omega, fun n hn => ?_, htaking⟩
  obtain _ | n := n
  · rw [after_zero, inReady, hs.st]
    rfl
  · by_cases hle : n ≤ K
    · rw [Nat.add_comm n 1]
      exact (hp.keying hs hk hmd hle).not_ready
    · obtain ⟨j, rfl⟩ := Nat.exists_eq_add_of_le (Nat.lt_of_not_le hle)
      have hwork := hworks j (by omega)
      rw [show K.succ + j + 1 = K + 1 + 1 + j by omega, after_add, inReady]
      exact decide_eq_false hwork.2

/-- The whole message is taken up. -/
theorem PresentsKeyed.taken (hp : PresentsKeyed md iters k m s i K T) (hs : Resting s) (hF : Computes false F)
    (hk : k.length ≤ 64) (hmd : md = .hmac ∨ md = .pbkdf2) : NoBegin (i T) ∧ ∃ c M, Keys F k M ∧ For c F ∧ c.md = md ∧
      c.itersR = iters ∧ Taking F c M (F.keyPad 0x36 k ++ m) (after clock s i T) := by
  obtain ⟨D, hD, hbusy, c, M, hK, hmode, hiters, htaking⟩ := hp.opens hs hF hk hmd
  have hquiet : ∀ n < D, (i n).inByte = none := by
    intro n hn
    by_contra hne
    exact Bool.false_ne_true ((hbusy n hn).symm.trans (hp.ready n hne))
  have hle : D ≤ T := by
    by_contra hlt
    exact Bool.false_ne_true ((hbusy T (Nat.lt_of_not_le hlt)).symm.trans hp.ending.1)
  obtain ⟨D, rfl⟩ : ∃ n, D = n + 1 := ⟨D - 1, by omega⟩
  obtain ⟨l, rfl⟩ := Nat.exists_eq_add_of_le hle
  have hFc : For c F := by
    have hne : md ≠ .sha512 := by
      obtain rfl | rfl := hmd <;> decide
    rw [For, hmode, decide_eq_false hne]
    exact hF
  have hbytes := hp.bytes
  rw [outputs_add, outputs_none hquiet, List.nil_append] at hbytes
  have hstream : ∃ e, (∀ n < e, ¬Streaming (after clock (after clock s i (D + 1)) (fun n => i (D + 1 + n)) (l + n))) ∧
      Taking F c M (F.keyPad 0x36 k ++
        outputs clock (fun _ i => i.inByte) (after clock s i (D + 1)) (fun n => i (D + 1 + n)) l)
        (after clock (after clock s i (D + 1)) (fun n => i (D + 1 + n)) (l + e)) := by
    refine takes (P := fun t s => Taking F c M (F.keyPad 0x36 k ++ t) s)
      (fun t u j h hi hb (hq : Quiet j) => Taking.waits (i := j) h hi hb hq) (fun t b => ?_) ?_ (hp.given D)
      (fun n hn => ?_) (fun n hn _ => ?_) (Nat.le_refl l)
    · rw [← List.append_assoc]
      exact (takes_byte hFc (F.keyPad 0x36 k ++ t) b).mono fun u h => h.2
    · rwa [List.append_nil]
    · rw [← after_add]
      exact inReady_iff.mp (hp.ready _ hn)
    · exact hp.first _ (by omega)
  obtain ⟨e, hwait, htaken⟩ := hstream
  obtain rfl : e = 0 := by
    by_contra he
    have hnot := hwait 0 (Nat.pos_of_ne_zero he)
    rw [Nat.add_zero, ← after_add, ← inReady_iff] at hnot
    exact hnot hp.ending.1
  rw [hbytes, Nat.add_zero, ← after_add] at htaken
  refine ⟨?_, c, M, hK, hFc, hmode, hiters, htaken⟩
  rw [NoBegin, Nat.add_right_comm]
  exact hp.once (D + l)

/-- What comes to an answer can be read. -/
theorem outputs_of {P : Sha2Unit → Prop} {d : Nat → BitVec 32} (h : Steps P fun s => Answering 32 d s ∧ s.done = true)
    (hs : P (after clock s i (T + 1))) (hi : Given NoBegin (fun _ => True) fun k => i (T + 1 + k)) : Outputs d s i T := by
  obtain ⟨n, hworks, hanswer, hdone⟩ := h _ hs _ hi
  rw [← after_add] at hanswer hdone
  refine ⟨T + 1 + n, by omega, fun k hlo hhi => ?_, hanswer.busy, hdone, fun k hk => ?_⟩
  · obtain ⟨j, rfl⟩ := Nat.exists_eq_add_of_le (Nat.succ_le_of_lt hlo)
    change (after clock s i (T + 1 + j)).busy = true
    rw [after_add]
    exact (hworks j (by omega)).1
  · obtain ⟨j, rfl⟩ := Nat.exists_eq_add_of_le hk
    have hquiet : ∀ j, NoBegin (i (T + 1 + n + j)) := by
      intro j
      rw [Nat.add_assoc]
      exact hi.1 (n + j)
    have hstays := answering_stays hanswer hquiet j
    rw [← after_add] at hstays
    exact (hstays.clock (hquiet j)).2

theorem Outputs.congr {d d' : Nat → BitVec 32} (h : Outputs d s i T) (hd : ∀ n < 8, d n = d' n) : Outputs d' s i T := by
  obtain ⟨n, hn, hbusy, hidle, hdone, hread⟩ := h
  exact ⟨n, hn, hbusy, hidle, hdone, fun k hk => (hread k hk).trans (hd _ (i k).dgRa.isLt)⟩

end Runs

/-! The words of the results. -/

theorem padded_digest (ht : t.length < 2 ^ 32) : digestOf sha256 (padded false t) = sha256.digest t := by
  have hpad : padded false t = SecureHash.pad 32 t := by
    rw [padded, SecureHash.pad, List.append_assoc, List.append_cancel_left_eq]
    exact (pad_sha256 (by omega)).mpr ht
  rw [digestOf, hpad, Family.digest]

theorem outer_hmac (hlen : (sha256.keyPad 0x36 k ++ m).length < 2 ^ 32) :
    bytesOf (outerOf sha256 k (padded false (sha256.keyPad 0x36 k ++ m))) = sha256.hmac k m := by
  rw [outerOf, padded_digest hlen]
  rfl

theorem iterate_bytes {u : Nat → BitVec 32} (hu : bytesOf u = sha256.hmac k m) (n : Nat) :
    bytesOf (iterateWords sha256 k u n) = SecureHash.iterated (sha256.hmac k) m n := by
  induction n with
  | zero => exact hu
  | succ n ih => rw [SecureHash.iterated, ← ih]; rfl

theorem hmac_length (k m : List (BitVec 8)) : (sha256.hmac k m).length = 32 := SecureHash.bytesOf_length _

theorem accumulated_length (m : List (BitVec 8)) (n : Nat) :
    (accumulated (sha256.hmac k) m n).length = 32 := by
  induction n with
  | zero => exact hmac_length k m
  | succ n ih =>
    have hnext : (SecureHash.iterated (sha256.hmac k) m (n + 1)).length = 32 := hmac_length k _
    rw [SecureHash.accumulated, SecureHash.xorBytes, List.length_zipWith, ih, hnext]
    rfl

theorem result_words {u : Nat → BitVec 32} (hu : bytesOf u = sha256.hmac k m) {n j : Nat} (hj : j < 8) :
    resultWords sha256 k u n j = wordAt 32 (accumulated (sha256.hmac k) m n) j := by
  have hword : ∀ n, iterateWords sha256 k u n j = wordAt 32 (SecureHash.iterated (sha256.hmac k) m n) j := by
    intro n
    rw [← iterate_bytes hu, SecureHash.wordAt_bytesOf rfl _ hj]
  induction n with
  | zero => exact hword 0
  | succ n ih =>
    have hnext : (SecureHash.iterated (sha256.hmac k) m (n + 1)).length = 32 := hmac_length k _
    rw [SecureHash.accumulated, SecureHash.wordAt_xor ((accumulated_length m n).trans hnext.symm), ← ih, ← hword]
    rfl

/-! The index behind a salt. -/

theorem indexFrom_block (n : Nat) (bs : List (BitVec 8)) : indexFrom (64 + n) bs = indexFrom n bs := by
  induction bs generalizing n with
  | nil => rfl
  | cons b bs ih =>
    obtain _ | ⟨b', bs⟩ := bs
    · rfl
    · have hmod : (64 + n + 1) % 64 = (n + 1) % 64 := by omega
      rw [indexFrom, indexFrom, hmod, Nat.add_assoc 64 n 2, Nat.add_assoc 64 n 1, ih, ih]

theorem index_bytes (x : Nat) : ∃ a b c d, octets 4 x = [a, b, c, d] := ⟨_, _, _, _, rfl⟩

/-- The four bytes follow one another when none of the first three ends a block. -/
theorem indexFrom_octets (n x : Nat) : indexFrom n (octets 4 x) = octets 4 x ↔ n % 64 < 61 := by
  obtain ⟨a, b, c, d, h⟩ := index_bytes x
  rw [h]
  simp only [indexFrom]
  constructor
  · intro heq
    by_contra hge
    have hlen := congrArg List.length heq
    split_ifs at hlen <;> simp only [List.length_cons, List.length_nil] at hlen <;> omega
  · intro hlt
    rw [if_neg (by omega), if_neg (by omega), if_neg (by omega)]

theorem indexFrom_length (n x : Nat) : (indexFrom n (octets 4 x)).length ≤ 5 := by
  obtain ⟨a, b, c, d, h⟩ := index_bytes x
  rw [h]
  simp only [indexFrom]
  split_ifs <;> simp only [List.length_cons, List.length_nil] <;> omega

/-! Runs on short messages. -/

/-- A key, a byte on every clock, with what else comes. -/
def keyFeed (md : Mode) (iters : BitVec 32) (k : List (BitVec 8)) (idx : BitVec 32) (b : Nat → Option (BitVec 8))
    (e : Nat → Bool) (n : Nat) : In where
  beginOp := if n = 0 then some (md, iters) else none
  pbIdx := idx
  keyWr := if n = 0 then none else k[n - 1]?
  keyDone := n = k.length + 1
  inByte := b n
  msgEnd := e n
  dgRa := 0

/-- A message behind it, from clock `D` on. -/
def keyedFeed (md : Mode) (iters : BitVec 32) (k m : List (BitVec 8)) (idx : BitVec 32) (D : Nat) : Nat → In :=
  keyFeed md iters k idx (fun n => if n < D then none else m[n - D]?) fun n => n = D + m.length

section Feeds

variable {md : Mode}

theorem presents_keyFeed (iters idx : BitVec 32) (b : Nat → Option (BitVec 8)) (e : Nat → Bool) :
    PresentsKey md iters k s (keyFeed md iters k idx b e) k.length := by
  have hkey : ∀ n, (keyFeed md iters k idx b e (1 + n)).keyWr = k[n]? := by
    intro n
    rw [Nat.add_comm]
    rfl
  have houtputs : ∀ n ≤ k.length, outputs clock (fun _ i => i.keyWr) (s.clock (keyFeed md iters k idx b e 0))
      (fun n => keyFeed md iters k idx b e (1 + n)) n = k.take n := by
    intro n
    induction n with
    | zero => exact fun _ => rfl
    | succ n ih =>
      intro hn
      rw [outputs_succ, ih (Nat.le_of_succ_le hn), hkey, List.getElem?_eq_getElem hn, List.take_succ_eq_append_getElem hn]
      rfl
  refine ⟨rfl, fun _ => rfl, ?_, ⟨List.getElem?_eq_none (Nat.le_refl _), decide_eq_true rfl⟩, fun n hn => ?_⟩
  · rw [houtputs _ (Nat.le_refl _), List.take_length]
  · exact decide_eq_false (by omega)

theorem presents_keyedFeed (iters idx : BitVec 32) (hs : Resting s) (hk : k.length ≤ 64)
    (hmd : md = .hmac ∨ md = .pbkdf2) (hm : m.length < 64) : ∃ D, PresentsKeyed md iters k m s (keyedFeed md iters k m idx D) k.length (D + m.length) := by
  obtain ⟨D, -, hbusy, c, M, -, hmode, -, htaking⟩ :=
    (presents_keyFeed iters idx (fun _ => none) fun _ => false).opens hs sha256_computes hk hmd
  have hsame : ∀ n ≤ D, after clock s (keyFeed md iters k idx (fun _ => none) fun _ => false) n =
      after clock s (keyedFeed md iters k m idx D) n := by
    intro n hn
    refine lockstep (R := Eq) rfl (fun n hn h => ?_) hn
    have hinput : keyFeed md iters k idx (fun _ => none) (fun _ => false) n = keyedFeed md iters k m idx D n := by
      have hend : decide (n = D + m.length) = false := decide_eq_false (by omega)
      simp only [keyedFeed, keyFeed, hn, if_true, hend]
    rw [h, hinput]
  rw [hsame D (Nat.le_refl D)] at htaking
  have hFc : For c sha256 := by
    have hne : md ≠ .sha512 := by
      obtain rfl | rfl := hmd <;> decide
    rw [For, hmode, decide_eq_false hne]
    exact sha256_computes
  have hbyte : ∀ n, (keyedFeed md iters k m idx D (D + n)).inByte = m[n]? := by
    intro n
    change (if D + n < D then none else m[D + n - D]?) = m[n]?
    rw [if_neg (by omega), Nat.add_sub_cancel_left]
  have hnone : ∀ n < D, (keyedFeed md iters k m idx D n).inByte = none := fun n hn => if_pos hn
  have hbegin : ∀ n, NoBegin (keyedFeed md iters k m idx D (D + n)) := by
    intro n
    refine if_neg fun h0 => ?_
    obtain rfl : D = 0 := by omega
    rw [after_zero] at htaking
    exact absurd (hs.st.symm.trans htaking.ready) (by decide)
  have htakes : ∀ n ≤ m.length, Taking sha256 c M (sha256.keyPad 0x36 k ++ m.take n)
      (after clock s (keyedFeed md iters k m idx D) (D + n)) := by
    intro n
    induction n with
    | zero =>
      rw [List.take_zero, List.append_nil]
      exact fun _ => htaking
    | succ n ih =>
      intro hn
      have hlen : (sha256.keyPad 0x36 k ++ m.take n).length = 64 + n := by
        rw [List.length_append, SecureHash.keyPad_length hk, List.length_take_of_le (Nat.le_of_succ_le hn)]
      rw [List.take_succ_eq_append_getElem hn, ← List.append_assoc]
      refine (ih (Nat.le_of_succ_le hn)).within hFc (hbegin n) ?_ ?_
      · exact (hbyte n).trans (List.getElem?_eq_getElem hn)
      · rw [hlen]
        omega
  have houtputs : ∀ n ≤ m.length, outputs clock (fun _ i => i.inByte) s (keyedFeed md iters k m idx D) (D + n) =
      m.take n := by
    intro n
    induction n with
    | zero => exact fun _ => outputs_none hnone
    | succ n ih =>
      intro hn
      rw [← Nat.add_assoc, outputs_succ, ih (Nat.le_of_succ_le hn), hbyte, List.getElem?_eq_getElem hn,
        List.take_succ_eq_append_getElem hn]
      rfl
  refine ⟨D, presents_keyFeed iters idx _ _, fun n hn => ?_, ?_, ⟨?_, ?_, decide_eq_true rfl⟩, fun n hn => decide_eq_false (by omega)⟩
  · by_cases hlt : n < D
    · exact absurd (hnone n hlt) hn
    · obtain ⟨n, rfl⟩ := Nat.exists_eq_add_of_le (Nat.le_of_not_lt hlt)
      rw [hbyte] at hn
      have hlt : n < m.length := by
        by_contra hge
        exact hn (List.getElem?_eq_none (Nat.le_of_not_lt hge))
      exact inReady_iff.mpr (htakes n (Nat.le_of_lt hlt)).ready
  · rw [houtputs _ (Nat.le_refl _), List.take_length]
  · exact inReady_iff.mpr (htakes _ (Nat.le_refl _)).ready
  · rw [hbyte, List.getElem?_eq_none (Nat.le_refl _)]

end Feeds

section Computed

variable {salt : List (BitVec 8)} {iters : BitVec 32} {i : Nat → In} {K T : Nat}

/-- HMAC: from any state in which the unit is not busy, whatever it did before. -/
theorem hmac_computed (hk : k.length ≤ 64) (hm : m.length + 64 < 2 ^ 32) (hs : Reached s) (hidle : s.busy = false)
    (hp : PresentsKeyed .hmac iters k m s i K T) : Outputs (wordAt 32 (sha256.hmac k m)) s i T := by
  obtain ⟨hbegin, c, M, hK, hF, hmode, -, htaking⟩ := hp.taken (hs.resting hidle) sha256_computes hk (.inl rfl)
  have hpad : Padding sha256 c M (sha256.keyPad 0x36 k ++ m) 0 (after clock s i (T + 1)) :=
    htaking.ends hbegin hp.ending.2.1 hp.ending.2.2 (by rw [hmode]; decide)
  have hlen : (sha256.keyPad 0x36 k ++ m).length < 2 ^ 32 := by
    rw [List.length_append, SecureHash.keyPad_length hk]
    omega
  have hm512 : c.m512 = false := by
    rw [Ctl.m512, hmode]
    rfl
  refine (outputs_of ((pads hF).trans (hmac_answers hF hmode hk hK)) hpad (hp.given T)).congr fun n hn => ?_
  rw [hm512, ← outer_hmac hlen, SecureHash.wordAt_bytesOf rfl _ hn]

/-- PBKDF2: the block of the derived key that the index names comes out, where none of the
first three bytes of the index ends a block. Elsewhere one of them is hashed twice. -/
theorem pbkdf2_computed (hk : k.length ≤ 64) (hsalt : salt.length + 69 < 2 ^ 32) (hs : Reached s)
    (hidle : s.busy = false) (hp : PresentsKeyed .pbkdf2 iters k salt s i K T) :
    (salt.length % 64 < 61 →
      Outputs (wordAt 32 (derivedBlock (sha256.hmac k) salt (i T).pbIdx.toNat iters.toNat)) s i T) ∧
    Outputs (wordAt 32 (accumulated (sha256.hmac k) (salt ++ indexFrom salt.length (octets 4 (i T).pbIdx.toNat))
      (iters.toNat - 1))) s i T ∧
    (indexFrom salt.length (octets 4 (i T).pbIdx.toNat) = octets 4 (i T).pbIdx.toNat ↔ salt.length % 64 < 61) := by
  obtain ⟨hbegin, c, M, hK, hF, hmode, hiters, htaking⟩ := hp.taken (hs.resting hidle) sha256_computes hk (.inr rfl)
  have hindex := htaking.ends_index hbegin hp.ending.2.1 hp.ending.2.2 hmode
  have hblock : (sha256.keyPad 0x36 k ++ salt).length = 64 + salt.length := by
    rw [List.length_append, SecureHash.keyPad_length hk]
  have hF' : For { c with pbi := (i T).pbIdx } sha256 := hF
  have hpads := indexes_from hF' M (t := sha256.keyPad 0x36 k ++ salt) (j := 0) (d := 3) rfl
  rw [hblock, indexFrom_block, List.drop_zero, List.append_assoc] at hpads
  set text := salt ++ indexFrom salt.length (octets 4 (i T).pbIdx.toNat) with htext
  have hlen : (sha256.keyPad 0x36 k ++ text).length < 2 ^ 32 := by
    have hle := indexFrom_length salt.length (i T).pbIdx.toNat
    rw [htext, List.length_append, SecureHash.keyPad_length hk, List.length_append]
    omega
  have hm512 : c.m512 = false := by
    rw [Ctl.m512, hmode]
    rfl
  have hout : Outputs (wordAt 32 (accumulated (sha256.hmac k) text (iters.toNat - 1))) s i T := by
    refine (outputs_of (hpads.trans ((pads hF').trans (pbkdf2_answers hF' hmode hk hK))) hindex (hp.given T)).congr
      fun n hn => ?_
    change resultWords sha256 k (outerOf sha256 k (padded c.m512 _)) (c.itersR.toNat - 1) n = _
    rw [hm512, hiters]
    exact result_words (outer_hmac hlen) hn
  have hiff := indexFrom_octets salt.length (i T).pbIdx.toNat
  refine ⟨fun hlt => ?_, hout, hiff⟩
  rw [htext, hiff.mpr hlt] at hout
  exact hout

/-- A key of four bytes and a message of two. -/
theorem hmac_computed_short : ∃ i T, PresentsKeyed .hmac 0 [0x4a, 0x65, 0x66, 0x65] [0x68, 0x69] powerUp.reset i 4 T ∧
    Outputs (wordAt 32 (sha256.hmac [0x4a, 0x65, 0x66, 0x65] [0x68, 0x69])) powerUp.reset i T := by
  obtain ⟨D, hp⟩ := presents_keyedFeed (k := [0x4a, 0x65, 0x66, 0x65]) (m := [0x68, 0x69]) 0 0 (powerUp_reached.resting rfl)
    (by decide) (.inl rfl) (by decide)
  exact ⟨_, _, hp, hmac_computed (by decide) (by decide) powerUp_reached rfl hp⟩

/-- A salt of four bytes, in 1000 iterations. -/
theorem pbkdf2_computed_short : ∃ i T, PresentsKeyed .pbkdf2 1000 [0x70, 0x77] [0x73, 0x61, 0x6c, 0x74] powerUp.reset i 2 T ∧
    (i T).pbIdx = 1 ∧
    Outputs (wordAt 32 (derivedBlock (sha256.hmac [0x70, 0x77]) [0x73, 0x61, 0x6c, 0x74] 1 1000)) powerUp.reset i T := by
  obtain ⟨D, hp⟩ := presents_keyedFeed (k := [0x70, 0x77]) (m := [0x73, 0x61, 0x6c, 0x74]) 1000 1
    (powerUp_reached.resting rfl) (by decide) (.inr rfl) (by decide)
  exact ⟨_, _, hp, rfl, (pbkdf2_computed (by decide) (by decide) powerUp_reached rfl hp).1 (by decide)⟩

end Computed

end GoiKey.Rtl.Sha2Unit
