import GoiKey.Proofs.PqPacking
import GoiKey.Proofs.PqBall

/-!
The samplers as a whole: a call ends where the reference ends, with its polynomial and its
place in the stream.
-/

namespace GoiKey.Pq

/-! The ranges. -/

/-- The nonzero coefficients. -/
def support (c : Poly) : Finset Nat := (Finset.range n).filter fun k => c k ≠ 0

theorem mem_support {c : Poly} {k : Nat} : k ∈ support c ↔ k < n ∧ c k ≠ 0 := by
  rw [support, Finset.mem_filter, Finset.mem_range]

variable {st : Nat → BitVec 8} {pos last : Nat}

theorem sign_cases (signs : Nat) :
    (1 - 2 * (signs &&& 1 : Nat) : Int) = 1 ∨ (1 - 2 * (signs &&& 1 : Nat) : Int) = -1 := by
  rw [Nat.and_one_is_mod]
  rcases Nat.mod_two_eq_zero_or_one signs with h | h
  · left
    rw [h]
    rfl
  · right
    rw [h]
    rfl

/-- One coefficient more is set. -/
theorem support_swap {c : Poly} {i j : Nat} {y : Int} (hi : i < n) (hj : j ≤ i) (hc : c i = 0) (hy : y ≠ 0) :
    (support (Function.update (Function.update c i (c j)) j y)).card = (support c).card + 1 := by
  have hnew : ∃ k, k ∉ support c ∧ support (Function.update (Function.update c i (c j)) j y) = insert k (support c) := by
    by_cases hset : c j ≠ 0
    · have hne : j ≠ i := fun h => hset (h ▸ hc)
      refine ⟨i, fun h => (mem_support.mp h).2 hc, ?_⟩
      ext k
      rw [Finset.mem_insert, mem_support, mem_support]
      by_cases hkj : k = j
      · rw [hkj, Function.update_self]
        exact ⟨fun h => .inr ⟨h.1, hset⟩, fun _ => ⟨by omega, hy⟩⟩
      · rw [Function.update_of_ne hkj]
        by_cases hki : k = i
        · rw [hki, Function.update_self]
          exact ⟨fun _ => .inl rfl, fun _ => ⟨hi, hset⟩⟩
        · rw [Function.update_of_ne hki]
          exact ⟨.inr, fun h => h.resolve_left hki⟩
    · have hzero : c j = 0 := not_not.mp hset
      refine ⟨j, fun h => (mem_support.mp h).2 hzero, ?_⟩
      ext k
      rw [Finset.mem_insert, mem_support, mem_support]
      by_cases hkj : k = j
      · rw [hkj, Function.update_self]
        exact ⟨fun _ => .inl rfl, fun _ => ⟨by omega, hy⟩⟩
      · rw [Function.update_of_ne hkj]
        by_cases hki : k = i
        · rw [hki, Function.update_self, hzero]
          exact ⟨fun h => absurd rfl h.2, fun h => absurd hc ((h.resolve_left (hki ▸ hkj)).2)⟩
        · rw [Function.update_of_ne hki]
          exact ⟨.inr, fun h => h.resolve_left hkj⟩
  obtain ⟨k, hk, heq⟩ := hnew
  rw [heq, Finset.card_insert_of_notMem hk]

/-- Every turn sets one coefficient more. -/
theorem swaps_support {m i signs : Nat} {c d : Poly} (h : SwapsBall st m i pos signs c d last) (hi : i + m = n)
    (hc : ∀ k, c k = 0 ∨ c k = 1 ∨ c k = -1) (habove : ∀ k, i ≤ k → c k = 0) :
    (support d).card = (support c).card + m ∧ ∀ k, d k = 0 ∨ d k = 1 ∨ d k = -1 := by
  induction h with
  | done i pos signs c => exact ⟨rfl, hc⟩
  | @swap m i pos signs last c d at' hl _ ih =>
    have hend : tooHigh st i at' = false := hl.stops
    have hlow : (st at').toNat ≤ i := Nat.not_lt.mp (of_decide_eq_false hend)
    have hsign := sign_cases signs
    have hne : (1 - 2 * (signs &&& 1 : Nat) : Int) ≠ 0 := by
      rcases hsign with h | h <;> rw [h] <;> decide
    obtain ⟨hcard, hvalues⟩ := ih (by omega)
      (by
        intro k
        by_cases hkj : k = (st at').toNat
        · rw [hkj, Function.update_self]
          exact .inr hsign
        · rw [Function.update_of_ne hkj]
          by_cases hki : k = i
          · rw [hki, Function.update_self]
            exact hc _
          · rw [Function.update_of_ne hki]
            exact hc k)
      (by
        intro k hk
        rw [Function.update_of_ne (by omega), Function.update_of_ne (by omega)]
        exact habove k (by omega))
    refine ⟨?_, hvalues⟩
    rw [hcard, support_swap (by omega) hlow (habove i (Nat.le_refl i)) hne]
    omega

theorem ball_support {tau : Nat} (htau : tau ≤ n) {c : Poly} (h : SamplesBall st tau pos c last) :
    (support c).card = tau ∧ ∀ k, c k = 0 ∨ c k = 1 ∨ c k = -1 := by
  obtain ⟨hcard, hvalues⟩ := swaps_support h (by omega) (fun _ => .inl rfl) (fun _ _ => rfl)
  refine ⟨?_, hvalues⟩
  have hnone : support (fun _ => 0) = ∅ := Finset.filter_eq_empty_iff.mpr fun _ _ h => h rfl
  rw [hcard, hnone, Finset.card_empty, Nat.zero_add]

theorem uniform_range {a : List Int} (h : SamplesUniform st pos a last) : ∀ y ∈ a, 0 ≤ y ∧ y < q := by
  apply Loops.invariant (I := fun x => ∀ y ∈ x.1, 0 ≤ y ∧ y < q) _ h
  · intro y hy
    cases hy
  · intro x _ hx
    rw [uniformBody]
    split
    · next hlt =>
      intro y hy
      rcases List.mem_append.mp hy with hy | hy
      · exact hx y hy
      · rw [List.mem_singleton.mp hy]
        exact ⟨Int.natCast_nonneg _, hlt⟩
    · exact hx

theorem etaPush_range {eta : Nat} (heta : eta = 2 ∨ eta = 4) {a : List Int} (h : ∀ y ∈ a, -(eta : Int) ≤ y ∧ y ≤ eta)
    {t : Nat} (ht : t < 16) : ∀ y ∈ etaPush eta a t, -(eta : Int) ≤ y ∧ y ≤ eta := by
  have hcoef : ∀ y ∈ (etaCoef eta t).toList, -(eta : Int) ≤ y ∧ y ≤ eta := by
    rcases heta with rfl | rfl
    · revert t
      decide
    · revert t
      decide
  rw [etaPush]
  split
  · exact h
  · intro y hy
    rcases List.mem_append.mp hy with hy | hy
    · exact h y hy
    · exact hcoef y hy

theorem eta_range {eta : Nat} (heta : eta = 2 ∨ eta = 4) {a : List Int} (h : SamplesEta st eta pos a last) :
    ∀ y ∈ a, -(eta : Int) ≤ y ∧ y ≤ eta := by
  apply Loops.invariant (I := fun x => ∀ y ∈ x.1, -(eta : Int) ≤ y ∧ y ≤ eta) _ h
  · intro y hy
    cases hy
  · intro x _ hx
    have hb := (st x.2).isLt
    rw [etaBody]
    apply etaPush_range heta
    · apply etaPush_range heta hx
      exact Nat.lt_of_le_of_lt Nat.and_le_right (by decide)
    · rw [Nat.shiftRight_eq_div_pow]
      omega

theorem gamma1_range (raw : List (BitVec 8)) (g k : Nat) :
    -2 ^ g < sampleGamma1 raw g k ∧ sampleGamma1 raw g k ≤ 2 ^ g := by
  have hlt : fromBytes raw >>> ((g + 1) * k) % 2 ^ (g + 1) < 2 ^ (g + 1) := Nat.mod_lt _ (Nat.two_pow_pos _)
  have hcast : ((2 ^ g : Nat) : Int) = 2 ^ g := by push_cast; rfl
  have hdouble : 2 ^ (g + 1) = 2 * 2 ^ g := Nat.pow_succ'
  rw [sampleGamma1, unpackBits]
  omega

end GoiKey.Pq

namespace GoiKey.Rtl.PqSmp

open Clocked SyncRam BitBuffer

/-- Nothing is going on. -/
structure Quiet (s : PqSmp) : Prop where
  st : s.st = .idle
  take : s.outTake = false

/-- `u` is where the unit is idle again after it has been started in `s`. -/
abbrev Call (a : SmpArgs) : PqSmp → PqSmp → Prop :=
  Clocked.Call clock (fun _ => True) Comes Busy fun i => i.start = some a

/-- A call that is started comes to its end. -/
abbrev Ends (a : SmpArgs) : PqSmp → Prop :=
  Clocked.Ends clock (fun _ => True) Comes Busy fun i => i.start = some a

/-- What the reference samples from a stream, and where it leaves the stream. -/
def Samples (a : SmpArgs) (stream : Nat → BitVec 8) (pos : Nat) (c : Pq.Poly) (last : Nat) : Prop :=
  match a.mode with
  | .uniform => ∃ l, Pq.SamplesUniform stream pos l last ∧ c = fun k => l.getD k 0
  | .eta2 => ∃ l, Pq.SamplesEta stream 2 pos l last ∧ c = fun k => l.getD k 0
  | .eta4 => ∃ l, Pq.SamplesEta stream 4 pos l last ∧ c = fun k => l.getD k 0
  | .gamma17 => last = pos + 576 ∧ c = Pq.sampleGamma1 (Pq.take stream pos 576) 17
  | .gamma19 => last = pos + 640 ∧ c = Pq.sampleGamma1 (Pq.take stream pos 640) 19
  | .ball => Pq.SamplesBall stream a.tau.toNat pos c last

/-- The range of a mode. -/
def InRange (a : SmpArgs) (c : Pq.Poly) : Prop :=
  match a.mode with
  | .uniform => ∀ k < 256, 0 ≤ c k ∧ c k < Pq.q
  | .eta2 => ∀ k < 256, -2 ≤ c k ∧ c k ≤ 2
  | .eta4 => ∀ k < 256, -4 ≤ c k ∧ c k ≤ 4
  | .gamma17 => ∀ k < 256, -2 ^ 17 < c k ∧ c k ≤ 2 ^ 17
  | .gamma19 => ∀ k < 256, -2 ^ 19 < c k ∧ c k ≤ 2 ^ 19
  | .ball => (Pq.support c).card = a.tau.toNat ∧ ∀ k, c k = 0 ∨ c k = 1 ∨ c k = -1

variable {a : SmpArgs} {s u : PqSmp} {pm : BitVec 14 → BitVec 32} {dst : BitVec 6}

/-- A slot that has been filled holds the polynomial of the list. -/
theorem filled_eq {l : List Int} (hl : l.length = 256) : filled pm dst l = withSlot pm dst fun k => l.getD k 0 := by
  funext x
  have hlen : (l.map (BitVec.ofInt 32)).length = 256 := by rw [List.length_map, hl]
  by_cases hslot : x.extractLsb' 8 6 = dst
  · have hindex := coefAddr_index hslot
    have hk : (x.setWidth 8).toNat < (l.map (BitVec.ofInt 32)).length := by
      rw [hlen]
      exact (x.setWidth 8).isLt
    have hinj : ∀ i < (l.map (BitVec.ofInt 32)).length, ∀ j < (l.map (BitVec.ofInt 32)).length,
        coefAddr dst i = coefAddr dst j → i = j := by
      rw [hlen]
      exact coefAddr_inj dst
    rw [filled, ← hindex, fillList_at hinj hk, List.getElem_map, withSlot_at (x.setWidth 8).isLt,
      List.getD_eq_getElem _ _ (by rw [hl]; exact (x.setWidth 8).isLt)]
  · rw [withSlot_elsewhere hslot, filled]
    apply fillList_elsewhere
    intro k _ hx
    rw [hx] at hslot
    exact hslot (slot_coefAddr dst k)

/-- The registers the unit starts with. -/
structure StartRegs (a : SmpArgs) (r : SmpRegs) : Prop where
  ret : r.ret = if a.mode = .ball then .b1 else .got
  m : r.m = a.mode
  slot : r.dst = a.dst
  ctr : r.ctr = 0
  bi : r.bi = 0
  acc : r.acc = 0
  accb : r.accb = 0
  sc : r.sc = 0
  signs : r.signs = 0
  bound : r.biI = 256 - a.tau.setWidth 9

theorem started (hs : Quiet s) {i : SmpIn} (hi : i.start = some a) :
    ∃ r, StartRegs a r ∧ At s.squeeze.stream .fetch r s.pm.written s.squeeze.pos (clock s i) := by
  have hat : At s.squeeze.stream .idle s.regs s.pm.written s.squeeze.pos s := ⟨hs.st, rfl, rfl, rfl, rfl, hs.take⟩
  simp only [clock, fsm, hs.st, hi]
  exact ⟨_, ⟨rfl, rfl, rfl, rfl, rfl, rfl, rfl, rfl, rfl, rfl⟩, hat.next (i := i) rfl rfl rfl rfl rfl⟩

/-- Looking for coefficients until there are enough: what the unit does when the reference
ends. -/
theorem rejects_ends {C : SmpRegs → Prop} {body : List Int × Nat → List Int × Nat} {stream : Nat → BitVec 8} {pos last : Nat}
    {l : List Int} (hround : ∀ x, Pq.wanting x = true → Runs (HeadAt C stream dst pm x) (HeadAt C stream dst pm (body x)))
    (hl : Loops Pq.wanting body ([], pos) (l, last)) :
    Runs (HeadAt C stream dst pm ([], pos)) (Finished stream (withSlot pm dst fun k => l.getD k 0) last) := by
  have hall := Reaches.while hround hl
  have hfull : ∀ s, HeadAt C stream dst pm (l, last) s → l.length = 256 := by
    rintro s ⟨r, -, -, -, ⟨hlt, -⟩ | ⟨hfull, -⟩⟩
    · exact absurd hlt (of_decide_eq_false hl.stops)
    · exact hfull
  apply hall.trans
  apply Reaches.fact fun s h => hfull s h.2
  intro hlen
  rw [← filled_eq hlen]
  apply Reaches.weaken fun s h => h.2
  exact finishes hl.stops

/-- The state after the start. -/
def Begun (a : SmpArgs) (stream : Nat → BitVec 8) (pm : BitVec 14 → BitVec 32) (pos : Nat) (s : PqSmp) : Prop :=
  ∃ r, StartRegs a r ∧ At stream .fetch r pm pos s

variable {stream : Nat → BitVec 8} {pos last : Nat} {c : Pq.Poly}

theorem Begun.head {C : SmpRegs → Prop} (hC : ∀ r, StartRegs a r → C r) (hmode : a.mode ≠ .ball) {s : PqSmp}
    (h : Begun a stream pm pos s) : HeadAt C stream a.dst pm ([], pos) s := by
  obtain ⟨r, hr, hat⟩ := h
  refine ⟨r, hC r hr, hr.slot, ?_, .inl ⟨Nat.succ_pos 255, ?_, hat⟩⟩
  · rw [hr.ctr]
    rfl
  · rw [hr.ret, if_neg hmode]

/-- The bytes of a number that begins in the stream. -/
theorem field_take (stream : Nat → BitVec 8) (pos : Nat) {m j : Nat} (hj : j < m) :
    (stream (pos + j)).toNat = field (Pq.fromBytes (Pq.take stream pos m)) (8 * j) 8 :=
  (Pq.field_fromBytes (fun j => stream (pos + j)) hj).symm

theorem gamma_ends {m : SmpMode} (hmode : a.mode = m) (hm : m = .gamma17 ∨ m = .gamma19) :
    Runs (Begun a stream pm pos) (Finished stream
      (withSlot pm a.dst (Pq.sampleGamma1 (Pq.take stream pos (32 * (g1bits m + 1))) (g1bits m)))
      (pos + 32 * (g1bits m + 1))) := by
  set v := Pq.fromBytes (Pq.take stream pos (32 * (g1bits m + 1))) with hv
  have hcoefs : filled pm a.dst (gammas m v 256)
      = withSlot pm a.dst (Pq.sampleGamma1 (Pq.take stream pos (32 * (g1bits m + 1))) (g1bits m)) := by
    rw [filled_eq (length_gammas m v 256)]
    apply withSlot_congr
    intro k hk
    rw [gammas, List.getD_eq_getElem _ _ (by simpa using hk), List.getElem_map, List.getElem_range, Pq.sampleGamma1,
      Pq.unpackBits, Nat.shiftRight_eq_div_pow]
    rfl
  rw [← hcoefs]
  apply Reaches.weaken _ (unpacks_gamma hm fun j hj => field_take stream pos hj)
  rintro s ⟨r, hr, hat⟩
  have hball : a.mode ≠ .ball := by
    rw [hmode]
    rcases hm with rfl | rfl <;> decide
  refine ⟨r, ⟨hr.m.trans hmode, hr.slot, ?_, ?_, Nat.le_refl _, ?_⟩, ?_, hat⟩
  · rw [hr.ctr]
    rfl
  · rw [hr.acc]
    exact buffer_self.symm
  · rw [hr.accb]
    rfl
  · rw [hr.ret, if_neg hball]

theorem Begun.signs (hmode : a.mode = .ball) {s : PqSmp} (v : Nat) (h : Begun a stream pm pos s) :
    ∃ r, SignRegs a.dst (256 - a.tau.toNat) v 0 r ∧ At stream .fetch r pm pos s := by
  obtain ⟨r, hr, hat⟩ := h
  have htau := a.tau.isLt
  refine ⟨r, ⟨?_, hr.slot, ?_, ?_, ?_⟩, hat⟩
  · rw [hr.ret, if_pos hmode]
  · have hle : a.tau.setWidth 9 ≤ (256 : BitVec 9) := by
      rw [BitVec.le_def, BitVec.toNat_setWidth_of_le (by decide), show (256 : BitVec 9).toNat = 256 from rfl]
      omega
    rw [hr.bound, BitVec.toNat_sub_of_le hle, BitVec.toNat_setWidth_of_le (by decide)]
    rfl
  · rw [hr.signs, Nat.mul_zero]
    exact buffer_self.symm
  · rw [hr.sc]
    rfl

theorem ball_begins (hmode : a.mode = .ball) (hzero : ∀ k < 256, pm (coefAddr a.dst k) = 0) :
    Runs (Begun a stream pm pos) (BallAt stream a.dst pm (256 - a.tau.toNat)
      (Pq.fromBytes (Pq.take stream pos 8)) (pos + 8) fun _ => 0) := by
  apply Reaches.weaken fun s h => h.signs hmode (Pq.fromBytes (Pq.take stream pos 8))
  apply takes_signs (fun j hj => field_take stream pos hj) _ hzero
  rw [Pq.take, Pq.fromBytes_map]
  exact Limbs.value_lt fun j _ => (stream (pos + j)).isLt

/-- Where the reference ends the unit ends, with its polynomial. -/
theorem sampled (hzero : a.mode = .ball → ∀ k < 256, pm (coefAddr a.dst k) = 0) (h : Samples a stream pos c last) :
    Runs (Begun a stream pm pos) (Finished stream (withSlot pm a.dst c) last) := by
  rw [Samples] at h
  cases hmode : a.mode with
  | uniform =>
    simp only [hmode] at h
    obtain ⟨l, hl, rfl⟩ := h
    apply Reaches.weaken _ (rejects_ends (fun x hx => uniform_round hx) hl)
    exact fun s hs => hs.head (fun r hr => ⟨hr.m.trans hmode, hr.bi⟩) (by rw [hmode]; decide)
  | eta2 =>
    simp only [hmode] at h
    obtain ⟨l, hl, rfl⟩ := h
    apply Reaches.weaken _ (rejects_ends (fun x hx => eta_round (.inl rfl) hx) hl)
    exact fun s hs => hs.head (fun r hr => hr.m.trans hmode) (by rw [hmode]; decide)
  | eta4 =>
    simp only [hmode] at h
    obtain ⟨l, hl, rfl⟩ := h
    apply Reaches.weaken _ (rejects_ends (fun x hx => eta_round (.inr rfl) hx) hl)
    exact fun s hs => hs.head (fun r hr => hr.m.trans hmode) (by rw [hmode]; decide)
  | gamma17 =>
    simp only [hmode] at h
    obtain ⟨rfl, rfl⟩ := h
    have hends : Runs (Begun a stream pm pos) _ := gamma_ends hmode (.inl rfl)
    have hbytes : 32 * (g1bits .gamma17 + 1) = 576 := rfl
    rw [hbytes] at hends
    exact hends
  | gamma19 =>
    simp only [hmode] at h
    obtain ⟨rfl, rfl⟩ := h
    have hends : Runs (Begun a stream pm pos) _ := gamma_ends hmode (.inr rfl)
    have hbytes : 32 * (g1bits .gamma19 + 1) = 640 := rfl
    rw [hbytes] at hends
    exact hends
  | ball =>
    simp only [hmode] at h
    have htau := a.tau.isLt
    apply (ball_begins hmode (hzero hmode)).trans
    apply swaps_ball (m := a.tau.toNat) _ h
    exact Nat.sub_add_cancel (Nat.le_of_lt htau)

/-- Where the reference does not end the unit does not either. -/
theorem not_sampled (hzero : a.mode = .ball → ∀ k < 256, pm (coefAddr a.dst k) = 0)
    (h : ∀ c last, ¬ Samples a stream pos c last) {s : PqSmp} (hs : Begun a stream pm pos s) {i : Nat → SmpIn}
    (hi : Given (fun _ => True) Comes i) (n : Nat) : Busy (after clock s i n) := by
  have hapart : ∀ {C : SmpRegs → Prop} {x y : List Int × Nat} {s : PqSmp}, x.2 ≠ y.2 → HeadAt C stream a.dst pm x s →
      ¬ HeadAt C stream a.dst pm y s := by
    rintro C x y s hne ⟨r, -, -, -, hx⟩ ⟨r', -, -, -, hy⟩
    have hxp : s.squeeze.pos = x.2 := by
      rcases hx with ⟨-, -, hx⟩ | ⟨-, hx⟩ <;> exact hx.pos
    have hyp : s.squeeze.pos = y.2 := by
      rcases hy with ⟨-, -, hy⟩ | ⟨-, hy⟩ <;> exact hy.pos
    exact hne (hxp.symm.trans hyp)
  simp only [Samples] at h
  cases hmode : a.mode with
  | uniform =>
    simp only [hmode] at h
    have hhead := hs.head (C := UniformRegs) (fun r hr => ⟨hr.m.trans hmode, hr.bi⟩) (by rw [hmode]; decide)
    have hnone : ∀ y, ¬ Loops Pq.wanting (Pq.uniformBody stream) ([], pos) y := fun y hy => h _ y.2 ⟨y.1, hy, rfl⟩
    have hround : ∀ x, Pq.wanting x = true → Runs (HeadAt UniformRegs stream a.dst pm x)
        (HeadAt UniformRegs stream a.dst pm (Pq.uniformBody stream x)) := fun x hx => uniform_round hx
    apply Reaches.forever hround _ hnone hhead hi
    intro x s _ hx
    have hne : x.2 ≠ x.2 + 3 := by omega
    exact hapart hne hx
  | eta2 =>
    simp only [hmode] at h
    have hhead := hs.head (C := EtaRegs .eta2) (fun r hr => hr.m.trans hmode) (by rw [hmode]; decide)
    have hnone : ∀ y, ¬ Loops Pq.wanting (Pq.etaBody stream 2) ([], pos) y := fun y hy => h _ y.2 ⟨y.1, hy, rfl⟩
    apply Reaches.forever (fun x hx => eta_round (.inl rfl) hx) _ hnone hhead hi
    intro x s _ hx
    have hne : x.2 ≠ x.2 + 1 := by omega
    exact hapart hne hx
  | eta4 =>
    simp only [hmode] at h
    have hhead := hs.head (C := EtaRegs .eta4) (fun r hr => hr.m.trans hmode) (by rw [hmode]; decide)
    have hnone : ∀ y, ¬ Loops Pq.wanting (Pq.etaBody stream 4) ([], pos) y := fun y hy => h _ y.2 ⟨y.1, hy, rfl⟩
    apply Reaches.forever (fun x hx => eta_round (.inr rfl) hx) _ hnone hhead hi
    intro x s _ hx
    have hne : x.2 ≠ x.2 + 1 := by omega
    exact hapart hne hx
  | gamma17 =>
    simp only [hmode] at h
    exact absurd ⟨rfl, rfl⟩ (h _ _)
  | gamma19 =>
    simp only [hmode] at h
    exact absurd ⟨rfl, rfl⟩ (h _ _)
  | ball =>
    simp only [hmode] at h
    have htau := a.tau.isLt
    apply (ball_begins hmode (hzero hmode)).never _ hs hi
    intro s hs i hi n
    apply ball_forever (m := a.tau.toNat) _ h hs hi
    exact Nat.sub_add_cancel (Nat.le_of_lt htau)

theorem samples_range (h : Samples a stream pos c last) : InRange a c := by
  have hlist : ∀ {l : List Int} {P : Int → Prop}, P 0 → (∀ y ∈ l, P y) → ∀ k, P (l.getD k 0) := by
    intro l P hzero hl k
    rcases Nat.lt_or_ge k l.length with hk | hk
    · rw [List.getD_eq_getElem _ _ hk]
      exact hl _ (List.getElem_mem hk)
    · rw [List.getD_eq_default _ _ hk]
      exact hzero
  rw [Samples] at h
  rw [InRange]
  cases hmode : a.mode with
  | uniform =>
    simp only [hmode] at h ⊢
    obtain ⟨l, hl, rfl⟩ := h
    exact fun k _ => hlist (P := fun y => 0 ≤ y ∧ y < Pq.q) (by decide) (Pq.uniform_range hl) k
  | eta2 =>
    simp only [hmode] at h ⊢
    obtain ⟨l, hl, rfl⟩ := h
    exact fun k _ => hlist (P := fun y => -2 ≤ y ∧ y ≤ 2) (by decide) (Pq.eta_range (.inl rfl) hl) k
  | eta4 =>
    simp only [hmode] at h ⊢
    obtain ⟨l, hl, rfl⟩ := h
    exact fun k _ => hlist (P := fun y => -4 ≤ y ∧ y ≤ 4) (by decide) (Pq.eta_range (.inr rfl) hl) k
  | gamma17 =>
    simp only [hmode] at h ⊢
    obtain ⟨-, rfl⟩ := h
    exact fun k _ => Pq.gamma1_range _ 17 k
  | gamma19 =>
    simp only [hmode] at h ⊢
    obtain ⟨-, rfl⟩ := h
    exact fun k _ => Pq.gamma1_range _ 19 k
  | ball =>
    simp only [hmode] at h ⊢
    exact Pq.ball_support (Nat.le_of_lt a.tau.isLt) h

/-- A sampler ends if and only if the reference does, on every stream; it leaves the
polynomial of the reference in its slot, nothing else changed, and has taken as many bytes of
the stream; and the polynomial is in the range of the mode. -/
theorem samplers (a : SmpArgs) (s : PqSmp) (hs : Quiet s)
    (hzero : a.mode = .ball → ∀ k < 256, s.pm.written (coefAddr a.dst k) = 0) :
    (∀ c last, Samples a s.squeeze.stream s.squeeze.pos c last → InRange a c ∧ Ends a s ∧
      ∀ u, Call a s u → u.pm.written = withSlot s.pm.written a.dst c ∧ u.squeeze.stream = s.squeeze.stream ∧
        u.squeeze.pos = last) ∧
    ∀ u, Call a s u → ∃ c last, Samples a s.squeeze.stream s.squeeze.pos c last := by
  have hstart : ∀ i : SmpIn, True → i.start = some a → Begun a s.squeeze.stream s.pm.written s.squeeze.pos (clock s i) :=
    fun i _ hi => started hs hi
  refine ⟨fun c last h => ⟨samples_range h, ?_, fun u hu => ?_⟩, fun u hu => ?_⟩
  · exact .of hstart (sampled hzero h) fun t ht hb => hb ht.st
  · have hdone := hu.leads hstart (sampled hzero h) fun t ht hb => hb ht.st
    exact ⟨hdone.mem, hdone.stream, hdone.pos⟩
  · by_contra hnone
    apply hu.absurd hstart
    intro t ht i hi n
    exact not_sampled hzero (fun c last h => hnone ⟨c, last, h⟩) ht hi n

/-- One coefficient, into slot 7. -/
def oneBall : SmpArgs := { mode := .ball, dst := 7, tau := 1 }

/-- The unit with a stream of zeros before it, the first byte there. -/
def atRest : PqSmp where
  st := .idle
  regs :=
    { ret := .idle, m := .uniform, dst := 0, ctr := 0, u0 := 0, u1 := 0, jb := 0, bi := 0, acc := 0, accb := 0,
      signs := 0, sc := 0, biI := 0, phaseHi := false }
  cur := 0
  busy := false
  done := false
  outTake := false
  pm := { mem := fun _ => 0, ra := 0, rq := 0, we := false, wa := 0, wd := 0 }
  squeeze := { stream := fun _ => 0, pos := 0, ready := true }

def asks (n : Nat) : SmpIn where
  start := if n = 0 then some oneBall else none
  come := true

theorem given_asks : Given (fun _ => True) Comes asks :=
  ⟨fun _ => trivial, fun n => ⟨n, Nat.le_refl n, rfl⟩⟩

theorem samplers_ball :
    ∃ u, Call oneBall atRest u ∧ u.squeeze.pos = 9 ∧ u.pm.written (coefAddr 7 0) = 1 := by
  have hdraw : Loops (Pq.tooHigh atRest.squeeze.stream 255) (· + 1) 8 8 := ⟨1, rfl⟩
  have hsampled : Samples oneBall atRest.squeeze.stream atRest.squeeze.pos
      (Function.update (Function.update (fun _ => 0) 255 0) 0 1) 9 := .swap 8 hdraw (.done 256 9 0 _)
  obtain ⟨-, hends, hcalls⟩ := (samplers oneBall atRest ⟨rfl, rfl⟩ fun _ _ _ => rfl).1 _ _ hsampled
  obtain ⟨u, hu⟩ := hends.call given_asks rfl
  obtain ⟨hmem, -, hpos⟩ := hcalls u hu
  refine ⟨u, hu, hpos, ?_⟩
  have hzero : withSlot atRest.pm.written oneBall.dst (Function.update (Function.update (fun _ => 0) 255 0) 0 1)
      (coefAddr oneBall.dst 0) = _ := withSlot_at (by decide)
  rw [hmem]
  exact hzero

end GoiKey.Rtl.PqSmp
