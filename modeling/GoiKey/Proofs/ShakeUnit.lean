import GoiKey.Proofs.KeccakCore

/-! shake_unit.v: what it does between two bytes. -/

namespace GoiKey.Rtl.ShakeUnit

open Clocked Shake
open KeccakCore (Rests)

variable {s u : ShakeUnit} {i : Shake.In} {a : Sha3.State 64}

def NoInit (i : Shake.In) : Prop := i.init = none

/-- The unit neither takes nor gives a byte. -/
def Busy (s : ShakeUnit) : Prop := s.inReady = false ∧ s.outReady = false

abbrev Steps (P Q : ShakeUnit → Prop) : Prop := Reaches clock NoInit (fun _ => True) Busy P Q

theorem Steps.edge {P Q : ShakeUnit → Prop} (hB : ∀ s, P s → Busy s)
    (h : ∀ s i, P s → NoInit i → Q (s.clock i)) : Steps P Q := Reaches.edge hB h

/-- What every clock begins with. -/
def ticked (s : ShakeUnit) : ShakeUnit :=
  { s with
    kc := s.kc.clock s.kcIn
    kcPerm := false
    kcXor := false
    kcClear := false
    cool := if s.cool = 0 then 0 else s.cool - 1 }

/-- Nothing is asked of the core. -/
def Quiet (s : ShakeUnit) : Prop := s.kcXor = false ∧ s.kcPerm = false ∧ s.kcClear = false

theorem quiet_ticked (s : ShakeUnit) : Quiet (ticked s) := ⟨rfl, rfl, rfl⟩

theorem Quiet.idle (h : Quiet s) : KeccakCore.Idle s.kcIn := by
  obtain ⟨hxor, hperm, hclear⟩ := h
  refine ⟨hclear, hperm, ?_⟩
  rw [kcIn, hxor]
  rfl

/-- The units differ in the core and in what is asked of it. -/
def Same (u s : ShakeUnit) : Prop :=
  s =
    { u with
      kc := s.kc
      cool := s.cool
      rdw := s.rdw
      kcPerm := s.kcPerm
      kcXor := s.kcXor
      kcClear := s.kcClear
      kcLane := s.kcLane
      kcVal := s.kcVal }

theorem Same.refl (s : ShakeUnit) : Same s s := rfl

theorem Same.st (h : Same u s) : s.st = u.st := by rw [h]

theorem Same.ticked (h : Same u s) : Same u (ticked s) := by
  rw [Same] at h ⊢
  rw [h]
  rfl

/-- The states in which the unit waits for the core. -/
def Waiting (st : Shake.State) : Prop := st = .abs ∨ st = .fin2 ∨ st = .pw0 ∨ st = .clr ∨ st = .clr0

theorem coreOk_iff : s.coreOk = true ↔ s.kc.st = .idle ∧ s.cool = 0 ∧ Quiet s := by
  simp only [coreOk, KeccakCore.busy, Quiet, Bool.and_eq_true, Bool.not_eq_true', decide_eq_false_iff_not, not_not,
    decide_eq_true_eq, and_assoc]

theorem Waiting.busy (hst : Waiting s.st) (hok : s.coreOk = false) : Busy s := by
  refine ⟨?_, ?_⟩
  · rw [inReady, hok, Bool.and_false]
  · rw [outReady]
    obtain h | h | h | h | h := hst <;> rw [h] <;> rfl

/-- A clock on which the core is waited for. -/
theorem waits (hst : Waiting s.st) (hok : s.coreOk = false) (hi : NoInit i) : s.clock i = ticked s := by
  rw [NoInit] at hi
  obtain h | h | h | h | h := hst <;> simp only [clock, ticked, hi, h, hok, Bool.false_eq_true, if_false]

theorem kc_clock (s : ShakeUnit) (i : Shake.In) : (s.clock i).kc = s.kc.clock s.kcIn := by
  rw [clock]
  cases i.init with
  | some mode => rfl
  | none =>
    cases s.st with
    | abs =>
      cases i.inByte with
      | some b =>
        simp only [take, xorLane]
        split_ifs <;> rfl
      | none =>
        simp only [pad, xorLane]
        split_ifs <;> rfl
    | sq =>
      simp only [give]
      split_ifs <;> rfl
    | fin2 =>
      simp only [xorLane]
      split_ifs <;> rfl
    | pgo => rfl
    | _ =>
      simp only
      split_ifs <;> rfl

/-- What the core comes to, the unit comes to. -/
theorem core_leads {U : ShakeUnit → Prop} {P Q : KeccakCore → Prop} (h : Leads KeccakCore.clock KeccakCore.Working P Q)
    (hB : ∀ s, U s → s.kc.Working → Busy s) (hU : ∀ s i, U s → s.kc.Working → NoInit i → U (s.clock i)) :
    Steps (fun s => U s ∧ P s.kc) fun s => U s ∧ Q s.kc := by
  rintro s ⟨hs, hP⟩ i hi
  obtain ⟨n, hwork, hQ⟩ := h s.kc hP fun k => (after clock s i k).kcIn
  have hkc : ∀ k, (after clock s i k).kc = after KeccakCore.clock s.kc (fun k => (after clock s i k).kcIn) k := by
    intro k
    induction k with
    | zero => rfl
    | succ k ih => rw [after_succ, kc_clock, ih, after_succ, ← ih]
  have hall : ∀ k ≤ n, U (after clock s i k) := by
    intro k
    induction k with
    | zero => exact fun _ => hs
    | succ k ih =>
      intro hk
      refine hU _ _ (ih (Nat.le_of_succ_le hk)) ?_ (hi.1 k)
      rw [hkc]
      exact hwork k hk
  refine ⟨n, fun k hk => hB _ (hall k (Nat.le_of_lt hk)) ?_, hall n (Nat.le_refl n), ?_⟩
  · rw [hkc]
    exact hwork k hk
  · rw [hkc]
    exact hQ

/-- The unit is that one, but for the core, and waits for the core. -/
def Held (u s : ShakeUnit) : Prop := Same u s ∧ Quiet s

theorem not_ok (h : s.kc.Working) : s.coreOk = false := by
  rw [coreOk, h.1]
  rfl

/-- While the core works the unit stays. -/
theorem holds {P Q : KeccakCore → Prop} (hu : Waiting u.st) (h : Leads KeccakCore.clock KeccakCore.Working P Q) :
    Steps (fun s => Held u s ∧ P s.kc) fun s => Held u s ∧ Q s.kc := by
  refine core_leads h (fun s hs hw => ?_) fun s i hs hw hi => ?_
  · exact Waiting.busy (by rw [hs.1.st]; exact hu) (not_ok hw)
  · rw [waits (by rw [hs.1.st]; exact hu) (not_ok hw) hi]
    exact ⟨hs.1.ticked, quiet_ticked s⟩

/-- The core rests, and is waited for. -/
theorem settles (hu : Waiting u.st) :
    Steps (fun s => Held u s ∧ Rests a s.kc) fun s => Same u s ∧ s.coreOk = true ∧ Rests a s.kc := by
  have hloop : ∀ n, Steps (fun s => (Held u s ∧ Rests a s.kc) ∧ s.cool.toNat = n)
      fun s => Same u s ∧ s.coreOk = true ∧ Rests a s.kc := by
    intro n
    refine Reaches.descend (I := fun n s => (Held u s ∧ Rests a s.kc) ∧ s.cool.toNat = n) (fun n => ?_) n
    rintro s ⟨⟨⟨hsame, hquiet⟩, hrests⟩, hn⟩
    by_cases hok : s.coreOk = true
    · exact fun i _ => ⟨0, fun _ hk => absurd hk (Nat.not_lt_zero _), .inl ⟨hsame, hok, hrests⟩⟩
    · have hfalse : s.coreOk = false := Bool.eq_false_of_not_eq_true hok
      have hwait : Waiting s.st := by
        rw [hsame.st]
        exact hu
      have hcool : s.cool ≠ 0 := fun h0 => hok (coreOk_iff.mpr ⟨hrests.st, h0, hquiet⟩)
      have hedge : Steps (fun v => v = s) fun v => (Same u v ∧ v.coreOk = true ∧ Rests a v.kc) ∨
          ∃ m < n, (Held u v ∧ Rests a v.kc) ∧ v.cool.toNat = m := by
        apply Steps.edge
        · rintro v rfl
          exact hwait.busy hfalse
        rintro v i rfl hi
        rw [waits hwait hfalse hi]
        refine .inr ⟨_, ?_, ⟨⟨hsame.ticked, quiet_ticked v⟩, hrests.clock hquiet.idle⟩, rfl⟩
        have hpos : v.cool.toNat ≠ 0 := fun h0 => hcool (BitVec.eq_of_toNat_eq h0)
        rw [ticked, if_neg hcool, ← hn]
        bv_omega
      exact hedge s rfl
  exact fun s hs => hloop _ s ⟨hs, rfl⟩

/-- A lane is put into the state. -/
theorem xors_lane {l : Nat} {v : BitVec 64} (hu : Waiting u.st) (hl : l < 32) :
    Steps (fun s => Same u s ∧ s.kcIn.clear = false ∧ s.kcIn.perm = false ∧ s.kcIn.xor = some (BitVec.ofNat 5 l, v) ∧
      Rests a s.kc) fun s => Same u s ∧ s.coreOk = true ∧ Rests (Sha3.putLane a l v) s.kc := by
  have hfirst : Steps (fun s => Same u s ∧ s.kcIn.clear = false ∧ s.kcIn.perm = false ∧
      s.kcIn.xor = some (BitVec.ofNat 5 l, v) ∧ Rests a s.kc) fun s => Held u s ∧ (KeccakCore.Xoring a l v s.kc ∧
        s.kc.st = .x1 ∧ s.kc.ram.ra = KeccakCore.laneAddr s.kc.cur l) := by
    have hok : ∀ s : ShakeUnit, s.kcIn.xor = some (BitVec.ofNat 5 l, v) → s.coreOk = false := by
      intro s hxor
      have hflag : s.kcXor = true := by
        by_contra hne
        rw [kcIn, if_neg hne] at hxor
        exact absurd hxor (by simp)
      rw [coreOk, hflag]
      simp
    apply Steps.edge
    · rintro s ⟨hsame, -, -, hxor, -⟩
      exact Waiting.busy (by rw [hsame.st]; exact hu) (hok s hxor)
    rintro s i ⟨hsame, hclear, hperm, hxor, hrests⟩ hi
    rw [waits (by rw [hsame.st]; exact hu) (hok s hxor) hi]
    exact ⟨⟨hsame.ticked, quiet_ticked s⟩, hrests.xors hclear hperm hxor⟩
  exact hfirst.trans ((holds hu (KeccakCore.xors_lane hl)).trans (settles hu))

/-- The state is cleared. -/
theorem clears (hu : Waiting u.st) :
    Steps (fun s => Same u s ∧ s.kcIn.clear = true ∧ Rests a s.kc) fun s =>
      Same u s ∧ s.coreOk = true ∧ Rests (fun _ _ => 0) s.kc := by
  have hfirst : Steps (fun s => Same u s ∧ s.kcIn.clear = true ∧ Rests a s.kc) fun s =>
      Held u s ∧ KeccakCore.Clearing 0 s.kc := by
    have hok : ∀ s : ShakeUnit, s.kcIn.clear = true → s.coreOk = false := by
      intro s hclear
      have hflag : s.kcClear = true := hclear
      rw [coreOk, hflag, Bool.not_true, Bool.and_false]
    apply Steps.edge
    · rintro s ⟨hsame, hclear, -⟩
      exact Waiting.busy (by rw [hsame.st]; exact hu) (hok s hclear)
    rintro s i ⟨hsame, hclear, hrests⟩ hi
    rw [waits (by rw [hsame.st]; exact hu) (hok s hclear) hi]
    exact ⟨⟨hsame.ticked, quiet_ticked s⟩, hrests.clears hclear⟩
  exact hfirst.trans ((holds hu KeccakCore.clears_lanes).trans (settles hu))

/-! A permutation: from the clock on which it is asked for. -/

/-- The unit after a permutation. -/
def resumed (u : ShakeUnit) : ShakeUnit :=
  if u.afterSq then { u with pos := 0, st := .sq } else { u with st := .abs }

theorem permutes (hu : u.st = .pgo) :
    Steps (fun s => Held u s ∧ Rests a s.kc)
      fun s => Held (resumed u) s ∧ (u.afterSq = true → s.rdw = 2) ∧ Rests (Sha3.permutation a) s.kc := by
  have hgo : Steps (fun s => Held u s ∧ Rests a s.kc) fun s =>
      Same { u with st := .pwait } s ∧ s.kcIn.clear = false ∧ s.kcIn.perm = true ∧ s.kc.done = false ∧ Rests a s.kc := by
    apply Steps.edge
    · rintro s ⟨⟨hsame, -⟩, -⟩
      refine ⟨?_, ?_⟩
      · rw [inReady, hsame.st, hu]
        rfl
      · rw [outReady, hsame.st, hu]
        rfl
    rintro s i ⟨⟨hsame, hquiet⟩, hrests⟩ hi
    have hclock : s.clock i = { ticked s with kcPerm := true, cool := 3, st := .pwait } := by
      rw [NoInit] at hi
      simp only [clock, ticked, hi, hsame.st, hu]
    rw [hclock]
    refine ⟨?_, rfl, rfl, ?_, hrests.clock hquiet.idle⟩
    · rw [Same] at hsame ⊢
      rw [hsame]
      rfl
    · change (s.kc.clock s.kcIn).done = false
      rw [KeccakCore.idle_clock hrests.st hquiet.idle]
      rfl
  have hwaits : ∀ {s : ShakeUnit} {i : Shake.In}, s.st = .pwait → s.kc.done = false → NoInit i →
      s.clock i = ticked s := by
    intro s i hst hdone hi
    rw [NoInit] at hi
    simp only [clock, ticked, hi, hst, hdone, Bool.false_eq_true, if_false]
  have hbusy : ∀ {s : ShakeUnit}, s.st = .pwait → Busy s := by
    intro s hst
    refine ⟨?_, ?_⟩
    · rw [inReady, hst]
      rfl
    · rw [outReady, hst]
      rfl
  have hstart : Steps (fun s => Same { u with st := .pwait } s ∧ s.kcIn.clear = false ∧ s.kcIn.perm = true ∧
      s.kc.done = false ∧ Rests a s.kc) fun s => ∃ b, Held { u with st := .pwait } s ∧ KeccakCore.Starts b 0 a s.kc := by
    apply Steps.edge
    · rintro s ⟨hsame, -⟩
      exact hbusy hsame.st
    rintro s i ⟨hsame, hclear, hperm, hdone, hrests⟩ hi
    rw [hwaits hsame.st hdone hi]
    exact ⟨_, ⟨hsame.ticked, quiet_ticked s⟩, hrests.perm hclear hperm⟩
  have hwork : Steps (fun s => ∃ b, Held { u with st := .pwait } s ∧ KeccakCore.Starts b 0 a s.kc) fun s =>
      Held { u with st := .pwait } s ∧ Rests (Sha3.permutation a) s.kc ∧ s.kc.done = true := by
    apply Reaches.exists
    intro b
    refine core_leads (KeccakCore.permutes b a) (fun s hs _ => hbusy hs.1.st) fun s i hs hw hi => ?_
    rw [hwaits hs.1.st hw.2 hi]
    exact ⟨hs.1.ticked, quiet_ticked s⟩
  have hend : Steps (fun s => Held { u with st := .pwait } s ∧ Rests (Sha3.permutation a) s.kc ∧ s.kc.done = true)
      fun s => Held (resumed u) s ∧ (u.afterSq = true → s.rdw = 2) ∧ Rests (Sha3.permutation a) s.kc := by
    apply Steps.edge
    · rintro s ⟨⟨hsame, -⟩, -⟩
      exact hbusy hsame.st
    rintro s i ⟨⟨hsame, hquiet⟩, hrests, hdone⟩ hi
    have hsq : s.afterSq = u.afterSq := by rw [hsame]
    have hkc := hrests.clock hquiet.idle
    have hclock : s.clock i = if s.afterSq then { ticked s with pos := 0, rdw := 2, st := .sq }
        else { ticked s with st := .abs } := by
      rw [NoInit] at hi
      simp only [clock, ticked, hi, hsame.st, hdone, if_true]
    rw [hclock, hsq, resumed]
    rw [Same] at hsame
    by_cases hafter : u.afterSq = true
    · rw [if_pos hafter, if_pos hafter]
      refine ⟨⟨?_, rfl, rfl, rfl⟩, fun _ => rfl, hkc⟩
      rw [Same, hsame]
      rfl
    · rw [if_neg hafter, if_neg hafter]
      refine ⟨⟨?_, rfl, rfl, rfl⟩, fun h => absurd h hafter, hkc⟩
      rw [Same, hsame]
      rfl
  exact hgo.trans (hstart.trans (hwork.trans hend))

/-- The lane that was put in last is waited for first. -/
theorem permutes_put (hu : u.st = .pw0) :
    Steps (fun s => Same u s ∧ s.coreOk = true ∧ Rests a s.kc)
      fun s => Held (resumed u) s ∧ (u.afterSq = true → s.rdw = 2) ∧ Rests (Sha3.permutation a) s.kc := by
  have hgo : Steps (fun s => Same u s ∧ s.coreOk = true ∧ Rests a s.kc)
      fun s => Held { u with st := .pgo } s ∧ Rests a s.kc := by
    apply Steps.edge
    · rintro s ⟨hsame, -⟩
      refine ⟨?_, ?_⟩
      · rw [inReady, hsame.st, hu]
        rfl
      · rw [outReady, hsame.st, hu]
        rfl
    rintro s i ⟨hsame, hok, hrests⟩ hi
    have hclock : s.clock i = { ticked s with st := .pgo } := by
      rw [NoInit] at hi
      simp only [clock, ticked, hi, hsame.st, hu, hok, if_true]
    rw [hclock]
    refine ⟨⟨?_, rfl, rfl, rfl⟩, hrests.clock (coreOk_iff.mp hok).2.2.idle⟩
    rw [Same] at hsame ⊢
    rw [hsame]
    rfl
  have hresumed : resumed { u with st := .pgo } = resumed u := rfl
  exact hgo.trans (hresumed ▸ permutes (u := { u with st := .pgo }) rfl)

end GoiKey.Rtl.ShakeUnit
