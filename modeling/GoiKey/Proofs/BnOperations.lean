import GoiKey.Proofs.BnMultiply

/-!
The operations of the engine, from the clock they are asked for to the one they are
answered on.
-/

namespace GoiKey.Rtl.BnEngine

open Clocked Limbs Montgomery

variable {c : BnCtl} {o : BnOp} {rf : BitVec 11 → BitVec 16} {m : BitVec 6 → BitVec 16}
variable {t : BitVec 8 → BitVec 16} {s : BnEngine}

/-! What is asked for, and how it is answered. -/

inductive Request where
  | ecc (op : EccOp) (msel : BitVec 2)
  | rsa (op : RsaOp)

def Asked (x : BnIn) : Request → Prop
  | .ecc op msel => x.ecc = some (op, msel)
  | .rsa op => x.ecc = none ∧ x.rsa = some op

def answered (s : BnEngine) : Request → Bool
  | .ecc _ _ => s.eDone
  | .rsa _ => s.done

/-- Nothing is done; the engine waits. -/
def Idle (o : BnOp) (rf : BitVec 11 → BitVec 16) (m : BitVec 6 → BitVec 16) (s : BnEngine) : Prop :=
  ∃ c t, Holds .idle c o rf m t s

/-- What an operation works on: a write by the other port on the edge it begins at is done. -/
def operands (s : BnEngine) (x : BnIn) : BitVec 11 → BitVec 16 := (s.tick x).rf.mem

/-- How a request sets the engine. -/
def setting (o : BnOp) : Request → BnOp
  | .ecc _ msel => { o with
    emode := true
    mselR := msel }
  | .rsa _ => { o with emode := false }

/-- The request is carried out: its answer comes once, when the engine is idle again. -/
def Completes (s : BnEngine) (i : Nat → BnIn) (q : Request) (Q : BnEngine → Prop) : Prop :=
  ∃ n, (∀ k, 0 < k → k ≤ n → Busy (after clock s i k) ∧ answered (after clock s i k) q = false) ∧
    answered (after clock s i (n + 1)) q = true ∧ Q (after clock s i (n + 1))

/-- An answer leaves the engine idle. -/
theorem unanswered {x : BnIn} (h : Busy (s.clock x)) : (s.clock x).done = false ∧ (s.clock x).eDone = false := by
  unfold Busy clock fsm at h
  unfold clock fsm
  cases hst : s.st <;> simp only [hst] at h ⊢
  case idle =>
    unfold start startEcc startRsa
    split
    · split <;> exact ⟨rfl, rfl⟩
    · split <;> exact ⟨rfl, rfl⟩
    · exact ⟨rfl, rfl⟩
  case fin => exact absurd rfl h
  case efin => exact absurd rfl h
  case eF =>
    unfold BnEngine.eF
    split <;> exact ⟨rfl, rfl⟩
  case eFin =>
    unfold BnEngine.eFin
    split <;> exact ⟨rfl, rfl⟩
  case eFin3 =>
    unfold BnEngine.eFin3
    split <;> exact ⟨rfl, rfl⟩
  case cGo =>
    unfold BnEngine.cGo
    split <;> exact ⟨rfl, rfl⟩
  case eG => split <;> exact ⟨rfl, rfl⟩
  case mDr => split <;> exact ⟨rfl, rfl⟩
  case mNx => split <;> exact ⟨rfl, rfl⟩
  case ex4 => split <;> exact ⟨rfl, rfl⟩
  all_goals exact ⟨rfl, rfl⟩

/-- A request is carried out when its first edge leads on. -/
theorem completes {i : Nat → BnIn} {q : Request} {P Q : BnEngine → Prop} (hs : P (s.clock (i 0)))
    (hl : Leads clock Busy P fun s => answered s q = true ∧ Q s) :
    Completes s i q Q := by
  obtain ⟨n, hn, hanswer, hq⟩ := hl _ hs fun k => i (1 + k)
  have hafter : ∀ k, after clock s i (k + 1) = after clock (s.clock (i 0)) (fun k => i (1 + k)) k := by
    intro k
    rw [Nat.add_comm, after_add]
    rfl
  refine ⟨n, fun k hk hkn => ?_, by rw [hafter]; exact hanswer, by rw [hafter]; exact hq⟩
  obtain ⟨k, rfl⟩ := Nat.exists_eq_succ_of_ne_zero (Nat.pos_iff_ne_zero.mp hk)
  have hbusy : Busy (after clock s i (k + 1)) := by
    rw [hafter]
    exact hn k hkn
  refine ⟨hbusy, ?_⟩
  obtain ⟨hdone, hedone⟩ := unanswered hbusy
  cases q
  · exact hedone
  · exact hdone

/-! How a request begins. -/

/-- The edge on which a request is looked at. -/
theorem Holds.tickIdle {x : BnIn} (h : Holds .idle c o rf m t s) : Holds .idle c o (operands s x) m t (s.tick x) := by
  obtain ⟨hpipe, hrf, hm, ht⟩ := h.still
  refine ⟨h.st, h.ctl, h.op, rfl, ?_, ?_, hpipe.clock _ _ _ _, ?_, rfl, ?_⟩
  · rw [← h.m]
    exact if_neg (by rw [hm]; decide)
  · rw [BnEngine.tick, hpipe.out, ← h.t]
    exact if_neg (by rw [ht]; decide)
  · rw [BnEngine.tick, if_pos h.st]
    rfl
  · rw [BnEngine.tick, hpipe.out]
    rfl

/-- The composite a request stands for: its kind, where the result goes, and its operands. -/
def operation : Request → Option (CKind × BitVec 7 × BitVec 7 × BitVec 7)
  | .ecc (.mul d a b) _ => some (.mul, d, a, b)
  | .ecc (.add d a b) _ => some (.addm, d, a, b)
  | .ecc (.sub d a b) _ => some (.subm, d, a, b)
  | .rsa (.mul a b c) => some (.mul, user a, user b, user c)
  | .rsa (.addm a b c) => some (.addm, user a, user b, user c)
  | .rsa (.subm a b c) => some (.subm, user a, user b, user c)
  | .rsa (.csub a b) => some (.csub, user a, user b, user b)
  | _ => none

/-- Where a request ends. -/
def ending : Request → BnState
  | .ecc _ _ => .efin
  | .rsa _ => .fin

theorem ending_working (q : Request) : ending q ≠ .idle := by
  cases q with
  | ecc op msel => exact fun h => BnState.noConfusion h
  | rsa op => exact fun h => BnState.noConfusion h

theorem ends (q : Request) : Leads clock Busy (Holds (ending q) c o rf m t) fun s =>
    answered s q = true ∧ Holds .idle c o rf m t s := by
  apply Leads.edge fun s h => h.busy (ending_working q)
  intro s x h
  obtain ⟨ht, -⟩ := h.tick (i := x) (ending_working q)
  cases q with
  | ecc op msel =>
    simp only [clock, fsm, h.st, ending]
    exact ⟨rfl, ht.move rfl ht.ctl ht.op rfl ⟨rfl, rfl⟩ ⟨rfl, rfl⟩ ⟨rfl, rfl⟩⟩
  | rsa op =>
    simp only [clock, fsm, h.st, ending]
    exact ⟨rfl, ht.move rfl ht.ctl ht.op rfl ⟨rfl, rfl⟩ ⟨rfl, rfl⟩ ⟨rfl, rfl⟩⟩

/-- A request for a composite sets it up. -/
theorem begins {x : BnIn} {q : Request} {kind : CKind} {d a b : BitVec 7} (h : Holds .idle c o rf m t s)
    (hx : Asked x q) (hq : operation q = some (kind, d, a, b)) : ∃ c', Holds .cGo c' (setting o q) (operands s x) m t
      (s.clock x) ∧ c'.ckind = kind ∧ c'.cdst = d ∧ c'.cs1 = a ∧ c'.cs2 = b ∧ c'.cret = ending q := by
  have ht := h.tickIdle (x := x)
  have hmove : ∀ n, n = (s.tick x).compose kind d a b (ending q) → ∀ o', Holds .cGo n.ctl o' (operands s x) m t
      { n with op := o' } ∧ n.ctl.ckind = kind ∧ n.ctl.cdst = d ∧ n.ctl.cs1 = a ∧ n.ctl.cs2 = b ∧
        n.ctl.cret = ending q := by
    rintro n rfl o'
    exact ⟨ht.move rfl rfl rfl rfl ⟨rfl, rfl⟩ ⟨rfl, rfl⟩ ⟨rfl, rfl⟩, rfl, rfl, rfl, rfl, rfl⟩
  refine ⟨((s.tick x).compose kind d a b (ending q)).ctl, ?_⟩
  have hop : (s.tick x).op = o := ht.op
  suffices heq : s.clock x = { (s.tick x).compose kind d a b (ending q) with op := setting o q } by
    rw [heq]
    exact hmove _ rfl _
  rw [clock, fsm, h.st]
  cases q with
  | ecc op msel =>
    have hx' : x.ecc = some (op, msel) := hx
    simp only [start, hx']
    cases op <;> cases hq <;> rw [← hop] <;> rfl
  | rsa op =>
    obtain ⟨hecc, hrsa⟩ := hx
    simp only [start, hecc, hrsa]
    cases op <;> cases hq <;> rw [← hop] <;> rfl

/-! The arithmetic. -/

/-- A register has a new value, the others and the modulus are as they were. -/
def Leaves (o : BnOp) (rf : BitVec 11 → BitVec 16) (m : BitVec 6 → BitVec 16) (d : BitVec 7) (v : Nat → Prop)
    (s : BnEngine) : Prop :=
  ∃ rf', Idle o rf' m s ∧ Kept o rf d rf' ∧ v (reg o rf' d)

theorem Settled.ends {d : BitVec 7} {v w : Nat → Prop} {q : Request}
    (hvw : ∀ x, v x → w (x % modulus o m)) :
    Leads clock Busy (Settled d (ending q) o rf m v) fun s => answered s q = true ∧ Leaves o rf m d w s := by
  rintro s ⟨c, rf', t, hs, hkept, x, hv, hreg⟩ i
  obtain ⟨n, hn, hanswer, hidle⟩ := BnEngine.ends q s hs i
  refine ⟨n, hn, hanswer, rf', ⟨c, t, hidle⟩, hkept, ?_⟩
  rw [hreg]
  exact hvw x hv

/-- A request for a composite is carried out when the composite comes to its result. -/
theorem operates {i : Nat → BnIn} {q : Request} {kind : CKind} {d a b : BitVec 7} {v w : Nat → Prop}
    (h : Holds .idle c o rf m t s) (hx : Asked (i 0) q) (hq : operation q = some (kind, d, a, b))
    (hvw : ∀ x, v x → w (x % modulus (setting o q) m))
    (hgo : ∀ c', c'.ckind = kind → c'.cs1 = a → c'.cs2 = b → Leads clock Busy
      (Holds .cGo c' (setting o q) (operands s (i 0)) m t)
      (Settled c'.cdst c'.cret (setting o q) (operands s (i 0)) m v)) :
    Completes s i q (Leaves (setting o q) (operands s (i 0)) m d w) := by
  obtain ⟨c', hbegun, hkind, rfl, ha, hb, hret⟩ := begins h hx hq
  apply completes hbegun
  apply (hgo c' hkind ha hb).trans
  rw [hret]
  exact Settled.ends hvw

section Arithmetic

variable {i : Nat → BnIn} {q : Request} {d a b : BitVec 7}

/-- The constant of a modulus is that of its low word, whatever the geometry. -/
theorem Inverse.of_nprime {o' : BnOp} (h : Inverse o m) (hn : o'.nprime = o.nprime) : Inverse o' m := by
  have hlow : ∀ o, modulus o m % radix = (m 0).toNat % radix := fun o => value_mod _ (words_pos o)
  have hmod : modulus o' m * o.nprime.toNat + 1 ≡ modulus o m * o.nprime.toNat + 1 [MOD radix] :=
    Nat.ModEq.add_right _ (Nat.ModEq.mul_right _ ((hlow _).trans (hlow o).symm))
  rw [Inverse, hn]
  exact Nat.modEq_zero_iff_dvd.mp (hmod.trans (Nat.modEq_zero_iff_dvd.mpr h))

theorem Inverse.setting (h : Inverse o m) (q : Request) : Inverse (setting o q) m :=
  h.of_nprime (by cases q <;> rfl)

/-- The product over R, when one of the operands is below the modulus. -/
theorem mul_completes (h : Holds .idle c o rf m t s) (hx : Asked (i 0) q)
    (hq : operation q = some (.mul, d, a, b)) (hinv : Inverse o m)
    (hsmall : reg (setting o q) (operands s (i 0)) a < modulus (setting o q) m ∨
      reg (setting o q) (operands s (i 0)) b < modulus (setting o q) m) :
    Completes s i q (Leaves (setting o q) (operands s (i 0)) m d fun x => x < modulus (setting o q) m ∧
      x * bound (setting o q) ≡ reg (setting o q) (operands s (i 0)) a * reg (setting o q) (operands s (i 0)) b
        [MOD modulus (setting o q) m]) := by
  have hproduct : reg (setting o q) (operands s (i 0)) a * reg (setting o q) (operands s (i 0)) b
      < bound (setting o q) * modulus (setting o q) m := by
    have ha : reg (setting o q) (operands s (i 0)) a < bound (setting o q) := reg_lt _
    have hb : reg (setting o q) (operands s (i 0)) b < bound (setting o q) := reg_lt _
    rcases hsmall with hlt | hlt
    · rw [Nat.mul_comm]
      exact Nat.mul_lt_mul'' hb hlt
    · exact Nat.mul_lt_mul'' ha hlt
  have hM : 0 < modulus (setting o q) m := by
    apply Nat.pos_of_ne_zero
    intro hzero
    rw [hzero] at hsmall
    omega
  apply operates (v := fun x => x * bound (setting o q) ≡ reg (setting o q) (operands s (i 0)) a * reg (setting o q) (operands s (i 0)) b
    [MOD modulus (setting o q) m]) h hx hq
  · intro x hv
    exact ⟨Nat.mod_lt x hM, (Nat.ModEq.mul_right _ (Nat.mod_modEq x _)).trans hv⟩
  · rintro c' hkind rfl rfl
    exact multiplies_modulus hkind (hinv.setting q) hproduct

theorem add_completes (h : Holds .idle c o rf m t s) (hx : Asked (i 0) q)
    (hq : operation q = some (.addm, d, a, b))
    (hsmall : reg (setting o q) (operands s (i 0)) a + reg (setting o q) (operands s (i 0)) b
      < 2 * modulus (setting o q) m) :
    Completes s i q (Leaves (setting o q) (operands s (i 0)) m d fun x => x < modulus (setting o q) m ∧
      x = (reg (setting o q) (operands s (i 0)) a + reg (setting o q) (operands s (i 0)) b)
        % modulus (setting o q) m) := by
  apply operates (v := fun x => x = reg (setting o q) (operands s (i 0)) a + reg (setting o q) (operands s (i 0)) b) h hx hq
  · rintro x rfl
    exact ⟨Nat.mod_lt _ (by omega), rfl⟩
  · rintro c' hkind rfl rfl
    exact adds_modulus hkind hsmall

theorem sub_completes (h : Holds .idle c o rf m t s) (hx : Asked (i 0) q)
    (hq : operation q = some (.subm, d, a, b))
    (ha : reg (setting o q) (operands s (i 0)) a < modulus (setting o q) m)
    (hb : reg (setting o q) (operands s (i 0)) b < modulus (setting o q) m) :
    Completes s i q (Leaves (setting o q) (operands s (i 0)) m d fun x => x < modulus (setting o q) m ∧
      x = (reg (setting o q) (operands s (i 0)) a + modulus (setting o q) m
        - reg (setting o q) (operands s (i 0)) b) % modulus (setting o q) m) := by
  apply operates (v := fun x => x + reg (setting o q) (operands s (i 0)) b = reg (setting o q) (operands s (i 0)) a + modulus (setting o q) m) h hx hq
  · intro x hv
    rw [← hv, Nat.add_sub_cancel]
    exact ⟨Nat.mod_lt _ (by omega), rfl⟩
  · rintro c' hkind rfl rfl
    exact subtracts_modulus hkind (by omega) (by omega)

theorem csub_completes (h : Holds .idle c o rf m t s) (hx : Asked (i 0) q)
    (hq : operation q = some (.csub, d, a, b))
    (hsmall : reg (setting o q) (operands s (i 0)) a < 2 * modulus (setting o q) m) :
    Completes s i q (Leaves (setting o q) (operands s (i 0)) m d fun x =>
      x = reg (setting o q) (operands s (i 0)) a % modulus (setting o q) m) := by
  apply operates (v := fun x => x = reg (setting o q) (operands s (i 0)) a) h hx hq
  · rintro x rfl
    rfl
  · rintro c' hkind rfl rfl
    exact copies_modulus hkind hsmall

end Arithmetic

/-! Selecting a modulus. -/

/-- The low words of products, in the ring of words. -/
theorem product_low (x y : BitVec 16) : (x.setWidth 32 * y.setWidth 32).setWidth 16 = x * y := by
  apply BitVec.eq_of_toNat_eq
  rw [BitVec.toNat_setWidth, product_toNat, BitVec.toNat_mul]

/-- The square of an odd word is one more than a multiple of eight. -/
theorem odd_square {x : BitVec 16} (h : x.toNat % 2 = 1) : ∃ u, x * x = 1 + 8 * u := by
  obtain ⟨k, hk⟩ : ∃ k, x.toNat = 2 * k + 1 := ⟨x.toNat / 2, by omega⟩
  obtain ⟨l, hl⟩ : ∃ l, k * (k + 1) = 2 * l := by
    obtain ⟨l, hl⟩ := Nat.even_mul_succ_self k
    exact ⟨l, by rw [hl]; omega⟩
  refine ⟨BitVec.ofNat 16 l, ?_⟩
  apply BitVec.eq_of_toNat_eq
  have height : (8 : BitVec 16).toNat = 8 := rfl
  have hone : (1 : BitVec 16).toNat = 1 := rfl
  have hsquare : (2 * k + 1) * (2 * k + 1) = 1 + 8 * l := by
    calc (2 * k + 1) * (2 * k + 1) = 1 + 4 * (k * (k + 1)) := by ring
      _ = 1 + 8 * l := by rw [hl]; ring
  rw [BitVec.toNat_mul, BitVec.toNat_add, BitVec.toNat_mul, BitVec.toNat_ofNat, hk, height, hone, hsquare]
  omega

/-- What is left over after some steps of the iteration. -/
def LeftOver (a x : BitVec 16) (k : Nat) : Prop := ∃ u, a * x = 1 + 8 ^ 2 ^ k * u

theorem LeftOver.next {a x : BitVec 16} {k : Nat} (h : LeftOver a x k) :
    LeftOver a (x * (2 - a * x)) (k + 1) := by
  obtain ⟨u, hu⟩ := h
  refine ⟨-u ^ 2, ?_⟩
  rw [newton hu]
  ring

/-- After three steps the word is the inverse. -/
theorem LeftOver.inverse {a x : BitVec 16} (h : LeftOver a x 3) : a * x = 1 := by
  obtain ⟨u, hu⟩ := h
  have hzero : (8 : BitVec 16) ^ 2 ^ 3 = 0 := by decide
  rw [hu, hzero, zero_mul, add_zero]

/-- The iteration, before its step `k`. -/
def Iterating (c : BnCtl) (o : BnOp) (rf : BitVec 11 → BitVec 16) (m : BitVec 6 → BitVec 16)
    (t : BitVec 8 → BitVec 16) (k : Nat) (s : BnEngine) : Prop :=
  ∃ x, LeftOver (m 0) x k ∧ Holds .nw3 c { o with
    nn0 := m 0
    nx := x
    nit := BitVec.ofNat 2 k } rf m t s

/-- A step of the iteration, as far as its counter. -/
theorem iterates {a x : BitVec 16} {n : BitVec 2} :
    Leads clock Busy (Holds .nw3 c { o with
      nn0 := a
      nx := x
      nit := n } rf m t) fun s => Holds (if n = 2 then .nw8 else .nw3) c { o with
      nn0 := a
      nx := x * (2 - a * x)
      nit := n + 1 } rf m t s := by
  let o₁ : BnOp := { o with
    nn0 := a
    nx := x
    nit := n }
  have h3 : Leads clock Busy (Holds .nw3 c o₁ rf m t) fun s => Holds .nw4 c o₁ rf m t s ∧
      s.prod.m3a = a ∧ s.prod.m3b = x := by
    apply Leads.edge fun s h => h.busy (by decide)
    intro s x h
    obtain ⟨ht, -⟩ := h.tick (i := x) (by decide)
    simp only [clock, fsm, h.st]
    exact ⟨ht.move rfl ht.ctl ht.op rfl ⟨rfl, rfl⟩ ⟨rfl, rfl⟩ ⟨rfl, rfl⟩, by rw [h.op], by rw [h.op]⟩
  have h4 : Leads clock Busy (fun s => Holds .nw4 c o₁ rf m t s ∧ s.prod.m3a = a ∧ s.prod.m3b = x) fun s =>
      Holds .nw5 c o₁ rf m t s ∧ s.prod.m3p.setWidth 16 = a * x := by
    apply Leads.edge fun s h => h.1.busy (by decide)
    rintro s i ⟨h, ha, hb⟩
    obtain ⟨ht, -⟩ := h.tick (i := i) (by decide)
    simp only [clock, fsm, h.st]
    refine ⟨ht.move rfl ht.ctl ht.op rfl ⟨rfl, rfl⟩ ⟨rfl, rfl⟩ ⟨rfl, rfl⟩, ?_⟩
    rw [← product_low, ← ha, ← hb]
    rfl
  have h5 : Leads clock Busy (fun s => Holds .nw5 c o₁ rf m t s ∧ s.prod.m3p.setWidth 16 = a * x) fun s =>
      Holds .nw6 c o₁ rf m t s ∧ s.prod.m3a = x ∧ s.prod.m3b = 2 - a * x := by
    apply Leads.edge fun s h => h.1.busy (by decide)
    rintro s i ⟨h, hp⟩
    obtain ⟨ht, -⟩ := h.tick (i := i) (by decide)
    simp only [clock, fsm, h.st]
    exact ⟨ht.move rfl ht.ctl ht.op rfl ⟨rfl, rfl⟩ ⟨rfl, rfl⟩ ⟨rfl, rfl⟩, by rw [h.op], by rw [hp]⟩
  have h6 : Leads clock Busy (fun s => Holds .nw6 c o₁ rf m t s ∧ s.prod.m3a = x ∧ s.prod.m3b = 2 - a * x)
      fun s => Holds .nw7 c o₁ rf m t s ∧ s.prod.m3p.setWidth 16 = x * (2 - a * x) := by
    apply Leads.edge fun s h => h.1.busy (by decide)
    rintro s i ⟨h, ha, hb⟩
    obtain ⟨ht, -⟩ := h.tick (i := i) (by decide)
    simp only [clock, fsm, h.st]
    refine ⟨ht.move rfl ht.ctl ht.op rfl ⟨rfl, rfl⟩ ⟨rfl, rfl⟩ ⟨rfl, rfl⟩, ?_⟩
    rw [← product_low, ← hb, ← ha]
    rfl
  refine h3.trans (h4.trans (h5.trans (h6.trans (Leads.edge (fun s h => h.1.busy (by decide)) ?_))))
  rintro s i ⟨h, hp⟩
  obtain ⟨ht, -⟩ := h.tick (i := i) (by decide)
  simp only [clock, fsm, h.st]
  refine ht.move ?_ ht.ctl ?_ rfl ⟨rfl, rfl⟩ ⟨rfl, rfl⟩ ⟨rfl, rfl⟩
  · rw [h.op]
  · rw [ht.op, h.op, hp]

/-- The constant of an odd modulus is worked out. -/
theorem inverts (hodd : (m 0).toNat % 2 = 1) : Leads clock Busy (Holds .nw0 c o rf m t) fun s => ∃ o' x,
    m 0 * x = 1 ∧ (o'.emode = o.emode ∧ o'.nprime = 0 - x) ∧ Holds .fin c o' rf m t s := by
  have h0 : Leads clock Busy (Holds .nw0 c o rf m t) fun s => Holds .nw1 c o rf m t s ∧ s.m.ra = 0 := by
    apply Leads.edge fun s h => h.busy (by decide)
    intro s x h
    obtain ⟨ht, -⟩ := h.tick (i := x) (by decide)
    simp only [clock, fsm, h.st]
    exact ⟨ht.move rfl ht.ctl ht.op rfl ⟨rfl, rfl⟩ ⟨rfl, rfl⟩ ⟨rfl, rfl⟩, rfl⟩
  have h1 : Leads clock Busy (fun s => Holds .nw1 c o rf m t s ∧ s.m.ra = 0) fun s =>
      Holds .nw2 c o rf m t s ∧ s.m.rq = m 0 := by
    apply Leads.edge fun s h => h.1.busy (by decide)
    rintro s x ⟨h, hra⟩
    obtain ⟨ht, -, -, -, -, -, -, hmq, -⟩ := h.tick (i := x) (by decide)
    simp only [clock, fsm, h.st]
    exact ⟨ht.move rfl ht.ctl ht.op rfl ⟨rfl, rfl⟩ ⟨rfl, rfl⟩ ⟨rfl, rfl⟩, hmq.trans (congrArg m hra)⟩
  have h2 : Leads clock Busy (fun s => Holds .nw2 c o rf m t s ∧ s.m.rq = m 0) (Iterating c o rf m t 0) := by
    apply Leads.edge fun s h => h.1.busy (by decide)
    rintro s x ⟨h, hmq⟩
    obtain ⟨ht, -⟩ := h.tick (i := x) (by decide)
    refine ⟨m 0, odd_square hodd, ?_⟩
    simp only [clock, fsm, h.st]
    exact ht.move rfl ht.ctl (by rw [ht.op, hmq]; rfl) rfl ⟨rfl, rfl⟩ ⟨rfl, rfl⟩ ⟨rfl, rfl⟩
  have hloop : Leads clock Busy (Iterating c o rf m t 0) (Iterating c o rf m t 2) := by
    apply Leads.loop (I := Iterating c o rf m t)
    rintro k hk s ⟨x, hx, hs⟩ i
    obtain ⟨n, hn, hnext⟩ := iterates s hs i
    have hmore : BitVec.ofNat 2 k ≠ 2 := by
      have hcases : k = 0 ∨ k = 1 := by omega
      rcases hcases with rfl | rfl <;> decide
    rw [if_neg hmore] at hnext
    exact ⟨n, hn, _, hx.next, (BitVec.ofNat_add k 1) ▸ hnext⟩
  refine h0.trans (h1.trans (h2.trans (hloop.trans ?_)))
  rintro s ⟨x, hx, hs⟩ i
  have h8 : Leads clock Busy (Holds .nw8 c { o with
      nn0 := m 0
      nx := x * (2 - m 0 * x)
      nit := BitVec.ofNat 2 2 + 1 } rf m t) fun s => ∃ o' x, m 0 * x = 1 ∧
      (o'.emode = o.emode ∧ o'.nprime = 0 - x) ∧ Holds .fin c o' rf m t s := by
    apply Leads.edge fun s h => h.busy (by decide)
    intro s i h
    obtain ⟨ht, -⟩ := h.tick (i := i) (by decide)
    simp only [clock, fsm, h.st]
    refine ⟨_, _, hx.next.inverse, ⟨?_, ?_⟩, ht.move rfl ht.ctl rfl rfl ⟨rfl, rfl⟩ ⟨rfl, rfl⟩ ⟨rfl, rfl⟩⟩
    · rw [ht.op]
    · rw [h.op]
  have h7 : Leads clock Busy (Holds .nw3 c { o with
      nn0 := m 0
      nx := x
      nit := BitVec.ofNat 2 2 } rf m t) fun s => Holds (if BitVec.ofNat 2 2 = 2 then .nw8 else .nw3) c { o with
      nn0 := m 0
      nx := x * (2 - m 0 * x)
      nit := BitVec.ofNat 2 2 + 1 } rf m t s := iterates
  rw [if_pos (show BitVec.ofNat 2 2 = (2 : BitVec 2) from rfl)] at h7
  exact (h7.trans h8) s hs i

/-- A modulus is selected, with its constant; `P` says what became of the registers. -/
def Selects (emode : Bool) (M : Nat) (P : BnOp → (BitVec 11 → BitVec 16) → Prop) (s : BnEngine) : Prop :=
  ∃ o rf m, Idle o rf m s ∧ o.emode = emode ∧ modulus o m = M ∧ Inverse o m ∧ P o rf

/-- Whether a constant fits a modulus, the low words tell. -/
theorem inverse_of_low {x : BitVec 16} (h : m 0 * x = 1) (hn : o.nprime = 0 - x) : Inverse o m := by
  have hlow : modulus o m % radix = (m 0).toNat % radix := value_mod _ (words_pos o)
  have hword : m 0 * o.nprime + 1 = 0 := by
    rw [hn]
    linear_combination -h
  have htoNat := congrArg BitVec.toNat hword
  rw [BitVec.toNat_add, BitVec.toNat_mul] at htoNat
  have hmod : modulus o m * o.nprime.toNat + 1 ≡ (m 0).toNat * o.nprime.toNat + 1 [MOD radix] :=
    Nat.ModEq.add_right _ (Nat.ModEq.mul_right _ hlow)
  apply (Nat.modEq_zero_iff_dvd).mp
  apply hmod.trans
  have hone : (1 : BitVec 16).toNat = 1 := rfl
  rw [hone, Nat.mod_add_mod] at htoNat
  exact htoNat

section Geometry

variable {o' : BnOp}

theorem words_congr (h : o'.emode = o.emode) : words o' = words o := by rw [words, words, h]

theorem bound_congr (h : o'.emode = o.emode) : bound o' = bound o := by rw [bound, bound, words_congr h]

theorem modulus_congr (h : o'.emode = o.emode) (m : BitVec 6 → BitVec 16) : modulus o' m = modulus o m := by
  rw [modulus, modulus, words_congr h]

theorem reg_congr (h : o'.emode = o.emode) (rf : BitVec 11 → BitVec 16) (r : BitVec 7) :
    reg o' rf r = reg o rf r := by
  rw [reg, reg, words_congr h]
  apply value_congr
  intro k _
  rw [regWord, regWord, h]

theorem regIndex_congr (h : o'.emode = o.emode) (r : BitVec 7) : regIndex o' r = regIndex o r := by rw [regIndex, regIndex, h]

theorem Kept.congr {d : BitVec 7} {rf' : BitVec 11 → BitVec 16} (h : o'.emode = o.emode)
    (hk : Kept o rf d rf') : Kept o' rf d rf' := by
  intro r hr k hkw
  rw [regIndex_congr h, regIndex_congr h] at hr
  rw [words_congr h] at hkw
  have hword := hk r hr k hkw
  rw [regWord, regWord, h]
  exact hword

end Geometry

/-- The modulus of a register is selected. -/
theorem select_completes {i : Nat → BnIn} {r : BitVec 6} (h : Holds .idle c o rf m t s)
    (hx : Asked (i 0) (.rsa (.msel r)))
    (hodd : reg (setting o (.rsa (.msel r))) (operands s (i 0)) (user r) % 2 = 1) :
    Completes s i (.rsa (.msel r)) (Selects false
      (reg (setting o (.rsa (.msel r))) (operands s (i 0)) (user r)) fun o' rf' =>
        Kept o' (operands s (i 0)) onem rf' ∧
        reg o' rf' onem = bound o' - reg (setting o (.rsa (.msel r))) (operands s (i 0)) (user r)) := by
  let o₁ : BnOp := setting o (.rsa (.msel r))
  let rf₁ := operands s (i 0)
  let c₁ : BnCtl := { c with
    pm := .tom
    pdst := 0
    psb := user r
    psc := user r
    ptoff := 0
    pret := .ms1 }
  let c₂ : BnCtl := { c₁ with
    pm := .negm
    pdst := onem
    psb := onem
    psc := onem
    pret := .nw0 }
  have hbegun : Holds .eInit c₁ o₁ rf₁ m t (s.clock (i 0)) := by
    have ht := h.tickIdle (x := i 0)
    obtain ⟨hecc, hrsa⟩ := hx
    simp only [clock, fsm, h.st, start, hecc, hrsa, startRsa]
    exact ht.move rfl (by rw [pass, ht.ctl]) (by rw [pass, ht.op]; rfl) rfl ⟨rfl, rfl⟩ ⟨rfl, rfl⟩ ⟨rfl, rfl⟩
  apply completes hbegun
  apply (loadsModulus rfl).trans
  rintro s ⟨m', hs, hwords⟩ i
  have hmodulus : modulus o₁ m' = reg o₁ rf₁ (user r) := value_congr hwords
  have hpos : 0 < modulus o₁ m' := by
    rw [hmodulus]
    apply Nat.pos_of_ne_zero
    intro hzero
    have hodd' : reg o₁ rf₁ (user r) % 2 = 1 := hodd
    omega
  have hms : Leads clock Busy (Holds .ms1 c₁ o₁ rf₁ m' t) (Holds .eInit c₂ o₁ rf₁ m' t) := by
    apply Leads.edge fun s h => h.busy (by decide)
    intro s x h
    obtain ⟨ht, -⟩ := h.tick (i := x) (by decide)
    simp only [clock, fsm, h.st]
    exact ht.move rfl (by rw [pass, ht.ctl]) ht.op rfl ⟨rfl, rfl⟩ ⟨rfl, rfl⟩ ⟨rfl, rfl⟩
  have hlow : (m' 0).toNat % 2 = 1 := by
    have hmod : modulus o₁ m' % radix = (m' 0).toNat % radix := value_mod _ (words_pos o₁)
    have hodd' : reg o₁ rf₁ (user r) % 2 = 1 := hodd
    rw [hmodulus, radix] at hmod
    omega
  suffices hlead : Leads clock Busy (Holds .ms1 c₁ o₁ rf₁ m' t) fun s => answered s (.rsa (.msel r)) = true ∧
      Selects false (reg o₁ rf₁ (user r)) (fun o' rf' => Kept o' rf₁ onem rf' ∧
        reg o' rf' onem = bound o' - reg o₁ rf₁ (user r)) s from hlead s hs i
  apply hms.trans ((negates rfl hpos).trans ?_)
  rintro s ⟨rf', hs, hkept, hreg⟩ i
  suffices hlead : Leads clock Busy (Holds .nw0 c₂ o₁ rf' m' t) fun s => answered s (.rsa (.msel r)) = true ∧
      Selects false (reg o₁ rf₁ (user r)) (fun o' rf' => Kept o' rf₁ onem rf' ∧
        reg o' rf' onem = bound o' - reg o₁ rf₁ (user r)) s from hlead s hs i
  apply (inverts hlow).trans
  rintro s ⟨o', x, hx', ⟨hemode, hnprime⟩, hs⟩ i
  obtain ⟨n, hn, hanswer, hidle⟩ := ends (.rsa (.msel r)) s hs i
  refine ⟨n, hn, hanswer, o', rf', m', ⟨c₂, t, hidle⟩, hemode, ?_, inverse_of_low hx' hnprime, ?_, ?_⟩
  · rw [← hmodulus, modulus_congr hemode]
  · exact Kept.congr hemode hkept
  · have hreg' : reg o₁ rf' onem = bound o₁ - modulus o₁ m' := hreg
    rw [reg_congr hemode, hreg', bound_congr hemode, hmodulus]

/-- The moduli of the table. -/
def tableModulus (ms : BitVec 2) : Nat := value radix (fun k => (modWord ms (BitVec.ofNat 4 k)).toNat) 16

/-- A modulus of the table is selected. -/
theorem table_completes {i : Nat → BnIn} {ms : BitVec 2} (h : Holds .idle c o rf m t s)
    (hx : Asked (i 0) (.ecc .select ms)) :
    Completes s i (.ecc .select ms) (Selects true (tableModulus ms) fun _ rf' => rf' = operands s (i 0)) := by
  let o₁ : BnOp := setting o (.ecc .select ms)
  let c₁ : BnCtl := { c with
    pm := .tomk
    pdst := 0
    psb := 0
    psc := 0
    ptoff := 0
    pret := .efin }
  have hbegun : Holds .eInit c₁ o₁ (operands s (i 0)) m t (s.clock (i 0)) := by
    have ht := h.tickIdle (x := i 0)
    have hx' : (i 0).ecc = some (.select, ms) := hx
    simp only [clock, fsm, h.st, start, hx', startEcc]
    exact ht.move rfl (by rw [pass, ht.ctl]) (by rw [pass, ht.op]; rfl) rfl ⟨rfl, rfl⟩ ⟨rfl, rfl⟩ ⟨rfl, rfl⟩
  apply completes hbegun
  apply (loadsTable rfl).trans
  rintro s' ⟨m', hs, hwords⟩ j
  obtain ⟨n, hn, hanswer, hidle⟩ := ends (.ecc .select ms) s' hs j
  have hw : words { o₁ with nprime := modN0 o₁.mselR } = 16 := rfl
  refine ⟨n, hn, hanswer, _, _, m', ⟨c₁, t, hidle⟩, rfl, ?_, ?_, rfl⟩
  · rw [modulus, hw]
    exact value_congr hwords
  · have hlow : m' 0 = modWord ms 0 := by
      apply BitVec.eq_of_toNat_eq
      exact hwords 0 (words_pos _)
    have htable : ∀ ms : BitVec 2, modWord ms 0 * (0 - modN0 ms) = 1 := by decide
    apply inverse_of_low (x := 0 - modN0 ms)
    · rw [hlow]
      exact htable ms
    · have hneg : ∀ y : BitVec 16, y = 0 - (0 - y) := by
        intro y
        ring
      exact hneg _

/-- From any idle state a multiplication leaves the product over R, an addition the sum and a subtraction the
difference, modulo the modulus and below it; an odd modulus gets its constant when it is selected. -/
theorem modular_arithmetic {i : Nat → BnIn} {q : Request} (h : Holds .idle c o rf m t s) (hx : Asked (i 0) q) :
    (∀ d a b, operation q = some (.mul, d, a, b) → Inverse o m →
      (reg (setting o q) (operands s (i 0)) a < modulus (setting o q) m ∨
        reg (setting o q) (operands s (i 0)) b < modulus (setting o q) m) →
      Completes s i q (Leaves (setting o q) (operands s (i 0)) m d fun x => x < modulus (setting o q) m ∧
        x * bound (setting o q) ≡ reg (setting o q) (operands s (i 0)) a * reg (setting o q) (operands s (i 0)) b
          [MOD modulus (setting o q) m])) ∧
    (∀ d a b, operation q = some (.addm, d, a, b) →
      reg (setting o q) (operands s (i 0)) a + reg (setting o q) (operands s (i 0)) b
        < 2 * modulus (setting o q) m →
      Completes s i q (Leaves (setting o q) (operands s (i 0)) m d fun x => x < modulus (setting o q) m ∧
        x = (reg (setting o q) (operands s (i 0)) a + reg (setting o q) (operands s (i 0)) b)
          % modulus (setting o q) m)) ∧
    (∀ d a b, operation q = some (.subm, d, a, b) →
      reg (setting o q) (operands s (i 0)) a < modulus (setting o q) m →
      reg (setting o q) (operands s (i 0)) b < modulus (setting o q) m →
      Completes s i q (Leaves (setting o q) (operands s (i 0)) m d fun x => x < modulus (setting o q) m ∧
        x = (reg (setting o q) (operands s (i 0)) a + modulus (setting o q) m
          - reg (setting o q) (operands s (i 0)) b) % modulus (setting o q) m)) ∧
    (∀ r, q = .rsa (.msel r) → reg (setting o q) (operands s (i 0)) (user r) % 2 = 1 →
      Completes s i q (Selects false (reg (setting o q) (operands s (i 0)) (user r)) fun o' rf' =>
        Kept o' (operands s (i 0)) onem rf' ∧
        reg o' rf' onem = bound o' - reg (setting o q) (operands s (i 0)) (user r))) ∧
    (∀ ms, q = .ecc .select ms →
      Completes s i q (Selects true (tableModulus ms) fun _ rf' => rf' = operands s (i 0))) := by
  refine ⟨?_, ?_, ?_, ?_, ?_⟩
  · intro d a b hq hinv hsmall
    exact mul_completes h hx hq hinv hsmall
  · intro d a b hq hsmall
    exact add_completes h hx hq hsmall
  · intro d a b hq ha hb
    exact sub_completes h hx hq ha hb
  · rintro r rfl hodd
    exact select_completes h hx hodd
  · rintro ms rfl
    exact table_completes h hx

/-- An engine at rest: seven and eleven in two registers of sixteen words, the modulus fifteen. -/
def atRest : BnEngine where
  st := .idle
  ctl := ⟨.idle, .idle, .idle, .add, 0, 0, 0, 0, 0, 0, 0, .mul, 0, 0⟩
  op := ⟨true, 0, 0, 0, 0, 0, 0, false, 4369, 0, 0, 0⟩
  word := ⟨0, 0, 0, 0, 0, 0, false⟩
  mul := ⟨0, 0, 0, 0⟩
  prod := ⟨0, 0, 0⟩
  pipe := ⟨false, false, false, 0, 0, 0, 0, 0, 0, false, 0, 0, 0, 0, false, 0, 0, 0, 0, false, 0, false, 0, 0, 0⟩
  rf := ⟨fun a => if a = 16 then 7 else if a = 32 then 11 else 0, 0, 0, false, 0, 0⟩
  m := ⟨fun a => if a = 0 then 15 else 0, 0, 0, false, 0, 0⟩
  t := ⟨fun _ => 0, 0, 0, false, 0, 0⟩
  done := false
  eDone := false

theorem atRest_holds : Holds .idle atRest.ctl atRest.op atRest.rf.mem atRest.m.mem atRest.t.mem atRest :=
  ⟨rfl, rfl, rfl, rfl, rfl, rfl, ⟨rfl, rfl, rfl, rfl, rfl, rfl, rfl⟩, rfl, rfl, rfl⟩

def asking (q : EccOp) : BnIn := ⟨some (q, 0), none, ⟨0, false, 0, 0⟩⟩

theorem modular_arithmetic_small :
    Completes atRest (fun _ => asking (.mul 3 1 2)) (.ecc (.mul 3 1 2) 0) (Leaves atRest.op atRest.rf.mem atRest.m.mem 3
      fun x => x < 15 ∧ x * 2 ^ 256 ≡ 7 * 11 [MOD 15]) ∧
    Completes atRest (fun _ => asking (.add 3 1 2)) (.ecc (.add 3 1 2) 0) (Leaves atRest.op atRest.rf.mem atRest.m.mem 3
      fun x => x < 15 ∧ x = (7 + 11) % 15) ∧
    Completes atRest (fun _ => asking (.sub 3 1 2)) (.ecc (.sub 3 1 2) 0) (Leaves atRest.op atRest.rf.mem atRest.m.mem 3
      fun x => x < 15 ∧ x = (7 + 15 - 11) % 15) := by
  refine ⟨?_, ?_, ?_⟩
  · exact (modular_arithmetic atRest_holds (i := fun _ => asking (.mul 3 1 2)) (q := .ecc (.mul 3 1 2) 0) rfl).1
      3 1 2 rfl (by unfold Inverse; decide +kernel) (by decide +kernel)
  · exact (modular_arithmetic atRest_holds (i := fun _ => asking (.add 3 1 2)) (q := .ecc (.add 3 1 2) 0) rfl).2.1
      3 1 2 rfl (by decide +kernel)
  · exact (modular_arithmetic atRest_holds (i := fun _ => asking (.sub 3 1 2)) (q := .ecc (.sub 3 1 2) 0) rfl).2.2.1
      3 1 2 rfl (by decide +kernel) (by decide +kernel)

end GoiKey.Rtl.BnEngine
