import GoiKey.Proofs.PqButterflies

/-!
The transforms and the products of the polynomial unit are those of the reference, bit for
bit, and nothing overflows as long as the coefficients are reduced. So two polynomials are
multiplied by their transforms.
-/

namespace GoiKey.Rtl.PqPoly

open Clocked SyncRam Butterflies Pq Polynomial

/-- The coefficients are reduced. -/
def Reduced (a : Poly) : Prop := ∀ i < 256, |a i| < q

variable {base pm : BitVec 14 → BitVec 32} {dst : BitVec 6} {inv : Bool} {l b j : Nat} {a p : Poly}
variable {r : PolyRegs} {s : PqPoly}

/-- The registers before block `b` of layer `l`. -/
structure LayerRegs (dst : BitVec 6) (inv : Bool) (l b : Nat) (r : PolyRegs) : Prop where
  slot : r.a = dst
  way : r.inv = inv
  ln : r.ln.toNat = if inv then 2 ^ l else 128 / 2 ^ l
  bstart : r.bstart.toNat = 2 * half inv l * b
  used : r.k.toNat = counter inv l b

def AtLayer (base : BitVec 14 → BitVec 32) (dst : BitVec 6) (inv : Bool) (l b : Nat) (p : Poly) (s : PqPoly) : Prop :=
  ∃ r pm, LayerRegs dst inv l b r ∧ InSlot base dst p pm ∧ At .nb r pm s

theorem half_of_ln : ∀ inv, ∀ l < 8, (if inv then 2 ^ l else 128 / 2 ^ l) = half inv l ∧
    2 * half inv l * (128 / half inv l) = 256 ∧ half inv l ≤ 128 := by
  decide

/-- The numbers of the zetas, and where the counter stands after the last block. -/
theorem counts (inv : Bool) (hl : l < 8) : counter inv l (128 / half inv l) = counter inv (l + 1) 0 ∧
    ∀ b < 128 / half inv l, counter inv l b ≤ 256 ∧
      if inv then counter inv l b = counter inv l (b + 1) + 1 else counter inv l (b + 1) = counter inv l b + 1 ∧
        counter inv l b < 255 := by
  have hall : ∀ inv, ∀ l < 8, counter inv l (128 / half inv l) = counter inv (l + 1) 0 := by decide
  have hblocks : ∀ l < 8, 128 / half true l = 2 ^ (7 - l) ∧ 128 / half false l = 2 ^ l ∧
      2 ^ (8 - l) = 2 * 2 ^ (7 - l) ∧ 2 ^ (7 - l) ≤ 128 ∧ 2 ^ l ≤ 128 := by decide
  obtain ⟨hinverse, hforward, hdouble, hlow, hhigh⟩ := hblocks l hl
  refine ⟨hall inv l hl, fun b hb => ?_⟩
  cases inv with
  | true =>
    simp only [counter, if_true]
    rw [hinverse] at hb
    omega
  | false =>
    simp only [counter, Bool.false_eq_true, if_false]
    rw [hforward] at hb
    have hpos : 1 ≤ 2 ^ l := Nat.one_le_two_pow
    omega

/-- The zeta of a block is looked up. -/
theorem begins_block (hl : l < 8) (hb : b < 128 / half inv l) :
    Runs (Reduced a) (AtLayer base dst inv l b p) (InBlock .nr1 base dst inv l b 0 p) := by
  obtain ⟨hln, hwhole, hlow⟩ := half_of_ln inv l hl
  obtain ⟨hroom, hcount⟩ := (counts inv hl).2 b hb
  have hstart : 2 * half inv l * b < 256 := by
    rw [← hwhole]
    exact Nat.mul_lt_mul_of_pos_left hb (Nat.mul_pos Nat.two_pos (half_pos inv l))
  have hlook : Runs (Reduced a) (AtLayer base dst inv l b p) (InBlock .zw base dst inv l b 0 p) := by
    apply Reaches.edge
    · rintro s ⟨r, pm, -, -, hs⟩
      exact hs.works (by decide) hs.quiet
    rintro s i ⟨r, pm, hr, hslot, hs⟩ _
    have hbstart : ¬(256 : BitVec 9) ≤ r.bstart := by
      rw [BitVec.le_def, hr.bstart]
      exact Nat.not_le.mpr hstart
    cases inv with
    | true =>
      have hless : ¬(256 : BitVec 9) ≤ r.ln := by
        rw [BitVec.le_def, hr.ln, hln]
        exact Nat.not_le.mpr (Nat.lt_of_le_of_lt hlow (by decide))
      rw [if_pos rfl] at hcount
      have hza : (r.k.setWidth 8 - 1).toNat = counter true l (b + 1) := by
        have hk := hr.used
        rw [BitVec.toNat_sub, BitVec.toNat_setWidth, hk, show (1 : BitVec 8).toNat = 1 from rfl]
        omega
      refine ⟨{ r with za := r.k.setWidth 8 - 1, k := r.k - 1, j := 0 }, pm, ?_, hslot, ?_⟩
      · refine ⟨hr.slot, hr.way, hr.ln.trans hln, hr.bstart, rfl, ?_, ?_⟩
        · have hk := hr.used
          rw [BitVec.toNat_sub, hk, show (1 : BitVec 9).toNat = 1 from rfl]
          omega
        · simp only [hr.way, if_true]
          rw [neg_zrom_toInt, hza, blockZeta, if_pos rfl, counter, if_pos rfl, Nat.sub_sub]
      · simp only [clock, fsm, hs.st, hs.regs, hr.way, if_true, if_neg hless, if_neg hbstart]
        refine hs.still rfl ?_ hs.mem (.inl rfl) rfl rfl rfl
        simp only [tick, hs.regs, hr.way]
    | false =>
      have hmore : r.ln ≠ 0 := by
        intro hzero
        have h := hr.ln
        rw [hzero, hln] at h
        exact absurd h.symm (half_pos false l).ne'
      rw [if_neg (by decide)] at hcount
      have hza : (r.k.setWidth 8 + 1).toNat = counter false l (b + 1) := by
        have hk := hr.used
        rw [BitVec.toNat_add, BitVec.toNat_setWidth, hk, show (1 : BitVec 8).toNat = 1 from rfl]
        omega
      refine ⟨{ r with za := r.k.setWidth 8 + 1, k := r.k + 1, j := 0 }, pm, ?_, hslot, ?_⟩
      · refine ⟨hr.slot, hr.way, hr.ln.trans hln, hr.bstart, rfl, ?_, ?_⟩
        · have hk := hr.used
          rw [BitVec.toNat_add, hk, show (1 : BitVec 9).toNat = 1 from rfl]
          omega
        · simp only [hr.way, Bool.false_eq_true, if_false]
          rw [zrom_toInt, hza, blockZeta, if_neg (by decide), counter, if_neg (by decide), Nat.add_assoc]
      · simp only [clock, fsm, hs.st, hs.regs, hr.way, Bool.false_eq_true, if_false, if_neg hmore, if_neg hbstart]
        refine hs.still rfl ?_ hs.mem (.inl rfl) rfl rfl rfl
        simp only [tick, hs.regs, hr.way]
  apply hlook.trans
  apply Reaches.edge
  · rintro s ⟨r, pm, -, -, hs⟩
    exact hs.works (by decide) hs.quiet
  rintro s i ⟨r, pm, hr, hslot, hs⟩ _
  refine ⟨r, pm, hr, hslot, ?_⟩
  simp only [clock, fsm, hs.st]
  exact hs.still rfl hs.regs hs.mem (.inr rfl) rfl rfl rfl

/-- On to the next pair, or to the next block. -/
theorem ends_pair (hl : l < 8) (hb : b < 128 / half inv l) (hj : j < half inv l) :
    Runs (Reduced a) (InBlock .nnext base dst inv l b j p) fun s =>
      if j + 1 = half inv l then AtLayer base dst inv l (b + 1) p s
      else InBlock .nr1 base dst inv l b (j + 1) p s := by
  obtain ⟨hln, hwhole, hlow⟩ := half_of_ln inv l hl
  have hstart : 2 * half inv l * b + 2 * half inv l ≤ 256 := by
    rw [← hwhole, ← Nat.mul_succ]
    exact Nat.mul_le_mul_left _ hb
  apply Reaches.edge
  · rintro s ⟨r, pm, -, -, hs⟩
    exact hs.works (by decide) hs.quiet
  rintro s i ⟨r, pm, hr, hslot, hs⟩ _
  have hnext : (r.j + 1).toNat = j + 1 := by
    rw [BitVec.toNat_add, hr.pair, show (1 : BitVec 9).toNat = 1 from rfl]
    omega
  split_ifs with hlast
  · have heq : r.j + 1 = r.ln := by
      apply BitVec.eq_of_toNat_eq
      rw [hnext, hr.ln, hlast]
    refine ⟨{ r with bstart := r.bstart + r.ln <<< 1 }, pm, ⟨hr.slot, hr.way, hr.ln.trans hln.symm, ?_, hr.used⟩, hslot, ?_⟩
    · have hbstart := hr.bstart
      have hstep : 2 * half inv l * (b + 1) = 2 * half inv l * b + 2 * half inv l := Nat.mul_succ _ _
      rw [BitVec.toNat_add, BitVec.toNat_shiftLeft, hr.ln, hbstart, Nat.shiftLeft_eq, hstep]
      omega
    · simp only [clock, fsm, hs.st, hs.regs, if_pos heq]
      refine hs.still rfl ?_ hs.mem (.inr rfl) rfl rfl rfl
      simp only [tick, hs.regs]
  · have hne : r.j + 1 ≠ r.ln := by
      intro heq
      rw [heq, hr.ln] at hnext
      exact hlast hnext.symm
    refine ⟨{ r with j := r.j + 1 }, pm, ⟨hr.slot, hr.way, hr.ln, hr.bstart, hnext, hr.used, hr.zeta⟩, hslot, ?_⟩
    simp only [clock, fsm, hs.st, hs.regs, if_neg hne]
    refine hs.still rfl ?_ hs.mem (.inr rfl) rfl rfl rfl
    simp only [tick, hs.regs]

/-- A block of the reference. -/
theorem transforms_block (hl : l < 8) (hb : b < 128 / half inv l) :
    Runs (Reduced a) (AtLayer base dst inv l b (blocks inv l (layers inv a l) b))
      (AtLayer base dst inv l (b + 1) (blocks inv l (layers inv a l) (b + 1))) := by
  obtain ⟨-, hwhole, -⟩ := half_of_ln inv l hl
  have hstart : 2 * half inv l * b + 2 * half inv l ≤ 256 := by
    rw [← hwhole, ← Nat.mul_succ]
    exact Nat.mul_le_mul_left _ hb
  have hround : ∀ j < half inv l,
      Runs (Reduced a) (InBlock .nr1 base dst inv l b j (pairs inv l b (blocks inv l (layers inv a l) b) j)) fun s =>
        if j + 1 = half inv l then AtLayer base dst inv l (b + 1) (pairs inv l b (blocks inv l (layers inv a l) b) (j + 1)) s
        else InBlock .nr1 base dst inv l b (j + 1) (pairs inv l b (blocks inv l (layers inv a l) b) (j + 1)) s := by
    intro j hj
    exact (butterflies (by omega) fun ha => pairs_fit ha hl hb hj).trans (ends_pair hl hb hj)
  obtain ⟨m, hm⟩ := Nat.exists_eq_succ_of_ne_zero (half_pos inv l).ne'
  have hall : Runs (Reduced a) (InBlock .nr1 base dst inv l b 0 (pairs inv l b (blocks inv l (layers inv a l) b) 0))
      (InBlock .nr1 base dst inv l b m (pairs inv l b (blocks inv l (layers inv a l) b) m)) := by
    apply Reaches.loop (I := fun j => InBlock .nr1 base dst inv l b j (pairs inv l b (blocks inv l (layers inv a l) b) j))
    intro j hj
    apply (hround j (by omega)).imp fun s h => h
    intro s h
    rwa [if_neg (by omega)] at h
  have hlast : Runs (Reduced a) (InBlock .nr1 base dst inv l b m (pairs inv l b (blocks inv l (layers inv a l) b) m))
      (AtLayer base dst inv l (b + 1) (blocks inv l (layers inv a l) (b + 1))) := by
    apply (hround m (by omega)).imp fun s h => h
    intro s h
    rw [if_pos (by omega)] at h
    have hblock : blocks inv l (layers inv a l) (b + 1) = pairs inv l b (blocks inv l (layers inv a l) b) (m + 1) := by
      rw [← Nat.succ_eq_add_one m, ← hm]
      rfl
    rw [hblock]
    exact h
  exact (begins_block hl hb).trans (hall.trans hlast)

/-- The next layer has blocks of another length. -/
theorem ends_layer (hl : l < 8) :
    Runs (Reduced a) (AtLayer base dst inv l (128 / half inv l) p) (AtLayer base dst inv (l + 1) 0 p) := by
  obtain ⟨hln, hwhole, hlow⟩ := half_of_ln inv l hl
  obtain ⟨hcount, -⟩ := counts inv hl
  apply Reaches.edge
  · rintro s ⟨r, pm, -, -, hs⟩
    exact hs.works (by decide) hs.quiet
  rintro s i ⟨r, pm, hr, hslot, hs⟩ _
  have hbstart : (256 : BitVec 9) ≤ r.bstart := by
    rw [BitVec.le_def, hr.bstart, hwhole]
    exact Nat.le_refl 256
  cases inv with
  | true =>
    have hless : ¬(256 : BitVec 9) ≤ r.ln := by
      rw [BitVec.le_def, hr.ln, hln]
      exact Nat.not_le.mpr (Nat.lt_of_le_of_lt hlow (by decide))
    refine ⟨{ r with ln := r.ln <<< 1, bstart := 0 }, pm, ⟨hr.slot, hr.way, ?_, ?_, hr.used.trans hcount⟩, hslot, ?_⟩
    · have h := hr.ln
      rw [if_pos rfl] at h hln ⊢
      rw [BitVec.toNat_shiftLeft, h, Nat.shiftLeft_eq, Nat.pow_one, ← Nat.pow_succ]
      apply Nat.mod_eq_of_lt
      calc 2 ^ (l + 1) ≤ 2 ^ 8 := Nat.pow_le_pow_right Nat.two_pos hl
        _ < 2 ^ 9 := by decide
    · rw [Nat.mul_zero]
      rfl
    · simp only [clock, fsm, hs.st, hs.regs, hr.way, if_true, if_neg hless, if_pos hbstart]
      refine hs.still hs.st ?_ hs.mem (.inr rfl) rfl rfl rfl
      simp only [tick, hs.regs, hr.way]
  | false =>
    have hmore : r.ln ≠ 0 := by
      intro hzero
      have h := hr.ln
      rw [hzero, hln] at h
      exact absurd h.symm (half_pos false l).ne'
    refine ⟨{ r with ln := r.ln >>> 1, bstart := 0 }, pm, ⟨hr.slot, hr.way, ?_, ?_, hr.used.trans hcount⟩, hslot, ?_⟩
    · have h := hr.ln
      rw [if_neg (by decide)] at h ⊢
      rw [BitVec.toNat_ushiftRight, h, Nat.shiftRight_eq_div_pow, Nat.pow_one, Nat.div_div_eq_div_mul, ← Nat.pow_succ]
    · rw [Nat.mul_zero]
      rfl
    · simp only [clock, fsm, hs.st, hs.regs, hr.way, Bool.false_eq_true, if_false, if_neg hmore, if_pos hbstart]
      refine hs.still hs.st ?_ hs.mem (.inr rfl) rfl rfl rfl
      simp only [tick, hs.regs, hr.way]

/-- All layers of the reference. -/
theorem transforms_layers : Runs (Reduced a) (AtLayer base dst inv 0 0 a) (AtLayer base dst inv 8 0 (layers inv a 8)) := by
  apply Reaches.loop (I := fun l => AtLayer base dst inv l 0 (layers inv a l))
  intro l hl
  have hblocks : Runs (Reduced a) (AtLayer base dst inv l 0 (blocks inv l (layers inv a l) 0))
      (AtLayer base dst inv l (128 / half inv l) (blocks inv l (layers inv a l) (128 / half inv l))) := by
    apply Reaches.loop (I := fun b => AtLayer base dst inv l b (blocks inv l (layers inv a l) b))
    intro b hb
    exact transforms_block hl hb
  exact hblocks.trans (ends_layer hl)

/-! The last scaling. -/

/-- The registers before coefficient `k`. -/
structure ScaleRegs (dst : BitVec 6) (k : Nat) (r : PolyRegs) : Prop where
  slot : r.a = dst
  index : r.i.toNat = k

/-- The memory once `k` coefficients have been scaled. -/
def scaled (pm : BitVec 14 → BitVec 32) (dst : BitVec 6) (k : Nat) : BitVec 14 → BitVec 32 :=
  fill pm (coefAddr dst) (fun j => Mont.reduced 41978 (pm (coefAddr dst j))) k

/-- An address that the state machine forms from a slot and the element index. -/
theorem element_addr {x : BitVec 9} {k : Nat} (hx : x.toNat = k) (slot : BitVec 6) :
    slot ++ x.setWidth 8 = coefAddr slot k := by
  rw [coefAddr, ← hx, BitVec.ofNat_toNat]

/-- A word that has not been written yet. -/
theorem fill_ahead {data : Nat → BitVec 32} {k : Nat} (hk : k < 256) (slot : BitVec 6) :
    fill pm (coefAddr dst) data k (coefAddr slot k) = pm (coefAddr slot k) := by
  apply fill_elsewhere
  intro j hj heq
  have hindex := congrArg (fun x : BitVec 14 => x.setWidth 8) heq
  simp only [index_coefAddr] at hindex
  have hnat := congrArg BitVec.toNat hindex
  rw [BitVec.toNat_ofNat, BitVec.toNat_ofNat] at hnat
  omega

variable {F : Prop} {k : Nat}

/-- The unit is done, and this is what the memory holds. -/
def Done (pm : BitVec 14 → BitVec 32) (s : PqPoly) : Prop := ∃ r, At .idle r pm s

theorem scales (hk : k < 256) (hr : ScaleRegs dst k r) :
    Runs F (At .sc r (scaled pm dst k)) fun s =>
      if k = 255 then Done (scaled pm dst (k + 1)) s
      else ∃ r, ScaleRegs dst (k + 1) r ∧ At .sc r (scaled pm dst (k + 1)) s := by
  have haddr : r.a ++ r.i.setWidth 8 = coefAddr dst k := by
    rw [element_addr hr.index, hr.slot]
  have hword : scaled pm dst k (coefAddr dst k) = pm (coefAddr dst k) := fill_ahead hk dst
  have hread : Runs F (At .sc r (scaled pm dst k)) (Fetched .scw r (scaled pm dst k) (coefAddr dst k)) := by
    apply reads .scr (by decide) (by decide)
    · intro s i hst hregs
      simp only [clock, fsm, hst, hregs, haddr]
    · intro s i hst
      simp only [clock, fsm, hst]
  have hwait : Runs F (Fetched .scw r (scaled pm dst k) (coefAddr dst k))
      (Fetched .scc r (scaled pm dst k) (coefAddr dst k)) := by
    apply plain_edge (by decide) fun s h => h.at_
    intro s i h
    simp only [clock, fsm, h.at_.st]
    refine ⟨h.at_.still rfl h.at_.regs h.at_.mem (.inr rfl) rfl rfl rfl, h.at_.mem, h.ra, ?_⟩
    have hmem : s.tick.pm.rq = s.pm.mem s.pm.ra := rfl
    rw [hmem, h.mem, h.ra]
  have hask : Runs F (Fetched .scc r (scaled pm dst k) (coefAddr dst k))
      (Piped true Drained .scm { r with ma := 41978, mb := pm (coefAddr dst k) } (scaled pm dst k)) := by
    apply plain_edge (by decide) fun s h => h.at_
    intro s i h
    simp only [clock, fsm, h.at_.st, multiply]
    refine h.at_.next rfl ?_ h.at_.mem (.inr rfl) rfl rfl (h.at_.drained _ _) rfl
    simp only [tick, h.at_.regs, h.rq, hword]
  have hproduct : Runs F (Piped true Drained .scm { r with ma := 41978, mb := pm (coefAddr dst k) } (scaled pm dst k))
      (Piped false (Stage4 { r with ma := 41978, mb := pm (coefAddr dst k) }) .scm
        { r with ma := 41978, mb := pm (coefAddr dst k) } (scaled pm dst k)) := by
    apply multiplies (by decide)
    intro s i hst hout
    simp only [clock, fsm, hst, hout, Bool.false_eq_true, if_false]
  have htake : Runs F (Piped false (Stage4 { r with ma := 41978, mb := pm (coefAddr dst k) }) .scm
        { r with ma := 41978, mb := pm (coefAddr dst k) } (scaled pm dst k))
      (At .scwr { r with ma := 41978, mb := pm (coefAddr dst k) } (scaled pm dst (k + 1))) := by
    apply takes (by decide)
    intro s i h
    obtain ⟨hout, hres, hdrained⟩ := h.taken
    simp only [clock, fsm, h.st, hout, if_true]
    refine h.next rfl h.regs ?_ (.inr rfl) rfl rfl hdrained rfl
    have hat : s.regs.a ++ s.regs.i.setWidth 8 = coefAddr dst k := by
      rw [h.regs]
      exact haddr
    rw [written_write, hat, hres, scaled, fill_succ]
    exact congrArg (fun pm => Function.update pm _ _) h.mem
  have hnext : Runs F (At .scwr { r with ma := 41978, mb := pm (coefAddr dst k) } (scaled pm dst (k + 1))) fun s =>
      if k = 255 then Done (scaled pm dst (k + 1)) s
      else ∃ r, ScaleRegs dst (k + 1) r ∧ At .sc r (scaled pm dst (k + 1)) s := by
    apply plain_edge (by decide) fun s h => h
    intro s i h
    split_ifs with hlast
    · have hi : r.i = 255 := by
        apply BitVec.eq_of_toNat_eq
        rw [hr.index, hlast]
        rfl
      refine ⟨{ r with ma := 41978, mb := pm (coefAddr dst k) }, ?_⟩
      simp only [clock, fsm, h.st, h.regs, if_pos hi, finish]
      exact h.still rfl h.regs h.mem (.inr rfl) rfl rfl rfl
    · have hi : r.i ≠ 255 := by
        intro heq
        have hindex := hr.index
        rw [heq] at hindex
        exact hlast hindex.symm
      refine ⟨{ r with ma := 41978, mb := pm (coefAddr dst k), i := r.i + 1 }, ⟨hr.slot, ?_⟩, ?_⟩
      · have hindex := hr.index
        rw [BitVec.toNat_add, hindex, show (1 : BitVec 9).toNat = 1 from rfl]
        omega
      · simp only [clock, fsm, h.st, h.regs, if_neg hi]
        refine h.still rfl ?_ h.mem (.inr rfl) rfl rfl rfl
        simp only [tick, h.regs]
  exact hread.trans (hwait.trans (hask.trans (hproduct.trans (htake.trans hnext))))

/-- A loop over the coefficients whose last round ends the operation. -/
theorem elements {R : Nat → PolyRegs → Prop} {st : PolyState} {mem : Nat → BitVec 14 → BitVec 32}
    (hround : ∀ k < 256, ∀ r, R k r → Runs F (At st r (mem k)) fun s =>
      if k = 255 then Done (mem (k + 1)) s else ∃ r, R (k + 1) r ∧ At st r (mem (k + 1)) s) :
    Runs F (fun s => ∃ r, R 0 r ∧ At st r (mem 0) s) (Done (mem 256)) := by
  have hone : ∀ k < 256, Runs F (fun s => ∃ r, R k r ∧ At st r (mem k) s) fun s =>
      if k = 255 then Done (mem (k + 1)) s else ∃ r, R (k + 1) r ∧ At st r (mem (k + 1)) s := by
    rintro k hk s ⟨r, hr, hs⟩
    exact hround k hk r hr s hs
  have hall : Runs F (fun s => ∃ r, R 0 r ∧ At st r (mem 0) s) fun s => ∃ r, R 255 r ∧ At st r (mem 255) s := by
    apply Reaches.loop (I := fun k s => ∃ r, R k r ∧ At st r (mem k) s)
    intro k hk
    apply (hone k (by omega)).imp fun s h => h
    intro s h
    rwa [if_neg (by omega)] at h
  apply hall.trans
  apply (hone 255 (by decide)).imp fun s h => h
  intro s h
  rwa [if_pos rfl] at h

theorem finishes_ntt : Runs F (AtLayer base dst false 8 0 p) fun s => ∃ pm, InSlot base dst p pm ∧ Done pm s := by
  apply Reaches.edge
  · rintro s ⟨r, pm, -, -, hs⟩
    exact hs.works (by decide) hs.quiet
  rintro s i ⟨r, pm, hr, hslot, hs⟩ _
  have hzero : r.ln = 0 := BitVec.eq_of_toNat_eq (hr.ln.trans rfl)
  refine ⟨pm, hslot, r, ?_⟩
  simp only [clock, fsm, hs.st, hs.regs, hr.way, Bool.false_eq_true, if_false, if_pos hzero, finish]
  exact hs.still rfl hs.regs hs.mem (.inr rfl) rfl rfl rfl

theorem finishes_intt :
    Runs F (AtLayer base dst true 8 0 p) fun s => ∃ pm, InSlot base dst p pm ∧ Done (scaled pm dst 256) s := by
  have hscale : Runs F (AtLayer base dst true 8 0 p) fun s =>
      ∃ pm, InSlot base dst p pm ∧ ∃ r, ScaleRegs dst 0 r ∧ At .sc r (scaled pm dst 0) s := by
    apply Reaches.edge
    · rintro s ⟨r, pm, -, -, hs⟩
      exact hs.works (by decide) hs.quiet
    rintro s i ⟨r, pm, hr, hslot, hs⟩ _
    have hfull : (256 : BitVec 9) ≤ r.ln := by
      rw [BitVec.le_def, hr.ln]
      exact Nat.le_refl 256
    refine ⟨pm, hslot, { r with i := 0 }, ⟨hr.slot, rfl⟩, ?_⟩
    simp only [clock, fsm, hs.st, hs.regs, hr.way, if_true, if_pos hfull]
    refine hs.still rfl ?_ hs.mem (.inr rfl) rfl rfl rfl
    simp only [tick, hs.regs, hr.way]
  apply hscale.trans
  rintro s ⟨pm, hslot, hs⟩
  have hall : Runs F (fun s => ∃ r, ScaleRegs dst 0 r ∧ At .sc r (scaled pm dst 0) s) (Done (scaled pm dst 256)) :=
    elements fun k hk r hr => scales hk hr
  intro i hi
  obtain ⟨n, hn, hdone⟩ := hall s hs i hi
  exact ⟨n, hn, pm, hslot, hdone⟩

/-! Pointwise products. -/

/-- The memory once `k` products have been written. -/
def multiplied (pm : BitVec 14 → BitVec 32) (a : PolyArgs) (k : Nat) : BitVec 14 → BitVec 32 :=
  fill pm (coefAddr a.sa) (fun j => Mont.reduced (pm (coefAddr a.sb j)) (pm (coefAddr a.sc j))) k

/-- The registers before product `k`. -/
structure ProductRegs (a : PolyArgs) (k : Nat) (r : PolyRegs) : Prop where
  op : r.op = .pmul
  slot : r.a = a.sa
  left : r.sl0 = a.sb
  right : r.sl1 = a.sc
  nr : r.nr = 2
  rk : r.rk = 0
  index : r.i.toNat = k

variable {c : PolyArgs}

/-- Both factors are read. -/
theorem reads_factors {x y : BitVec 32} (hr : ProductRegs c k r) (hx : pm (coefAddr c.sb k) = x)
    (hy : pm (coefAddr c.sc k) = y) :
    Runs F (At .rd r pm) (At .calc { r with r0 := x, r1 := y, rk := 1 } pm) := by
  have hleft : r.rslot ++ r.i.setWidth 8 = coefAddr c.sb k := by
    rw [PolyRegs.rslot, hr.rk, if_pos rfl, hr.left, element_addr hr.index]
  have hread0 : Runs F (At .rd r pm) (Fetched .rdc r pm (coefAddr c.sb k)) := by
    apply reads .rdw (by decide) (by decide)
    · intro s i hst hregs
      simp only [clock, fsm, hst, hregs, hleft]
    · intro s i hst
      simp only [clock, fsm, hst]
  have hkeep0 : Runs F (Fetched .rdc r pm (coefAddr c.sb k)) (At .rd { r with r0 := x, rk := 1 } pm) := by
    apply plain_edge (by decide) fun s h => h.at_
    intro s i h
    have hmore : (0 : BitVec 2) + 1 ≠ r.nr := by
      rw [hr.nr]
      decide
    simp only [clock, fsm, h.at_.st, h.at_.regs, hr.rk, if_neg hmore, if_true]
    refine h.at_.still rfl ?_ h.at_.mem (.inr rfl) rfl rfl rfl
    rw [h.rq, hx]
    rfl
  have hright : PolyRegs.rslot { r with r0 := x, rk := 1 } ++ r.i.setWidth 8 = coefAddr c.sc k := by
    have hnot : (1 : BitVec 2) ≠ 0 := by decide
    rw [PolyRegs.rslot, if_neg hnot, if_pos rfl, hr.right, element_addr hr.index]
  have hread1 : Runs F (At .rd { r with r0 := x, rk := 1 } pm)
      (Fetched .rdc { r with r0 := x, rk := 1 } pm (coefAddr c.sc k)) := by
    apply reads .rdw (by decide) (by decide)
    · intro s i hst hregs
      simp only [clock, fsm, hst, hregs, hright]
    · intro s i hst
      simp only [clock, fsm, hst]
  have hkeep1 : Runs F (Fetched .rdc { r with r0 := x, rk := 1 } pm (coefAddr c.sc k))
      (At .calc { r with r0 := x, r1 := y, rk := 1 } pm) := by
    apply plain_edge (by decide) fun s h => h.at_
    intro s i h
    have henough : (1 : BitVec 2) + 1 = r.nr := by
      rw [hr.nr]
      decide
    have hnot : (1 : BitVec 2) ≠ 0 := by decide
    simp only [clock, fsm, h.at_.st, h.at_.regs, if_pos henough, if_neg hnot, if_true]
    refine h.at_.still rfl ?_ h.at_.mem (.inr rfl) rfl rfl rfl
    rw [h.rq, hy]
  exact hread0.trans (hkeep0.trans (hread1.trans hkeep1))

theorem multiplies_element (hk : k < 256) (hr : ProductRegs c k r) :
    Runs F (At .rd r (multiplied pm c k)) fun s =>
      if k = 255 then Done (multiplied pm c (k + 1)) s
      else ∃ r, ProductRegs c (k + 1) r ∧ At .rd r (multiplied pm c (k + 1)) s := by
  obtain ⟨x, hx⟩ : ∃ x, pm (coefAddr c.sb k) = x := ⟨_, rfl⟩
  obtain ⟨y, hy⟩ : ∃ y, pm (coefAddr c.sc k) = y := ⟨_, rfl⟩
  have hread : Runs F (At .rd r (multiplied pm c k))
      (At .calc { r with r0 := x, r1 := y, rk := 1 } (multiplied pm c k)) :=
    reads_factors hr ((fill_ahead hk c.sb).trans hx) ((fill_ahead hk c.sc).trans hy)
  have hask : Runs F (At .calc { r with r0 := x, r1 := y, rk := 1 } (multiplied pm c k))
      (Piped true Drained .mul { r with r0 := x, r1 := y, rk := 1, ma := x, mb := y } (multiplied pm c k)) := by
    apply plain_edge (by decide) fun s h => h
    intro s i h
    simp only [clock, fsm, h.st, h.regs, hr.op, multiply]
    refine h.next rfl ?_ h.mem (.inr rfl) rfl rfl (h.drained _ _) rfl
    simp only [tick, h.regs, hr.op]
  have hproduct : Runs F (Piped true Drained .mul { r with r0 := x, r1 := y, rk := 1, ma := x, mb := y } (multiplied pm c k))
      (Piped false (Stage4 { r with r0 := x, r1 := y, rk := 1, ma := x, mb := y }) .mul
        { r with r0 := x, r1 := y, rk := 1, ma := x, mb := y } (multiplied pm c k)) := by
    apply multiplies (by decide)
    intro s i hst hout
    simp only [clock, fsm, hst, hout, Bool.false_eq_true, if_false]
  have htake : Runs F (Piped false (Stage4 { r with r0 := x, r1 := y, rk := 1, ma := x, mb := y }) .mul
        { r with r0 := x, r1 := y, rk := 1, ma := x, mb := y } (multiplied pm c k))
      (At .wr0 { r with r0 := x, r1 := y, rk := 1, ma := x, mb := y, res0 := Mont.reduced x y } (multiplied pm c k)) := by
    apply takes (by decide)
    intro s i h
    obtain ⟨hout, hres, hdrained⟩ := h.taken
    have hop : r.op ≠ .pmula := by
      rw [hr.op]
      decide
    simp only [clock, fsm, h.st, h.regs, hout, if_true, if_neg hop]
    refine h.next rfl ?_ h.mem (.inr rfl) rfl rfl hdrained rfl
    simp only [tick, h.regs, hres]
  have hwrite : Runs F
      (At .wr0 { r with r0 := x, r1 := y, rk := 1, ma := x, mb := y, res0 := Mont.reduced x y } (multiplied pm c k))
      (At .next { r with r0 := x, r1 := y, rk := 1, ma := x, mb := y, res0 := Mont.reduced x y }
        (multiplied pm c (k + 1))) := by
    apply plain_edge (by decide) fun s h => h
    intro s i h
    have hone : ¬(r.op = .p2r ∨ r.op = .pdec) := by
      rw [hr.op]
      decide
    simp only [clock, fsm, h.st, h.regs, if_neg hone]
    refine h.still rfl h.regs ?_ (.inr rfl) rfl rfl rfl
    rw [written_write, hr.slot, element_addr hr.index, multiplied, fill_succ, hx, hy]
    exact congrArg (fun pm => Function.update pm _ _) h.mem
  have hnext : Runs F
      (At .next { r with r0 := x, r1 := y, rk := 1, ma := x, mb := y, res0 := Mont.reduced x y }
        (multiplied pm c (k + 1))) fun s =>
      if k = 255 then Done (multiplied pm c (k + 1)) s
      else ∃ r, ProductRegs c (k + 1) r ∧ At .rd r (multiplied pm c (k + 1)) s := by
    apply plain_edge (by decide) fun s h => h
    intro s i h
    split_ifs with hlast
    · have hi : r.i = 255 := by
        apply BitVec.eq_of_toNat_eq
        rw [hr.index, hlast]
        rfl
      refine ⟨{ r with r0 := x, r1 := y, rk := 1, ma := x, mb := y, res0 := Mont.reduced x y }, ?_⟩
      simp only [clock, fsm, h.st, h.regs, if_pos hi, finish]
      exact h.still rfl h.regs h.mem (.inr rfl) rfl rfl rfl
    · have hi : r.i ≠ 255 := by
        intro heq
        have hindex := hr.index
        rw [heq] at hindex
        exact hlast hindex.symm
      refine ⟨{ r with r0 := x, r1 := y, rk := 0, ma := x, mb := y, res0 := Mont.reduced x y, i := r.i + 1 },
        ⟨hr.op, hr.slot, hr.left, hr.right, hr.nr, rfl, ?_⟩, ?_⟩
      · have hindex := hr.index
        rw [BitVec.toNat_add, hindex, show (1 : BitVec 9).toNat = 1 from rfl]
        omega
      · simp only [clock, fsm, h.st, h.regs, if_neg hi]
        refine h.still rfl ?_ h.mem (.inr rfl) rfl rfl rfl
        simp only [tick, h.regs]
  exact hread.trans (hask.trans (hproduct.trans (htake.trans (hwrite.trans hnext))))

/-! Calls. -/

/-- At rest, with an empty multiplier. -/
structure Quiet (s : PqPoly) : Prop where
  st : s.st = .idle
  mIn : s.mIn = false
  mont : Drained s.mont

abbrev Call (a : PolyArgs) : PqPoly → PqPoly → Prop :=
  Clocked.Call clock (fun _ => True) (fun _ => True) Busy fun i => i.start = some a

abbrev Ends (a : PolyArgs) : PqPoly → Prop :=
  Clocked.Ends clock (fun _ => True) (fun _ => True) Busy fun i => i.start = some a

/-- No sum of the operation goes over the datapath. -/
abbrev NoOverflow (a : PolyArgs) : PqPoly → Prop :=
  Clocked.Throughout clock (fun _ => True) (fun _ => True) Busy (fun i => i.start = some a) Exact

/-- The polynomial in a slot. -/
def coefs (s : PqPoly) (slot : BitVec 6) : Poly := fun k => (s.pm.written (coefAddr slot k)).toInt

/-- The operation ends with the polynomial `p` in the slot and the rest of the memory as it
was; under `F` nothing overflows. -/
structure Computes (a : PolyArgs) (s : PqPoly) (F : Prop) (dst : BitVec 6) (p : Poly) : Prop where
  ends : Ends a s
  exact_ : F → NoOverflow a s
  quiet : ∀ u, Call a s u → Quiet u
  coefs : ∀ u, Call a s u → ∀ k < 256, coefs u dst k = p k
  elsewhere : ∀ u, Call a s u → SameElsewhere dst s.pm.written u.pm.written

theorem Computes.of {P : PqPoly → Prop} {a : PolyArgs} (hstart : ∀ i, True → i.start = some a → P (clock s i))
    (hrun : Runs F P fun t => ∃ pm, InSlot s.pm.written dst p pm ∧ Done pm t) : Computes a s F dst p := by
  have hidle : ∀ t, (∃ pm, InSlot s.pm.written dst p pm ∧ Done pm t) → ¬Busy t :=
    fun t ⟨_, _, r, ht⟩ hb => hb ht.st
  have hbusy : Reaches clock (fun _ => True) (fun _ => True) Busy P _ := hrun.mono fun t h => h.1
  refine ⟨Clocked.Ends.of hstart hbusy hidle, fun hF => ?_, fun u hu => ?_, fun u hu k hk => ?_, fun u hu => ?_⟩
  · exact Clocked.Throughout.of hstart (hrun.mono fun t h => ⟨h.1, h.2 hF⟩) hidle
  · obtain ⟨pm, -, r, ht⟩ := hu.leads hstart hbusy hidle
    exact ⟨ht.st, ht.mIn, ht.mont⟩
  · obtain ⟨pm, hslot, r, ht⟩ := hu.leads hstart hbusy hidle
    rw [PqPoly.coefs, ht.mem]
    exact hslot.holds k hk
  · obtain ⟨pm, hslot, r, ht⟩ := hu.leads hstart hbusy hidle
    rw [ht.mem]
    exact hslot.elsewhere

/-- What a start leaves. -/
theorem started (hs : Quiet s) {n : PqPoly} {st : PolyState} (hst : n.st = st) (hregs : n.regs = r)
    (hza : r.za = s.regs.za) (hrom : n.zq = s.tick.zq) (hmem : n.pm = s.tick.pm) (hin : n.mIn = false)
    (hmont : n.mont = s.tick.mont) : At st r s.pm.written n := by
  refine ⟨hst, hregs, by rw [hmem]; rfl, fun _ => ?_, hin, ?_⟩
  · rw [hrom, hza]
    rfl
  · rw [hmont, tick, hs.mIn]
    exact hs.mont.clock _ _

theorem holds_coefs (s : PqPoly) (slot : BitVec 6) : InSlot s.pm.written slot (coefs s slot) s.pm.written :=
  ⟨fun _ _ => rfl, .refl _ _⟩

/-- An NTT is the one of the reference. -/
theorem ntt (hs : Quiet s) (a : PolyArgs) (hop : a.op = .ntt) :
    Computes a s (Reduced (coefs s a.sa)) a.sa (opNtt (coefs s a.sa)) := by
  apply Computes.of (P := AtLayer s.pm.written a.sa false 0 0 (coefs s a.sa))
  · intro i _ hi
    refine ⟨{ load s.regs a with inv := false, ln := 128, bstart := 0, j := 0, k := 0 }, s.pm.written,
      ⟨rfl, rfl, rfl, rfl, rfl⟩, holds_coefs s a.sa, ?_⟩
    simp only [clock, fsm, hs.st, hi, start, hop]
    exact started hs rfl rfl rfl rfl rfl rfl rfl
  · rw [opNtt_eq]
    exact transforms_layers.trans finishes_ntt

/-- A scaled slot is what the reference has in the end. -/
theorem scaled_slot (h : InSlot base dst (layers true a 8) pm) : InSlot base dst (opIntt a) (scaled pm dst 256) := by
  refine ⟨fun k hk => ?_, fun x hx => ?_⟩
  · rw [scaled, fill_at (coefAddr_inj dst) hk, Mont.toInt_reduced, h.holds k hk, opIntt_eq]
    rfl
  · rw [scaled, fill_elsewhere]
    · exact h.elsewhere x hx
    · intro k _ heq
      rw [heq] at hx
      exact hx (slot_coefAddr dst k)

/-- An inverse NTT is the one of the reference. -/
theorem intt (hs : Quiet s) (a : PolyArgs) (hop : a.op = .intt) :
    Computes a s (Reduced (coefs s a.sa)) a.sa (opIntt (coefs s a.sa)) := by
  apply Computes.of (P := AtLayer s.pm.written a.sa true 0 0 (coefs s a.sa))
  · intro i _ hi
    refine ⟨{ load s.regs a with inv := true, ln := 1, bstart := 0, j := 0, k := 256 }, s.pm.written,
      ⟨rfl, rfl, rfl, rfl, rfl⟩, holds_coefs s a.sa, ?_⟩
    simp only [clock, fsm, hs.st, hi, start, hop]
    exact started hs rfl rfl rfl rfl rfl rfl rfl
  · apply (transforms_layers.trans finishes_intt).imp fun t h => h
    rintro t ⟨pm, hslot, hdone⟩
    exact ⟨_, scaled_slot hslot, hdone⟩

/-- Pointwise products are those of the reference, whichever slots they are of; their
arithmetic never overflows. -/
theorem pmul (hs : Quiet s) (a : PolyArgs) (hop : a.op = .pmul) :
    Computes a s True a.sa (opPmul (coefs s a.sb) (coefs s a.sc)) := by
  apply Computes.of (P := fun t => ∃ r, ProductRegs a 0 r ∧ At .rd r (multiplied s.pm.written a 0) t)
  · intro i _ hi
    refine ⟨{ load s.regs a with nr := 2, sl0 := a.sb, sl1 := a.sc, sl2 := a.sc }, ⟨hop, rfl, rfl, rfl, rfl, rfl, rfl⟩, ?_⟩
    simp only [clock, fsm, hs.st, hi, start, hop]
    exact started hs rfl rfl rfl rfl rfl rfl rfl
  · have hall : Runs True (fun t => ∃ r, ProductRegs a 0 r ∧ At .rd r (multiplied s.pm.written a 0) t)
        (Done (multiplied s.pm.written a 256)) := elements fun k hk r hr => multiplies_element hk hr
    apply hall.imp fun t h => h
    intro t hdone
    refine ⟨_, ⟨fun k hk => ?_, fun x hx => ?_⟩, hdone⟩
    · rw [multiplied, fill_at (coefAddr_inj a.sa) hk, Mont.toInt_reduced]
      rfl
    · rw [multiplied, fill_elsewhere]
      intro k _ heq
      rw [heq] at hx
      exact hx (slot_coefAddr a.sa k)

theorem Reduced.congr {a b : Poly} (ha : Reduced a) (h : ∀ k < 256, b k = a k) : Reduced b := by
  intro k hk
  rw [h k hk]
  exact ha k hk

/-- X in slot 0 and X^255 in slot 1. -/
def atRest : PqPoly where
  st := .idle
  regs :=
    { op := .ntt, a := 0, b := 0, c := 0, i := 0, rk := 0, nr := 0, sl0 := 0, sl1 := 0, sl2 := 0, r0 := 0, r1 := 0,
      r2 := 0, res0 := 0, res1 := 0, ln := 0, bstart := 0, k := 0, j := 0, x := 0, y := 0, zeta := 0, tt := 0,
      inv := false, za := 0, ma := 0, mb := 0, flagOr := false, hintCnt := 0 }
  busy := false
  done := false
  mIn := false
  mont :=
    { v1 := false, v2 := false, v3 := false, p1 := 0, p2 := 0, p3 := 0, t2 := 0, m3 := 0, outV := false, r := 0 }
  zq := 0
  pm :=
    { mem := fun x => if x = coefAddr 0 1 ∨ x = coefAddr 1 255 then 1 else 0, ra := 0, rq := 0, we := false, wa := 0,
      wd := 0 }

theorem quiet_atRest : Quiet atRest := ⟨rfl, rfl, ⟨rfl, rfl, rfl, rfl⟩⟩

theorem reduced_atRest (slot : BitVec 6) : Reduced (coefs atRest slot) := by
  intro k _
  have hword : ∀ x, atRest.pm.written x = 1 ∨ atRest.pm.written x = 0 := by
    intro x
    by_cases hx : x = coefAddr 0 1 ∨ x = coefAddr 1 255
    · exact .inl (if_pos hx)
    · exact .inr (if_neg hx)
  rw [coefs]
  rcases hword (coefAddr slot k) with h | h <;> rw [h] <;> decide

/-- Something is asked for, and nothing more. -/
def asks (a : PolyArgs) (n : Nat) : PolyIn where
  start := if n = 0 then some a else none
  g2sel := false
  bound := 0

theorem Computes.call {F : Prop} {a : PolyArgs} (h : Computes a s F dst p) : ∃ u, Call a s u :=
  h.ends.call (i := asks a) ⟨fun _ => trivial, fun n => ⟨n, Nat.le_refl n, trivial⟩⟩ rfl

/-- The transform of a slot, either way. -/
def transforms (op : PolyOp) (slot : BitVec 6) : PolyArgs := ⟨op, slot, 0, 0⟩

def multiplies01 : PolyArgs := ⟨.pmul, 2, 0, 1⟩

end GoiKey.Rtl.PqPoly
