import Mathlib.Tactic.IntervalCases
import GoiKey.Lib.Clocked
import GoiKey.Lib.Sha3
import GoiKey.Model.ShakeUnit

/-! The passes of keccak_core.v, and its rounds. -/

namespace GoiKey.Rtl.KeccakCore

open Clocked Keccak
open Sha3 (parity theta)

variable {s : KeccakCore} {i : Keccak.In} {b : Bool} {r m : Nat} {M : BitVec 6 → BitVec 64}

/-! The rotator. -/

theorem getLsbD_rotate (x : BitVec 64) (k : Nat) {i : Nat} (hi : i < 64) :
    (x.rotateLeft k).getLsbD i = x.getLsbD ((i + 64 - k % 64) % 64) := by
  rw [BitVec.getLsbD_rotateLeft]
  by_cases hlt : i < k % 64
  · rw [decide_eq_true hlt, cond_true]
    congr 1
    omega
  · rw [decide_eq_false hlt, cond_false, decide_eq_true hi, Bool.true_and]
    congr 1
    omega

theorem rotate_rotate (x : BitVec 64) (k l : Nat) : (x.rotateLeft k).rotateLeft l = x.rotateLeft (k + l) := by
  apply BitVec.eq_of_getLsbD_eq
  intro i hi
  rw [getLsbD_rotate _ _ hi, getLsbD_rotate _ _ (Nat.mod_lt _ (by decide)), getLsbD_rotate _ _ hi]
  congr 1
  omega

/-- A stage of the rotator. -/
theorem rotate_stage (x : BitVec 64) {k l : Nat} (h : l + k = 64) (hl : 0 < l) :
    (x.extractLsb' 0 l ++ x.extractLsb' l k).cast h = x.rotateLeft k := by
  apply BitVec.eq_of_getLsbD_eq
  intro i hi
  rw [getLsbD_rotate _ _ hi, BitVec.getLsbD_cast, BitVec.getLsbD_append, BitVec.getLsbD_extractLsb',
    BitVec.getLsbD_extractLsb', Nat.mod_eq_of_lt (show k < 64 by omega)]
  by_cases hlt : i < k
  · rw [if_pos hlt, decide_eq_true hlt, Bool.true_and, Nat.mod_eq_of_lt (by omega)]
    congr 1
    omega
  · rw [if_neg hlt, decide_eq_true (show i - k < l by omega), Bool.true_and]
    congr 1
    omega

theorem rotate_if (x : BitVec 64) (c : Bool) {k l : Nat} (h : l + k = 64) (hl : 0 < l) :
    (if c then (x.extractLsb' 0 l ++ x.extractLsb' l k).cast h else x) = x.rotateLeft (if c then k else 0) := by
  cases c with
  | true => exact rotate_stage x h hl
  | false =>
    apply BitVec.eq_of_getLsbD_eq
    intro i hi
    rw [getLsbD_rotate _ _ hi]
    congr 1
    simp only [Bool.false_eq_true, if_false]
    omega

theorem rotl64_eq (x : BitVec 64) (n : BitVec 6) : rotl64 x n = x.rotateLeft n.toNat := by
  have hsum : ∀ n : BitVec 6, (if n.getLsbD 0 then 1 else 0) + (if n.getLsbD 1 then 2 else 0) +
      (if n.getLsbD 2 then 4 else 0) + (if n.getLsbD 3 then 8 else 0) + (if n.getLsbD 4 then 16 else 0) +
      (if n.getLsbD 5 then 32 else 0) = n.toNat := by decide
  rw [← hsum n, ← rotate_rotate, ← rotate_rotate, ← rotate_rotate, ← rotate_rotate, ← rotate_rotate,
    ← rotate_if x _ (k := 1) (l := 63) rfl (by decide), ← rotate_if _ _ (k := 2) (l := 62) rfl (by decide),
    ← rotate_if _ _ (k := 4) (l := 60) rfl (by decide), ← rotate_if _ _ (k := 8) (l := 56) rfl (by decide),
    ← rotate_if _ _ (k := 16) (l := 48) rfl (by decide), ← rotate_if _ _ (k := 32) (l := 32) rfl (by decide)]
  rfl

/-! The tables. -/

theorem lane5_eq : ∀ x < 5, ∀ y < 5, lane5 (BitVec.ofNat 3 x) (BitVec.ofNat 3 y) = BitVec.ofNat 5 (5 * y + x) := by
  decide

theorem srcl_eq : ∀ r < 5, ∀ x < 5,
    srcl (BitVec.ofNat 3 r) (BitVec.ofNat 3 x) = BitVec.ofNat 5 (5 * x + (x + 3 * r) % 5) := by decide

theorem keccakRot_eq : ∀ x y : Fin 5, (keccakRot (BitVec.ofNat 5 (Sha3.index x y))).toNat = Sha3.offset x y % 64 := by
  decide +kernel

theorem keccakRc_eq : ∀ r < 24, keccakRc (BitVec.ofNat 5 r) = Sha3.roundConstant 64 r := by decide +kernel

/-- The rotation of a lane. -/
theorem rotl64_lane (x y : Fin 5) (v : BitVec 64) :
    rotl64 v (keccakRot (BitVec.ofNat 5 (Sha3.index x y))) = v.rotateLeft (Sha3.offset x y) := by
  rw [rotl64_eq, keccakRot_eq]
  apply BitVec.eq_of_getLsbD_eq
  intro i hi
  rw [getLsbD_rotate _ _ hi, getLsbD_rotate _ _ hi, Nat.mod_mod]

/-! The state in a bank. -/

def laneAddr (b : Bool) (n : Nat) : BitVec 6 := addr b (BitVec.ofNat 5 n)

def stateOf (M : BitVec 6 → BitVec 64) (b : Bool) : Sha3.State 64 := fun x y => M (laneAddr b (Sha3.index x y))

theorem laneAddr_inj : ∀ b b' : Bool, ∀ n < 32, ∀ n' < 32, laneAddr b n = laneAddr b' n' → b = b' ∧ n = n' := by decide +kernel

/-- The addresses in the order of the columns. -/
def colAddr (b : Bool) (n : Nat) : BitVec 6 := laneAddr b (5 * (n % 5) + n / 5)

/-- The lanes in that order. -/
def colLane (a : Sha3.State 64) (n : Nat) : BitVec 64 := a (Fin.ofNat 5 (n / 5)) (Fin.ofNat 5 (n % 5))

theorem colAddr_eq {n : Nat} (hn : n < 25) :
    addr b (lane5 (BitVec.ofNat 3 (n / 5)) (BitVec.ofNat 3 (n % 5))) = colAddr b n := by
  rw [lane5_eq _ (by omega) _ (Nat.mod_lt _ (by decide))]
  rfl

theorem colAddr_at {n : Nat} (hn : n < 25) : M (colAddr b n) = colLane (stateOf M b) n := by
  have hindex : Sha3.index (Fin.ofNat 5 (n / 5)) (Fin.ofNat 5 (n % 5)) = 5 * (n % 5) + n / 5 := by
    rw [Sha3.index, Fin.val_ofNat, Fin.val_ofNat, Nat.mod_mod, Nat.mod_eq_of_lt (show n / 5 < 5 by omega)]
  rw [colLane, stateOf, hindex, colAddr]

theorem colAddr_inj {n n' : Nat} (hn : n < 25) (hn' : n' < 25) (h : colAddr b n = colAddr b n') : n = n' := by
  have hlane := (laneAddr_inj b b _ (by omega) _ (by omega) h).2
  omega

/-- The state when all its lanes have been written. -/
theorem stateOf_cols {a : Sha3.State 64} : stateOf (fill M (colAddr b) (colLane a) 25) b = a := by
  funext x y
  have hcol : laneAddr b (Sha3.index x y) = colAddr b (5 * x.val + y.val) := by
    rw [colAddr, Sha3.index]
    congr 1
    omega
  rw [stateOf, hcol, fill_at (fun _ hi _ hj he => colAddr_inj hi hj he) (by omega), colLane]
  congr 1
  · apply Fin.ext
    rw [Fin.val_ofNat]
    omega
  · apply Fin.ext
    rw [Fin.val_ofNat]
    omega

/-! The rings. -/

def pushes (g : Keccak.Ring) (f : Nat → BitVec 64) : Nat → Keccak.Ring
  | 0 => g
  | n + 1 => (pushes g f n).push (f n)

/-- A ring that has turned so far. -/
def turned (f : Fin 5 → BitVec 64) (x : Fin 5) : Keccak.Ring := ⟨f x, f (x + 1), f (x + 2), f (x + 3), f (x + 4)⟩

theorem turned_next (f : Fin 5 → BitVec 64) (x : Fin 5) : (turned f x).push (turned f x).w0 = turned f (x + 1) := by
  have hsum : x + 1 + 1 = x + 2 ∧ x + 1 + 2 = x + 3 ∧ x + 1 + 3 = x + 4 ∧ x + 1 + 4 = x := by
    revert x
    decide
  rw [turned, turned, hsum.1, hsum.2.1, hsum.2.2.1, hsum.2.2.2]
  rfl

theorem pushes_five (g : Keccak.Ring) (f : Fin 5 → BitVec 64) :
    pushes g (fun n => f (Fin.ofNat 5 n)) 5 = turned f 0 := rfl

/-! The counters of the passes over the lanes. -/

/-- Before clock `m` of a pass. -/
structure Counting (m : Nat) (s : KeccakCore) : Prop where
  c : s.c = BitVec.ofNat 5 m
  ix : s.ix = BitVec.ofNat 3 (min m 25 / 5)
  iy : s.iy = BitVec.ofNat 3 (min m 25 % 5)
  cx : s.cx = BitVec.ofNat 3 ((m - 2) / 5)
  cy : s.cy = BitVec.ofNat 3 ((m - 2) % 5)

theorem c_le : ∀ m < 27, ∀ n < 27, BitVec.ofNat 5 m ≤ BitVec.ofNat 5 n ↔ m ≤ n := by decide

theorem c_eq : ∀ m < 27, ∀ n < 27, BitVec.ofNat 5 m = BitVec.ofNat 5 n ↔ m = n := by decide

theorem x_eq : ∀ m < 8, ∀ n < 8, BitVec.ofNat 3 m = BitVec.ofNat 3 n ↔ m = n := by decide

theorem c_next (m : Nat) : BitVec.ofNat 5 m + 1 = BitVec.ofNat 5 (m + 1) := (BitVec.ofNat_add m 1).symm

theorem x_next (m : Nat) : BitVec.ofNat 3 m + 1 = BitVec.ofNat 3 (m + 1) := (BitVec.ofNat_add m 1).symm

/-- The next coordinates. -/
theorem coords_next (n : Nat) :
    (if BitVec.ofNat 3 (n % 5) = 4 then BitVec.ofNat 3 (n / 5) + 1 else BitVec.ofNat 3 (n / 5)) =
        BitVec.ofNat 3 ((n + 1) / 5) ∧
      (if BitVec.ofNat 3 (n % 5) = 4 then 0 else BitVec.ofNat 3 (n % 5) + 1) = BitVec.ofNat 3 ((n + 1) % 5) := by
  have hiff : BitVec.ofNat 3 (n % 5) = 4 ↔ n % 5 = 4 := x_eq _ (by omega) 4 (by decide)
  by_cases h : n % 5 = 4
  · rw [if_pos (hiff.mpr h), if_pos (hiff.mpr h), x_next]
    exact ⟨congrArg _ (by omega), congrArg (BitVec.ofNat 3) (show 0 = (n + 1) % 5 by omega)⟩
  · rw [if_neg fun he => h (hiff.mp he), if_neg fun he => h (hiff.mp he), x_next]
    exact ⟨congrArg _ (by omega), congrArg _ (by omega)⟩

/-- A clock of a pass goes on to the next one. -/
theorem Counting.next {n : KeccakCore} (h : Counting m s) (hm : m < 26) (hix : n.ix = s.ix) (hiy : n.iy = s.iy)
    {u : KeccakCore} (hc : u.c = s.c + 1)
    (hissue : u.ix = (s.issue n).ix ∧ u.iy = (s.issue n).iy)
    (hcoords : u.cx = (if 2 ≤ s.c then (if s.cy = 4 then s.cx + 1 else s.cx) else s.cx) ∧
      u.cy = if 2 ≤ s.c then (if s.cy = 4 then 0 else s.cy + 1) else s.cy) : Counting (m + 1) u := by
  have h24 : s.c ≤ 24 ↔ m ≤ 24 := by
    rw [h.c]
    exact c_le m (by omega) 24 (by decide)
  have h2 : 2 ≤ s.c ↔ 2 ≤ m := by
    rw [h.c]
    exact c_le 2 (by decide) m (by omega)
  have hissued : u.ix = BitVec.ofNat 3 (min (m + 1) 25 / 5) ∧ u.iy = BitVec.ofNat 3 (min (m + 1) 25 % 5) := by
    rw [hissue.1, hissue.2, issue]
    by_cases hle : m ≤ 24
    · obtain ⟨hx, hy⟩ := coords_next m
      have hmin : min m 25 = m := by omega
      rw [if_pos (h24.mpr hle), show min (m + 1) 25 = m + 1 by omega, ← hx, ← hy]
      simp only [h.ix, h.iy, hix, hmin, and_self]
    · rw [if_neg fun he => hle (h24.mp he), hix, hiy, h.ix, h.iy, show min (m + 1) 25 = min m 25 by omega]
      exact ⟨rfl, rfl⟩
  have hconsumed : u.cx = BitVec.ofNat 3 ((m + 1 - 2) / 5) ∧ u.cy = BitVec.ofNat 3 ((m + 1 - 2) % 5) := by
    rw [hcoords.1, hcoords.2]
    by_cases hle : 2 ≤ m
    · obtain ⟨hx, hy⟩ := coords_next (m - 2)
      rw [if_pos (h2.mpr hle), if_pos (h2.mpr hle), show m + 1 - 2 = m - 2 + 1 by omega, ← hx, ← hy, h.cx, h.cy]
      exact ⟨rfl, rfl⟩
    · rw [if_neg fun he => hle (h2.mp he), if_neg fun he => hle (h2.mp he), h.cx, h.cy, show m + 1 - 2 = m - 2 by omega]
      exact ⟨rfl, rfl⟩
  exact ⟨by rw [hc, h.c, c_next], hissued.1, hissued.2, hconsumed.1, hconsumed.2⟩

/-- What is not touched within a round. -/
structure Within (b : Bool) (r : Nat) (s : KeccakCore) : Prop where
  cur : s.cur = b
  rnd : s.rnd = BitVec.ofNat 5 r
  done : s.done = false

/-- The core works. -/
def Working (s : KeccakCore) : Prop := s.busy = true ∧ s.done = false

theorem Within.working (h : Within b r s) (hst : s.st ≠ .idle) : Working s := ⟨decide_eq_true hst, h.done⟩

/-- What a lane that is asked for brings. -/
structure Reading (M : BitVec 6 → BitVec 64) (addr : Nat → BitVec 6) (l m : Nat) (s : KeccakCore) : Prop where
  ra : 1 ≤ m → m ≤ l → s.ram.ra = addr (m - 1)
  rq : 2 ≤ m → m ≤ l + 1 → s.ram.rq = M (addr (m - 2))

theorem Reading.next {addr : Nat → BitVec 6} {l : Nat} (h : Reading M addr l m s) {u : KeccakCore}
    (hrq : u.ram.rq = s.ram.mem s.ram.ra) (hra : m < l → u.ram.ra = addr m)
    (hmem : 1 ≤ m → m ≤ l → s.ram.mem (addr (m - 1)) = M (addr (m - 1))) : Reading M addr l (m + 1) u where
  ra _ hm := hra hm
  rq h2 hl := by
    rw [hrq, h.ra (by omega) (by omega), hmem (by omega) (by omega)]
    rfl

/-! Pass A. -/

/-- The sum of the first lanes of a column. -/
def partialParity (a : Sha3.State 64) (x : Fin 5) : Nat → BitVec 64
  | 0 => 0
  | k + 1 => partialParity a x k ^^^ a x (Fin.ofNat 5 k)

theorem partialParity_five (a : Sha3.State 64) (x : Fin 5) : partialParity a x 5 = parity a x := by
  have hzero : 0 ^^^ a x 0 = a x 0 := BitVec.zero_xor
  change 0 ^^^ a x 0 ^^^ a x 1 ^^^ a x 2 ^^^ a x 3 ^^^ a x 4 = _
  rw [hzero]
  rfl

structure PassA (b : Bool) (r : Nat) (M : BitVec 6 → BitVec 64) (m : Nat) (s : KeccakCore) : Prop
    extends Within b r s, Counting m s, Reading M (colAddr b) 25 m s where
  st : s.st = .a
  written : s.ram.written = M
  mem : 1 ≤ m → s.ram.mem = M
  cacc : 3 ≤ m → (m - 2) % 5 ≠ 0 → s.cacc = partialParity (stateOf M b) (Fin.ofNat 5 ((m - 2) / 5)) ((m - 2) % 5)
  cr : ∃ g, s.cr = pushes g (fun n => parity (stateOf M b) (Fin.ofNat 5 n)) ((m - 2) / 5)

/-- What every clock begins with. -/
def ticked (s : KeccakCore) : KeccakCore := { s with ram := s.ram.clock, done := false }

theorem issue_eq (s n : KeccakCore) : s.issue n =
    { n with
      ram := if s.c ≤ 24 then n.ram.read (addr s.cur (lane5 s.ix s.iy)) else n.ram
      ix := (s.issue n).ix
      iy := (s.issue n).iy } := by
  unfold issue
  split <;> rfl

theorem passA_eq (s n : KeccakCore) : s.passA n =
    let u : KeccakCore :=
      { n with
        ram := (s.issue n).ram
        ix := (s.issue n).ix
        iy := (s.issue n).iy
        cr := if 2 ≤ s.c ∧ s.cy = 4 then s.cr.push (s.cacc ^^^ s.ram.rq) else n.cr
        cacc := if 2 ≤ s.c ∧ s.cy ≠ 4 then (if s.cy = 0 then s.ram.rq else s.cacc ^^^ s.ram.rq) else n.cacc
        cx := if 2 ≤ s.c then (if s.cy = 4 then s.cx + 1 else n.cx) else n.cx
        cy := if 2 ≤ s.c then (if s.cy = 4 then 0 else s.cy + 1) else n.cy }
    if s.c = 26 then { restart u with st := .b } else { u with c := s.c + 1 } := by
  rw [passA, issue_eq]
  by_cases h2 : 2 ≤ s.c <;> by_cases hy : s.cy = 4 <;>
    simp only [h2, hy, ne_eq, if_true, if_false, and_self, and_true, and_false, not_true, not_false_eq_true]

theorem Counting.facts (h : Counting m s) (hm : m < 27) :
    (s.c ≤ 24 ↔ m < 25) ∧ (2 ≤ s.c ↔ 2 ≤ m) ∧ (s.c = 26 ↔ m = 26) ∧ (s.cy = 4 ↔ (m - 2) % 5 = 4) ∧
      (s.cy = 0 ↔ (m - 2) % 5 = 0) := by
  rw [h.c, h.cy]
  refine ⟨?_, c_le 2 (by decide) m hm, c_eq m hm 26 (by decide), x_eq _ (by omega) 4 (by decide),
    x_eq _ (by omega) 0 (by decide)⟩
  rw [← Nat.lt_succ_iff.symm]
  exact c_le m hm 24 (by decide)

theorem passA_clock (hst : s.st = .a) : s.clock i = s.passA (ticked s) := by
  simp only [clock, ticked, hst]

/-- What a clock of pass A does to the sums. -/
theorem PassA.sums (h : PassA b r M m s) (hm : m < 27) {u : KeccakCore}
    (hcr : u.cr = if 2 ≤ s.c ∧ s.cy = 4 then s.cr.push (s.cacc ^^^ s.ram.rq) else s.cr)
    (hcacc : u.cacc = if 2 ≤ s.c ∧ s.cy ≠ 4 then (if s.cy = 0 then s.ram.rq else s.cacc ^^^ s.ram.rq) else s.cacc) :
    (3 ≤ m + 1 → (m + 1 - 2) % 5 ≠ 0 →
      u.cacc = partialParity (stateOf M b) (Fin.ofNat 5 ((m + 1 - 2) / 5)) ((m + 1 - 2) % 5)) ∧
      ∃ g, u.cr = pushes g (fun n => parity (stateOf M b) (Fin.ofNat 5 n)) ((m + 1 - 2) / 5) := by
  obtain ⟨-, h2, -, h4, h0⟩ := h.toCounting.facts hm
  obtain ⟨g, hg⟩ := h.cr
  have hsum : 2 ≤ m → (if (m - 2) % 5 = 0 then s.ram.rq else s.cacc ^^^ s.ram.rq) =
      partialParity (stateOf M b) (Fin.ofNat 5 ((m - 2) / 5)) ((m - 2) % 5 + 1) := by
    intro hle
    have hrq : s.ram.rq = stateOf M b (Fin.ofNat 5 ((m - 2) / 5)) (Fin.ofNat 5 ((m - 2) % 5)) := by
      rw [h.rq hle (by omega), colAddr_at (M := M) (b := b) (n := m - 2) (by omega)]
      rfl
    rw [partialParity, ← hrq]
    split
    · rename_i hz
      rw [hz]
      exact BitVec.zero_xor.symm
    · rw [h.cacc (by omega) ‹_›]
  refine ⟨fun h3 hne => ?_, g, ?_⟩
  · have hlt : ¬(m - 2) % 5 = 4 := by omega
    rw [hcacc, if_pos ⟨h2.mpr (by omega), fun he => hlt (h4.mp he)⟩, show m + 1 - 2 = m - 2 + 1 by omega,
      show (m - 2 + 1) / 5 = (m - 2) / 5 by omega, show (m - 2 + 1) % 5 = (m - 2) % 5 + 1 by omega, ← hsum (by omega)]
    simp only [h0]
  · rw [hcr]
    by_cases hend : 2 ≤ m ∧ (m - 2) % 5 = 4
    · have hfive := hsum hend.1
      rw [hend.2, partialParity_five, if_neg (by decide)] at hfive
      rw [if_pos ⟨h2.mpr hend.1, h4.mpr hend.2⟩, hfive, hg, show (m + 1 - 2) / 5 = (m - 2) / 5 + 1 by omega]
      rfl
    · rw [if_neg fun he => hend ⟨h2.mp he.1, h4.mp he.2⟩, hg, show (m + 1 - 2) / 5 = (m - 2) / 5 by omega]

theorem PassA.next (h : PassA b r M m s) (hm : m < 26) : PassA b r M (m + 1) (s.clock i) := by
  obtain ⟨h24, h2, h26, -⟩ := h.toCounting.facts (Nat.lt_succ_of_lt hm)
  have hclock := (passA_clock (i := i) h.st).trans (passA_eq s (ticked s))
  rw [if_neg fun he => absurd (h26.mp he) (by omega)] at hclock
  rw [hclock]
  have hram : (s.issue (ticked s)).ram =
      if s.c ≤ 24 then s.ram.clock.read (addr s.cur (lane5 s.ix s.iy)) else s.ram.clock := by
    rw [issue_eq]
    rfl
  obtain ⟨hcacc, hcr⟩ := h.sums (Nat.lt_succ_of_lt hm) (u := { s with
    cr := if 2 ≤ s.c ∧ s.cy = 4 then s.cr.push (s.cacc ^^^ s.ram.rq) else s.cr
    cacc := if 2 ≤ s.c ∧ s.cy ≠ 4 then (if s.cy = 0 then s.ram.rq else s.cacc ^^^ s.ram.rq) else s.cacc }) rfl rfl
  refine ⟨⟨h.cur, h.rnd, rfl⟩, h.toCounting.next (n := ticked s) hm rfl rfl rfl ⟨rfl, rfl⟩ ⟨rfl, rfl⟩,
    h.toReading.next ?_ (fun hlt => ?_) fun h1 _ => by rw [h.mem h1], h.st, ?_, fun _ => ?_, hcacc, hcr⟩
  · simp only [hram]
    split <;> rfl
  · have hmin : min m 25 = m := by omega
    simp only [hram, h24.mpr hlt, if_true, SyncRam.ra_read, h.cur, h.ix, h.iy, hmin]
    exact colAddr_eq hlt
  · rw [← h.written]
    simp only [hram]
    split <;> rfl
  · rw [← h.written]
    simp only [hram]
    split <;> rfl

/-! Pass B. -/

structure PassB (b : Bool) (r : Nat) (M : BitVec 6 → BitVec 64) (m : Nat) (s : KeccakCore) : Prop
    extends Within b r s, Counting m s, Reading M (colAddr b) 25 m s where
  st : s.st = .b
  written : s.ram.written = fill M (colAddr b) (colLane (theta (stateOf M b))) (m - 2)
  mem : s.ram.mem = fill M (colAddr b) (colLane (theta (stateOf M b))) (m - 3)
  cr : s.cr = turned (parity (stateOf M b)) (Fin.ofNat 5 ((m - 2) / 5))

theorem PassA.last (h : PassA b r M 26 s) : PassB b r M 0 (s.clock i) := by
  obtain ⟨h24, -, h26, -⟩ := h.toCounting.facts (by decide)
  have hclock := (passA_clock (i := i) h.st).trans (passA_eq s (ticked s))
  rw [if_pos (h26.mpr rfl)] at hclock
  have hram : (s.issue (ticked s)).ram = s.ram.clock := by
    rw [issue_eq]
    exact if_neg fun he => absurd (h24.mp he) (by decide)
  obtain ⟨-, g, hcr⟩ := h.sums (by decide) (u := { s with
    cr := if 2 ≤ s.c ∧ s.cy = 4 then s.cr.push (s.cacc ^^^ s.ram.rq) else s.cr
    cacc := if 2 ≤ s.c ∧ s.cy ≠ 4 then (if s.cy = 0 then s.ram.rq else s.cacc ^^^ s.ram.rq) else s.cacc }) rfl rfl
  rw [hclock]
  refine ⟨⟨h.cur, h.rnd, rfl⟩, ⟨rfl, rfl, rfl, rfl, rfl⟩, ⟨fun h1 => absurd h1 (by decide), fun h2 => absurd h2 (by decide)⟩,
    rfl, ?_, ?_, hcr.trans (pushes_five g _)⟩
  · simp only [restart, hram]
    exact h.written
  · simp only [restart, hram]
    exact h.written

theorem passB_clock (hst : s.st = .b) : s.clock i = s.passB (ticked s) := by
  simp only [clock, ticked, hst]

/-- The RAM after a clock of pass B. -/
def thetaRam (s : KeccakCore) : SyncRam (BitVec 6) (BitVec 64) :=
  let r := if s.c ≤ 24 then s.ram.clock.read (addr s.cur (lane5 s.ix s.iy)) else s.ram.clock
  if 2 ≤ s.c then r.write (addr s.cur (lane5 s.cx s.cy)) (s.ram.rq ^^^ s.dtap) else r

theorem passB_eq (s : KeccakCore) : s.passB (ticked s) =
    let u : KeccakCore :=
      { ticked s with
        ram := thetaRam s
        ix := (s.issue (ticked s)).ix
        iy := (s.issue (ticked s)).iy
        cr := if 2 ≤ s.c ∧ s.cy = 4 then s.cr.push s.cr.w0 else s.cr
        cx := if 2 ≤ s.c then (if s.cy = 4 then s.cx + 1 else s.cx) else s.cx
        cy := if 2 ≤ s.c then (if s.cy = 4 then 0 else s.cy + 1) else s.cy }
    if s.c = 26 then { u with c := 0, row := 0, st := .gap } else { u with c := s.c + 1 } := by
  rw [passB, issue_eq]
  by_cases h2 : 2 ≤ s.c <;> by_cases hy : s.cy = 4 <;>
    simp only [h2, hy, thetaRam, ticked, if_true, if_false, and_self, and_false, false_and]

theorem theta_dtap {a : Sha3.State 64} {x : Fin 5} (h : s.cr = turned (parity a) x) (y : Fin 5) :
    a x y ^^^ s.dtap = theta a x y := by
  have hx : ∀ x : Fin 5, x + 4 = x - 1 := by decide
  have hrot : (parity a (x + 1)).extractLsb' 0 63 ++ (parity a (x + 1)).extractLsb' 63 1 = (parity a (x + 1)).rotateLeft 1 :=
    rotate_stage _ (k := 1) (l := 63) rfl (by decide)
  rw [dtap, h, theta, ← hrot, ← hx x]
  rfl

/-- A clock of pass B, the last one too. -/
theorem PassB.step (h : PassB b r M m s) (hm : m < 27) :
    (thetaRam s).mem = fill M (colAddr b) (colLane (theta (stateOf M b))) (m - 2) ∧
      (thetaRam s).written = fill M (colAddr b) (colLane (theta (stateOf M b))) (m - 1) ∧
      (thetaRam s).rq = s.ram.mem s.ram.ra ∧ (m < 25 → (thetaRam s).ra = colAddr b m) ∧
      (if 2 ≤ s.c ∧ s.cy = 4 then s.cr.push s.cr.w0 else s.cr) =
        turned (parity (stateOf M b)) (Fin.ofNat 5 ((m - 1) / 5)) := by
  obtain ⟨h24, h2, -, h4, -⟩ := h.toCounting.facts hm
  have hmem : (if s.c ≤ 24 then s.ram.clock.read (addr s.cur (lane5 s.ix s.iy)) else s.ram.clock).mem = s.ram.written := by
    split <;> rfl
  refine ⟨?_, ?_, ?_, fun hlt => ?_, ?_⟩
  · rw [← h.written, ← hmem, thetaRam]
    split <;> rfl
  · by_cases hle : 2 ≤ m
    · have haddr : addr s.cur (lane5 s.cx s.cy) = colAddr b (m - 2) := by
        rw [h.cur, h.cx, h.cy]
        exact colAddr_eq (by omega)
      have hword : s.ram.rq ^^^ s.dtap = colLane (theta (stateOf M b)) (m - 2) := by
        rw [h.rq hle (by omega), colAddr_at (M := M) (b := b) (n := m - 2) (by omega), colLane, colLane]
        exact theta_dtap h.cr _
      have hwritten : (thetaRam s).written = Function.update s.ram.written (addr s.cur (lane5 s.cx s.cy))
          (s.ram.rq ^^^ s.dtap) := by
        rw [thetaRam, if_pos (h2.mpr hle), SyncRam.written_write, hmem]
      rw [hwritten, haddr, hword, h.written, show m - 1 = m - 2 + 1 by omega, fill_succ]
    · have hwritten : (thetaRam s).written = s.ram.written := by
        rw [thetaRam, if_neg fun he => hle (h2.mp he)]
        split <;> rfl
      rw [hwritten, h.written, show m - 1 = m - 2 by omega]
  · rw [thetaRam]
    split <;> split <;> rfl
  · have hmin : min m 25 = m := by omega
    have hra : (thetaRam s).ra = addr s.cur (lane5 s.ix s.iy) := by
      simp only [thetaRam, h24.mpr hlt, if_true]
      split <;> rfl
    rw [hra, h.cur, h.ix, h.iy, hmin]
    exact colAddr_eq hlt
  · by_cases hend : 2 ≤ m ∧ (m - 2) % 5 = 4
    · have hnext : Fin.ofNat 5 ((m - 2) / 5) + 1 = Fin.ofNat 5 ((m - 1) / 5) := by
        apply Fin.ext
        rw [Fin.val_add, Fin.val_ofNat, Fin.val_ofNat, Fin.val_one]
        omega
      rw [if_pos ⟨h2.mpr hend.1, h4.mpr hend.2⟩, h.cr, turned_next, hnext]
    · rw [if_neg fun he => hend ⟨h2.mp he.1, h4.mp he.2⟩, h.cr, show (m - 1) / 5 = (m - 2) / 5 by omega]

theorem PassB.next (h : PassB b r M m s) (hm : m < 26) : PassB b r M (m + 1) (s.clock i) := by
  obtain ⟨-, -, h26, -⟩ := h.toCounting.facts (Nat.lt_succ_of_lt hm)
  obtain ⟨hmem, hwritten, hrq, hra, hcr⟩ := h.step (Nat.lt_succ_of_lt hm)
  have hclock := (passB_clock (i := i) h.st).trans (passB_eq s)
  rw [if_neg fun he => absurd (h26.mp he) (by omega)] at hclock
  rw [hclock]
  have hread : 1 ≤ m → m ≤ 25 → s.ram.mem (colAddr b (m - 1)) = M (colAddr b (m - 1)) := by
    intro h1 _
    rw [h.mem]
    apply fill_elsewhere
    intro k hk he
    exact absurd (colAddr_inj (by omega) (by omega) he) (by omega)
  refine ⟨⟨h.cur, h.rnd, rfl⟩, h.toCounting.next (n := ticked s) hm rfl rfl rfl ⟨rfl, rfl⟩ ⟨rfl, rfl⟩,
    h.toReading.next hrq hra hread, h.st, ?_, ?_, ?_⟩
  · exact hwritten
  · exact hmem
  · exact hcr

/-- After pass B. -/
structure Gap (b : Bool) (r : Nat) (a : Sha3.State 64) (s : KeccakCore) : Prop extends Within b r s where
  st : s.st = .gap
  row : s.row = 0
  state : stateOf s.ram.written b = a

theorem PassB.last (h : PassB b r M 26 s) : Gap b r (theta (stateOf M b)) (s.clock i) := by
  obtain ⟨-, -, h26, -⟩ := h.toCounting.facts (by decide)
  obtain ⟨-, hwritten, -⟩ := h.step (by decide)
  have hclock := (passB_clock (i := i) h.st).trans (passB_eq s)
  rw [if_pos (h26.mpr rfl)] at hclock
  rw [hclock]
  refine ⟨⟨h.cur, h.rnd, rfl⟩, rfl, rfl, ?_⟩
  change stateOf (thetaRam s).written b = _
  rw [hwritten]
  exact stateOf_cols

/-! Pass C. -/

/-- The lanes in the order of the rows. -/
def rowLane (a : Sha3.State 64) (n : Nat) : BitVec 64 := a (Fin.ofNat 5 (n % 5)) (Fin.ofNat 5 (n / 5))

/-- The memory when `n` lanes of the next state are in the other bank. -/
def scattered (b : Bool) (r : Nat) (M : BitVec 6 → BitVec 64) (n : Nat) : BitVec 6 → BitVec 64 :=
  fill M (laneAddr (!b))
    (rowLane (Sha3.iota (Sha3.roundConstant 64 r) (Sha3.chi (Sha3.pi (Sha3.rho (stateOf M b)))))) n

theorem scattered_bank {n l : Nat} (hn : n ≤ 25) (hl : l < 32) : scattered b r M n (laneAddr b l) = M (laneAddr b l) := by
  apply fill_elsewhere
  intro k hk he
  have hbank := (laneAddr_inj b (!b) l hl k (by omega) he).1
  revert hbank
  cases b <;> decide

theorem stateOf_rows {a : Sha3.State 64} : stateOf (fill M (laneAddr b) (rowLane a) 25) b = a := by
  funext x y
  rw [stateOf, fill_at (fun i hi j hj he => (laneAddr_inj b b i (by omega) j (by omega) he).2)
    (show Sha3.index x y < 25 by rw [Sha3.index]; omega), rowLane, Sha3.index]
  congr 1
  · apply Fin.ext
    rw [Fin.val_ofNat]
    omega
  · apply Fin.ext
    rw [Fin.val_ofNat]
    omega

def srcAddr (b : Bool) (y n : Nat) : BitVec 6 := laneAddr b (5 * n + (n + 3 * y) % 5)

/-- The lanes of a row after rho and pi. -/
def rowOf (M : BitVec 6 → BitVec 64) (b : Bool) (y : Nat) (x : Fin 5) : BitVec 64 :=
  Sha3.pi (Sha3.rho (stateOf M b)) x (Fin.ofNat 5 y)

/-- A row is gathered. -/
structure Gather (b : Bool) (r : Nat) (M : BitVec 6 → BitVec 64) (y m : Nat) (s : KeccakCore) : Prop
    extends Within b r s, Reading M (srcAddr b y) 5 m s where
  st : s.st = .cg
  row : s.row = BitVec.ofNat 3 y
  c : s.c = BitVec.ofNat 5 m
  ix : s.ix = BitVec.ofNat 3 (min m 5)
  cx : s.cx = BitVec.ofNat 3 (m - 2)
  written : s.ram.written = scattered b r M (5 * y)
  mem : 1 ≤ m → s.ram.mem = scattered b r M (5 * y)
  rr : ∃ g, s.rr = pushes g (fun n => rowOf M b y (Fin.ofNat 5 n)) (m - 2)

theorem Gap.next {a : Sha3.State 64} (h : Gap b r a s) : ∃ M, stateOf M b = a ∧ Gather b r M 0 0 (s.clock i) := by
  have hclock : s.clock i = { ticked s with c := 0, ix := 0, cx := 0, st := .cg } := by simp only [clock, ticked, h.st]
  refine ⟨s.ram.written, h.state, ?_⟩
  rw [hclock]
  exact ⟨⟨h.cur, h.rnd, rfl⟩, ⟨fun h1 => absurd h1 (by decide), fun h2 => absurd h2 (by decide)⟩, rfl, h.row, rfl, rfl, rfl,
    rfl, fun h1 => absurd h1 (by decide), _, rfl⟩

theorem gather_eq (hst : s.st = .cg) : s.clock i =
    let u : KeccakCore :=
      { ticked s with
        ram := if s.c ≤ 4 then s.ram.clock.read (addr s.cur (srcl s.row s.ix)) else s.ram.clock
        ix := if s.c ≤ 4 then s.ix + 1 else s.ix
        rr := if 2 ≤ s.c then s.rr.push s.rotv else s.rr
        cx := if 2 ≤ s.c then s.cx + 1 else s.cx }
    if s.c = 6 then { u with c := 0, cx := 0, st := .cw } else { u with c := s.c + 1 } := by
  have hclock : s.clock i = s.gather (ticked s) := by simp only [clock, ticked, hst]
  rw [hclock, gather]
  by_cases h4 : s.c ≤ 4 <;> by_cases h2 : 2 ≤ s.c <;> simp only [h4, h2, ticked, if_true, if_false]

/-- A lane that comes goes through the rotator. -/
theorem rotv_row {y n : Nat} (hy : y < 5) (hn : n < 5) (hrow : s.row = BitVec.ofNat 3 y) (hcx : s.cx = BitVec.ofNat 3 n)
    (hrq : s.ram.rq = M (srcAddr b y n)) : s.rotv = rowOf M b y (Fin.ofNat 5 n) := by
  have hx : Fin.ofNat 5 n + 3 * Fin.ofNat 5 y = Fin.ofNat 5 (n + 3 * y) := by
    apply Fin.ext
    simp only [Fin.val_add, Fin.val_mul, Fin.val_ofNat]
    omega
  have hindex : 5 * n + (n + 3 * y) % 5 = Sha3.index (Fin.ofNat 5 (n + 3 * y)) (Fin.ofNat 5 n) := by
    rw [Sha3.index, Fin.val_ofNat, Fin.val_ofNat, Nat.mod_eq_of_lt hn]
  rw [rotv, hrq, hrow, hcx, srcl_eq y hy n hn, srcAddr, hindex, rotl64_lane, rowOf, Sha3.pi, hx]
  rfl

theorem Gather.facts {y : Nat} (h : Gather b r M y m s) (hm : m < 7) :
    (s.c ≤ 4 ↔ m < 5) ∧ (2 ≤ s.c ↔ 2 ≤ m) ∧ (s.c = 6 ↔ m = 6) := by
  rw [h.c]
  refine ⟨?_, c_le 2 (by decide) m (by omega), c_eq m (by omega) 6 (by decide)⟩
  rw [← Nat.lt_succ_iff.symm]
  exact c_le m (by omega) 4 (by decide)

/-- The ring after a clock. -/
theorem Gather.ring {y : Nat} (h : Gather b r M y m s) (hy : y < 5) (hm : m < 7) :
    ∃ g, (if 2 ≤ s.c then s.rr.push s.rotv else s.rr) = pushes g (fun n => rowOf M b y (Fin.ofNat 5 n)) (m - 1) := by
  obtain ⟨-, h2, -⟩ := h.facts hm
  obtain ⟨g, hg⟩ := h.rr
  refine ⟨g, ?_⟩
  by_cases hle : 2 ≤ m
  · rw [if_pos (h2.mpr hle), hg, rotv_row hy (show m - 2 < 5 by omega) h.row h.cx (h.rq hle (by omega)),
      show m - 1 = m - 2 + 1 by omega]
    rfl
  · rw [if_neg fun he => hle (h2.mp he), hg, show m - 1 = m - 2 by omega]

theorem Gather.next {y : Nat} (h : Gather b r M y m s) (hy : y < 5) (hm : m < 6) : Gather b r M y (m + 1) (s.clock i) := by
  obtain ⟨h4, h2, h6⟩ := h.facts (Nat.lt_succ_of_lt hm)
  have hring := h.ring hy (Nat.lt_succ_of_lt hm)
  have hclock := gather_eq (i := i) h.st
  rw [if_neg fun he => absurd (h6.mp he) (by omega)] at hclock
  rw [hclock]
  have hread : 1 ≤ m → m ≤ 5 → s.ram.mem (srcAddr b y (m - 1)) = M (srcAddr b y (m - 1)) := by
    intro h1 h5
    rw [h.mem h1]
    exact scattered_bank (by omega) (by omega)
  refine ⟨⟨h.cur, h.rnd, rfl⟩, h.toReading.next ?_ (fun hlt => ?_) hread, h.st, h.row, ?_, ?_, ?_, ?_, fun _ => ?_, hring⟩
  · change (if s.c ≤ 4 then _ else _ : SyncRam (BitVec 6) (BitVec 64)).rq = _
    split <;> rfl
  · have hmin : min m 5 = m := by omega
    simp only [h4.mpr hlt, if_true, SyncRam.ra_read, h.cur, h.row, h.ix, hmin]
    rw [srcl_eq y hy m hlt]
    rfl
  · change s.c + 1 = _
    rw [h.c, c_next]
  · change (if s.c ≤ 4 then s.ix + 1 else s.ix) = _
    by_cases hlt : m < 5
    · rw [if_pos (h4.mpr hlt), h.ix, x_next]
      congr 1
      omega
    · rw [if_neg fun he => hlt (h4.mp he), h.ix]
      congr 1
      omega
  · change (if 2 ≤ s.c then s.cx + 1 else s.cx) = _
    by_cases hle : 2 ≤ m
    · rw [if_pos (h2.mpr hle), h.cx, x_next]
      congr 1
      omega
    · rw [if_neg fun he => hle (h2.mp he), h.cx]
      congr 1
      omega
  · rw [← h.written]
    change (if s.c ≤ 4 then _ else _ : SyncRam (BitVec 6) (BitVec 64)).written = _
    split <;> rfl
  · rw [← h.written]
    change (if s.c ≤ 4 then _ else _ : SyncRam (BitVec 6) (BitVec 64)).mem = _
    split <;> rfl

/-- A row goes into the other bank. -/
structure Scatter (b : Bool) (r : Nat) (M : BitVec 6 → BitVec 64) (y m : Nat) (s : KeccakCore) : Prop
    extends Within b r s where
  st : s.st = .cw
  row : s.row = BitVec.ofNat 3 y
  cx : s.cx = BitVec.ofNat 3 m
  written : s.ram.written = scattered b r M (5 * y + m)
  rr : s.rr = turned (rowOf M b y) (Fin.ofNat 5 m)

theorem Gather.last {y : Nat} (h : Gather b r M y 6 s) (hy : y < 5) : Scatter b r M y 0 (s.clock i) := by
  obtain ⟨h4, -, h6⟩ := h.facts (by decide)
  obtain ⟨g, hring⟩ := h.ring hy (by decide)
  have hclock := gather_eq (i := i) h.st
  rw [if_pos (h6.mpr rfl)] at hclock
  rw [hclock]
  refine ⟨⟨h.cur, h.rnd, rfl⟩, rfl, h.row, rfl, ?_, hring.trans (pushes_five g _)⟩
  rw [Nat.add_zero, ← h.written]
  change (if s.c ≤ 4 then _ else _ : SyncRam (BitVec 6) (BitVec 64)).written = _
  split <;> rfl

/-- The lane that is written. -/
theorem Scatter.word {y : Nat} (h : Scatter b r M y m s) (hr : r < 24) (hy : y < 5) (hm : m < 5) : s.wval =
    rowLane (Sha3.iota (Sha3.roundConstant 64 r) (Sha3.chi (Sha3.pi (Sha3.rho (stateOf M b))))) (5 * y + m) := by
  have hcol : Fin.ofNat 5 ((5 * y + m) % 5) = Fin.ofNat 5 m := by
    apply Fin.ext
    rw [Fin.val_ofNat, Fin.val_ofNat]
    omega
  have hrow : Fin.ofNat 5 ((5 * y + m) / 5) = Fin.ofNat 5 y := congrArg _ (by omega)
  have hchi : s.chiO = Sha3.chi (Sha3.pi (Sha3.rho (stateOf M b))) (Fin.ofNat 5 m) (Fin.ofNat 5 y) := by
    rw [chiO, h.rr]
    rfl
  have hzero : (s.row = 0 ∧ s.cx = 0) ↔ (Fin.ofNat 5 m = 0 ∧ Fin.ofNat 5 y = 0) := by
    have hfin : ∀ n < 5, Fin.ofNat 5 n = 0 ↔ n = 0 := by decide
    rw [h.row, h.cx, hfin m hm, hfin y hy, and_comm]
    exact and_congr (x_eq m (by omega) 0 (by decide)) (x_eq y (by omega) 0 (by decide))
  rw [wval, rowLane, hcol, hrow, Sha3.iota, hchi, h.rnd, keccakRc_eq r hr]
  simp only [hzero]

theorem scatter_clock (hst : s.st = .cw) : s.clock i = s.scatter (ticked s) := by
  simp only [clock, ticked, hst]

theorem Scatter.step {y : Nat} (h : Scatter b r M y m s) (hr : r < 24) (hy : y < 5) (hm : m < 5) :
    (s.ram.clock.write (addr (!s.cur) (lane5 s.cx s.row)) s.wval).written = scattered b r M (5 * y + m + 1) ∧
      (s.cx = 4 ↔ m = 4) ∧ (s.row = 4 ↔ y = 4) ∧ (s.rnd = 23 ↔ r = 23) := by
  refine ⟨?_, ?_, ?_, ?_⟩
  · rw [SyncRam.written_write, SyncRam.mem_clock, h.written, h.word hr hy hm, h.cur, h.cx, h.row, lane5_eq m hm y hy]
    rfl
  · rw [h.cx]
    exact x_eq m (by omega) 4 (by decide)
  · rw [h.row]
    exact x_eq y (by omega) 4 (by decide)
  · rw [h.rnd]
    exact c_eq r (by omega) 23 (by decide)

theorem Scatter.next {y : Nat} (h : Scatter b r M y m s) (hr : r < 24) (hy : y < 5) (hm : m < 4) :
    Scatter b r M y (m + 1) (s.clock i) := by
  obtain ⟨hwritten, h4, -⟩ := h.step hr hy (Nat.lt_succ_of_lt hm)
  have hturned : Fin.ofNat 5 m + 1 = Fin.ofNat 5 (m + 1) := by
    apply Fin.ext
    rw [Fin.val_add, Fin.val_ofNat, Fin.val_ofNat, Fin.val_one]
    omega
  rw [scatter_clock h.st, scatter, if_neg fun he => absurd (h4.mp he) (by omega)]
  refine ⟨⟨h.cur, h.rnd, rfl⟩, h.st, h.row, ?_, hwritten, ?_⟩
  · change s.cx + 1 = _
    rw [h.cx, x_next]
  · change s.rr.push s.rr.w0 = _
    rw [h.rr, turned_next, hturned]

/-- The next row. -/
theorem Scatter.last {y : Nat} (h : Scatter b r M y 4 s) (hr : r < 24) (hy : y < 4) :
    Gather b r M (y + 1) 0 (s.clock i) := by
  obtain ⟨hwritten, h4, hy4, -⟩ := h.step hr (Nat.lt_succ_of_lt hy) (by decide)
  rw [scatter_clock h.st, scatter, if_pos (h4.mpr rfl), if_neg fun he => absurd (hy4.mp he) (by omega)]
  refine ⟨⟨h.cur, h.rnd, rfl⟩, ⟨fun h1 => absurd h1 (by decide), fun h2 => absurd h2 (by decide)⟩, rfl, ?_, rfl, rfl, rfl,
    hwritten, fun h1 => absurd h1 (by decide), _, rfl⟩
  change s.row + 1 = _
  rw [h.row, x_next]

/-! The rounds. -/

/-- A round begins with this state. -/
def Starts (b : Bool) (r : Nat) (a : Sha3.State 64) (s : KeccakCore) : Prop := ∃ M, stateOf M b = a ∧ PassA b r M 0 s

/-- The core rests with this state. -/
structure Rests (a : Sha3.State 64) (s : KeccakCore) : Prop where
  st : s.st = .idle
  state : stateOf s.ram.written s.cur = a

/-- The end of the last row. -/
theorem Scatter.ends (h : Scatter b r M 4 4 s) (hr : r < 24) :
    if r = 23 then Rests (Sha3.iota (Sha3.roundConstant 64 r) (Sha3.chi (Sha3.pi (Sha3.rho (stateOf M b))))) (s.clock i) ∧
        (s.clock i).done = true
      else Starts (!b) (r + 1) (Sha3.iota (Sha3.roundConstant 64 r) (Sha3.chi (Sha3.pi (Sha3.rho (stateOf M b)))))
        (s.clock i) := by
  obtain ⟨hwritten, h4, hy4, h23⟩ := h.step hr (by decide) (by decide)
  rw [scatter_clock h.st, scatter, if_pos (h4.mpr rfl), if_pos (hy4.mpr rfl)]
  by_cases hlast : r = 23
  · rw [if_pos hlast, if_pos (h23.mpr hlast)]
    refine ⟨⟨rfl, ?_⟩, rfl⟩
    change stateOf (s.ram.clock.write (addr (!s.cur) (lane5 s.cx s.row)) s.wval).written (!s.cur) = _
    rw [hwritten, h.cur]
    exact stateOf_rows
  · rw [if_neg hlast, if_neg fun he => hlast (h23.mp he)]
    refine ⟨scattered b r M 25, stateOf_rows, ⟨congrArg Bool.not h.cur, ?_, rfl⟩, ⟨rfl, rfl, rfl, rfl, rfl⟩,
      ⟨fun h1 => absurd h1 (by decide), fun h2 => absurd h2 (by decide)⟩, rfl, hwritten, fun h1 => absurd h1 (by decide),
      fun h3 => absurd h3 (by decide), _, rfl⟩
    change s.rnd + 1 = _
    rw [h.rnd, c_next]

/-- A round. -/
theorem rounds_next {a : Sha3.State 64} (hr : r < 24) : Leads clock Working (Starts b r a) fun s =>
    if r = 23 then Rests (Sha3.round r a) s ∧ s.done = true else Starts (!b) (r + 1) (Sha3.round r a) s := by
  refine Leads.exists fun M => ?_
  rintro s ⟨rfl, hs⟩
  have hA : Leads clock Working (PassA b r M 0) (PassA b r M 26) :=
    Leads.loop fun m hm => Leads.edge (fun _ h => h.working (by rw [h.st]; decide)) fun _ _ h => h.next hm
  have hB : Leads clock Working (PassB b r M 0) (PassB b r M 26) :=
    Leads.loop fun m hm => Leads.edge (fun _ h => h.working (by rw [h.st]; decide)) fun _ _ h => h.next hm
  have hAB : Leads clock Working (PassA b r M 26) (PassB b r M 0) :=
    Leads.edge (fun _ h => h.working (by rw [h.st]; decide)) fun _ _ h => h.last
  have hgap : Leads clock Working (PassB b r M 26) (Gap b r (theta (stateOf M b))) :=
    Leads.edge (fun _ h => h.working (by rw [h.st]; decide)) fun _ _ h => h.last
  have hrows : Leads clock Working (Gap b r (theta (stateOf M b))) fun s =>
      if r = 23 then Rests (Sha3.round r (stateOf M b)) s ∧ s.done = true
      else Starts (!b) (r + 1) (Sha3.round r (stateOf M b)) s := by
    have hfirst : Leads clock Working (Gap b r (theta (stateOf M b))) fun s =>
        ∃ M', stateOf M' b = theta (stateOf M b) ∧ Gather b r M' 0 0 s :=
      Leads.edge (fun _ h => h.working (by rw [h.st]; decide)) fun _ _ h => h.next
    refine hfirst.trans (Leads.exists fun M' => ?_)
    rintro s ⟨hM', hs⟩
    have hrow : ∀ y < 5, Leads clock Working (Gather b r M' y 0) (Scatter b r M' y 4) := by
      intro y hy
      have hgather : Leads clock Working (Gather b r M' y 0) (Gather b r M' y 6) :=
        Leads.loop fun m hm => Leads.edge (fun _ h => h.working (by rw [h.st]; decide)) fun _ _ h => h.next hy hm
      have hscatter : Leads clock Working (Scatter b r M' y 0) (Scatter b r M' y 4) :=
        Leads.loop fun m hm => Leads.edge (fun _ h => h.working (by rw [h.st]; decide)) fun _ _ h => h.next hr hy hm
      exact hgather.trans ((Leads.edge (fun _ h => h.working (by rw [h.st]; decide)) fun _ _ h => h.last hy).trans hscatter)
    have hloop : Leads clock Working (Gather b r M' 0 0) (Gather b r M' 4 0) :=
      Leads.loop (I := fun y => Gather b r M' y 0) fun y hy =>
        (hrow y (Nat.lt_succ_of_lt hy)).trans
          (Leads.edge (fun _ h => h.working (by rw [h.st]; decide)) fun _ _ h => h.last hr hy)
    have hend : Leads clock Working (Scatter b r M' 4 4) fun s =>
        if r = 23 then Rests (Sha3.round r (stateOf M b)) s ∧ s.done = true
        else Starts (!b) (r + 1) (Sha3.round r (stateOf M b)) s := by
      apply Leads.edge fun _ h => h.working (by rw [h.st]; decide)
      intro s i h
      have hround := h.ends (i := i) hr
      rwa [hM'] at hround
    exact (hloop.trans ((hrow 4 (by decide)).trans hend)) s hs
  exact (hA.trans (hAB.trans (hB.trans (hgap.trans hrows)))) s hs

/-- All the rounds. -/
theorem permutes (b : Bool) (a : Sha3.State 64) :
    Leads clock Working (Starts b 0 a) fun s => Rests (Sha3.permutation a) s ∧ s.done = true := by
  have hloop : Leads clock Working (fun s => ∃ b, Starts b 0 (Sha3.rounds a 0) s)
      fun s => ∃ b, Starts b 23 (Sha3.rounds a 23) s := by
    apply Leads.loop (I := fun r s => ∃ b, Starts b r (Sha3.rounds a r) s)
    intro r hr
    refine Leads.exists fun b => (rounds_next (Nat.lt_succ_of_lt hr)).imp (fun _ h => h) fun s h => ⟨!b, ?_⟩
    rwa [if_neg (Nat.ne_of_lt hr)] at h
  have hlast : Leads clock Working (fun s => ∃ b, Starts b 23 (Sha3.rounds a 23) s) fun s =>
      Rests (Sha3.permutation a) s ∧ s.done = true := by
    refine Leads.exists fun b => (rounds_next (by decide)).imp (fun _ h => h) fun s h => ?_
    rwa [if_pos rfl] at h
  exact (hloop.trans hlast).imp (fun _ h => ⟨b, h⟩) fun _ h => h

end GoiKey.Rtl.KeccakCore
