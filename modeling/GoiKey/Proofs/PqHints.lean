import GoiKey.Model.PqModel
import Mathlib.Data.List.Sort
import Mathlib.Logic.Function.Basic
import GoiKey.Proofs.PqPacking

/-!
Hints as lists of positions: what a signature says about them, and that the C reference
reads it back.
-/

namespace GoiKey.Pq

/-- The set positions of a polynomial, in increasing order. -/
def positions (row : Nat → Bool) : List Nat := (List.range n).filter row

theorem mem_positions {row : Nat → Bool} {x : Nat} : x ∈ positions row ↔ x < n ∧ row x = true := by
  rw [positions, List.mem_filter, List.mem_range]

theorem positions_sorted (row : Nat → Bool) : (positions row).Pairwise (· < ·) :=
  List.pairwise_lt_range.filter _

/-- How many positions are set in the first polynomials. -/
def hintCount (h : Nat → Nat → Bool) : Nat → Nat
  | 0 => 0
  | i + 1 => hintCount h i + (positions (h i)).length

theorem hintCount_mono (h : Nat → Nat → Bool) {i j : Nat} (hij : i ≤ j) : hintCount h i ≤ hintCount h j := by
  induction hij with
  | refl => exact Nat.le_refl _
  | step _ ih => exact Nat.le_trans ih (Nat.le_add_right _ _)

/-- The positions of each polynomial in increasing order, one polynomial after the other, then
zeros; and for each polynomial the number of positions up to its end. -/
structure Listed (sig : Nat → BitVec 8) (omega : Nat) (h : Nat → Nat → Bool) (rows : Nat) : Prop where
  positions : ∀ i < rows, ∀ t (ht : t < (positions (h i)).length),
    sig (hintCount h i + t) = BitVec.ofNat 8 (positions (h i))[t]
  counts : ∀ i < rows, sig (omega + i) = BitVec.ofNat 8 (hintCount h (i + 1))
  rest : ∀ j, hintCount h rows ≤ j → j < omega → sig j = 0

variable {sig : Nat → BitVec 8} {omega k rows : Nat} {h : Nat → Nat → Bool}

theorem decodePositions_row {ps : List Nat} (hlt : ∀ x ∈ ps, x < 256) (hsorted : ps.Pairwise (· < ·))
    (hsig : ∀ t (ht : t < ps.length), sig (k + t) = BitVec.ofNat 8 ps[t]) (m t : Nat)
    (hm : t + m = ps.length) :
    decodePositions sig k m (k + t) (fun x => decide (x ∈ ps.take t)) = some fun x => decide (x ∈ ps) := by
  induction m generalizing t with
  | zero =>
    obtain rfl : t = ps.length := hm
    rw [decodePositions, List.take_length]
  | succ m ih =>
    have ht : t < ps.length := by omega
    have hvalue : ∀ u (hu : u < ps.length), (sig (k + u)).toNat = ps[u] := by
      intro u hu
      rw [hsig u hu, BitVec.toNat_ofNat]
      exact Nat.mod_eq_of_lt (hlt _ (List.getElem_mem hu))
    have hordered : ¬ (k < k + t ∧ sig (k + t) ≤ sig (k + t - 1)) := by
      rintro ⟨hpos, hle⟩
      have hprev : k + t - 1 = k + (t - 1) := by omega
      rw [hprev, BitVec.le_def, hvalue t ht, hvalue (t - 1) (by omega)] at hle
      have hup := List.pairwise_iff_getElem.mp hsorted (t - 1) t (by omega) ht (by omega)
      omega
    have hupdate : Function.update (fun x => decide (x ∈ ps.take t)) (sig (k + t)).toNat true
        = fun x => decide (x ∈ ps.take (t + 1)) := by
      funext x
      rw [hvalue t ht, List.take_succ_eq_append_getElem ht]
      by_cases hx : x = ps[t]
      · have hmem : x ∈ ps.take t ++ [ps[t]] := List.mem_append_right _ (List.mem_singleton.mpr hx)
        rw [decide_eq_true hmem, hx, Function.update_self]
      · have hmem : x ∈ ps.take t ↔ x ∈ ps.take t ++ [ps[t]] := by
          rw [List.mem_append, List.mem_singleton, or_iff_left hx]
        rw [Function.update_of_ne hx, decide_eq_decide.mpr hmem]
    rw [decodePositions, if_neg hordered, hupdate]
    exact ih (t + 1) (by omega)

theorem decodeRows_listed (hl : Listed sig omega h rows) (homega : omega < 256)
    (hcount : hintCount h rows ≤ omega) (m i : Nat) (hm : i + m = rows) :
    decodeRows sig omega m i (hintCount h i)
      = some ((List.range' i m).map fun i x => decide (x ∈ positions (h i)), hintCount h rows) := by
  induction m generalizing i with
  | zero =>
    obtain rfl : i = rows := hm
    rfl
  | succ m ih =>
    have hi : i < rows := by omega
    have hnext : hintCount h (i + 1) ≤ hintCount h rows := hintCount_mono h hi
    have hstep : hintCount h i ≤ hintCount h (i + 1) := hintCount_mono h (Nat.le_succ i)
    have hstop : (sig (omega + i)).toNat = hintCount h (i + 1) := by
      rw [hl.counts i hi, BitVec.toNat_ofNat, Nat.mod_eq_of_lt (by omega)]
    have hrange : ¬ (hintCount h (i + 1) < hintCount h i ∨ omega < hintCount h (i + 1)) := by omega
    have hlength : hintCount h (i + 1) - hintCount h i = (positions (h i)).length :=
      Nat.add_sub_cancel_left _ _
    have hrow := decodePositions_row (fun x hx => (mem_positions.mp hx).1) (positions_sorted (h i))
      (hl.positions i hi) (positions (h i)).length 0 (Nat.zero_add _)
    have hnone : (fun x => decide (x ∈ (positions (h i)).take 0)) = fun _ => false := by
      funext x
      simp
    rw [hnone, Nat.add_zero] at hrow
    rw [decodeRows, hstop]
    simp only [if_neg hrange, hlength, hrow, ih (i + 1) (by omega), Option.bind_eq_bind, Option.bind_some,
      List.range'_succ, List.map_cons]

/-- Hints that are listed are read back. -/
theorem decodeHints_listed (hl : Listed sig omega h rows) (homega : omega < 256)
    (hcount : hintCount h rows ≤ omega) :
    decodeHints sig omega rows = some ((List.range rows).map fun i x => decide (x < n) && h i x) := by
  have hrows := decodeRows_listed hl homega hcount rows 0 (Nat.zero_add rows)
  have hzeros : ¬ ∃ j < omega, hintCount h rows ≤ j ∧ sig j ≠ 0 := by
    rintro ⟨j, hj, hk, hne⟩
    exact hne (hl.rest j hk hj)
  have hsame : (fun i x => decide (x ∈ positions (h i))) = fun i x => decide (x < n) && h i x := by
    funext i x
    by_cases hx : h i x = true <;> simp [mem_positions, hx]
  rw [decodeHints, show decodeRows sig omega rows 0 0 = _ from hrows]
  simp only [Option.bind_eq_bind, Option.bind_some, if_neg hzeros, hsame, List.range_eq_range']

end GoiKey.Pq

/-!
The hint positions: one call of the packing unit for each polynomial, with a counter that
lasts from call to call.
-/

namespace GoiKey.Rtl.PqPack

open Clocked SyncRam

/-- The set positions below `k`. -/
def found (row : Nat → Bool) (k : Nat) : List Nat := (List.range k).filter row

theorem found_all (row : Nat → Bool) : found row 256 = Pq.positions row := rfl

theorem found_set {row : Nat → Bool} {k : Nat} (h : row k = true) : found row (k + 1) = found row k ++ [k] := by
  rw [found, List.range_succ, List.filter_append, List.filter_singleton, h, cond_true]
  rfl

theorem found_clear {row : Nat → Bool} {k : Nat} (h : row k = false) : found row (k + 1) = found row k := by
  rw [found, List.range_succ, List.filter_append, List.filter_singleton, h, cond_false, List.append_nil]
  rfl

/-- The memory with the positions of `ps` from the `m`-th byte on. -/
def marked (bus : Cell → BitVec 8) (a : PackArgs) (m : Nat) (ps : List Nat) : Cell → BitVec 8 :=
  fillList bus (fun j => byteAddr a (m + j)) (ps.map (BitVec.ofNat 8))

theorem marked_snoc (bus : Cell → BitVec 8) (a : PackArgs) (m : Nat) (ps : List Nat) (x : Nat) :
    marked bus a m (ps ++ [x])
      = Function.update (marked bus a m ps) (byteAddr a (m + ps.length)) (BitVec.ofNat 8 x) := by
  rw [marked, List.map_append, List.map_singleton, fillList_snoc, List.length_map, marked]

/-- At coefficient `k`, with `m` positions from the polynomials before. -/
structure Hinting (m : Nat) (row : Nat → Bool) (pm : BitVec 14 → BitVec 32) (bus : Cell → BitVec 8)
    (a : PackArgs) (st : PackState) (i k : Nat) (s : PqPack) : Prop where
  st : s.st = st
  args : s.args = a
  i : s.i.toNat = i
  mem : s.pm.written = pm
  still : s.pm.we = false
  hk : s.hk = BitVec.ofNat 8 (m + (found row k).length)
  hkOver : s.hkOver = decide (a.omega.toNat < m + (found row k).length)
  bytes : m + (found row k).length ≤ a.omega.toNat → s.bus.written = marked bus a m (found row k)

variable {m k : Nat} {row : Nat → Bool} {pm : BitVec 14 → BitVec 32} {bus : Cell → BitVec 8} {a : PackArgs}
variable {s : PqPack} {i : PackIn}

/-- Without the clear input. -/
theorem tick_plain (s : PqPack) (hi : Plain i) :
    (s.tick i).hk = s.hk ∧ (s.tick i).hkOver = s.hkOver := by
  have hclr : i.hkClr = false := hi
  simp only [tick, hclr, Bool.false_eq_true, if_false, and_self]

theorem reads_hint : Runs (Hinting m row pm bus a .h k k) fun s =>
    Hinting m row pm bus a .hc k k s ∧ s.pm.rq = pm (coefAddr a k) := by
  have hh : Runs (Hinting m row pm bus a .h k k) fun s =>
      Hinting m row pm bus a .hw k k s ∧ s.pm.ra = coefAddr a k := by
    apply Reaches.edge fun s h => by rw [Busy, h.st]; decide
    rintro s i h hi
    obtain ⟨htk, hto⟩ := tick_plain s hi
    have hindex : s.i.setWidth 8 = BitVec.ofNat 8 k := by rw [← h.i, BitVec.ofNat_toNat]
    simp only [clock, fsm, h.st]
    refine ⟨⟨rfl, h.args, h.i, h.mem, rfl, htk.trans h.hk, hto.trans h.hkOver, h.bytes⟩, ?_⟩
    rw [ra_read, h.args, hindex, coefAddr]
  apply hh.trans
  apply Reaches.edge fun s h => by rw [Busy, h.1.st]; decide
  rintro s i ⟨h, hra⟩ hi
  obtain ⟨htk, hto⟩ := tick_plain s hi
  simp only [clock, fsm, h.st]
  refine ⟨⟨rfl, h.args, h.i, h.mem, rfl, htk.trans h.hk, hto.trans h.hkOver, h.bytes⟩, ?_⟩
  rw [← h.mem, ← hra, written_of_still h.still]
  rfl

/-- Nothing is counted. -/
theorem Hinting.skip {st st' : PackState} {j j' : Nat} {n : PqPack} (h : Hinting m row pm bus a st j k s)
    (hrow : row k = false) (hst : n.st = st') (hargs : n.args = s.args) (hj : n.i.toNat = j')
    (hmem : n.pm.written = s.pm.written) (hstill : n.pm.we = false) (hhk : n.hk = s.hk)
    (hover : n.hkOver = s.hkOver) (hbus : n.bus.written = s.bus.written) :
    Hinting m row pm bus a st' j' (k + 1) n := by
  have hsame := found_clear hrow
  refine ⟨hst, hargs.trans h.args, hj, hmem.trans h.mem, hstill, ?_, ?_, fun hle => ?_⟩
  · rw [hsame, hhk, h.hk]
  · rw [hsame, hover, h.hkOver]
  · rw [hsame] at hle ⊢
    rw [hbus, h.bytes hle]

/-- A position is counted, and written as long as there is room. -/
theorem Hinting.count {st st' : PackState} {j j' : Nat} {n : PqPack} (h : Hinting m row pm bus a st j k s)
    (hrow : row k = true) (hst : n.st = st') (hargs : n.args = s.args) (hj : n.i.toNat = j')
    (hmem : n.pm.written = s.pm.written) (hstill : n.pm.we = false) (hhk : n.hk = s.hk + 1)
    (hover : n.hkOver = if a.omega ≤ s.hk then true else s.hkOver)
    (hbus : n.bus.written = if s.hk < a.omega then
        Function.update s.bus.written (byteAddr a s.hk.toNat) (BitVec.ofNat 8 k) else s.bus.written) :
    Hinting m row pm bus a st' j' (k + 1) n := by
  have hlength : m + (found row (k + 1)).length = m + (found row k).length + 1 := by
    rw [found_set hrow, List.length_append]
    rfl
  have homega := a.omega.isLt
  have hcount : s.hk.toNat = (m + (found row k).length) % 256 := by
    rw [h.hk, BitVec.toNat_ofNat]
  refine ⟨hst, hargs.trans h.args, hj, hmem.trans h.mem, hstill, ?_, ?_, fun hle => ?_⟩
  · rw [hhk, h.hk, hlength]
    exact (BitVec.ofNat_add _ 1).symm
  · rw [hover, h.hkOver, hlength]
    by_cases hfull : a.omega ≤ s.hk
    · rw [if_pos hfull, eq_comm, decide_eq_true_eq]
      rw [BitVec.le_def, hcount] at hfull
      have hmod := Nat.mod_le (m + (found row k).length) 256
      omega
    · rw [if_neg hfull, decide_eq_decide]
      rw [BitVec.le_def, hcount] at hfull
      omega
  · have hroom : s.hk.toNat = m + (found row k).length := by
      rw [hcount]
      apply Nat.mod_eq_of_lt
      omega
    have hlt : s.hk < a.omega := by
      rw [BitVec.lt_def, hroom]
      omega
    rw [hbus, if_pos hlt, h.bytes (by omega), hroom, found_set hrow, marked_snoc]

/-- A coefficient, up to the next state. -/
theorem counts_coefficient (hsp : a.space ≠ 3) (hk : k < 256)
    (hrow : pm (coefAddr a k) ≠ 0 ↔ row k = true) :
    Runs (Hinting m row pm bus a .h k k) fun s =>
      if k = 255 then Hinting m row pm bus a .hend 255 256 s else Hinting m row pm bus a .h (k + 1) (k + 1) s := by
  apply reads_hint.trans
  apply Reaches.edge fun s h => by rw [Busy, h.1.st]; decide
  rintro s i ⟨h, hrq⟩ hi
  obtain ⟨htk, hto⟩ := tick_plain s hi
  have hindex : s.i.setWidth 8 = BitVec.ofNat 8 k := by rw [← h.i, BitVec.ofNat_toNat]
  have haddr : cell a.space (a.base + s.hk.setWidth 13) = byteAddr a s.hk.toNat := by
    rw [byteAddr, BitVec.ofNat_toNat]
  have hnext (hlast : k ≠ 255) : (s.i + 1).toNat = k + 1 := by
    rw [BitVec.toNat_add, h.i, show (1 : BitVec 9).toNat = 1 from rfl, Nat.mod_eq_of_lt (by omega)]
  have hend : s.i = 255 ↔ k = 255 := by
    rw [← h.i]
    exact ⟨fun h255 => congrArg BitVec.toNat h255, fun h255 => BitVec.eq_of_toNat_eq h255⟩
  have hstore : (if s.hk < a.omega then
        ByteBus.store s.bus.clock a.space (a.base + s.hk.setWidth 13) (s.i.setWidth 8) else s.bus.clock).written
      = if s.hk < a.omega then Function.update s.bus.written (byteAddr a s.hk.toNat) (BitVec.ofNat 8 k)
        else s.bus.written := by
    by_cases hroom : s.hk < a.omega
    · rw [if_pos hroom, if_pos hroom, ByteBus.store, if_neg hsp, written_write, mem_clock, haddr, hindex]
    · rw [if_neg hroom, if_neg hroom, written_clock]
  have hflag : (if a.omega ≤ s.hk then true else (s.tick i).hkOver)
      = if a.omega ≤ s.hk then true else s.hkOver := by rw [hto]
  by_cases hset : row k = true
  · have hne : s.pm.rq ≠ 0 := hrq ▸ hrow.mpr hset
    by_cases hlast : k = 255
    · rw [if_pos hlast]
      subst hlast
      simp only [clock, fsm, h.st, if_pos hne, if_pos (hend.mpr rfl), h.args]
      exact h.count hset rfl rfl h.i rfl rfl rfl hflag hstore
    · rw [if_neg hlast]
      simp only [clock, fsm, h.st, if_pos hne, if_neg (mt hend.mp hlast), h.args]
      exact h.count hset rfl rfl (hnext hlast) rfl rfl rfl hflag hstore
  · have hzero : ¬ s.pm.rq ≠ 0 := hrq ▸ mt hrow.mp hset
    have hclear : row k = false := Bool.eq_false_iff.mpr hset
    by_cases hlast : k = 255
    · rw [if_pos hlast]
      subst hlast
      simp only [clock, fsm, h.st, if_neg hzero, if_pos (hend.mpr rfl)]
      exact h.skip hclear rfl rfl h.i rfl rfl htk hto rfl
    · rw [if_neg hlast]
      simp only [clock, fsm, h.st, if_neg hzero, if_neg (mt hend.mp hlast)]
      exact h.skip hclear rfl rfl (hnext hlast) rfl rfl htk hto rfl

/-- What a call leaves: the counter, the flag, the count of the polynomial, and the positions
if there was room for all. -/
structure Marked (m : Nat) (row : Nat → Bool) (bus : Cell → BitVec 8) (a : PackArgs) (s : PqPack) : Prop where
  st : s.st = .idle
  hk : s.hk = BitVec.ofNat 8 (m + (Pq.positions row).length)
  hkOver : s.hkOver = decide (a.omega.toNat < m + (Pq.positions row).length)
  count : s.bus.written (byteAddr a (a.omega.toNat + a.hidx.toNat))
    = BitVec.ofNat 8 (m + (Pq.positions row).length)
  bytes : m + (Pq.positions row).length ≤ a.omega.toNat → s.bus.written
    = Function.update (marked bus a m (Pq.positions row)) (byteAddr a (a.omega.toNat + a.hidx.toNat))
        (BitVec.ofNat 8 (m + (Pq.positions row).length))

theorem marks (hsp : a.space ≠ 3) (hrow : ∀ k < 256, pm (coefAddr a k) ≠ 0 ↔ row k = true) :
    Runs (Hinting m row pm bus a .h 0 0) (Marked m row bus a) := by
  have hall : Runs (Hinting m row pm bus a .h 0 0) (Hinting m row pm bus a .h 255 255) := by
    apply Reaches.loop (I := fun k s => Hinting m row pm bus a .h k k s)
    intro k hk
    apply (counts_coefficient hsp (by omega) (hrow k (by omega))).imp (fun _ hs => hs)
    intro s hs
    rwa [if_neg (by omega)] at hs
  have hlast : Runs (Hinting m row pm bus a .h 255 255) (Hinting m row pm bus a .hend 255 256) := by
    apply (counts_coefficient hsp (by decide) (hrow 255 (by decide))).imp (fun _ hs => hs)
    intro s hs
    rwa [if_pos rfl] at hs
  have hcount : Runs (Hinting m row pm bus a .hend 255 256) fun s => s.st = .hend2 ∧
      Marked m row bus a { s with st := .idle } := by
    apply Reaches.edge fun s h => by rw [Busy, h.st]; decide
    rintro s i h hi
    obtain ⟨htk, hto⟩ := tick_plain s hi
    have hcell : cell a.space (a.base + a.omega.setWidth 13 + a.hidx.setWidth 13)
        = byteAddr a (a.omega.toNat + a.hidx.toNat) := by
      rw [byteAddr, BitVec.ofNat_add, BitVec.ofNat_toNat, BitVec.ofNat_toNat, BitVec.add_assoc]
    have hstore : (ByteBus.store s.bus.clock a.space (a.base + a.omega.setWidth 13 + a.hidx.setWidth 13) s.hk).written
        = Function.update s.bus.written (byteAddr a (a.omega.toNat + a.hidx.toNat)) s.hk := by
      rw [ByteBus.store, if_neg hsp, written_write, mem_clock, hcell]
    have hcount := h.hk
    have hbytes := h.bytes
    rw [found_all] at hcount hbytes
    simp only [clock, fsm, h.st, h.args]
    refine ⟨trivial, rfl, htk.trans hcount, hto.trans h.hkOver, ?_, fun hle => ?_⟩
    · exact (congrFun hstore _).trans (by rw [Function.update_self, hcount])
    · exact hstore.trans (by rw [hbytes hle, hcount])
  refine (hall.trans (hlast.trans hcount)).trans ?_
  apply Reaches.edge fun s h => by rw [Busy, h.1]; decide
  rintro s i ⟨hst, h⟩ hi
  obtain ⟨htk, hto⟩ := tick_plain s hi
  simp only [clock, fsm, hst]
  exact ⟨rfl, htk.trans h.hk, hto.trans h.hkOver, h.count, h.bytes⟩

end GoiKey.Rtl.PqPack
