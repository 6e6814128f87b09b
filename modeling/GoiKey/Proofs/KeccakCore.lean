import GoiKey.Proofs.KeccakRounds

/-! keccak_core.v against the permutation of FIPS 202: the commands, in any order. -/

namespace GoiKey.Rtl.KeccakCore

open Clocked Keccak

variable {s : KeccakCore} {i : Keccak.In}

/-! The commands. -/

/-- Nothing is asked of the core. -/
def Idle (i : Keccak.In) : Prop := i.clear = false ∧ i.perm = false ∧ i.xor = none

theorem idle_clock (hst : s.st = .idle) (hi : Idle i) :
    s.clock i = { ticked s with ram := s.ram.clock.read (addr s.cur i.rdLane) } := by
  obtain ⟨hclear, hperm, hxor⟩ := hi
  simp only [clock, ticked, hst, hclear, hperm, hxor]
  rfl

theorem Rests.clock {a : Sha3.State 64} (h : Rests a s) (hi : Idle i) : Rests a (s.clock i) := by
  rw [idle_clock h.st hi]
  exact ⟨h.st, h.state⟩

theorem Rests.perm {a : Sha3.State 64} (h : Rests a s) (hclear : i.clear = false) (hperm : i.perm = true) :
    Starts s.cur 0 a (s.clock i) := by
  have hclock : s.clock i =
      { restart { ticked s with ram := s.ram.clock.read (addr s.cur i.rdLane) } with rnd := 0, st := .a } := by
    simp only [KeccakCore.clock, ticked, h.st, hclear, hperm]
    rfl
  rw [hclock]
  exact ⟨s.ram.written, h.state, ⟨rfl, rfl, rfl⟩, ⟨rfl, rfl, rfl, rfl, rfl⟩,
    ⟨fun h1 => absurd h1 (by decide), fun h2 => absurd h2 (by decide)⟩, rfl, rfl, fun h1 => absurd h1 (by decide),
    fun h3 => absurd h3 (by decide), _, rfl⟩

structure Xoring (a : Sha3.State 64) (l : Nat) (v : BitVec 64) (s : KeccakCore) : Prop where
  state : stateOf s.ram.written s.cur = a
  mem : s.ram.mem = s.ram.written
  xl : s.xl = BitVec.ofNat 5 l
  xv : s.xv = v
  done : s.done = false

theorem Rests.xors {a : Sha3.State 64} {l : Nat} {v : BitVec 64} (h : Rests a s) (hclear : i.clear = false)
    (hperm : i.perm = false) (hxor : i.xor = some (BitVec.ofNat 5 l, v)) :
    Xoring a l v (s.clock i) ∧ (s.clock i).st = .x1 ∧ (s.clock i).ram.ra = laneAddr (s.clock i).cur l := by
  have hclock : s.clock i =
      { ticked s with
        ram := s.ram.clock.read (addr s.cur (BitVec.ofNat 5 l))
        xl := BitVec.ofNat 5 l
        xv := v
        st := .x1 } := by
    simp only [KeccakCore.clock, ticked, h.st, hclear, hperm, hxor]
    rfl
  rw [hclock]
  exact ⟨⟨h.state, rfl, rfl, rfl, rfl⟩, rfl, rfl⟩

/-- A lane is read, changed and written back. -/
theorem xors_lane {a : Sha3.State 64} {l : Nat} {v : BitVec 64} (hl : l < 32) :
    Leads clock Working (fun s => Xoring a l v s ∧ s.st = .x1 ∧ s.ram.ra = laneAddr s.cur l) (Rests (Sha3.putLane a l v)) := by
  have hread : Leads clock Working (fun s => Xoring a l v s ∧ s.st = .x1 ∧ s.ram.ra = laneAddr s.cur l)
      fun s => Xoring a l v s ∧ s.st = .x2 ∧ s.ram.rq = s.ram.mem (laneAddr s.cur l) := by
    apply Leads.edge fun s h => ⟨decide_eq_true (by rw [h.2.1]; decide), h.1.done⟩
    rintro s i ⟨h, hst, hra⟩
    have hclock : s.clock i = { ticked s with st := .x2 } := by simp only [clock, ticked, hst]
    rw [hclock]
    refine ⟨⟨h.state, rfl, h.xl, h.xv, rfl⟩, rfl, ?_⟩
    change s.ram.mem s.ram.ra = s.ram.written (laneAddr s.cur l)
    rw [hra, h.mem]
  refine hread.trans ?_
  apply Leads.edge fun s h => ⟨decide_eq_true (by rw [h.2.1]; decide), h.1.done⟩
  rintro s i ⟨h, hst, hrq⟩
  have hclock : s.clock i =
      { ticked s with ram := s.ram.clock.write (addr s.cur s.xl) (s.ram.rq ^^^ s.xv), st := .idle } := by
    simp only [clock, ticked, hst]
  rw [hclock]
  refine ⟨rfl, ?_⟩
  change stateOf (Function.update s.ram.written (addr s.cur s.xl) (s.ram.rq ^^^ s.xv)) s.cur = _
  rw [hrq, h.mem, h.xl, h.xv, ← h.state]
  funext x y
  rw [stateOf, Sha3.putLane]
  by_cases he : Sha3.index x y = l
  · rw [if_pos he, stateOf, he]
    exact Function.update_self _ _ _
  · have hlt : Sha3.index x y < 25 := by
      rw [Sha3.index]
      omega
    have hne : laneAddr s.cur (Sha3.index x y) ≠ addr s.cur (BitVec.ofNat 5 l) :=
      fun heq => he (laneAddr_inj _ _ _ (by omega) l (by omega) heq).2
    rw [if_neg he, Function.update_of_ne hne]
    rfl

/-- The lanes are cleared. -/
structure Clearing (m : Nat) (s : KeccakCore) : Prop where
  st : s.st = .clr
  c : s.c = BitVec.ofNat 5 m
  written : ∃ M, s.ram.written = fill M (laneAddr s.cur) (fun _ => 0) m
  done : s.done = false

theorem Rests.clears {a : Sha3.State 64} (h : Rests a s) (hclear : i.clear = true) : Clearing 0 (s.clock i) := by
  have hclock : s.clock i = { ticked s with ram := s.ram.clock.read (addr s.cur i.rdLane), c := 0, st := .clr } := by
    simp only [KeccakCore.clock, ticked, h.st, hclear]
    rfl
  rw [hclock]
  exact ⟨rfl, rfl, ⟨_, rfl⟩, rfl⟩

theorem clears_lanes : Leads clock Working (Clearing 0) (Rests fun _ _ => 0) := by
  have hstep : ∀ {m : Nat} {s : KeccakCore} {i : Keccak.In}, m < 25 → Clearing m s →
      ∃ M, (s.ram.clock.write (addr s.cur s.c) 0).written = fill M (laneAddr s.cur) (fun _ => 0) (m + 1) ∧
        s.clock i =
          (if m = 24 then { ticked s with ram := s.ram.clock.write (addr s.cur s.c) 0, st := .idle }
          else { ticked s with ram := s.ram.clock.write (addr s.cur s.c) 0, c := s.c + 1 }) := by
    intro m s i hm h
    obtain ⟨M, hM⟩ := h.written
    refine ⟨M, ?_, ?_⟩
    · rw [SyncRam.written_write, SyncRam.mem_clock, hM, h.c, fill_succ]
      rfl
    · have h24 : s.c = 24 ↔ m = 24 := by
        rw [h.c]
        exact c_eq m (by omega) 24 (by decide)
      simp only [clock, ticked, h.st, h24]
  have hloop : Leads clock Working (Clearing 0) (Clearing 24) := by
    refine Leads.loop fun m hm => Leads.edge (fun s h => ⟨decide_eq_true (by rw [h.st]; decide), h.done⟩) fun s i h => ?_
    obtain ⟨M, hM, hclock⟩ := hstep (i := i) (Nat.lt_succ_of_lt hm) h
    rw [hclock, if_neg (Nat.ne_of_lt hm)]
    refine ⟨h.st, ?_, ⟨M, hM⟩, rfl⟩
    change s.c + 1 = _
    rw [h.c, c_next]
  refine hloop.trans (Leads.edge (fun s h => ⟨decide_eq_true (by rw [h.st]; decide), h.done⟩) fun s i h => ?_)
  obtain ⟨M, hM, hclock⟩ := hstep (i := i) (by decide) h
  rw [hclock, if_pos rfl]
  refine ⟨rfl, ?_⟩
  change stateOf (s.ram.clock.write (addr s.cur s.c) 0).written s.cur = _
  rw [hM]
  funext x y
  rw [stateOf, fill_at (fun i hi j hj he => (laneAddr_inj _ _ i (by omega) j (by omega) he).2)]
  rw [Sha3.index]
  omega

/-- A lane can be read on the clock after the next. -/
theorem Rests.reads {a : Sha3.State 64} (h : Rests a s) {i j : Keccak.In} (hi : Idle i) (hj : Idle j) {x y : Fin 5}
    (hl : i.rdLane = BitVec.ofNat 5 (Sha3.index x y)) : ((s.clock i).clock j).rdVal = a x y := by
  rw [idle_clock (h.clock hi).st hj, idle_clock h.st hi, ← h.state]
  change s.ram.written (addr s.cur i.rdLane) = _
  rw [hl]
  rfl

/-- What can be asked of the core. -/
inductive Command where
  | clear
  | perm
  | xor (l : BitVec 5) (v : BitVec 64)

/-- The command on the inputs: the first of them counts. -/
def command (i : Keccak.In) : Option Command :=
  if i.clear then some .clear else if i.perm then some .perm else i.xor.map fun p => .xor p.1 p.2

def Command.run (a : Sha3.State 64) : Command → Sha3.State 64
  | .clear => fun _ _ => 0
  | .perm => Sha3.permutation a
  | .xor l v => Sha3.putLane a l.toNat v

theorem idle_of_none (h : command i = none) : Idle i := by
  rw [command] at h
  cases hclear : i.clear with
  | true =>
    rw [hclear] at h
    exact absurd h (by simp)
  | false =>
    cases hperm : i.perm with
    | true =>
      rw [hclear, hperm] at h
      exact absurd h (by simp)
    | false =>
      rw [hclear, hperm] at h
      exact ⟨hclear, hperm, Option.map_eq_none_iff.mp h⟩

/-- A command is carried out. -/
theorem runs_command (a : Sha3.State 64) (cmd : Command) :
    Leads clock Working (fun s => ∃ u i, Rests a u ∧ command i = some cmd ∧ s = u.clock i) (Rests (cmd.run a)) := by
  rintro s ⟨u, i, hu, hcmd, rfl⟩
  rw [command] at hcmd
  cases hclear : i.clear with
  | true =>
    rw [hclear, if_pos rfl] at hcmd
    obtain rfl := Option.some.inj hcmd
    exact clears_lanes _ (hu.clears hclear)
  | false =>
    rw [hclear, if_neg Bool.false_ne_true] at hcmd
    cases hperm : i.perm with
    | true =>
      rw [hperm, if_pos rfl] at hcmd
      obtain rfl := Option.some.inj hcmd
      exact ((permutes u.cur a).imp (fun _ h => h) fun _ h => h.1) _ (hu.perm hclear hperm)
    | false =>
      rw [hperm, if_neg Bool.false_ne_true] at hcmd
      obtain ⟨⟨l, v⟩, hxor, rfl⟩ := Option.map_eq_some_iff.mp hcmd
      have hl : i.xor = some (BitVec.ofNat 5 l.toNat, v) := by rw [hxor, BitVec.ofNat_toNat, BitVec.setWidth_eq]
      exact xors_lane l.isLt _ (hu.xors hclear hperm hl)

/-- What the core takes up: while it is busy it looks at nothing. -/
def accepted (s : KeccakCore) (i : Keccak.In) : Option Command := if s.busy then none else command i

/-- The lanes that can be read of a core. -/
def Reads (a : Sha3.State 64) (s : KeccakCore) : Prop :=
  ∀ i j x y, Idle i → Idle j → i.rdLane = BitVec.ofNat 5 (Sha3.index x y) → ((s.clock i).clock j).rdVal = a x y

/-- Commands that come in any order and at any pace are carried out one after the other. -/
theorem commands_computed (hs : s.busy = false) (i : Nat → Keccak.In) (n : Nat) :
    Leads clock (fun t => t.busy = true) (fun t => t = after clock s i n) fun t => t.busy = false ∧
      Reads ((outputs clock accepted s i n).foldl Command.run (stateOf s.ram.written s.cur)) t := by
  have hst : ∀ {s : KeccakCore}, s.busy = false ↔ s.st = .idle := by
    intro s
    rw [busy, decide_eq_false_iff_not, not_not]
  have hrun : Reaches clock (fun _ => True) (fun _ => True) (fun t => t.busy = true) (fun t => t = after clock s i n)
      fun t => Rests ((outputs clock accepted s i n).foldl Command.run (stateOf s.ram.written s.cur)) t := by
    refine exchanged (S := fun t => t = s)
      (P := fun cs t => Rests (cs.foldl Command.run (stateOf s.ram.written s.cur)) t)
      (Reaches.of_imp ?_) (fun cs u j hu _ hnone => ?_) (fun cs cmd => ?_) (fun u j hbusy => ?_) rfl fun _ _ => trivial
    · rintro u rfl
      exact ⟨hst.mp hs, rfl⟩
    · rw [accepted, hst.mpr hu.st] at hnone
      exact hu.clock (idle_of_none hnone)
    · rintro _ ⟨u, j, hu, -, hcmd, rfl⟩ j' -
      rw [accepted, hst.mpr hu.st] at hcmd
      obtain ⟨m, hm, hrests⟩ := runs_command _ cmd _ ⟨u, j, hu, hcmd, rfl⟩ j'
      refine ⟨m, fun k hk => (hm k hk).1, ?_⟩
      rw [List.foldl_append]
      exact hrests
    · rw [accepted, if_pos hbusy]
  intro t ht j
  obtain ⟨d, hbusy, hrests⟩ := hrun t ht j ⟨fun _ => trivial, fun k => ⟨k, Nat.le_refl k, trivial⟩⟩
  exact ⟨d, hbusy, hst.mpr hrests.st, fun i j x y hi hj hl => hrests.reads hi hj hl⟩

def powerUp : KeccakCore where
  ram := ⟨fun _ => 0, 0, 0, false, 0, 0⟩
  st := .idle
  done := false
  cur := false
  c := 0
  rnd := 0
  ix := 0
  iy := 0
  cx := 0
  cy := 0
  row := 0
  xl := 0
  xv := 0
  cacc := 0
  cr := ⟨0, 0, 0, 0, 0⟩
  rr := ⟨0, 0, 0, 0, 0⟩

/-- A permutation is asked for again and again. -/
def permAlways (_ : Nat) : Keccak.In := ⟨false, none, true, 0⟩

theorem commands_computed_perm :
    Leads clock (fun t => t.busy = true) (fun t => t = after clock powerUp permAlways 10000) fun t => t.busy = false ∧
      Reads ((outputs clock accepted powerUp permAlways 10000).foldl Command.run
        (stateOf powerUp.ram.written powerUp.cur)) t :=
  commands_computed rfl permAlways 10000

/-! Whatever the core does ends. -/

/-- The counters of a state stay below their ends. -/
def Bounded (s : KeccakCore) : Prop :=
  match s.st with
  | .idle | .x1 | .x2 => True
  | .clr => s.c.toNat ≤ 24
  | .a | .b => s.c.toNat ≤ 26 ∧ s.rnd.toNat ≤ 23
  | .gap => s.row.toNat ≤ 4 ∧ s.rnd.toNat ≤ 23
  | .cg => s.c.toNat ≤ 6 ∧ s.row.toNat ≤ 4 ∧ s.rnd.toNat ≤ 23
  | .cw => s.cx.toNat ≤ 4 ∧ s.row.toNat ≤ 4 ∧ s.rnd.toNat ≤ 23

/-- The clocks to the end of what the core does. -/
def left (s : KeccakCore) : Nat :=
  let rest := (23 - s.rnd.toNat) * 115
  match s.st with
  | .idle => 0
  | .clr => 25 - s.c.toNat
  | .x1 => 2
  | .x2 => 1
  | .a => 27 - s.c.toNat + 88 + rest
  | .b => 27 - s.c.toNat + 61 + rest
  | .gap => 1 + 12 * (5 - s.row.toNat) + rest
  | .cg => 7 - s.c.toNat + 5 + 12 * (4 - s.row.toNat) + rest
  | .cw => 5 - s.cx.toNat + 12 * (4 - s.row.toNat) + rest

theorem bv_next {w : Nat} {x : BitVec w} {n : Nat} (h : x.toNat ≤ n) (hn : n + 1 < 2 ^ w) : (x + 1).toNat = x.toNat + 1 := by
  have hone : (1 : BitVec w).toNat = 1 % 2 ^ w := BitVec.toNat_ofNat 1 w
  rw [BitVec.toNat_add, hone, Nat.mod_eq_of_lt (show 1 < 2 ^ w by omega), Nat.mod_eq_of_lt (by omega)]

theorem bv_ne {w : Nat} {x : BitVec w} {n : Nat} (hn : n < 2 ^ w) (h : x ≠ BitVec.ofNat w n) : x.toNat ≠ n := by
  intro he
  apply h
  apply BitVec.eq_of_toNat_eq
  rw [he, BitVec.toNat_ofNat, Nat.mod_eq_of_lt hn]

theorem Bounded.clock (h : Bounded s) : Bounded (s.clock i) ∧ (s.st ≠ .idle → left (s.clock i) + 1 = left s) := by
  cases hst : s.st with
  | idle =>
    refine ⟨?_, fun he => absurd rfl he⟩
    simp only [KeccakCore.clock, hst, restart]
    split
    · exact Nat.zero_le 24
    · split
      · exact ⟨Nat.zero_le 26, Nat.zero_le 23⟩
      · split <;> trivial
  | clr =>
    simp only [Bounded, hst] at h
    have hclock : s.clock i = if s.c = 24 then { ticked s with ram := s.ram.clock.write (addr s.cur s.c) 0, st := .idle }
        else { ticked s with ram := s.ram.clock.write (addr s.cur s.c) 0, c := s.c + 1 } := by
      simp only [KeccakCore.clock, ticked, hst]
    rw [hclock]
    by_cases h24 : s.c = 24
    · rw [if_pos h24]
      simp only [Bounded, left, hst, h24]
      exact ⟨trivial, fun _ => rfl⟩
    · have hne : s.c.toNat ≠ 24 := bv_ne (by decide) h24
      rw [if_neg h24]
      simp only [Bounded, left, ticked, hst, bv_next h (by decide)]
      omega
  | x1 =>
    simp only [KeccakCore.clock, hst, left, Bounded]
    exact ⟨trivial, fun _ => trivial⟩
  | x2 =>
    simp only [KeccakCore.clock, hst, left, Bounded]
    exact ⟨trivial, fun _ => trivial⟩
  | a =>
    simp only [Bounded, hst] at h
    rw [(passA_clock (i := i) hst).trans (passA_eq s (ticked s))]
    by_cases h26 : s.c = 26
    · rw [if_pos h26]
      simp only [Bounded, left, restart, ticked, hst, h26]
      exact ⟨⟨Nat.zero_le 26, h.2⟩, fun _ => Nat.add_right_comm _ _ _⟩
    · have hne : s.c.toNat ≠ 26 := bv_ne (by decide) h26
      rw [if_neg h26]
      simp only [Bounded, left, ticked, hst, bv_next h.1 (by decide)]
      omega
  | b =>
    simp only [Bounded, hst] at h
    rw [(passB_clock (i := i) hst).trans (passB_eq s)]
    by_cases h26 : s.c = 26
    · rw [if_pos h26]
      simp only [Bounded, left, ticked, hst, h26]
      exact ⟨⟨Nat.zero_le 4, h.2⟩, fun _ => Nat.add_right_comm _ _ _⟩
    · have hne : s.c.toNat ≠ 26 := bv_ne (by decide) h26
      rw [if_neg h26]
      simp only [Bounded, left, ticked, hst, bv_next h.1 (by decide)]
      omega
  | gap =>
    simp only [Bounded, hst] at h
    have hclock : s.clock i = { ticked s with c := 0, ix := 0, cx := 0, st := .cg } := by
      simp only [KeccakCore.clock, ticked, hst]
    rw [hclock]
    simp only [Bounded, left, ticked, hst]
    refine ⟨⟨Nat.zero_le 6, h⟩, fun _ => ?_⟩
    change 7 + 5 + _ + _ + 1 = _
    omega
  | cg =>
    simp only [Bounded, hst] at h
    rw [gather_eq hst]
    by_cases h6 : s.c = 6
    · rw [if_pos h6]
      simp only [Bounded, left, ticked, hst, h6]
      refine ⟨⟨Nat.zero_le 4, h.2⟩, fun _ => ?_⟩
      change 5 + _ + _ + 1 = 1 + 5 + _ + _
      omega
    · have hne : s.c.toNat ≠ 6 := bv_ne (by decide) h6
      rw [if_neg h6]
      simp only [Bounded, left, ticked, hst, bv_next h.1 (by decide)]
      omega
  | cw =>
    simp only [Bounded, hst] at h
    obtain ⟨hcx, hrow, hrnd⟩ := h
    rw [scatter_clock hst, scatter]
    by_cases h4 : s.cx = 4
    · rw [if_pos h4]
      by_cases hlast : s.row = 4
      · rw [if_pos hlast]
        by_cases h23 : s.rnd = 23
        · rw [if_pos h23]
          simp only [Bounded, left, hst, h4, hlast, h23]
          exact ⟨trivial, fun _ => rfl⟩
        · have hne : s.rnd.toNat ≠ 23 := bv_ne (by decide) h23
          have hle : s.rnd.toNat ≤ 22 := by omega
          rw [if_neg h23]
          simp only [Bounded, left, restart, ticked, hst, h4, hlast, bv_next hle (by decide)]
          refine ⟨⟨Nat.zero_le 26, Nat.succ_le_succ hle⟩, fun _ => ?_⟩
          change 27 + 88 + _ + 1 = 1 + 0 + _
          omega
      · have hne : s.row.toNat ≠ 4 := bv_ne (by decide) hlast
        rw [if_neg hlast]
        simp only [Bounded, left, ticked, hst, h4, bv_next hrow (by decide)]
        refine ⟨⟨Nat.zero_le 6, ?_, hrnd⟩, fun _ => ?_⟩
        · omega
        · change 7 + 5 + _ + _ + 1 = 1 + _ + _
          omega
    · have hne : s.cx.toNat ≠ 4 := bv_ne (by decide) h4
      rw [if_neg h4]
      simp only [Bounded, left, ticked, hst, bv_next hcx (by decide)]
      omega

end GoiKey.Rtl.KeccakCore
