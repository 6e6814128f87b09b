import GoiKey.Proofs.PolySlots
import GoiKey.Proofs.PqHints

/-!
The formats of the packing unit: whole calls, the bytes they write, and what is read back
out of them.
-/

namespace GoiKey.Rtl.PqPack

open Clocked BitBuffer SyncRam

/-! Calls. -/

/-- The unit is idle and nothing is on its way to a memory. -/
structure Quiet (s : PqPack) : Prop where
  st : s.st = .idle
  pm : s.pm.we = false
  bus : s.bus.we = false

/-- `u` is where the unit is idle again after it has been started in `s`. -/
abbrev Call (a : PackArgs) : PqPack → PqPack → Prop :=
  Clocked.Call clock Plain Ready Busy fun i => i.start = some a

/-- A call that is started comes to its end. -/
abbrev Ends (a : PackArgs) : PqPack → Prop := Clocked.Ends clock Plain Ready Busy fun i => i.start = some a

variable {a b : PackArgs} {s u t w : PqPack}

theorem not_busy (h : s.st = .idle) : ¬ Busy s := fun hb => hb h

/-! Formats. -/

def eta (a : PackArgs) : Nat := if a.eta4 then 4 else 2

def g1bits (a : PackArgs) : Nat := if a.g1sel then 19 else 17

def g2div (a : PackArgs) : Nat := if a.g2sel then 32 else 88

/-- The operations that pack a polynomial. -/
def Packs (a : PackArgs) : Prop :=
  a.op = .t1 ∨ a.op = .t0 ∨ a.op = .eta ∨ a.op = .z ∨ a.op = .w1

/-- The packer of the reference for an operation. -/
def encode (a : PackArgs) (c : Pq.Poly) : List (BitVec 8) :=
  match a.op with
  | .t1 => Pq.pkT1 c
  | .t0 => Pq.pkT0 c
  | .eta => Pq.pkEta c (eta a)
  | .z => Pq.pkZ c (g1bits a)
  | .w1 => Pq.pkW1 c (g2div a)
  | _ => []

/-- What the reference makes of the bytes. -/
def decode (a : PackArgs) (bytes : List (BitVec 8)) : Pq.Poly :=
  match a.op with
  | .t1 => Pq.unpackBits bytes 10
  | .t0 | .upT0 => Pq.upkT0 bytes
  | .eta | .upEta => Pq.upkEta bytes (eta a)
  | .z => Pq.sampleGamma1 bytes (g1bits a)
  | .w1 | .upW1 => Pq.upkW1 bytes (g2div a)
  | _ => fun _ => 0

/-- The coefficients a format is for. -/
def InRange (a : PackArgs) (x : Int) : Prop :=
  match a.op with
  | .t1 => 0 ≤ x ∧ x < 1024
  | .t0 => -4096 < x ∧ x ≤ 4096
  | .eta => -(eta a : Int) ≤ x ∧ x ≤ eta a
  | .z => -2 ^ g1bits a < x ∧ x ≤ 2 ^ g1bits a
  | .w1 => 0 ≤ x ∧ x ≤ if a.g2sel then 15 else 43
  | _ => False

/-- The slot of an operation holds the polynomial. -/
def Held (s : PqPack) (a : PackArgs) (c : Pq.Poly) : Prop :=
  ∀ k < 256, s.pm.written (coefAddr a k) = BitVec.ofInt 32 (c k)

/-- The operation that unpacks what another has packed. -/
def ReadsBack (a b : PackArgs) : Prop :=
  b.eta4 = a.eta4 ∧ b.g1sel = a.g1sel ∧ b.g2sel = a.g2sel ∧
    (a.op = .t0 ∧ b.op = .upT0 ∨ a.op = .eta ∧ b.op = .upEta ∨ a.op = .w1 ∧ b.op = .upW1)

/-- The constant a coefficient is taken from, if it is. -/
def offset (a : PackArgs) : Option Int :=
  match a.op with
  | .t0 | .upT0 => some 4096
  | .eta | .upEta => some (eta a)
  | .z => some (2 ^ g1bits a)
  | _ => none

/-- What is packed for a coefficient, and what is made of what has been unpacked. -/
def shifted (a : PackArgs) (x : Int) : Int :=
  match offset a with
  | some o => o - x
  | none => x

theorem shifted_shifted (a : PackArgs) (x : Int) : shifted a (shifted a x) = x := by
  rw [shifted, shifted]
  cases offset a with
  | none => rfl
  | some o => exact Int.sub_sub_self o x

theorem ofInt_sub (x y : Int) : BitVec.ofInt 32 (x - y) = BitVec.ofInt 32 x - BitVec.ofInt 32 y := by
  rw [Int.sub_eq_add_neg, BitVec.ofInt_add, BitVec.ofInt_neg, BitVec.sub_eq_add_neg]

theorem field_ofInt (a : PackArgs) (x : Int) : a.field (BitVec.ofInt 32 x) = BitVec.ofInt 32 (shifted a x) := by
  rw [PackArgs.field, shifted, offset, PackArgs.useK, PackArgs.kconst, eta, g1bits]
  cases a.op with
  | t0 | upT0 => rw [ofInt_sub]; rfl
  | eta | upEta => cases a.eta4 <;> rw [ofInt_sub] <;> rfl
  | z => cases a.g1sel <;> rw [ofInt_sub] <;> rfl
  | t1 | w1 | h | dump | upW1 => rfl

theorem residue_ofInt (x : Int) {n : Nat} (hn : n ≤ 32) :
    (BitVec.ofInt 32 x).toNat % 2 ^ n = (x % 2 ^ n).toNat := by
  have hdvd : (2 : Int) ^ n ∣ 2 ^ 32 := pow_dvd_pow 2 hn
  have hpos : (0 : Int) < 2 ^ 32 := by decide
  have hcast : ((2 ^ n : Nat) : Int) = 2 ^ n := by push_cast; rfl
  rw [BitVec.toNat_ofInt]
  apply Int.natCast_inj.mp
  rw [Int.natCast_emod, Int.toNat_of_nonneg (Int.emod_nonneg x (by decide)), hcast,
    Int.toNat_of_nonneg (Int.emod_nonneg x (Int.ne_of_gt (Int.pow_pos (by decide))))]
  exact Int.emod_emod_of_dvd x hdvd

theorem encode_eq (h : Packs a) (c : Pq.Poly) :
    encode a c = Pq.packBits (fun i => shifted a (c i)) (width a) := by
  rcases h with h | h | h | h | h
  · simp only [encode, shifted, offset, width, PackArgs.nbits, h, Pq.pkT1]
    rfl
  · simp only [encode, shifted, offset, width, PackArgs.nbits, h, Pq.pkT0]
    rfl
  · simp only [encode, shifted, offset, width, PackArgs.nbits, h, Pq.pkEta, eta]
    cases a.eta4 <;> rfl
  · simp only [encode, shifted, offset, width, PackArgs.nbits, h, Pq.pkZ, g1bits]
    cases a.g1sel <;> rfl
  · simp only [encode, shifted, offset, width, PackArgs.nbits, h, Pq.pkW1, g2div]
    cases a.g2sel <;> rfl

theorem decode_eq (h : Packs a) (bytes : List (BitVec 8)) (i : Nat) :
    decode a bytes i = shifted a (Pq.unpackBits bytes (width a) i) := by
  rcases h with h | h | h | h | h
  · simp only [decode, shifted, offset, width, PackArgs.nbits, h]
    rfl
  · simp only [decode, shifted, offset, width, PackArgs.nbits, h, Pq.upkT0]
    rfl
  · simp only [decode, shifted, offset, width, PackArgs.nbits, h, Pq.upkEta, eta]
    cases a.eta4 <;> rfl
  · simp only [decode, shifted, offset, width, PackArgs.nbits, h, Pq.sampleGamma1, g1bits]
    cases a.g1sel <;> rfl
  · simp only [decode, shifted, offset, width, PackArgs.nbits, h, Pq.upkW1, g2div]
    cases a.g2sel <;> rfl

theorem shifted_range (h : Packs a) {x : Int} (hx : InRange a x) :
    0 ≤ shifted a x ∧ shifted a x < 2 ^ width a := by
  rcases h with h | h | h | h | h
  · have hw : width a = 10 := by rw [width, PackArgs.nbits, h]; rfl
    simp only [InRange, shifted, offset, h, hw] at hx ⊢
    omega
  · have hw : width a = 13 := by rw [width, PackArgs.nbits, h]; rfl
    simp only [InRange, shifted, offset, h, hw] at hx ⊢
    omega
  · cases he : a.eta4 with
    | false =>
      have hw : width a = 3 := by rw [width, PackArgs.nbits, h, he]; rfl
      have heta : eta a = 2 := by rw [eta, he]; rfl
      simp only [InRange, shifted, offset, h, hw, heta] at hx ⊢
      omega
    | true =>
      have hw : width a = 4 := by rw [width, PackArgs.nbits, h, he]; rfl
      have heta : eta a = 4 := by rw [eta, he]; rfl
      simp only [InRange, shifted, offset, h, hw, heta] at hx ⊢
      omega
  · cases hg : a.g1sel with
    | false =>
      have hw : width a = 18 := by rw [width, PackArgs.nbits, h, hg]; rfl
      have hbits : g1bits a = 17 := by rw [g1bits, hg]; rfl
      simp only [InRange, shifted, offset, h, hw, hbits] at hx ⊢
      omega
    | true =>
      have hw : width a = 20 := by rw [width, PackArgs.nbits, h, hg]; rfl
      have hbits : g1bits a = 19 := by rw [g1bits, hg]; rfl
      simp only [InRange, shifted, offset, h, hw, hbits] at hx ⊢
      omega
  · cases hg : a.g2sel with
    | false =>
      have hw : width a = 6 := by rw [width, PackArgs.nbits, h, hg]; rfl
      simp only [InRange, shifted, offset, h, hw, hg, Bool.false_eq_true, if_false] at hx ⊢
      omega
    | true =>
      have hw : width a = 4 := by rw [width, PackArgs.nbits, h, hg]; rfl
      simp only [InRange, shifted, offset, h, hw, hg, if_true] at hx ⊢
      omega

theorem residue_shifted (h : Packs a) {x : Int} (hx : InRange a x) :
    shifted a x % 2 ^ width a = shifted a x := by
  obtain ⟨hlow, hhigh⟩ := shifted_range h hx
  exact Int.emod_eq_of_lt hlow hhigh

theorem length_encode (h : Packs a) (c : Pq.Poly) : (encode a c).length = 32 * width a := by
  rw [encode_eq h, Pq.packBits, Pq.toBytes, List.length_map, List.length_range, Pq.n]
  omega

/-- The reference reads back what it has packed. -/
theorem decode_encode (h : Packs a) {c : Pq.Poly} (hc : ∀ k < 256, InRange a (c k)) {k : Nat} (hk : k < 256) :
    decode a (encode a c) k = c k := by
  rw [decode_eq h, encode_eq h, Pq.unpackBits_packBits _ _ hk, residue_shifted h (hc k hk), shifted_shifted]

/-! Addresses. -/

theorem coefAddr_inj (a : PackArgs) : ∀ i < 256, ∀ j < 256, coefAddr a i = coefAddr a j → i = j :=
  Rtl.coefAddr_inj a.slot

/-- No memory is smaller than 2048 bytes. -/
theorem byteAddr_inj (a : PackArgs) {i j : Nat} (hi : i < 2048) (hj : j < 2048)
    (h : byteAddr a i = byteAddr a j) : i = j := by
  rw [byteAddr, byteAddr, cell, cell] at h
  split at h
  · have haddr := congrArg (fun x : Cell => x.2.toNat) h
    simp only [BitVec.toNat_add, BitVec.toNat_ofNat] at haddr
    omega
  · have haddr := congrArg (fun x : Cell => x.2.toNat) h
    simp only [BitVec.toNat_setWidth, BitVec.toNat_add, BitVec.toNat_ofNat] at haddr
    omega

/-! What a call does. -/

/-- The number that is packed. -/
def packed (a : PackArgs) (c : Pq.Poly) : Nat := Pq.packNumber (fun i => shifted a (c i)) (width a) 256

theorem field_packed (c : Pq.Poly) {k : Nat} (hk : k < 256) :
    field (packed a c) (width a * k) (width a) = (shifted a (c k) % 2 ^ width a).toNat :=
  Pq.field_packNumber _ _ hk

theorem encode_get (h : Packs a) (c : Pq.Poly) {j : Nat} (hj : j < 32 * width a) :
    (encode a c).getD j 0 = BitVec.ofNat 8 (packed a c >>> (8 * j)) := by
  have hlen : Pq.n * width a / 8 = 32 * width a := by
    rw [Pq.n]
    omega
  rw [encode_eq h, Pq.packBits, Pq.toBytes, hlen, List.getD_eq_getElem _ _ (by simpa using hj),
    List.getElem_map, List.getElem_range]
  rfl

theorem started (h : Packs a) (c : Pq.Poly) (hs : Quiet s) {i : PackIn} (hi : i.start = some a) :
    Packing (packed a c) s.pm.written s.bus.written s.given a .r 0 0 0 (clock s i) := by
  have hst : (clock s i) = start (s.tick i) a := by simp only [clock, fsm, hs.st, hi]
  have hfirst : (start (s.tick i) a).st = .r := by
    rcases h with h | h | h | h | h <;> simp only [start, h]
  rw [hst]
  refine ⟨hfirst, rfl, rfl, ?_, Nat.le_refl _, rfl, rfl, rfl, rfl, ?_, ?_⟩
  · exact buffer_self.symm
  · split <;> rfl
  · split
    · exact (List.append_nil _).symm
    · rfl

theorem started_unpack (h : a.op = .upT0 ∨ a.op = .upEta ∨ a.op = .upW1) (v : Nat) (hs : Quiet s) {i : PackIn}
    (hi : i.start = some a) : Unpacking v s.pm.written s.bus.written a .ub 0 0 (clock s i) := by
  have hst : (clock s i) = start (s.tick i) a := by simp only [clock, fsm, hs.st, hi]
  have hfirst : (start (s.tick i) a).st = .ub := by
    rcases h with h | h | h <;> simp only [start, h]
  rw [hst]
  refine ⟨hfirst, rfl, rfl, ?_, Nat.zero_le _, (Nat.zero_sub _).symm, rfl, rfl, rfl, rfl⟩
  rw [Nat.mul_zero]
  exact buffer_self.symm

theorem started_hint (h : a.op = .h) {m : Nat} (row : Nat → Bool) (hs : Quiet s) {i : PackIn} (hp : Plain i)
    (hi : i.start = some a) (hk : s.hk = BitVec.ofNat 8 m) (hover : s.hkOver = decide (a.omega.toNat < m)) :
    Hinting m row s.pm.written s.bus.written a .h 0 0 (clock s i) := by
  obtain ⟨htk, hto⟩ := tick_plain s hp
  have hst : (clock s i) = start (s.tick i) a := by simp only [clock, fsm, hs.st, hi]
  have hfirst : (start (s.tick i) a).st = .h := by simp only [start, h]
  rw [hst]
  exact ⟨hfirst, rfl, rfl, rfl, rfl, htk.trans hk, hto.trans hover, fun _ => rfl⟩

/-- A call that packs writes the bytes of the reference, or gives them to the sponge. -/
theorem call_packs (h : Packs a) {c : Pq.Poly} (hs : Quiet s) (hheld : Held s a c) (hc : Call a s u) :
    u.pm.written = s.pm.written ∧
      u.bus.written = (if a.space = 3 then s.bus.written
        else fill s.bus.written (byteAddr a) (fun j => (encode a c).getD j 0) (32 * width a)) ∧
      u.given = if a.space = 3 then s.given ++ encode a c else s.given := by
  have hv : ∀ k < 256, (a.field (s.pm.written (coefAddr a k))).toNat % 2 ^ width a
      = field (packed a c) (width a * k) (width a) := by
    intro k hk
    rw [hheld k hk, field_ofInt, residue_ofInt _ (width_le a), field_packed c hk]
  have hlist : (List.range (32 * width a)).map (fun j => BitVec.ofNat 8 (packed a c >>> (8 * j))) = encode a c := by
    have hlen : Pq.n * width a / 8 = 32 * width a := by
      rw [Pq.n]
      omega
    rw [encode_eq h, Pq.packBits, Pq.toBytes, hlen]
    rfl
  obtain ⟨hfinished, hbus, hsponge⟩ := hc.leads (fun i _ hi => started h c hs hi) (packs hv) fun t ht => not_busy ht.1.st
  refine ⟨hfinished.pm, ?_, ?_⟩
  · rw [hbus, fill_congr fun j hj => (encode_get h c hj).symm]
  · rw [hsponge, hlist]

/-- A call that unpacks bytes the reference has packed. -/
theorem call_unpacks (h : Packs a) {c : Pq.Poly} (hrange : ∀ k < 256, InRange a (c k)) (hb : ReadsBack a b)
    (hs : Quiet s) (hbytes : ∀ j < 32 * width a, s.bus.written (byteAddr b j) = (encode a c).getD j 0)
    (hc : Call b s u) : Held u b c ∧ u.bus.written = s.bus.written := by
  have hwidth : width b = width a := by
    obtain ⟨he, -, hg2, ⟨ha, hb⟩ | ⟨ha, hb⟩ | ⟨ha, hb⟩⟩ := hb
    all_goals simp only [width, PackArgs.nbits, ha, hb, he, hg2]
  have hshifted : ∀ x, shifted b x = shifted a x := by
    obtain ⟨he, -, -, ⟨ha, hb⟩ | ⟨ha, hb⟩ | ⟨ha, hb⟩⟩ := hb
    all_goals simp only [shifted, offset, eta, ha, hb, he, implies_true]
  have hop : b.op = .upT0 ∨ b.op = .upEta ∨ b.op = .upW1 := by
    obtain ⟨-, -, -, ⟨-, hb⟩ | ⟨-, hb⟩ | ⟨-, hb⟩⟩ := hb
    · exact .inl hb
    · exact .inr (.inl hb)
    · exact .inr (.inr hb)
  have hv : ∀ j < 32 * width b, (s.bus.written (byteAddr b j)).toNat = field (packed a c) (8 * j) 8 := by
    intro j hj
    rw [hwidth] at hj
    rw [hbytes j hj, encode_get h c hj, BitVec.toNat_ofNat, Nat.shiftRight_eq_div_pow]
    rfl
  have hdone := hc.leads (fun i _ hi => started_unpack hop (packed a c) hs hi) (unpacks hv) fun t ht => not_busy ht.st
  refine ⟨fun k hk => ?_, hdone.bus⟩
  have hnonneg := (shifted_range h (hrange k hk)).1
  rw [hdone.pm, fill_at (coefAddr_inj b) hk, unpacked, hwidth, field_packed c hk, residue_shifted h (hrange k hk),
    ← BitVec.ofInt_natCast, Int.toNat_of_nonneg hnonneg, field_ofInt, hshifted, shifted_shifted]

/-! Hints. -/

/-- A call for a polynomial of hints, after `m` positions in the polynomials before. -/
theorem call_marks (h : a.op = .h) (hsp : a.space ≠ 3) {m : Nat} {row : Nat → Bool} (hs : Quiet s)
    (hrow : ∀ k < 256, s.pm.written (coefAddr a k) ≠ 0 ↔ row k = true) (hk : s.hk = BitVec.ofNat 8 m)
    (hover : s.hkOver = decide (a.omega.toNat < m)) (hc : Call a s u) : Marked m row s.bus.written a u :=
  hc.leads (fun _ hp hi => started_hint h row hs hp hi hk hover) (marks hsp hrow) fun _ ht => not_busy ht.st

/-- The calls for the polynomials of a hint vector: `s i` is where the `i`-th call begins and
`u i` where it ends. What happens in between leaves the counter and the bytes alone. -/
structure HintRun (h : Nat → Nat → Bool) (rows : Nat) (a : PackArgs) (s u : Nat → PqPack) : Prop where
  op : a.op = .h
  space : a.space ≠ 3
  few : rows ≤ 64
  quiet : ∀ i < rows, Quiet (s i)
  held : ∀ i < rows, ∀ k < 256, (s i).pm.written (coefAddr a k) ≠ 0 ↔ h i k = true
  call : ∀ i < rows, Call { a with hidx := BitVec.ofNat 6 i } (s i) (u i)
  hk : (s 0).hk = 0
  hkOver : (s 0).hkOver = false
  zeros : ∀ j < a.omega.toNat + rows, (s 0).bus.written (byteAddr a j) = 0
  keepsHk : ∀ i < rows, (s (i + 1)).hk = (u i).hk
  keepsOver : ∀ i < rows, (s (i + 1)).hkOver = (u i).hkOver
  keepsBytes : ∀ i < rows, ∀ j < a.omega.toNat + rows,
    (s (i + 1)).bus.written (byteAddr a j) = (u i).bus.written (byteAddr a j)

section Run

variable {h : Nat → Nat → Bool} {rows : Nat} {s u : Nat → PqPack}

/-- After the calls for the first `i` polynomials. -/
structure Collected (h : Nat → Nat → Bool) (rows : Nat) (a : PackArgs) (i : Nat) (s : PqPack) : Prop where
  hk : s.hk = BitVec.ofNat 8 (Pq.hintCount h i)
  hkOver : s.hkOver = decide (a.omega.toNat < Pq.hintCount h i)
  listed : Pq.hintCount h i ≤ a.omega.toNat →
    Pq.Listed (fun j => s.bus.written (byteAddr a j)) a.omega.toNat h i ∧
      ∀ j, i ≤ j → j < rows → s.bus.written (byteAddr a (a.omega.toNat + j)) = 0

theorem HintRun.marks (hr : HintRun h rows a s u) {i : Nat} (hi : i < rows) (hc : Collected h rows a i (s i)) :
    Marked (Pq.hintCount h i) (h i) (s i).bus.written { a with hidx := BitVec.ofNat 6 i } (u i) :=
  call_marks (a := { a with hidx := BitVec.ofNat 6 i }) hr.op hr.space (hr.quiet i hi) (hr.held i hi) hc.hk hc.hkOver (hr.call i hi)

theorem marked_at {bus : Cell → BitVec 8} {m : Nat} {ps : List Nat} {t : Nat} (ht : t < ps.length)
    (hps : m + ps.length ≤ 2048) :
    marked bus a m ps (byteAddr a (m + t)) = BitVec.ofNat 8 ps[t] := by
  have hinj : ∀ i < ps.length, ∀ j < ps.length, byteAddr a (m + i) = byteAddr a (m + j) → i = j := by
    intro i hi j hj heq
    have hsame := byteAddr_inj a (by omega) (by omega) heq
    omega
  rw [← List.length_map (f := BitVec.ofNat 8)] at hinj ht
  have hat := @fillList_at _ _ _ bus (fun j => byteAddr a (m + j)) _ _ hinj ht
  rw [marked, hat, List.getElem_map]

theorem marked_elsewhere {bus : Cell → BitVec 8} {m : Nat} {ps : List Nat} {j : Nat}
    (hj : j < m ∨ m + ps.length ≤ j) (hlt : j < 2048) (hps : m + ps.length ≤ 2048) :
    marked bus a m ps (byteAddr a j) = bus (byteAddr a j) := by
  apply fillList_elsewhere
  intro k hk heq
  rw [List.length_map] at hk
  have hsame := byteAddr_inj a hlt (by omega) heq
  omega

/-- One call more. -/
theorem HintRun.collects (hr : HintRun h rows a s u) {i : Nat} (hi : i < rows)
    (hc : Collected h rows a i (s i)) : Collected h rows a (i + 1) (s (i + 1)) := by
  have hm := hr.marks hi hc
  have hrows := hr.few
  have homega := a.omega.isLt
  refine ⟨(hr.keepsHk i hi).trans hm.hk, (hr.keepsOver i hi).trans hm.hkOver, fun hle => ?_⟩
  have hstep : Pq.hintCount h (i + 1) = Pq.hintCount h i + (Pq.positions (h i)).length := rfl
  obtain ⟨hlisted, hzeros⟩ := hc.listed (by omega)
  have hidx : (BitVec.ofNat 6 i).toNat = i := by
    rw [BitVec.toNat_ofNat, Nat.mod_eq_of_lt (by omega)]
  have hbytes : (u i).bus.written = Function.update (marked (s i).bus.written a (Pq.hintCount h i) (Pq.positions (h i)))
      (byteAddr a (a.omega.toNat + i)) (BitVec.ofNat 8 (Pq.hintCount h (i + 1))) := by
    have hmarked := hm.bytes (by rw [← hstep]; exact hle)
    rw [hidx] at hmarked
    exact hmarked
  -- A byte that is neither the count of this polynomial nor one of its positions.
  have hother : ∀ j < a.omega.toNat + rows, j ≠ a.omega.toNat + i →
      (s (i + 1)).bus.written (byteAddr a j)
        = marked (s i).bus.written a (Pq.hintCount h i) (Pq.positions (h i)) (byteAddr a j) := by
    intro j hj hne
    have hcell : byteAddr a j ≠ byteAddr a (a.omega.toNat + i) := fun heq =>
      hne (byteAddr_inj a (by omega) (by omega) heq)
    rw [hr.keepsBytes i hi j hj, hbytes, Function.update_of_ne hcell]
  have hcount : (s (i + 1)).bus.written (byteAddr a (a.omega.toNat + i))
      = BitVec.ofNat 8 (Pq.hintCount h (i + 1)) := by
    rw [hr.keepsBytes i hi _ (by omega), hbytes, Function.update_self]
  refine ⟨⟨fun i' hi' t ht => ?_, fun i' hi' => ?_, fun j hj hlt => ?_⟩, fun j hj hlt => ?_⟩
  · have hbound : Pq.hintCount h i' + t < Pq.hintCount h (i' + 1) := Nat.add_lt_add_left ht _
    have hmono : Pq.hintCount h (i' + 1) ≤ Pq.hintCount h (i + 1) := Pq.hintCount_mono h (Nat.succ_le_of_lt hi')
    rw [hother (Pq.hintCount h i' + t) (by omega) (by omega)]
    rcases Nat.lt_or_eq_of_le (Nat.le_of_lt_succ hi') with hlt | rfl
    · have hbefore : Pq.hintCount h (i' + 1) ≤ Pq.hintCount h i := Pq.hintCount_mono h (Nat.succ_le_of_lt hlt)
      rw [marked_elsewhere (.inl (by omega)) (by omega) (by omega)]
      exact hlisted.positions i' hlt t ht
    · exact marked_at ht (by omega)
  · rcases Nat.lt_or_eq_of_le (Nat.le_of_lt_succ hi') with hlt | rfl
    · rw [hother (a.omega.toNat + i') (by omega) (by omega),
        marked_elsewhere (j := a.omega.toNat + i') (.inr (by omega)) (by omega) (by omega)]
      exact hlisted.counts i' hlt
    · exact hcount
  · rw [hother j (by omega) (by omega), marked_elsewhere (.inr (by omega)) (by omega) (by omega)]
    exact hlisted.rest j (by omega) hlt
  · rw [hother (a.omega.toNat + j) (by omega) (by omega),
      marked_elsewhere (j := a.omega.toNat + j) (.inr (by omega)) (by omega) (by omega)]
    exact hzeros j (by omega) hlt

theorem HintRun.collected (hr : HintRun h rows a s u) (i : Nat) (hi : i ≤ rows) :
    Collected h rows a i (s i) := by
  induction i with
  | zero =>
    refine ⟨hr.hk, ?_, fun _ => ⟨⟨fun i hi => absurd hi (Nat.not_lt_zero i), fun i hi => absurd hi (Nat.not_lt_zero i), ?_⟩, ?_⟩⟩
    · rw [hr.hkOver]
      exact (decide_eq_false (Nat.not_lt_zero _)).symm
    · intro j _ hj
      exact hr.zeros j (by omega)
    · intro j _ hj
      exact hr.zeros _ (by omega)
  | succ i ih => exact hr.collects hi (ih (Nat.le_of_succ_le hi))

end Run

/-! Every call ends. -/

theorem pack_ends (h : Packs a) (hs : Quiet s) : Ends a s := by
  have hheld : Held s a fun k => (s.pm.written (coefAddr a k)).toInt := fun k _ => BitVec.ofInt_toInt.symm
  have hv : ∀ k < 256, (a.field (s.pm.written (coefAddr a k))).toNat % 2 ^ width a
      = field (packed a fun k => (s.pm.written (coefAddr a k)).toInt) (width a * k) (width a) := by
    intro k hk
    rw [hheld k hk, field_ofInt, residue_ofInt _ (width_le a), field_packed _ hk]
  exact .of (fun i _ hi => started h _ hs hi) (packs hv) fun t ht => not_busy ht.1.st

theorem unpack_ends (h : a.op = .upT0 ∨ a.op = .upEta ∨ a.op = .upW1) (hs : Quiet s) : Ends a s := by
  have hv : ∀ j < 32 * width a, (s.bus.written (byteAddr a j)).toNat
      = field (Pq.fromBytes ((List.range (32 * width a)).map fun j => s.bus.written (byteAddr a j))) (8 * j) 8 :=
    fun j hj => (Pq.field_fromBytes (fun j => s.bus.written (byteAddr a j)) hj).symm
  exact .of (fun i _ hi => started_unpack h _ hs hi) (unpacks hv) fun t ht => not_busy ht.st

theorem hint_ends (h : a.op = .h) (hsp : a.space ≠ 3) (hs : Quiet s)
    (hover : s.hkOver = false → s.hk ≤ a.omega) : Ends a s := by
  have hrow : ∀ k < 256, s.pm.written (coefAddr a k) ≠ 0 ↔
      (fun k => decide (s.pm.written (coefAddr a k) ≠ 0)) k = true := fun k _ => decide_eq_true_iff.symm
  obtain ⟨m, hk, ho⟩ : ∃ m, s.hk = BitVec.ofNat 8 m ∧ s.hkOver = decide (a.omega.toNat < m) := by
    cases hflag : s.hkOver with
    | false =>
      have hle := hover hflag
      rw [BitVec.le_def] at hle
      refine ⟨s.hk.toNat, by rw [BitVec.ofNat_toNat, BitVec.setWidth_eq], ?_⟩
      exact (decide_eq_false (Nat.not_lt.mpr hle)).symm
    | true =>
      have homega := a.omega.isLt
      refine ⟨s.hk.toNat + 256, ?_, ?_⟩
      · apply BitVec.eq_of_toNat_eq
        rw [BitVec.toNat_ofNat, Nat.add_mod_right, Nat.mod_eq_of_lt s.hk.isLt]
      · exact (decide_eq_true (by omega)).symm
  exact .of (fun i hp hi => started_hint h _ hs hp hi hk ho) (marks hsp hrow) fun t ht => not_busy ht.st

/-! The formats and the hints. -/

/-- A polynomial in the range of its format is packed into exactly the bytes of the format,
and they give the same coefficients back, in the reference and in the unit; the calls end;
and of a hint vector the positions are listed and read back if there are at most omega, and
the flag says whether there are more. -/
theorem packing_round_trips :
    (∀ a c s u, Packs a → (∀ k < 256, InRange a (c k)) → Quiet s → Held s a c → Call a s u →
      (encode a c).length = 32 * width a ∧
      u.bus.written = (if a.space = 3 then s.bus.written
        else fill s.bus.written (byteAddr a) (fun j => (encode a c).getD j 0) (32 * width a)) ∧
      u.given = (if a.space = 3 then s.given ++ encode a c else s.given) ∧
      (∀ k < 256, decode a (encode a c) k = c k) ∧
      ∀ b t w, ReadsBack a b → Quiet t →
        (∀ j < 32 * width a, t.bus.written (byteAddr b j) = (encode a c).getD j 0) → Call b t w → Held w b c) ∧
    (∀ a s, Quiet s → Packs a ∨ a.op = .upT0 ∨ a.op = .upEta ∨ a.op = .upW1 → Ends a s) ∧
    (∀ a s, Quiet s → a.op = .h → a.space ≠ 3 → (s.hkOver = false → s.hk ≤ a.omega) → Ends a s) ∧
    ∀ h rows a s u, HintRun h rows a s u →
      ((s rows).hkOver = true ↔ a.omega.toNat < Pq.hintCount h rows) ∧
      (Pq.hintCount h rows ≤ a.omega.toNat →
        Pq.Listed (fun j => (s rows).bus.written (byteAddr a j)) a.omega.toNat h rows ∧
        Pq.decodeHints (fun j => (s rows).bus.written (byteAddr a j)) a.omega.toNat rows
          = some ((List.range rows).map fun i x => decide (x < 256) && h i x)) := by
  refine ⟨?_, ?_, fun a s hs h hsp hover => hint_ends h hsp hs hover, ?_⟩
  · intro a c s u h hrange hs hheld hc
    obtain ⟨-, hbus, hsponge⟩ := call_packs h hs hheld hc
    refine ⟨length_encode h c, hbus, hsponge, fun k hk => decode_encode h hrange hk, ?_⟩
    intro b t w hb ht hbytes hw
    exact (call_unpacks h hrange hb ht hbytes hw).1
  · rintro a s hs (h | h)
    · exact pack_ends h hs
    · exact unpack_ends h hs
  · intro h rows a s u hr
    have hc := hr.collected rows (Nat.le_refl rows)
    refine ⟨by rw [hc.hkOver, decide_eq_true_eq], fun hle => ?_⟩
    have hlisted := (hc.listed hle).1
    exact ⟨hlisted, Pq.decodeHints_listed hlisted a.omega.isLt hle⟩

/-- The unit before anything has been asked of it; what the polynomials hold is given. -/
def atRest (a : PackArgs) (coef : BitVec 14 → BitVec 32) : PqPack where
  st := .idle
  args := a
  i := 0
  acc := 0
  accb := 0
  bcnt := 0
  hk := 0
  hkOver := false
  cval := 0
  rAcc := 0
  busy := false
  done := false
  pm := { mem := coef, ra := 0, rq := 0, we := false, wa := 0, wd := 0 }
  bus := { mem := fun _ => 0, ra := (0, 0), rq := 0, we := false, wa := (0, 0), wd := 0 }
  shInValid := false
  shInByte := 0
  sponge := []

theorem quiet_atRest (a : PackArgs) (coef : BitVec 14 → BitVec 32) : Quiet (atRest a coef) := ⟨rfl, rfl, rfl⟩

/-- A start, with the sponge ready all the time. -/
def asks (a : PackArgs) (n : Nat) : PackIn where
  start := if n = 0 then some a else none
  hkClr := false
  shInReady := true

theorem given_asks (a : PackArgs) : Given Plain Ready (asks a) :=
  ⟨fun _ => rfl, fun n => ⟨n, Nat.le_refl n, rfl⟩⟩

/-- Packing t0 into the scratch memory, from slot 3. -/
def packsT0 : PackArgs where
  op := .t0
  slot := 3
  space := 2
  base := 100
  eta4 := false
  g1sel := false
  g2sel := false
  omega := 80
  hidx := 0

theorem packing_round_trips_t0 :
    ∃ u, Call packsT0 (atRest packsT0 fun _ => BitVec.ofInt 32 (-4095)) u ∧
      u.bus.written = fill (fun _ => 0) (byteAddr packsT0)
        (fun j => (encode packsT0 fun _ => -4095).getD j 0) 416 := by
  obtain ⟨hpacks, hends, -⟩ := packing_round_trips
  have hop : Packs packsT0 := .inr (.inl rfl)
  obtain ⟨u, hu⟩ := (hends packsT0 _ (quiet_atRest packsT0 _) (.inl hop)).call (given_asks packsT0) rfl
  refine ⟨u, hu, ?_⟩
  have hrange : InRange packsT0 (-4095) := by
    constructor <;> decide
  have hdone := hpacks packsT0 (fun _ => -4095) _ u hop (fun _ _ => hrange) (quiet_atRest _ _) (fun _ _ => rfl) hu
  exact hdone.2.1

/-- The packing of a hint polynomial with more positions than there is room for. -/
def packsHints : PackArgs := { packsT0 with op := .h, omega := 55 }

/-- With 56 positions where omega is 55 the bytes are refused. -/
theorem over_omega_refused :
    ∃ h a s u, HintRun h 1 a s u ∧
      Pq.decodeHints (fun j => (s 1).bus.written (byteAddr a j)) a.omega.toNat 1 = none := by
  have hquiet := quiet_atRest packsHints fun x => if (x.setWidth 8).toNat < 56 then 1 else 0
  obtain ⟨u, hu⟩ := (hint_ends (a := packsHints) rfl (by decide) hquiet fun _ => by decide).call (given_asks packsHints) rfl
  have hcoef : ∀ k < 256, (coefAddr packsHints k).setWidth 8 = BitVec.ofNat 8 k := by
    intro k _
    exact BitVec.setWidth_append_eq_right
  have hr : HintRun (fun _ k => decide (k < 56)) 1 packsHints
      (fun i => if i = 0 then atRest packsHints fun x => if (x.setWidth 8).toNat < 56 then 1 else 0 else u)
      fun _ => u := by
    refine ⟨rfl, by decide, by decide, ?_, ?_, ?_, rfl, rfl, fun _ _ => rfl, ?_, ?_, ?_⟩
    · rintro i hi
      obtain rfl := Nat.lt_one_iff.mp hi
      exact hquiet
    · rintro i hi k hk
      obtain rfl := Nat.lt_one_iff.mp hi
      have hvalue : (atRest packsHints fun x => if (x.setWidth 8).toNat < 56 then 1 else 0).pm.written
          (coefAddr packsHints k) = if k < 56 then 1 else 0 := by
        rw [written_of_still hquiet.pm]
        simp only [atRest, hcoef k hk, BitVec.toNat_ofNat, Nat.mod_eq_of_lt hk]
      rw [if_pos rfl, hvalue, decide_eq_true_eq]
      by_cases hlt : k < 56
      · rw [if_pos hlt]
        exact iff_of_true (by decide) hlt
      · rw [if_neg hlt]
        exact iff_of_false (fun hne => hne rfl) hlt
    · rintro i hi
      obtain rfl := Nat.lt_one_iff.mp hi
      exact hu
    · rintro i hi
      obtain rfl := Nat.lt_one_iff.mp hi
      rfl
    · rintro i hi
      obtain rfl := Nat.lt_one_iff.mp hi
      rfl
    · rintro i hi j _
      obtain rfl := Nat.lt_one_iff.mp hi
      rfl
  refine ⟨_, _, _, _, hr, ?_⟩
  have hcount := (hr.marks Nat.one_pos (hr.collected 0 (Nat.zero_le 1))).count
  have hpositions : (Pq.positions fun k => decide (k < 56)).length = 56 := by decide
  have hstop : (u.bus.written (byteAddr packsHints 55)).toNat = 56 := by
    rw [hpositions] at hcount
    exact congrArg BitVec.toNat hcount
  have hover : (56 < 0 ∨ 55 < 56) := .inr (by decide)
  have homega : packsHints.omega.toNat = 55 := rfl
  rw [Pq.decodeHints, homega, if_neg Nat.one_ne_zero, Pq.decodeRows]
  simp only [Nat.add_zero, hstop, if_pos hover, Option.bind_eq_bind, Option.bind_none]

end GoiKey.Rtl.PqPack
