import GoiKey.Proofs.Sha2Reached

/-! The digests of sha2_unit.v against those of FIPS 180-4. -/

namespace GoiKey.Rtl.Sha2Unit

open SecureHash (Family sha256 sha512 octets octets_length octets_add octets_zero octets_inj)
open Clocked Sha2

variable {w : Nat} {F : Family w} {s : Sha2Unit} {i : In} {M₀ : BitVec 9 → BitVec 64} {c₀ : Ctl}
  {m t : List (BitVec 8)} {b : BitVec 8}

/-- The width of the words in a mode. -/
def width (md : Mode) : Nat := if md = .sha512 then 64 else 32

theorem width_le (md : Mode) : 32 ≤ width md := by
  unfold width
  split <;> decide

/-- The algorithm of a mode. -/
def family : (md : Mode) → Family (width md)
  | .sha => sha256
  | .hmac => sha256
  | .pbkdf2 => sha256
  | .sha512 => sha512

theorem family_computes (md : Mode) : Computes (decide (md = .sha512)) (family md) := by
  cases md with
  | sha => exact sha256_computes
  | hmac => exact sha256_computes
  | pbkdf2 => exact sha256_computes
  | sha512 => exact sha512_computes

/-- A message is presented from clock 0 on: its bytes come while the unit is ready, with any
gaps, and at clock `T` it is ended. -/
structure Presents (md : Mode) (m : List (BitVec 8)) (s : Sha2Unit) (i : Nat → In) (T : Nat) : Prop where
  begins : ∃ iters, (i 0).beginOp = some (md, iters)
  once : ∀ n, (i (n + 1)).beginOp = none
  ready : ∀ n, (i n).inByte ≠ none → (after clock s i n).inReady = true
  bytes : outputs clock (fun _ i => i.inByte) s i T = m
  ending : (after clock s i T).inReady = true ∧ (i T).inByte = none ∧ (i T).msgEnd = true
  first : ∀ n < T, (i n).msgEnd = false

/-- The unit works until it is done, and then every word of the digest can be read. -/
def Outputs (d : Nat → BitVec w) (s : Sha2Unit) (i : Nat → In) (T : Nat) : Prop :=
  ∃ n, T < n ∧ (∀ k, T < k → k < n → (after clock s i k).busy = true) ∧
    (after clock s i n).busy = false ∧ (after clock s i n).done = true ∧
    ∀ k, n ≤ k → (after clock s i (k + 1)).dgQ.setWidth w = d (i k).dgRa.toNat

theorem For.initial {c : Ctl} {M : BitVec 9 → BitVec 64} (h : For c F) (hM : Tables M) {n : Nat} (hn : n < 8) :
    part w (value M (baseOf c .initial) n) = F.initial.getD n 0 := by
  have hdef : part w 0 = 0 := BitVec.setWidth_zero _ _
  rw [Computes.initial h, value, baseOf]
  by_cases hmd : c.md = .sha512
  · rw [if_pos hmd, hM.iv512 n hn, decide_eq_true hmd, if_pos rfl, ← hdef, List.getD_map]
  · rw [if_neg hmd, hM.iv256 n hn, decide_eq_false hmd, if_neg (by decide), ← hdef, List.getD_map]

/-- A hash is begun. -/
theorem Resting.begins (h : Resting s) {md : Mode} (hF : Computes (decide (md = .sha512)) F)
    (hmd : md = .sha ∨ md = .sha512) {iters : BitVec 32} (hi : i.beginOp = some (md, iters)) :
    (s.clock i).ctl.md = md ∧ Taking F (s.clock i).ctl s.ram.mem [] (s.clock i) := by
  have hbefore : s.before i = s.shift (s.tick i) := by
    rw [before, engine, h.cp, h.cGo]
  have hpush : s.ctl.push i = none := by rw [Ctl.push, h.st]
  have hplain : (decide (md = .sha) || decide (md = .sha512)) = true := by
    obtain rfl | rfl := hmd <;> rfl
  have hclock : s.clock i = (s.shift (s.tick i)).start md iters := by
    rw [← hbefore]
    simp only [clock, hi, hpush]
    rfl
  obtain ⟨hwph, hwe⟩ := h.settled
  have hmem : (s.shift (s.tick i)).ram.written = s.ram.mem := by
    simp only [shift, tick, hwph, Option.elim_none]
    exact SyncRam.written_of_still hwe
  have hctl : (s.clock i).ctl.md = md ∧ (s.clock i).ctl.st = .stream ∧ (s.clock i).ctl.last = false ∧
      (s.clock i).ctl.cnt = 0 ∧ (s.clock i).ctl.bc = 0 ∧ (s.clock i).ctl.total = 0 ∧ (s.clock i).ctl.first = true := by
    rw [hclock]
    simp only [start, hplain, if_true, and_self]
  obtain ⟨hmode, hst, hlast, hcnt, hbc, htotal, hfirst⟩ := hctl
  have hFc : For (s.clock i).ctl F := by
    rw [For, hmode]
    exact hF
  refine ⟨hmode, _, s.ram.mem, ⟨rfl, ?_, ?_, ?_, ?_, ?_⟩, hst, hlast, ⟨⟨?_, ?_⟩, htotal, ?_, ?_, ?_, h.tables⟩,
    .refl _, fun _ _ _ => rfl⟩
  · rw [hclock]
    rfl
  · rw [hclock]
    rfl
  · rw [hclock]
    rfl
  · rw [hclock]
    exact h.cp
  · rw [hclock]
    exact hmem
  · rw [hcnt]
    exact (Nat.zero_mod _).symm
  · rw [hbc]
    exact (Nat.zero_mod _).symm
  · rw [Shifting, List.drop_nil]
    exact ⟨_, rfl⟩
  · intro k hk
    rw [List.length_nil, Nat.zero_mod] at hk
    exact absurd (Nat.le_zero.mp hk) (Nat.mul_pos (Nat.succ_pos k) hFc.widths.1).ne'
  · intro n hn
    have hsource : source (s.clock i).ctl = .initial := by
      rw [source, hfirst, Ctl.plain, hmode, hplain]
      rfl
    rw [hsource, hFc.initial h.tables hn, List.length_nil, Nat.zero_div]
    rfl

def Streaming (s : Sha2Unit) : Prop := s.ctl.st = .stream

def Quiet (i : In) : Prop := i.msgEnd = false

theorem inReady_iff : s.inReady = true ↔ Streaming s := decide_eq_true_iff

theorem answering_stays {d : Nat → BitVec w} (h : Answering w d s) {i : Nat → In} (hi : ∀ n, NoBegin (i n)) (n : Nat) :
    Answering w d (after clock s i n) := by
  induction n with
  | zero => exact h
  | succ n ih => exact (ih.clock (hi n)).1

/-- Whatever the gaps, the digest of the message as the unit pads it comes out. -/
theorem outputs_padded {md : Mode} (hF : Computes (decide (md = .sha512)) F) (hmd : md = .sha ∨ md = .sha512)
    (hs : Resting s) {i : Nat → In} {T : Nat} (hp : Presents md m s i T) :
    Outputs (digestOf F (padded (decide (md = .sha512)) m)) s i T := by
  obtain ⟨iters, hbegin⟩ := hp.begins
  have hidle : s.inReady = false := by
    rw [inReady, hs.st]
    rfl
  have hfirst : (i 0).inByte = none := by
    by_contra hne
    exact Bool.false_ne_true (hidle.symm.trans (hp.ready 0 hne))
  obtain ⟨T, rfl⟩ : ∃ n, T = 1 + n := by
    obtain _ | n := T
    · exact absurd (hidle.symm.trans hp.ending.1) Bool.false_ne_true
    · exact ⟨n, Nat.add_comm n 1⟩
  obtain ⟨hmode, htaking⟩ := hs.begins hF hmd hbegin
  set c₀ := (s.clock (i 0)).ctl with hc₀
  have hFc : For c₀ F := by
    rw [For, hmode]
    exact hF
  have hbegins : ∀ n k, NoBegin (i (n + 1 + k)) := by
    intro n k
    rw [Nat.add_right_comm]
    exact hp.once (n + k)
  have hgiven : ∀ n, Given NoBegin (fun _ => True) fun k => i (n + 1 + k) :=
    fun n => ⟨fun k => hbegins n k, fun k => ⟨k, Nat.le_refl k, trivial⟩⟩
  -- the message
  have hbytes : outputs clock (fun _ i => i.inByte) (s.clock (i 0)) (fun k => i (0 + 1 + k)) T = m := by
    rw [← hp.bytes, outputs_add]
    simp only [outputs, hfirst, Option.toList_none, List.nil_append]
    rfl
  have hafter : ∀ n, after clock s i (1 + n) = after clock (s.clock (i 0)) (fun k => i (0 + 1 + k)) n := by
    intro n
    rw [after_add]
    rfl
  have hstream : ∃ d, (∀ k < d, ¬Streaming (after clock (s.clock (i 0)) (fun k => i (0 + 1 + k)) (T + k))) ∧
      Taking F c₀ s.ram.mem (outputs clock (fun _ i => i.inByte) (s.clock (i 0)) (fun k => i (0 + 1 + k)) T)
        (after clock (s.clock (i 0)) (fun k => i (0 + 1 + k)) (T + d)) := by
    refine takes (fun t u i h hi hb (hq : Quiet i) => h.waits hi hb hq)
      (fun t b => (takes_byte hFc t b).mono fun u h => h.2) htaking (hgiven 0) (fun n hn => ?_) (fun n hn _ => ?_)
      (Nat.le_refl T)
    · rw [← hafter]
      exact inReady_iff.mp (hp.ready _ (by rwa [Nat.zero_add] at hn))
    · exact hp.first _ (by omega)
  obtain ⟨d, hwait, htaken⟩ := hstream
  obtain rfl : d = 0 := by
    by_contra hd
    have hnot := hwait 0 (Nat.pos_of_ne_zero hd)
    rw [Nat.add_zero, ← hafter, ← inReady_iff] at hnot
    exact hnot hp.ending.1
  rw [hbytes, Nat.add_zero, ← hafter] at htaken
  -- the padding
  have hpbkdf2 : c₀.md ≠ .pbkdf2 := by
    rw [hmode]
    obtain rfl | rfl := hmd <;> decide
  have hplain : c₀.plain = true := by
    rw [Ctl.plain, hmode]
    obtain rfl | rfl := hmd <;> rfl
  have hpad : Padding F c₀ s.ram.mem m 0 (after clock s i (1 + T + 1)) :=
    htaken.ends (by rw [Nat.add_comm 1 T]; exact hp.once T) hp.ending.2.1 hp.ending.2.2 hpbkdf2
  obtain ⟨n, hworks, hanswer, hdone⟩ := ((pads hFc).trans (answers hplain)) _ hpad _ (hgiven (1 + T))
  have hm512 : c₀.m512 = decide (md = .sha512) := by rw [Ctl.m512, hmode]
  rw [hm512] at hanswer
  refine ⟨1 + T + 1 + n, by omega, fun k hlo hhi => ?_, ?_, ?_, fun k hk => ?_⟩
  · obtain ⟨j, rfl⟩ := Nat.exists_eq_add_of_le (Nat.succ_le_of_lt hlo)
    change (after clock s i (1 + T + 1 + j)).busy = true
    rw [after_add]
    exact (hworks j (by omega)).1
  · rw [after_add]
    exact hanswer.busy
  · rw [after_add]
    exact hdone
  · obtain ⟨j, rfl⟩ := Nat.exists_eq_add_of_le hk
    have hstays := answering_stays hanswer (i := fun k => i (1 + T + 1 + n + k)) (fun k => by
      rw [Nat.add_assoc]
      exact hbegins (1 + T) (n + k)) j
    have hat : after clock (after clock (after clock s i (1 + T + 1)) (fun k => i (1 + T + 1 + k)) n)
        (fun k => i (1 + T + 1 + n + k)) j = after clock s i (1 + T + 1 + n + j) := by
      rw [after_add (1 + T + 1 + n) j, after_add (1 + T + 1) n]
    rw [hat] at hstays
    exact (hstays.clock (by
      rw [Nat.add_assoc]
      exact hbegins (1 + T) (n + j))).2

/-! Which messages are padded as the standard says. -/

/-- Shorter than the length counter can count, and not ending 119 bytes into a block of SHA-512. -/
def Admitted (md : Mode) (n : Nat) : Prop := n < 2 ^ 32 ∧ (md = .sha512 → n % 128 ≠ 119)

/-- The length field, of eight bytes or with eight zeros before it. -/
theorem length_bytes {k n : Nat} (hn : 8 * n < 256 ^ (k + 8)) :
    List.replicate k 0 ++ octets 8 (8 * (n % 2 ^ 32)) = octets (k + 8) (8 * n) ↔ n < 2 ^ 32 := by
  have hzero : 8 * (n % 2 ^ 32) / 256 ^ 8 = 0 := by
    apply Nat.div_eq_of_lt
    have hlt := Nat.mod_lt n (show 0 < 2 ^ 32 by decide)
    omega
  have heq : List.replicate k 0 ++ octets 8 (8 * (n % 2 ^ 32)) = octets (k + 8) (8 * (n % 2 ^ 32)) := by
    rw [octets_add, hzero, octets_zero]
  rw [heq]
  constructor
  · intro h
    have hmod := octets_inj h
    have hle : 8 * (n % 2 ^ 32) ≤ 8 * n := Nat.mul_le_mul_left 8 (Nat.mod_le n _)
    rw [Nat.mod_eq_of_lt hn, Nat.mod_eq_of_lt (Nat.lt_of_le_of_lt hle hn)] at hmod
    omega
  · intro h
    rw [Nat.mod_eq_of_lt h]

theorem zeros_sha256 (n : Nat) : zerosOf false n = SecureHash.zeros 32 n := by
  change (if n % 64 < 56 then 55 - n % 64 else 119 - n % 64) = (55 + (64 - n % 64)) % 64
  split <;> omega

/-- Eight of the zeros belong to the length, of sixteen bytes. -/
theorem zeros_sha512 {n : Nat} (h : n % 128 ≠ 119) : zerosOf true n = SecureHash.zeros 64 n + 8 := by
  change (if n % 128 < 112 ∨ n % 128 = 119 then 119 - n % 128 else 247 - n % 128) = (111 + (128 - n % 128)) % 128 + 8
  split <;> omega

theorem pad_sha256 {n : Nat} (hn : 8 * n < 2 ^ 64) :
    padOf false n = 0x80 :: List.replicate (SecureHash.zeros 32 n) 0 ++ octets 8 (8 * n) ↔ n < 2 ^ 32 := by
  rw [padOf, zeros_sha256, List.append_cancel_left_eq]
  exact length_bytes (k := 0) hn

theorem pad_sha512 {n : Nat} (hn : 8 * n < 2 ^ 128) :
    padOf true n = 0x80 :: List.replicate (SecureHash.zeros 64 n) 0 ++ octets 16 (8 * n) ↔
      n < 2 ^ 32 ∧ n % 128 ≠ 119 := by
  by_cases h : n % 128 = 119
  · refine ⟨fun heq => ?_, fun hand => absurd h hand.2⟩
    have hlen := congrArg List.length heq
    rw [padOf_length, List.length_append, octets_length, List.length_cons, List.length_replicate] at hlen
    have hz : zerosOf true n = 0 := by
      change (if n % 128 < 112 ∨ n % 128 = 119 then 119 - n % 128 else 247 - n % 128) = 0
      rw [if_pos (.inr h), h]
    omega
  · rw [padOf, zeros_sha512 h, List.replicate_add, ← List.cons_append, List.append_assoc, List.append_cancel_left_eq,
      length_bytes (k := 8) hn]
    exact ⟨fun hlt => ⟨hlt, h⟩, fun hand => hand.1⟩

theorem padded_iff {md : Mode} (hm : 8 * m.length < 2 ^ (2 * width md)) :
    padded (decide (md = .sha512)) m = SecureHash.pad (width md) m ↔ Admitted md m.length := by
  rw [padded, SecureHash.pad, List.append_assoc, List.append_cancel_left_eq, Admitted]
  cases md with
  | sha =>
    rw [and_iff_left fun h => absurd h (by decide)]
    exact pad_sha256 hm
  | hmac =>
    rw [and_iff_left fun h => absurd h (by decide)]
    exact pad_sha256 hm
  | pbkdf2 =>
    rw [and_iff_left fun h => absurd h (by decide)]
    exact pad_sha256 hm
  | sha512 =>
    rw [forall_prop_of_true rfl]
    exact pad_sha512 hm

/-- The digest of the message comes out for the lengths that are admitted. For the others
what is hashed is not the message as the standard pads it. -/
theorem digest_iff {md : Mode} (hmd : md = .sha ∨ md = .sha512) (hs : Reached s) (hidle : s.busy = false)
    {i : Nat → In} {T : Nat} (hp : Presents md m s i T) :
    (Admitted md m.length → Outputs ((family md).digest m) s i T) ∧
      Outputs (digestOf (family md) (padded (decide (md = .sha512)) m)) s i T ∧
      (8 * m.length < 2 ^ (2 * width md) →
        (padded (decide (md = .sha512)) m = SecureHash.pad (width md) m ↔ Admitted md m.length)) := by
  have hout := outputs_padded (family_computes md) hmd (hs.resting hidle) hp
  refine ⟨fun h => ?_, hout, padded_iff⟩
  have hlen : 8 * m.length < 2 ^ (2 * width md) :=
    calc 8 * m.length < 2 ^ 64 := by
          have hlt := h.1
          omega
      _ ≤ 2 ^ (2 * width md) := Nat.pow_le_pow_right (by decide) (Nat.mul_le_mul_left 2 (width_le md))
  rw [(padded_iff hlen).mpr h] at hout
  exact hout

/-! Runs on short messages. -/

/-- A byte on every clock. -/
def feed (md : Mode) (m : List (BitVec 8)) (n : Nat) : In where
  beginOp := if n = 0 then some (md, 0) else none
  pbIdx := 0
  keyWr := none
  keyDone := false
  inByte := if n = 0 then none else m[n - 1]?
  msgEnd := n = m.length + 1
  dgRa := 0

theorem presents_feed {md : Mode} (hF : Computes (decide (md = .sha512)) F) (hmd : md = .sha ∨ md = .sha512)
    (hs : Resting s) (hm : m.length < 2 * w) : Presents md m s (feed md m) (m.length + 1) := by
  have hop : (feed md m 0).beginOp = some (md, 0) := rfl
  obtain ⟨hmode, hbegin⟩ := hs.begins hF hmd hop
  have hFc : For (s.clock (feed md m 0)).ctl F := by
    rw [For, hmode]
    exact hF
  have hbyte : ∀ k, (feed md m (k + 1)).inByte = m[k]? := fun _ => rfl
  have htaking : ∀ k ≤ m.length, Taking F (s.clock (feed md m 0)).ctl s.ram.mem (m.take k)
      (after clock s (feed md m) (k + 1)) := by
    intro k
    induction k with
    | zero => exact fun _ => hbegin
    | succ k ih =>
      intro hk
      have hlt : (m.take k).length = k := List.length_take_of_le (Nat.le_of_succ_le hk)
      rw [List.take_succ_eq_append_getElem hk, after_succ]
      refine (ih (Nat.le_of_succ_le hk)).within hFc rfl ?_ ?_
      · rw [hbyte, List.getElem?_eq_getElem hk]
      · rw [hlt, Nat.mod_eq_of_lt (by omega)]
        exact Nat.succ_ne_zero k
  have houtputs : ∀ k ≤ m.length, outputs clock (fun _ i => i.inByte) s (feed md m) (k + 1) = m.take k := by
    intro k
    induction k with
    | zero => exact fun _ => rfl
    | succ k ih =>
      intro hk
      rw [outputs_succ, ih (Nat.le_of_succ_le hk), hbyte, List.getElem?_eq_getElem hk,
        List.take_succ_eq_append_getElem hk]
      rfl
  have hend := houtputs m.length (Nat.le_refl _)
  have hlast := htaking m.length (Nat.le_refl _)
  refine ⟨⟨0, rfl⟩, fun _ => rfl, fun n hn => ?_, ?_, ⟨?_, ?_, ?_⟩, fun n hn => ?_⟩
  · obtain _ | k := n
    · exact absurd rfl hn
    · rw [hbyte] at hn
      have hk : k < m.length := by
        by_contra hge
        exact hn (List.getElem?_eq_none (Nat.le_of_not_lt hge))
      exact inReady_iff.mpr (htaking k (Nat.le_of_lt hk)).ready
  · rw [hend, List.take_length]
  · exact inReady_iff.mpr hlast.ready
  · rw [hbyte, List.getElem?_eq_none (Nat.le_refl _)]
  · exact decide_eq_true rfl
  · exact decide_eq_false (Nat.ne_of_lt hn)

theorem powerUp_tables : Tables sha2Rom where
  k256 := by decide +kernel
  k512 := by decide +kernel
  iv256 := by decide +kernel
  iv512 := by decide +kernel

theorem powerUp_reached : Reached powerUp.reset :=
  ⟨powerUp, fun n => { feed .sha [] (n + 1) with beginOp := none }, 0, powerUp_tables, fun _ h => absurd rfl h, rfl⟩

/-- The digest that is read is one. -/
theorem Outputs.unique {d d' : Nat → BitVec w} {md : Mode} {T T' : Nat} (h : Outputs d s (feed md m) T)
    (h' : Outputs d' s (feed md m) T') : d 0 = d' 0 := by
  obtain ⟨n, -, -, -, -, hread⟩ := h
  obtain ⟨n', -, -, -, -, hread'⟩ := h'
  have hone := hread (n + n') (Nat.le_add_right _ _)
  rw [hread' (n + n') (Nat.le_add_left _ _)] at hone
  exact hone.symm

/-- The message 61 62 63 in SHA-256 mode, a byte on every clock. -/
theorem digest_iff_abc : Outputs (sha256.digest [0x61, 0x62, 0x63]) powerUp.reset (feed .sha [0x61, 0x62, 0x63]) 4 ∧
    sha256.digest [0x61, 0x62, 0x63] 0 = 0xba7816bf := by
  refine ⟨(digest_iff (.inl rfl) powerUp_reached rfl
    (presents_feed (family_computes .sha) (.inl rfl) (powerUp_reached.resting rfl) (by decide))).1 ⟨by decide, fun h => ?_⟩, ?_⟩
  · exact absurd h (by decide)
  · rw [Family.digest, ← Family.chainingList_getD _ _ _ (by decide)]
    decide +kernel

/-- 119 zeros in SHA-512 mode: the marker is the last byte before the eight that the unit writes. -/
theorem digest_wrong : ∃ (s : Sha2Unit) (i : Nat → In) (T : Nat), Reached s ∧ s.busy = false ∧
    Presents .sha512 (List.replicate 119 0) s i T ∧ ¬Outputs (sha512.digest (List.replicate 119 0)) s i T := by
  have hs := powerUp_reached.resting rfl
  have hp : Presents .sha512 (List.replicate 119 0) powerUp.reset (feed .sha512 (List.replicate 119 0)) 120 :=
    presents_feed (family_computes .sha512) (.inr rfl) hs (by decide)
  refine ⟨_, _, _, powerUp_reached, rfl, hp, fun hout => ?_⟩
  have heq : digestOf sha512 (padded true (List.replicate 119 0)) 0 = sha512.digest (List.replicate 119 0) 0 :=
    (digest_iff (.inr rfl) powerUp_reached rfl hp).2.1.unique hout
  rw [digestOf, Family.digest, ← Family.chainingList_getD _ _ _ (by decide),
    ← Family.chainingList_getD _ _ _ (by decide)] at heq
  revert heq
  decide +kernel

end GoiKey.Rtl.Sha2Unit
