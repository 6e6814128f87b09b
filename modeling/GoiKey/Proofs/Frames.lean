import Mathlib.Data.List.Infix
import GoiKey.Model.FrameIo

/-! What the receiver of frame_io.v has in its RAM when it reports a frame. -/

namespace GoiKey.Rtl

open Clocked (after)

/-- The checksum over command or status, length and payload. -/
def crcOver (bs : List (BitVec 8)) : BitVec 16 := bs.foldl crc16Step 0xFFFF#16

theorem crcOver_append (bs : List (BitVec 8)) (b : BitVec 8) :
    crcOver (bs ++ [b]) = crc16Step (crcOver bs) b := by
  rw [crcOver, List.foldl_append]
  rfl

/-- What the checksum covers: command or status, length, payload. -/
def covered (tag : BitVec 8) (len : BitVec 16) (payload : List (BitVec 8)) : List (BitVec 8) :=
  tag :: len.extractLsb' 0 8 :: len.extractLsb' 8 8 :: payload

/-- A frame on the link. -/
def frame (start tag : BitVec 8) (payload : List (BitVec 8)) : List (BitVec 8) :=
  let body := covered tag (BitVec.ofNat 16 payload.length) payload
  start :: body ++ [(crcOver body).extractLsb' 0 8, (crcOver body).extractLsb' 8 8]

/-! The bytes that came in. -/

def received (i : Nat → RxPathIn) : Nat → List (BitVec 8)
  | 0 => []
  | n + 1 => received i n ++ if (i n).link.byteValid then [(i n).link.byteIn] else []

/-- The frame that ends the bytes is the one the registers describe, and the RAM holds its
payload. -/
def Checked (past : List (BitVec 8)) (s : RxPath) : Prop :=
  ∃ payload, payload.length = s.rx.len.toNat ∧ frame 0xA5#8 s.rx.cmd payload <:+ past ∧
    ∀ j (h : j < payload.length), s.ram (BitVec.ofNat 13 j) = payload[j]

/-- The RAM, with the byte that is on its way into it. -/
def RxPath.filled (s : RxPath) : Ram := s.ram.write s.rx.port

def Held (s : RxPath) (got : List (BitVec 8)) : Prop :=
  ∀ j (h : j < got.length), j < 8192 → s.filled (BitVec.ofNat 13 j) = got[j]

/-- The receiver is inside a frame of which it has this much payload. -/
structure Inside (past : List (BitVec 8)) (s : RxPath) (got rest : List (BitVec 8)) : Prop where
  taken : 0xA5#8 :: covered s.rx.cmd s.rx.len got ++ rest <:+ past
  crc : s.rx.crc = crcOver (covered s.rx.cmd s.rx.len got)
  held : Held s got

/-- What the state of the receiver says about the bytes so far. -/
def Receiving (past : List (BitVec 8)) (s : RxPath) : Prop :=
  match s.rx.st with
  | .sof => s.rx.frameOk = true → Checked past s
  | .cmd => [0xA5#8] <:+ past ∧ s.rx.crc = 0xFFFF#16
  | .l0 => [0xA5#8, s.rx.cmd] <:+ past ∧ s.rx.crc = crcOver [s.rx.cmd]
  | .l1 =>
    [0xA5#8, s.rx.cmd, s.rx.len.extractLsb' 0 8] <:+ past ∧
      s.rx.crc = crcOver [s.rx.cmd, s.rx.len.extractLsb' 0 8]
  | .pl => ∃ got, got.length = s.rx.cnt.toNat ∧ got.length < s.rx.len.toNat ∧ Inside past s got []
  | .c0 => ∃ got, got.length = s.rx.len.toNat ∧ Inside past s got []
  | .c1 => ∃ got, got.length = s.rx.len.toNat ∧ Inside past s got [s.rx.c0]

/-- A payload byte comes only while the receiver accepts, and until the frame is checked
nothing else writes the RAM. -/
def Undisturbed (s : RxPath) (i : RxPathIn) : Prop :=
  (s.rx.st = .pl → i.link.byteValid = true → i.link.accept = true) ∧
    (i.actQ = true → s.rx.we = false ∧ (i.qWrite = none ∨ s.rx.st = .sof))

/-! What a clock without a byte, and the assignments before the `case`, leave alone. -/

section Quiet

variable (s : FrameRx) (v : Bool)

@[simp] theorem quiet_we : (s.quiet v).we = false := by unfold FrameRx.quiet; split_ifs <;> rfl
@[simp] theorem quiet_frameOk : (s.quiet v).frameOk = false := by
  unfold FrameRx.quiet; split_ifs <;> rfl
@[simp] theorem quiet_cmd : (s.quiet v).cmd = s.cmd := by unfold FrameRx.quiet; split_ifs <;> rfl
@[simp] theorem quiet_len : (s.quiet v).len = s.len := by unfold FrameRx.quiet; split_ifs <;> rfl
@[simp] theorem quiet_crc : (s.quiet v).crc = s.crc := by unfold FrameRx.quiet; split_ifs <;> rfl
@[simp] theorem quiet_cnt : (s.quiet v).cnt = s.cnt := by unfold FrameRx.quiet; split_ifs <;> rfl
@[simp] theorem quiet_c0 : (s.quiet v).c0 = s.c0 := by unfold FrameRx.quiet; split_ifs <;> rfl

theorem quiet_st : (s.quiet v).st = .sof ∨ (s.quiet v).st = s.st := by
  unfold FrameRx.quiet
  split_ifs
  · exact .inl rfl
  all_goals exact .inr rfl

end Quiet

variable {past : List (BitVec 8)} {s : RxPath} {i : RxPathIn} {got rest : List (BitVec 8)}
variable {b : BitVec 8}

theorem suffix_snoc {l : List (BitVec 8)} (h : l <:+ past) (b : BitVec 8) : l ++ [b] <:+ past ++ [b] := by
  obtain ⟨t, rfl⟩ := h
  exact ⟨t, by rw [List.append_assoc]⟩

/-- In a frame the RAM takes what the receiver writes. -/
theorem ram_clock (hu : Undisturbed s i) (hst : s.rx.st ≠ .sof) : (s.clock i).ram = s.filled := by
  cases ha : i.actQ with
  | false => simp [RxPath.clock, RxPath.filled, ha]
  | true =>
    obtain ⟨hwe, hq⟩ := hu.2 ha
    have hnone : i.qWrite = none := hq.resolve_right hst
    simp [RxPath.clock, RxPath.filled, FrameRx.port, ha, hnone, hwe]

/-- A clock on which nothing new is written. -/
theorem filled_clock (hu : Undisturbed s i) (hst : s.rx.st ≠ .sof) (hwe : (s.rx.clock i.link).we = false) :
    (s.clock i).filled = s.filled := by
  have hport : (s.clock i).rx.port = none := by
    change (s.rx.clock i.link).port = none
    simp [FrameRx.port, hwe]
  rw [RxPath.filled, hport, ram_clock hu hst]
  rfl

theorem Held.of_filled {s' : RxPath} (h : Held s got) (hf : s'.filled = s.filled) : Held s' got := by
  intro j hj hlt
  rw [hf]
  exact h j hj hlt

/-- The next byte of the payload goes behind the others. -/
theorem Held.snoc {s' : RxPath} (h : Held s got)
    (hf : s'.filled = if got.length < 8192 then Function.update s.filled (BitVec.ofNat 13 got.length) b
      else s.filled) :
    Held s' (got ++ [b]) := by
  intro j hj hlt
  rw [List.length_append, List.length_singleton] at hj
  by_cases he : j = got.length
  · subst he
    rw [hf, if_pos hlt, Function.update_self, List.getElem_concat_length rfl]
  · have hj' : j < got.length := by omega
    rw [List.getElem_append_left hj']
    by_cases hfull : got.length < 8192
    · have hne : BitVec.ofNat 13 j ≠ BitVec.ofNat 13 got.length := by
        intro heq
        have := congrArg BitVec.toNat heq
        simp only [BitVec.toNat_ofNat] at this
        omega
      rw [hf, if_pos hfull, Function.update_of_ne hne]
      exact h j hj' hlt
    · rw [hf, if_neg hfull]
      exact h j hj' hlt

theorem append_low_high (v : BitVec 16) : (v.extractLsb' 8 8 ++ v.extractLsb' 0 8 : BitVec 16) = v := by
  ext j hj
  simp only [BitVec.getElem_append, BitVec.getElem_extractLsb']
  split
  · simp [BitVec.getLsbD_eq_getElem hj]
  · have : 8 + (j - 8) = j := by omega
    simp [this, BitVec.getLsbD_eq_getElem hj]

@[simp] theorem append_low (a b : BitVec 8) : (a ++ b : BitVec 16).extractLsb' 0 8 = b := by
  ext j hj
  rw [BitVec.getElem_extractLsb', BitVec.getLsbD_append (x := a) (y := b), if_pos (by omega), Nat.zero_add]
  exact BitVec.getLsbD_eq_getElem hj

@[simp] theorem append_high (a b : BitVec 8) : (a ++ b : BitVec 16).extractLsb' 8 8 = a := by
  ext j hj
  rw [BitVec.getElem_extractLsb', BitVec.getLsbD_append, if_neg (by omega), Nat.add_sub_cancel_left]
  exact BitVec.getLsbD_eq_getElem hj

/-! One clock. -/

/-- Where the receiver is inside a frame with its registers as they were. -/
theorem Inside.mono {s' : RxPath} (h : Inside past s got rest) (hcmd : s'.rx.cmd = s.rx.cmd)
    (hlen : s'.rx.len = s.rx.len) (hcrc : s'.rx.crc = s.rx.crc) (hf : s'.filled = s.filled) :
    Inside past s' got rest where
  taken := by rw [hcmd, hlen]; exact h.taken
  crc := by rw [hcmd, hlen, hcrc]; exact h.crc
  held := h.held.of_filled hf

/-- A clock without a byte: the receiver waits, or gives the frame up. -/
theorem receiving_idle (h : Receiving past s) (hu : Undisturbed s i) (hv : i.link.byteValid = false) :
    Receiving past (s.clock i) := by
  have hclock : (s.clock i).rx = s.rx.quiet false := by
    change s.rx.clock i.link = _
    simp [FrameRx.clock, hv]
  rcases quiet_st s.rx false with hsof | hsame
  · simp only [Receiving, hclock, hsof, quiet_frameOk]
    exact fun h => nomatch h
  · by_cases hst : s.rx.st = .sof
    · simp only [Receiving, hclock, hsame, hst, quiet_frameOk]
      exact fun h => nomatch h
    · have hf : (s.clock i).filled = s.filled := by
        refine filled_clock hu hst ?_
        rw [show s.rx.clock i.link = s.rx.quiet false from hclock, quiet_we]
      have hmono : ∀ got rest, Inside past s got rest → Inside past (s.clock i) got rest :=
        fun got rest hin => hin.mono (by rw [hclock, quiet_cmd]) (by rw [hclock, quiet_len])
          (by rw [hclock, quiet_crc]) hf
      unfold Receiving at h ⊢
      rw [hclock, hsame]
      cases hcase : s.rx.st with
      | sof => exact absurd hcase hst
      | cmd => simpa [hcase] using h
      | l0 => simpa [hcase] using h
      | l1 => simpa [hcase] using h
      | pl =>
        simp only [hcase, quiet_cnt, quiet_len] at h ⊢
        obtain ⟨got, hcnt, hlt, hin⟩ := h
        exact ⟨got, hcnt, hlt, hmono _ _ hin⟩
      | c0 =>
        simp only [hcase, quiet_len] at h ⊢
        obtain ⟨got, hlen, hin⟩ := h
        exact ⟨got, hlen, hmono _ _ hin⟩
      | c1 =>
        simp only [hcase, quiet_len, quiet_c0] at h ⊢
        obtain ⟨got, hlen, hin⟩ := h
        exact ⟨got, hlen, hmono _ _ hin⟩

theorem rx_byte (hv : i.link.byteValid = true) :
    (s.clock i).rx = s.rx.take (s.rx.quiet true) i.link.byteIn i.link.accept := by
  change s.rx.clock i.link = _
  simp [FrameRx.clock, hv]

/-- The first byte of the payload, or of the checksum, is next. -/
theorem receiving_header (h : Receiving past s) (hst : s.rx.st = .l1) (hv : i.link.byteValid = true)
    (hu : Undisturbed s i) : Receiving (past ++ [i.link.byteIn]) (s.clock i) := by
  have hrx := rx_byte (s := s) hv
  simp only [FrameRx.take, hst] at hrx
  simp only [Receiving, hst] at h
  have hin : Inside (past ++ [i.link.byteIn]) (s.clock i) [] [] := by
    refine ⟨?_, ?_, fun j hj => absurd hj (Nat.not_lt_zero j)⟩
    · rw [hrx]
      simpa [covered] using suffix_snoc h.1 i.link.byteIn
    · rw [hrx]
      simp [covered, h.2, crcOver]
  unfold Receiving
  by_cases hzero : (i.link.byteIn ++ s.rx.len.extractLsb' 0 8 : BitVec 16) = 0#16
  · have hst' : (s.clock i).rx.st = .c0 := by rw [hrx]; exact if_pos hzero
    have hlen : (s.clock i).rx.len = 0#16 := by rw [hrx]; exact hzero
    rw [hst']
    exact ⟨[], by rw [hlen]; rfl, hin⟩
  · have hst' : (s.clock i).rx.st = .pl := by rw [hrx]; exact if_neg hzero
    rw [hst']
    refine ⟨[], by rw [hrx]; rfl, ?_, hin⟩
    rw [hrx]
    exact Nat.pos_of_ne_zero fun h => hzero (BitVec.eq_of_toNat_eq h)

/-- A byte of the payload that is accepted goes into the RAM. -/
theorem receiving_payload (h : Receiving past s) (hst : s.rx.st = .pl) (hv : i.link.byteValid = true)
    (hu : Undisturbed s i) : Receiving (past ++ [i.link.byteIn]) (s.clock i) := by
  have hrx := rx_byte (s := s) hv
  simp only [FrameRx.take, hst, FrameRx.payload, hu.1 hst hv, true_and] at hrx
  simp only [Receiving, hst] at h
  obtain ⟨got, hcnt, hlt, hin⟩ := h
  have hram := ram_clock hu (by rw [hst]; decide)
  have hfields : (s.clock i).rx.cmd = s.rx.cmd ∧ (s.clock i).rx.len = s.rx.len ∧
      (s.clock i).rx.crc = crc16Step s.rx.crc i.link.byteIn ∧ (s.clock i).rx.cnt = s.rx.cnt + 1 ∧
      (s.clock i).rx.st = (if s.rx.cnt.toNat + 1 = s.rx.len.toNat then .c0 else (s.rx.quiet true).st) := by
    rw [hrx]
    split_ifs <;> simp
  obtain ⟨hcmd, hlen, hcrc, hnext, hst'⟩ := hfields
  have hfilled : (s.clock i).filled = if got.length < 8192 then
      Function.update s.filled (BitVec.ofNat 13 got.length) i.link.byteIn else s.filled := by
    rw [RxPath.filled, hram, hrx, hcnt]
    have haddr : s.rx.cnt.setWidth 13 = BitVec.ofNat 13 s.rx.cnt.toNat := by
      apply BitVec.eq_of_toNat_eq
      simp
    by_cases hfull : s.rx.cnt.toNat < 8192
    · rw [if_pos hfull, if_pos hfull]
      simp only [FrameRx.port, if_true, Ram.write, haddr]
    · rw [if_neg hfull, if_neg hfull]
      simp only [FrameRx.port, quiet_we, Bool.false_eq_true, if_false, Ram.write]
  have hin' : Inside (past ++ [i.link.byteIn]) (s.clock i) (got ++ [i.link.byteIn]) [] := by
    refine ⟨?_, ?_, hin.held.snoc hfilled⟩
    · rw [hcmd, hlen]
      simpa [covered] using suffix_snoc hin.taken i.link.byteIn
    · rw [hcmd, hlen, hcrc, hin.crc, ← crcOver_append]
      rfl
  have hcount : (s.rx.cnt + 1).toNat = s.rx.cnt.toNat + 1 := by
    have := s.rx.len.isLt
    rw [BitVec.toNat_add, show BitVec.toNat (1 : BitVec 16) = 1 from rfl, Nat.mod_eq_of_lt (by omega)]
  unfold Receiving
  by_cases hend : s.rx.cnt.toNat + 1 = s.rx.len.toNat
  · rw [hst', if_pos hend]
    exact ⟨got ++ [i.link.byteIn], by rw [hlen, ← hend, List.length_append, hcnt]; rfl, hin'⟩
  · rw [hst', if_neg hend]
    rcases quiet_st s.rx true with hq | hq
    · rw [hq]
      intro hok
      rw [hrx] at hok
      split_ifs at hok <;> simp at hok
    · rw [hq, hst]
      refine ⟨got ++ [i.link.byteIn], by rw [hnext, hcount, List.length_append, hcnt]; rfl, ?_, hin'⟩
      rw [hlen, List.length_append, List.length_singleton]
      omega

/-- The two bytes of a checksum that is right end a frame. -/
theorem frame_of_crc {cmd : BitVec 8} {len : BitVec 16} {payload : List (BitVec 8)} {c0 c1 : BitVec 8}
    (hlen : payload.length = len.toNat) (hcrc : c1 ++ c0 = crcOver (covered cmd len payload)) :
    frame 0xA5#8 cmd payload = 0xA5#8 :: covered cmd len payload ++ [c0, c1] := by
  have hl : BitVec.ofNat 16 payload.length = len := by
    apply BitVec.eq_of_toNat_eq
    rw [hlen, BitVec.toNat_ofNat, Nat.mod_eq_of_lt len.isLt]
  rw [frame, hl, ← hcrc, append_low, append_high]

theorem receiving_check (h : Receiving past s) (hst : s.rx.st = .c1) (hv : i.link.byteValid = true)
    (hu : Undisturbed s i) : Receiving (past ++ [i.link.byteIn]) (s.clock i) := by
  have hrx := rx_byte (s := s) hv
  simp only [FrameRx.take, hst, FrameRx.check] at hrx
  simp only [Receiving, hst] at h
  obtain ⟨got, hlen, hin⟩ := h
  by_cases hgood : i.link.byteIn ++ s.rx.c0 = s.rx.crc ∧ i.link.accept = true ∧ s.rx.len.toNat ≤ 8192
  · rw [if_pos hgood] at hrx
    have hst' : (s.clock i).rx.st = .sof := by rw [hrx]
    simp only [Receiving, hst']
    intro _
    have hcrc : i.link.byteIn ++ s.rx.c0 = crcOver (covered s.rx.cmd s.rx.len got) := by
      rw [hgood.1, hin.crc]
    refine ⟨got, by rw [hrx]; simpa using hlen, ?_, fun j hj => ?_⟩
    · rw [hrx]
      simp only [quiet_cmd]
      rw [frame_of_crc hlen hcrc]
      simpa using suffix_snoc hin.taken i.link.byteIn
    · rw [ram_clock hu (by rw [hst]; decide)]
      exact hin.held j hj (by omega)
  · rw [if_neg hgood] at hrx
    have hst' : (s.clock i).rx.st = .sof := by rw [hrx]
    simp only [Receiving, hst']
    intro hok
    rw [hrx] at hok
    simp at hok

/-- A byte moves the receiver on. -/
theorem receiving_byte (h : Receiving past s) (hu : Undisturbed s i) (hv : i.link.byteValid = true) :
    Receiving (past ++ [i.link.byteIn]) (s.clock i) := by
  have hrx := rx_byte (s := s) hv
  cases hst : s.rx.st with
  | sof =>
    simp only [FrameRx.take, hst] at hrx
    by_cases hb : i.link.byteIn = 0xA5#8
    · rw [if_pos hb] at hrx
      simp only [Receiving, hrx]
      exact ⟨⟨past, by rw [hb]⟩, trivial⟩
    · rw [if_neg hb] at hrx
      have hsof : (s.rx.quiet true).st = .sof := by rcases quiet_st s.rx true with h | h <;> simp [h, hst]
      simp only [Receiving, hrx, hsof, quiet_frameOk]
      exact fun h => nomatch h
  | cmd =>
    simp only [FrameRx.take, hst] at hrx
    simp only [Receiving, hst] at h
    simp only [Receiving, hrx]
    exact ⟨suffix_snoc h.1 _, by rw [h.2]; rfl⟩
  | l0 =>
    simp only [FrameRx.take, hst] at hrx
    simp only [Receiving, hst] at h
    simp only [Receiving, hrx, quiet_cmd, append_low]
    exact ⟨suffix_snoc h.1 _, by rw [h.2]; rfl⟩
  | l1 => exact receiving_header h hst hv hu
  | pl => exact receiving_payload h hst hv hu
  | c0 =>
    simp only [FrameRx.take, hst] at hrx
    simp only [Receiving, hst] at h
    obtain ⟨got, hlen, hin⟩ := h
    have hwe : (s.rx.clock i.link).we = false := by
      rw [show s.rx.clock i.link = _ from hrx]
      simp
    have hf := filled_clock hu (by rw [hst]; decide) hwe
    simp only [Receiving, hrx, quiet_len]
    refine ⟨got, hlen, ?_, ?_, hin.held.of_filled hf⟩
    · rw [hrx]
      simpa using suffix_snoc hin.taken i.link.byteIn
    · rw [hrx]
      simpa using hin.crc
  | c1 => exact receiving_check h hst hv hu

/-- One clock, whatever comes on it. -/
theorem receiving_clock (h : Receiving past s) (hu : Undisturbed s i) :
    Receiving (past ++ if i.link.byteValid then [i.link.byteIn] else []) (s.clock i) := by
  cases hv : i.link.byteValid with
  | false => simpa using receiving_idle h hu hv
  | true => simpa using receiving_byte h hu hv

/-- A frame is reported when the receiver is back at its start. -/
theorem frameOk_sof {s : FrameRx} {i : RxIn} (h : (s.clock i).frameOk = true) : (s.clock i).st = .sof := by
  unfold FrameRx.clock at h ⊢
  split_ifs at h ⊢
  · unfold FrameRx.take at h ⊢
    cases hst : s.st with
    | c1 =>
      simp only [hst, FrameRx.check] at h ⊢
      split_ifs <;> rfl
    | pl =>
      simp only [hst, FrameRx.payload] at h
      split_ifs at h <;> simp at h
    | sof =>
      simp only [hst] at h
      split_ifs at h <;> simp at h
    | cmd => simp [hst] at h
    | l0 => simp [hst] at h
    | l1 => simp [hst] at h
    | c0 => simp [hst] at h
  · simp at h

/-- The receiver after a reset; the RAM and the other registers hold anything. -/
def Idle (s : RxPath) : Prop := s.rx.st = .sof ∧ s.rx.frameOk = false

/-- While no clock disturbs a frame, what the receiver reports is in the RAM. -/
theorem received_frame_in_ram {i : Nat → RxPathIn} (h : Idle s)
    (hu : ∀ n, Undisturbed (after RxPath.clock s i n) (i n)) (n : Nat)
    (hok : (after RxPath.clock s i n).rx.frameOk = true) :
    Checked (received i n) (after RxPath.clock s i n) := by
  have hstart : Receiving (received i 0) s := by
    simp [Receiving, h.1, h.2]
  have hall : Receiving (received i n) (after RxPath.clock s i n) := by
    refine Clocked.invariant (I := fun n t => Receiving (received i n) t) hstart ?_ n
    rintro n _ hn rfl
    exact receiving_clock hn (hu n)
  have hsof : (after RxPath.clock s i n).rx.st = .sof := by
    cases n with
    | zero => exact h.1
    | succ n => exact frameOk_sof hok
  simp only [Receiving, hsof] at hall
  exact hall hok

/-! A SHA-256 request of one byte, over seven clocks. -/

namespace Bench

def resetRx : FrameRx :=
  ⟨.sof, 0, 0, 0, 0, 0, false, 0, false, false, 0, 0⟩

def resetPath : RxPath := ⟨resetRx, fun _ => 0⟩

def shaRequest : List (BitVec 8) := [0xA5#8, 0x10#8, 0x01#8, 0x00#8, 0xAA#8, 0xF7#8, 0xBC#8]

/-- The request, a byte a clock; the accelerator accepts from a clock on. -/
def arriving (from_ n : Nat) : RxPathIn :=
  ⟨⟨n < 7, shaRequest.getD n 0, from_ ≤ n⟩, false, none⟩

end Bench

theorem received_frame_in_ram_request :
    Checked (received (Bench.arriving 0) 7) (after RxPath.clock Bench.resetPath (Bench.arriving 0) 7) :=
  received_frame_in_ram ⟨rfl, rfl⟩ (fun n => ⟨fun _ _ => by simp [Bench.arriving], by simp [Bench.arriving]⟩) 7
    (by decide +kernel)

/-- The payload byte comes while a command runs, the checksum when it is over: the frame is
reported, and its payload is not there. -/
theorem discarded_payload_reported :
    ¬ ∀ (s : RxPath) (i : Nat → RxPathIn) (n : Nat), Idle s → (∀ k, (i k).actQ = false) →
      (after RxPath.clock s i n).rx.frameOk = true →
      Checked (received i n) (after RxPath.clock s i n) := by
  intro h
  obtain ⟨payload, hlen, hsuffix, hram⟩ :=
    h Bench.resetPath (Bench.arriving 5) 7 ⟨rfl, rfl⟩ (fun _ => rfl) (by decide +kernel)
  have hlen1 : payload.length = 1 := hlen.trans (by decide +kernel)
  obtain ⟨b, rfl⟩ := List.length_eq_one_iff.mp hlen1
  have hall : received (Bench.arriving 5) 7 = Bench.shaRequest := by decide +kernel
  rw [hall] at hsuffix
  have hwhole := hsuffix.eq_of_length (by simp [frame, covered, Bench.shaRequest])
  have hb : b = 0xAA#8 := by
    simp only [frame, covered, Bench.shaRequest, List.cons_append, List.cons.injEq] at hwhole
    exact hwhole.2.2.2.2.1
  have hzero := hram 0 (by simp)
  rw [List.getElem_cons_zero, hb] at hzero
  exact absurd hzero (by decide +kernel)

end GoiKey.Rtl
