import GoiKey.Proofs.Frames

/-! What the transmitter of frame_io.v hands to the transport. -/

namespace GoiKey.Rtl

open Clocked (after outputs)

variable {status : BitVec 8} {payload sent : List (BitVec 8)} {s : TxPath} {i : TxIn}

/-- The length as the transmitter holds it. -/
abbrev txLen (payload : List (BitVec 8)) : BitVec 16 := BitVec.ofNat 16 payload.length

abbrev txCovered (status : BitVec 8) (payload : List (BitVec 8)) : List (BitVec 8) :=
  covered status (txLen payload) payload

@[simp] theorem covered_length (tag : BitVec 8) (len : BitVec 16) (payload : List (BitVec 8)) :
    (covered tag len payload).length = payload.length + 3 := rfl

theorem frame_length (start tag : BitVec 8) (payload : List (BitVec 8)) :
    (frame start tag payload).length = payload.length + 6 := by
  simp [frame]

/-- The transmitter is at a position of the frame, which stays in its registers and its RAM. -/
structure Position (status : BitVec 8) (payload : List (BitVec 8)) (s : TxPath) : Prop where
  small : payload.length ≤ 8192
  len : s.tx.lenR = txLen payload
  stat : s.tx.statR = status
  ram : ∀ j (h : j < payload.length), s.ram (BitVec.ofNat 13 j) = payload[j]
  pos : s.tx.pos.toNat < payload.length + 6

/-- The checksum has been taken over this many of the bytes it covers. -/
def Summed (status : BitVec 8) (payload : List (BitVec 8)) (s : TxPath) (n : Nat) : Prop :=
  s.tx.crc = crcOver ((txCovered status payload).take n)

/-- What the state of the transmitter says about the bytes that went out. -/
def Sending (status : BitVec 8) (payload sent : List (BitVec 8)) (s : TxPath) : Prop :=
  Position status payload s ∧
  match s.tx.st with
  | .idle => False
  | .fetch =>
    sent = (frame 0x5A#8 status payload).take s.tx.pos.toNat ∧ Summed status payload s (s.tx.pos.toNat - 1)
  | .fetch2 =>
    sent = (frame 0x5A#8 status payload).take s.tx.pos.toNat ∧ Summed status payload s (s.tx.pos.toNat - 1) ∧
      s.tx.ra = s.tx.pos.setWidth 13 - 4#13
  | .load =>
    sent = (frame 0x5A#8 status payload).take s.tx.pos.toNat ∧ Summed status payload s (s.tx.pos.toNat - 1) ∧
      s.rq = s.ram (s.tx.pos.setWidth 13 - 4#13)
  | .send =>
    sent = (frame 0x5A#8 status payload).take s.tx.pos.toNat ∧ Summed status payload s s.tx.pos.toNat ∧
      (frame 0x5A#8 status payload)[s.tx.pos.toNat]? = some s.tx.bdata
  | .wait =>
    sent = (frame 0x5A#8 status payload).take (s.tx.pos.toNat + 1) ∧ Summed status payload s s.tx.pos.toNat

/-! The byte at a position. -/

section AtPosition

variable (h : Position status payload s)

include h

theorem Position.lenR_toNat : s.tx.lenR.toNat = payload.length := by
  have := h.small
  rw [h.len, BitVec.toNat_ofNat, Nat.mod_eq_of_lt (by omega)]

theorem Position.endPl_toNat : s.tx.endPl.toNat = payload.length + 4 := by
  have := h.small
  rw [FrameTx.endPl, BitVec.toNat_add, BitVec.toNat_setWidth, h.lenR_toNat, BitVec.toNat_ofNat]
  omega

theorem Position.pos_eq {k : Nat} (hk : k < 4) : s.tx.pos = BitVec.ofNat 17 k ↔ s.tx.pos.toNat = k := by
  rw [← BitVec.toNat_inj, BitVec.toNat_ofNat, Nat.mod_eq_of_lt (by omega)]

theorem Position.inPl_iff :
    s.tx.inPl = true ↔ 4 ≤ s.tx.pos.toNat ∧ s.tx.pos.toNat < payload.length + 4 := by
  simp only [FrameTx.inPl, decide_eq_true_eq, BitVec.le_def, BitVec.lt_def, h.endPl_toNat]
  rfl

theorem Position.inCrc_iff :
    s.tx.inCrc = true ↔ 1 ≤ s.tx.pos.toNat ∧ s.tx.pos.toNat < payload.length + 4 := by
  simp only [FrameTx.inCrc, decide_eq_true_eq, BitVec.le_def, BitVec.lt_def, h.endPl_toNat]
  rfl

theorem Position.atEnd_iff : s.tx.pos = s.tx.endPl ↔ s.tx.pos.toNat = payload.length + 4 := by
  rw [← BitVec.toNat_inj, h.endPl_toNat]

theorem Position.last_iff : s.tx.pos = s.tx.endPl + 1#17 ↔ s.tx.pos.toNat = payload.length + 5 := by
  have := h.small
  rw [← BitVec.toNat_inj, BitVec.toNat_add, h.endPl_toNat, BitVec.toNat_ofNat]
  omega

/-- The address of a payload byte. -/
theorem Position.addr (hp : 4 ≤ s.tx.pos.toNat) (hlt : s.tx.pos.toNat < payload.length + 4) :
    s.tx.pos.setWidth 13 - 4#13 = BitVec.ofNat 13 (s.tx.pos.toNat - 4) := by
  have := h.small
  apply BitVec.eq_of_toNat_eq
  rw [BitVec.toNat_sub, BitVec.toNat_setWidth, BitVec.toNat_ofNat, BitVec.toNat_ofNat]
  omega

/-- The byte the transmitter picks is the one the frame has there. -/
theorem Position.b_eq (hsum : Summed status payload s (s.tx.pos.toNat - 1))
    (hrq : s.rq = s.ram (s.tx.pos.setWidth 13 - 4#13)) :
    (frame 0x5A#8 status payload)[s.tx.pos.toNat]? = some (s.tx.b s.rq) := by
  have hpos := h.pos
  unfold FrameTx.b
  split_ifs with h0 h1 h2 h3 hpl hend
  · rw [(h.pos_eq (by decide : 0 < 4)).mp h0]
    rfl
  · rw [(h.pos_eq (by decide : 1 < 4)).mp h1, h.stat]
    rfl
  · rw [(h.pos_eq (by decide : 2 < 4)).mp h2, h.len]
    rfl
  · rw [(h.pos_eq (by decide : 3 < 4)).mp h3, h.len]
    rfl
  · obtain ⟨hlo, hhi⟩ := h.inPl_iff.mp hpl
    obtain ⟨j, hj⟩ : ∃ j, s.tx.pos.toNat = j + 4 := ⟨s.tx.pos.toNat - 4, by omega⟩
    have hlt : j < payload.length := by omega
    rw [hrq, h.addr hlo hhi, hj, Nat.add_sub_cancel, h.ram j hlt]
    simp [frame, covered, List.getElem?_append_left, hlt]
  · have hp := h.atEnd_iff.mp hend
    rw [hsum, hp, List.take_of_length_le (by rw [covered_length]; omega)]
    simp [frame, covered, txCovered, txLen]
  · have hp : s.tx.pos.toNat = payload.length + 5 := by
      have h0' : ¬s.tx.pos.toNat = 0 := fun hk => h0 ((h.pos_eq (by decide)).mpr hk)
      have h1' : ¬s.tx.pos.toNat = 1 := fun hk => h1 ((h.pos_eq (by decide)).mpr hk)
      have h2' : ¬s.tx.pos.toNat = 2 := fun hk => h2 ((h.pos_eq (by decide)).mpr hk)
      have h3' : ¬s.tx.pos.toNat = 3 := fun hk => h3 ((h.pos_eq (by decide)).mpr hk)
      have hpl' : ¬(4 ≤ s.tx.pos.toNat ∧ s.tx.pos.toNat < payload.length + 4) :=
        fun hk => hpl (h.inPl_iff.mpr hk)
      have hend' : ¬s.tx.pos.toNat = payload.length + 4 := fun hk => hend (h.atEnd_iff.mpr hk)
      omega
    rw [hsum, hp, List.take_of_length_le (by rw [covered_length]; omega)]
    simp [frame, covered, txCovered, txLen]

/-- The checksum after the byte at the position. -/
theorem Position.summed (hsum : Summed status payload s (s.tx.pos.toNat - 1))
    (hrq : s.rq = s.ram (s.tx.pos.setWidth 13 - 4#13)) :
    (if s.tx.inCrc then crc16Step s.tx.crc (s.tx.b s.rq) else s.tx.crc)
      = crcOver ((txCovered status payload).take s.tx.pos.toNat) := by
  have hb := h.b_eq hsum hrq
  split_ifs with hin
  · obtain ⟨hlo, hhi⟩ := h.inCrc_iff.mp hin
    obtain ⟨j, hj⟩ : ∃ j, s.tx.pos.toNat = j + 1 := ⟨s.tx.pos.toNat - 1, by omega⟩
    rw [hj] at hb hhi hsum ⊢
    have hlt : j < (txCovered status payload).length := by
      rw [covered_length]
      omega
    have hget : (txCovered status payload)[j]? = some (s.tx.b s.rq) := by
      simpa [frame, List.getElem?_append_left hlt] using hb
    rw [List.take_add_one, hget, Option.toList_some, crcOver_append, hsum, Nat.add_sub_cancel]
  · have hout : ¬(1 ≤ s.tx.pos.toNat ∧ s.tx.pos.toNat < payload.length + 4) :=
      fun hk => hin (h.inCrc_iff.mpr hk)
    rw [hsum]
    by_cases hp : s.tx.pos.toNat = 0
    · rw [hp]
    · rw [List.take_of_length_le (by rw [covered_length]; omega),
        List.take_of_length_le (by rw [covered_length]; omega)]

end AtPosition

/-! One clock. -/

theorem Position.of_kept {s' : TxPath} (h : Position status payload s) (hlen : s'.tx.lenR = s.tx.lenR)
    (hstat : s'.tx.statR = s.tx.statR) (hram : s'.ram = s.ram)
    (hpos : s'.tx.pos.toNat < payload.length + 6) : Position status payload s' where
  small := h.small
  len := hlen.trans h.len
  stat := hstat.trans h.stat
  ram := by rw [hram]; exact h.ram
  pos := hpos

/-- Until the last byte is done the transmitter goes on through the frame. -/
theorem sending_clock (h : Sending status payload sent s)
    (hgo : ¬(s.tx.st = .wait ∧ i.bdone = true ∧ s.tx.pos.toNat = payload.length + 5)) :
    Sending status payload (sent ++ (s.sent i).toList) (s.clock i) := by
  obtain ⟨hp, hst⟩ := h
  cases hcase : s.tx.st with
  | idle => simp [hcase] at hst
  | fetch =>
    simp only [hcase] at hst
    have htx : (s.clock i).tx = { s.tx with
        bstart := false, ra := s.tx.pos.setWidth 13 - 4#13, st := .fetch2 } := by
      simp [TxPath.clock, FrameTx.clock, hcase]
    have hsent : s.sent i = none := by simp [TxPath.sent, htx]
    refine ⟨hp.of_kept (by rw [htx]) (by rw [htx]) rfl (by rw [htx]; exact hp.pos), ?_⟩
    rw [hsent, Option.toList_none, List.append_nil]
    simp only [Summed, htx]
    exact ⟨hst.1, hst.2, trivial⟩
  | fetch2 =>
    simp only [hcase] at hst
    have htx : (s.clock i).tx = { s.tx with bstart := false, st := .load } := by
      simp [TxPath.clock, FrameTx.clock, hcase]
    have hsent : s.sent i = none := by simp [TxPath.sent, htx]
    refine ⟨hp.of_kept (by rw [htx]) (by rw [htx]) rfl (by rw [htx]; exact hp.pos), ?_⟩
    rw [hsent, Option.toList_none, List.append_nil]
    simp only [Summed, htx]
    exact ⟨hst.1, hst.2.1, by rw [← hst.2.2]; rfl⟩
  | load =>
    simp only [hcase] at hst
    have htx : (s.clock i).tx = { s.tx with
        bstart := false
        bdata := s.tx.b s.rq
        crc := if s.tx.inCrc then crc16Step s.tx.crc (s.tx.b s.rq) else s.tx.crc
        st := .send } := by
      simp [TxPath.clock, FrameTx.clock, hcase]
    have hsent : s.sent i = none := by simp [TxPath.sent, htx]
    refine ⟨hp.of_kept (by rw [htx]) (by rw [htx]) rfl (by rw [htx]; exact hp.pos), ?_⟩
    rw [hsent, Option.toList_none, List.append_nil]
    simp only [Summed, htx]
    exact ⟨hst.1, hp.summed hst.2.1 hst.2.2, hp.b_eq hst.2.1 hst.2.2⟩
  | send =>
    simp only [hcase] at hst
    cases hb : i.bbusy with
    | true =>
      have htx : (s.clock i).tx = { s.tx with bstart := false } := by
        simp [TxPath.clock, FrameTx.clock, hcase, hb]
      have hsent : s.sent i = none := by simp [TxPath.sent, htx]
      refine ⟨hp.of_kept (by rw [htx]) (by rw [htx]) rfl (by rw [htx]; exact hp.pos), ?_⟩
      rw [hsent, Option.toList_none, List.append_nil]
      simp only [Summed, htx, hcase]
      exact hst
    | false =>
      have htx : (s.clock i).tx = { s.tx with bstart := true, st := .wait } := by
        simp [TxPath.clock, FrameTx.clock, hcase, hb]
      have hsent : s.sent i = some s.tx.bdata := by simp [TxPath.sent, htx]
      refine ⟨hp.of_kept (by rw [htx]) (by rw [htx]) rfl (by rw [htx]; exact hp.pos), ?_⟩
      rw [hsent, Option.toList_some]
      simp only [Summed, htx]
      exact ⟨by rw [List.take_add_one, hst.2.2, hst.1, Option.toList_some], hst.2.1⟩
  | wait =>
    simp only [hcase] at hst
    cases hd : i.bdone with
    | false =>
      have htx : (s.clock i).tx = { s.tx with bstart := false } := by
        simp [TxPath.clock, FrameTx.clock, hcase, hd]
      have hsent : s.sent i = none := by simp [TxPath.sent, htx]
      refine ⟨hp.of_kept (by rw [htx]) (by rw [htx]) rfl (by rw [htx]; exact hp.pos), ?_⟩
      rw [hsent, Option.toList_none, List.append_nil]
      simp only [Summed, htx, hcase]
      exact hst
    | true =>
      have hpos := hp.pos
      have hnot : ¬s.tx.pos.toNat = payload.length + 5 := fun hk => hgo ⟨hcase, hd, hk⟩
      have hlast : ¬s.tx.pos = s.tx.endPl + 1#17 := fun hk => hnot (hp.last_iff.mp hk)
      have htx : (s.clock i).tx = { s.tx with
          bstart := false, pos := s.tx.pos + 1#17, st := .fetch } := by
        simp [TxPath.clock, FrameTx.clock, hcase, hd, hlast]
      have hnext : (s.tx.pos + 1#17).toNat = s.tx.pos.toNat + 1 := by
        have := hp.small
        rw [BitVec.toNat_add, BitVec.toNat_ofNat]
        omega
      have hsent : s.sent i = none := by simp [TxPath.sent, htx]
      refine ⟨hp.of_kept (by rw [htx]) (by rw [htx]) rfl (by rw [htx, hnext]; omega), ?_⟩
      rw [hsent, Option.toList_none, List.append_nil]
      simp only [Summed, htx, hnext, Nat.add_sub_cancel]
      exact hst

/-- The last byte ends the frame. -/
theorem sending_done (h : Sending status payload sent s) (hw : s.tx.st = .wait) (hd : i.bdone = true)
    (hlast : s.tx.pos.toNat = payload.length + 5) :
    (s.clock i).tx.st = .idle ∧ sent ++ (s.sent i).toList = frame 0x5A#8 status payload := by
  obtain ⟨hp, hst⟩ := h
  simp only [hw] at hst
  have htx : (s.clock i).tx = { s.tx with bstart := false, st := .idle } := by
    simp [TxPath.clock, FrameTx.clock, hw, hd, hp.last_iff.mpr hlast]
  have hsent : s.sent i = none := by simp [TxPath.sent, htx]
  refine ⟨by rw [htx], ?_⟩
  rw [hsent, Option.toList_none, List.append_nil, hst.1, hlast, List.take_of_length_le]
  rw [frame_length]

/-! A whole frame. -/

/-- A transport that goes on: it does not stay busy, and a byte is done in the end. -/
structure Fair (i : Nat → TxIn) : Prop where
  ready : ∀ n, ∃ m, n ≤ m ∧ (i m).bbusy = false
  done : ∀ n, ∃ m, n ≤ m ∧ (i m).bdone = true

section Run

variable {s : TxPath} {i : Nat → TxIn}

/-- What has gone out before a clock of the run, and where the transmitter is then. -/
def At (status : BitVec 8) (payload : List (BitVec 8)) (s : TxPath) (i : Nat → TxIn) (st : TxState)
    (pos n : Nat) : Prop :=
  Sending status payload (outputs TxPath.clock TxPath.sent s i n) (after TxPath.clock s i n) ∧
    (after TxPath.clock s i n).tx.st = st ∧ (after TxPath.clock s i n).tx.pos.toNat = pos

theorem At.clock {st : TxState} {pos n : Nat} (h : At status payload s i st pos n)
    (hgo : ¬(st = .wait ∧ (i n).bdone = true ∧ pos = payload.length + 5)) :
    Sending status payload (outputs TxPath.clock TxPath.sent s i (n + 1)) (after TxPath.clock s i (n + 1)) := by
  refine sending_clock h.1 ?_
  rw [h.2.1, h.2.2]
  exact hgo

/-- Three clocks fetch the byte. -/
theorem At.fetched {pos n : Nat} (h : At status payload s i .fetch pos n) :
    At status payload s i .send pos (n + 3) := by
  have h1 : At status payload s i .fetch2 pos (n + 1) := by
    refine ⟨h.clock (by simp), ?_, ?_⟩ <;>
      rw [Clocked.after_succ] <;> simp [TxPath.clock, FrameTx.clock, h.2.1, h.2.2]
  have h2 : At status payload s i .load pos (n + 2) := by
    refine ⟨h1.clock (by simp), ?_, ?_⟩ <;>
      rw [Clocked.after_succ] <;> simp only [TxPath.clock, FrameTx.clock, h1.2.1, h1.2.2]
  refine ⟨h2.clock (by simp), ?_, ?_⟩ <;>
    rw [Clocked.after_succ] <;> simp only [TxPath.clock, FrameTx.clock, h2.2.1, h2.2.2]

/-- The transport takes the byte. -/
theorem At.sends {pos n : Nat} (h : At status payload s i .send pos n) (hf : Fair i) :
    ∃ k, n ≤ k ∧ At status payload s i .wait pos k := by
  obtain ⟨m, hm, hready⟩ := hf.ready n
  have hstay : ∀ k, At status payload s i .send pos k → ¬(i k).bbusy = false →
      At status payload s i .send pos (k + 1) := by
    intro k hat hbusy
    have hbusy' : (i k).bbusy = true := Bool.eq_true_of_not_eq_false hbusy
    refine ⟨hat.clock (by simp), ?_, ?_⟩ <;>
      rw [Clocked.after_succ] <;> simp [TxPath.clock, FrameTx.clock, hat.2.1, hat.2.2, hbusy']
  obtain ⟨k, hk, hat, hgo⟩ := Clocked.waits hstay h hm hready
  refine ⟨k + 1, by omega, hat.clock (by simp), ?_, ?_⟩ <;>
    rw [Clocked.after_succ] <;> simp [TxPath.clock, FrameTx.clock, hat.2.1, hat.2.2, hgo]

/-- The transport is done with the byte. -/
theorem At.acked {pos n : Nat} (h : At status payload s i .wait pos n) (hf : Fair i) :
    ∃ k, n ≤ k ∧ At status payload s i .wait pos k ∧ (i k).bdone = true := by
  obtain ⟨m, hm, hdone⟩ := hf.done n
  refine Clocked.waits (fun k hat hwait => ⟨hat.clock fun hw => hwait hw.2.1, ?_, ?_⟩) h hm hdone <;>
    rw [Clocked.after_succ] <;> simp [TxPath.clock, FrameTx.clock, hat.2.1, hat.2.2, hwait]

/-- By induction on the bytes that are left: the last of them is sent. -/
theorem At.finishes {d : Nat} (hf : Fair i) : ∀ {pos n : Nat}, pos + d = payload.length + 5 →
    At status payload s i .fetch pos n →
    ∃ k, n ≤ k ∧ At status payload s i .wait (payload.length + 5) k ∧ (i k).bdone = true := by
  induction d with
  | zero =>
    intro pos n hd h
    obtain ⟨k, hk, hwait⟩ := h.fetched.sends hf
    obtain ⟨m, hm, hat, hdone⟩ := hwait.acked hf
    obtain rfl : pos = payload.length + 5 := hd
    exact ⟨m, by omega, hat, hdone⟩
  | succ d ih =>
    intro pos n hd h
    obtain ⟨k, hk, hwait⟩ := h.fetched.sends hf
    obtain ⟨m, hm, hat, hdone⟩ := hwait.acked hf
    have hnot : ¬(after TxPath.clock s i m).tx.pos = (after TxPath.clock s i m).tx.endPl + 1#17 := by
      intro hlast
      have := hat.1.1.last_iff.mp hlast
      rw [hat.2.2] at this
      omega
    have hnext : ((after TxPath.clock s i m).tx.pos + 1#17).toNat = pos + 1 := by
      have := hat.1.1.small
      rw [BitVec.toNat_add, hat.2.2, BitVec.toNat_ofNat]
      omega
    have hfetch : At status payload s i .fetch (pos + 1) (m + 1) := by
      refine ⟨hat.clock fun hw => by omega, ?_, ?_⟩ <;> rw [Clocked.after_succ] <;>
        simp [TxPath.clock, FrameTx.clock, hat.2.1, hdone, hnot, hnext]
    obtain ⟨j, hj, hend⟩ := ih (by omega) hfetch
    exact ⟨j, by omega, hend⟩

/-- A request for a response makes the transmitter send its frame and no other byte. -/
theorem transmits_frame (hidle : s.tx.st = .idle) (hreq : (i 0).req = true)
    (hlen : (i 0).len = txLen payload) (hsmall : payload.length ≤ 8192)
    (hram : ∀ j (h : j < payload.length), s.ram (BitVec.ofNat 13 j) = payload[j]) (hf : Fair i) :
    ∃ n, (after TxPath.clock s i n).tx.st = .idle ∧
      outputs TxPath.clock TxPath.sent s i n = frame 0x5A#8 (i 0).status payload := by
  have hstart : At (i 0).status payload s i .fetch 0 1 := by
    have htx : (after TxPath.clock s i 1).tx = { s.tx with
        bstart := false, statR := (i 0).status, lenR := (i 0).len, pos := 0, crc := 0xFFFF#16
        st := .fetch } := by
      simp [TxPath.clock, FrameTx.clock, hidle, hreq]
    have hsent : outputs TxPath.clock TxPath.sent s i 1 = [] := by
      simp [outputs, TxPath.sent, TxPath.clock, FrameTx.clock, hidle, hreq]
    refine ⟨⟨⟨hsmall, by rw [htx]; exact hlen, by rw [htx], hram, by rw [htx]; exact Nat.succ_pos _⟩, ?_⟩,
      by rw [htx], by rw [htx]; rfl⟩
    simp only [Summed, htx, hsent]
    exact ⟨rfl, rfl⟩
  obtain ⟨k, _, hat, hdone⟩ := hstart.finishes hf (Nat.zero_add _)
  obtain ⟨hst, hsent⟩ := sending_done hat.1 hat.2.1 hdone hat.2.2
  exact ⟨k + 1, hst, hsent⟩

end Run

end GoiKey.Rtl
