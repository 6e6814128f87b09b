import GoiKey.Model.FpgaLink
import GoiKey.Proofs.FrameTx
import GoiKey.Proofs.RecordFile

/-! The frames of FpgaAccel.cpp are the frames of frame_io.v. -/

namespace GoiKey.FpgaLink

open Accel (Reply crc16 frameCrc)
open RecordFile (littleEndian fromLittleEndian littleEndian_length fromLittleEndian_littleEndian)
open Rtl (crc16Step crcOver frame covered RxPath RxPathIn)
open Clocked (after outputs)

variable {cmd status : UInt8} {pl body : Bytes}

/-- The bytes as they stand on the wires of the accelerator. -/
def wires (b : Bytes) : List (BitVec 8) := b.map UInt8.toBitVec

@[simp] theorem wires_length (b : Bytes) : (wires b).length = b.length := List.length_map ..

theorem wires_getElem (b : Bytes) {j : Nat} (h : j < b.length) :
    (wires b).get ⟨j, by rw [wires_length]; exact h⟩ = b[j].toBitVec := List.getElem_map ..

@[simp] theorem wires_append (a b : Bytes) : wires (a ++ b) = wires a ++ wires b := List.map_append ..

@[simp] theorem wires_cons (a : UInt8) (b : Bytes) : wires (a :: b) = a.toBitVec :: wires b := rfl

/-! The two checksums. -/

theorem crcBit_toBitVec (c : UInt16) : (Accel.crcBit c).toBitVec = Rtl.crcBit c.toBitVec := by
  have hbit : (c &&& 0x8000 = 0) ↔ c.toBitVec.getLsbD 15 = false := by
    rw [← UInt16.toBitVec_inj]
    change c.toBitVec &&& BitVec.twoPow 16 15 = 0 ↔ _
    rw [BitVec.and_twoPow]
    cases c.toBitVec.getLsbD 15 <;> decide
  unfold Accel.crcBit Rtl.crcBit
  cases h : c.toBitVec.getLsbD 15 with
  | false =>
    rw [if_pos (hbit.mpr h)]
    rfl
  | true =>
    rw [if_neg fun hc => absurd ((hbit.mp hc).symm.trans h) (by decide)]
    rfl

theorem crcByte_toBitVec (c : UInt16) (b : UInt8) :
    ((List.range 8).foldl (fun c _ => Accel.crcBit c) (c ^^^ (b.toUInt16 <<< 8))).toBitVec
      = crc16Step c.toBitVec b.toBitVec := by
  have hbits : ∀ (l : List Nat) (c : UInt16), (l.foldl (fun c _ => Accel.crcBit c) c).toBitVec
      = l.foldl (fun x _ => Rtl.crcBit x) c.toBitVec := by
    intro l
    induction l with
    | nil => exact fun _ => rfl
    | cons _ l ih =>
      intro c
      rw [List.foldl_cons, List.foldl_cons, ih, crcBit_toBitVec]
  have hshift : (b.toUInt16 <<< 8).toBitVec = (b.toBitVec ++ 0x00#8 : BitVec 16) := by
    apply BitVec.eq_of_toNat_eq
    have := b.toNat_lt
    rw [BitVec.toNat_append (x := b.toBitVec) (y := 0x00#8)]
    simp [Nat.shiftLeft_eq]
    omega
  rw [hbits, UInt16.toBitVec_xor, hshift]
  rfl

theorem crc16_toBitVec (d : Bytes) (c : UInt16) :
    (crc16 d c).toBitVec = (wires d).foldl crc16Step c.toBitVec := by
  induction d generalizing c with
  | nil => rfl
  | cons b d ih =>
    rw [wires_cons, List.foldl_cons, ← crcByte_toBitVec, ← ih]
    rfl

/-! The two framings. -/

theorem wires_littleEndian {n : Nat} :
    wires (littleEndian 2 n) = [(BitVec.ofNat 16 n).extractLsb' 0 8, (BitVec.ofNat 16 n).extractLsb' 8 8] := by
  have hlow : (UInt8.ofNat (n / 256 ^ 0)).toBitVec = (BitVec.ofNat 16 n).extractLsb' 0 8 := by
    apply BitVec.eq_of_toNat_eq
    simp [BitVec.extractLsb'_toNat]
  have hhigh : (UInt8.ofNat (n / 256 ^ 1)).toBitVec = (BitVec.ofNat 16 n).extractLsb' 8 8 := by
    apply BitVec.eq_of_toNat_eq
    simp [BitVec.extractLsb'_toNat, Nat.shiftRight_eq_div_pow]
    omega
  change [_, _] = _
  exact congrArg₂ (fun a b => [a, b]) hlow hhigh

theorem wires_crc (d : Bytes) :
    wires (littleEndian 2 (crc16 d 0xFFFF).toNat)
      = [(crcOver (wires d)).extractLsb' 0 8, (crcOver (wires d)).extractLsb' 8 8] := by
  have h : BitVec.ofNat 16 (crc16 d 0xFFFF).toNat = crcOver (wires d) := by
    rw [crcOver, show (0xFFFF#16 : BitVec 16) = (0xFFFF : UInt16).toBitVec from rfl, ← crc16_toBitVec]
    apply BitVec.eq_of_toNat_eq
    simp
  rw [wires_littleEndian, h]

theorem wires_covered (tag : UInt8) (b : Bytes) :
    wires (tag :: (littleEndian 2 b.length ++ b))
      = covered tag.toBitVec (BitVec.ofNat 16 (wires b).length) (wires b) := by
  rw [wires_cons, wires_append, wires_littleEndian, wires_length]
  rfl

theorem wires_request (cmd : UInt8) (pl : Bytes) :
    wires (request cmd pl) = frame 0xA5#8 cmd.toBitVec (wires pl) := by
  rw [request, wires_cons, wires_append, wires_crc, wires_covered]
  rfl

theorem frameCrc_eq (status : UInt8) (body : Bytes) :
    frameCrc status body = crc16 (status :: (littleEndian 2 body.length ++ body)) 0xFFFF := by
  rw [frameCrc, crc16, crc16, crc16, ← List.foldl_append]
  rfl

theorem wires_response (status : UInt8) (body : Bytes) :
    wires (response status body) = frame 0x5A#8 status.toBitVec (wires body) := by
  rw [response, wires_cons, wires_append, frameCrc_eq, wires_crc, wires_covered]
  rfl

/-! Reading a response. -/

theorem tpRead_append {n : Nat} {a b : Bytes} (h : a.length = n) : tpRead n (a ++ b) = some (a, b) := by
  subst h
  simp [tpRead]

theorem readFrame_frame (hshort : body.length < 2 ^ 16) (rest : Bytes) :
    readFrame ((status :: (littleEndian 2 body.length ++ body) ++
      littleEndian 2 (frameCrc status body).toNat) ++ rest) = .frame status body (frameCrc status body) := by
  have hhead : (status :: (littleEndian 2 body.length ++ body) ++
      littleEndian 2 (frameCrc status body).toNat) ++ rest
        = (status :: littleEndian 2 body.length) ++
          (body ++ (littleEndian 2 (frameCrc status body).toNat ++ rest)) := by
    simp
  have hlen : fromLittleEndian (littleEndian 2 body.length) = body.length :=
    fromLittleEndian_littleEndian hshort
  have hcrc : fromLittleEndian (littleEndian 2 (frameCrc status body).toNat) = (frameCrc status body).toNat :=
    fromLittleEndian_littleEndian (UInt16.toNat_lt _)
  rw [hhead, readFrame, tpRead_append (by simp)]
  simp only [List.headD_cons, List.drop_succ_cons, List.drop_zero, hlen]
  rw [readBody, tpRead_append rfl]
  simp only
  rw [readCrc, tpRead_append (littleEndian_length 2 _)]
  simp only [hcrc, UInt16.ofNat_toNat]

theorem replyOf_response (hshort : body.length < 2 ^ 16) :
    replyOf (response status body) = .frame status body (frameCrc status body) := by
  rw [replyOf, response, tpWaitSof, if_pos rfl]
  have h := @readFrame_frame status body hshort []
  rwa [List.append_nil] at h

/-! Receiving a request. -/

/-- A clock on which no byte is complete, whatever stands on the byte wires. -/
def silent (b : BitVec 8) : RxPathIn := ⟨⟨false, b, true⟩, false, none⟩

def arriving (b : BitVec 8) : RxPathIn := ⟨⟨true, b, true⟩, false, none⟩

/-- Each byte after a wait that is too short for the receiver to give up. -/
structure Arrival where
  wait : List (BitVec 8)
  byte : BitVec 8
  short : wait.length < 2 ^ 22

def Arrival.clocks (a : Arrival) : List RxPathIn := a.wait.map silent ++ [arriving a.byte]

def transmission (as : List Arrival) : List RxPathIn := as.flatMap Arrival.clocks

def run (s : RxPath) (is : List RxPathIn) : RxPath := is.foldl RxPath.clock s

theorem run_append (s : RxPath) (is js : List RxPathIn) : run s (is ++ js) = run (run s is) js :=
  List.foldl_append

/-- The accelerator waits for a request. -/
def Waiting (s : RxPath) : Prop := s.rx.st = .sof ∧ s.rx.idle = 0

/-- After some clocks of waiting the receiver has counted them, and no pulse is left. -/
structure Waited (s t : RxPath) (n : Nat) : Prop where
  idle : t.rx.idle.toNat ≤ n
  rx : t.rx = { s.rx with
    we := t.rx.we, frameOk := t.rx.frameOk, frameBad := t.rx.frameBad, idle := t.rx.idle }
  filled : t.filled = s.filled

theorem idle_low {v : BitVec 24} (h : v.toNat < 2 ^ 22) : v.getLsbD 22 = false := by
  rw [BitVec.getLsbD, Nat.testBit_lt_two_pow h]

theorem Waited.silent {s t : RxPath} {n : Nat} (h : Waited s t n) (hn : n < 2 ^ 22) (b : BitVec 8) :
    Waited s (t.clock (silent b)) (n + 1) := by
  have hlow : t.rx.idle.getLsbD 22 = false := idle_low (Nat.lt_of_le_of_lt h.idle hn)
  have hclock : (t.clock (FpgaLink.silent b)).rx = t.rx.quiet false := rfl
  have hport : (t.clock (FpgaLink.silent b)).rx.port = none := by
    rw [hclock, Rtl.FrameRx.port, Rtl.quiet_we]
    rfl
  have hidle := h.idle
  refine ⟨?_, ?_, ?_⟩
  · rw [hclock, Rtl.FrameRx.quiet]
    simp only [hlow, Bool.false_eq_true, if_false]
    split_ifs
    · rw [BitVec.toNat_add, show (1 : BitVec 24).toNat = 1 from rfl, Nat.mod_eq_of_lt (by omega)]
      omega
    · exact Nat.le_succ_of_le hidle
  · rw [hclock, Rtl.FrameRx.quiet]
    simp only [hlow, Bool.false_eq_true, if_false]
    rw [h.rx]
    split_ifs <;> rfl
  · rw [RxPath.filled, hport, ← h.filled]
    rfl

theorem Waited.wait {s t : RxPath} {n : Nat} (h : Waited s t n) {w : List (BitVec 8)}
    (hw : n + w.length < 2 ^ 22) : Waited s (run t (w.map FpgaLink.silent)) (n + w.length) := by
  induction w generalizing t n with
  | nil => exact h
  | cons b w ih =>
    rw [List.length_cons] at hw ⊢
    have hnext := ih (h.silent (by omega) b) (by omega)
    rwa [show n + (w.length + 1) = n + 1 + w.length by omega]

/-- Waiting before a byte makes no difference to what the receiver makes of it. -/
theorem clock_after_wait {s t : RxPath} {n : Nat} (h : Waited s t n) (hn : n < 2 ^ 22)
    (hs : s.rx.idle = 0) (b : BitVec 8) :
    (t.clock (arriving b)).rx = (s.clock (arriving b)).rx ∧
      (t.clock (arriving b)).filled = (s.clock (arriving b)).filled := by
  have hlow : t.rx.idle.getLsbD 22 = false := idle_low (Nat.lt_of_le_of_lt h.idle hn)
  have hlow' : s.rx.idle.getLsbD 22 = false := by rw [hs]; rfl
  have hquiet : t.rx.quiet true = s.rx.quiet true := by
    rw [Rtl.FrameRx.quiet, Rtl.FrameRx.quiet]
    simp only [hlow, hlow', Bool.false_eq_true, if_false]
    rw [h.rx]
    rfl
  have hrx : (t.clock (arriving b)).rx = (s.clock (arriving b)).rx := by
    change t.rx.take (t.rx.quiet true) b true = s.rx.take (s.rx.quiet true) b true
    rw [hquiet, h.rx]
    rfl
  refine ⟨hrx, ?_⟩
  have hram : (t.clock (arriving b)).ram = (s.clock (arriving b)).ram := h.filled
  rw [RxPath.filled, RxPath.filled, hrx, hram]

/-- The same registers, and the same RAM once a byte on its way is in. -/
def Same (s t : RxPath) : Prop := s.rx = t.rx ∧ s.filled = t.filled

theorem rx_arriving (s : RxPath) (b : BitVec 8) :
    (s.clock (arriving b)).rx = s.rx.take (s.rx.quiet true) b true := rfl

theorem idle_after_byte (s : RxPath) (b : BitVec 8) : (s.clock (arriving b)).rx.idle = 0 := by
  have hquiet : (s.rx.quiet true).idle = 0 := by
    rw [Rtl.FrameRx.quiet]
    cases h : s.rx.idle.getLsbD 22 <;> simp
  change (s.rx.take (s.rx.quiet true) b true).idle = 0
  unfold Rtl.FrameRx.take
  cases s.rx.st <;> simp only [Rtl.FrameRx.payload, Rtl.FrameRx.check] <;> (try split_ifs) <;> exact hquiet

/-- The bytes one after another. -/
def feed (s : RxPath) (bs : List (BitVec 8)) : RxPath := run s (bs.map arriving)

theorem feed_cons (s : RxPath) (b : BitVec 8) (bs : List (BitVec 8)) :
    feed s (b :: bs) = feed (s.clock (arriving b)) bs := rfl

theorem feed_append (s : RxPath) (bs cs : List (BitVec 8)) : feed s (bs ++ cs) = feed (feed s bs) cs := by
  rw [feed, List.map_append, run_append]
  rfl

theorem run_transmission {s t : RxPath} (h : Same t s) (hs : s.rx.idle = 0) (as : List Arrival) :
    Same (run t (transmission as)) (feed s (as.map Arrival.byte)) := by
  induction as generalizing s t with
  | nil => exact h
  | cons a as ih =>
    have hwaited : Waited s t 0 := by
      refine ⟨?_, ?_, h.2⟩
      · rw [h.1, hs]
        exact Nat.le_refl 0
      · rw [h.1]
    have hlong : 0 + a.wait.length < 2 ^ 22 := by
      rw [Nat.zero_add]
      exact a.short
    have hrun : run t (transmission (a :: as))
        = run ((run t (a.wait.map silent)).clock (arriving a.byte)) (transmission as) := by
      rw [transmission, List.flatMap_cons, run_append, Arrival.clocks, run_append]
      rfl
    rw [hrun]
    exact ih (clock_after_wait (hwaited.wait hlong) hlong hs a.byte) (idle_after_byte s a.byte)

/-! The bytes of a request, one after another. -/

theorem quiet_waiting {s : Rtl.FrameRx} (h : s.idle = 0) :
    s.quiet true = { s with we := false, frameOk := false, frameBad := false, idle := 0 } := by
  rw [Rtl.FrameRx.quiet]
  simp [h]

/-- Behind the header the receiver knows the command and the length. -/
structure Headed (cmd : BitVec 8) (len : BitVec 16) (s : RxPath) : Prop where
  cmd : s.rx.cmd = cmd
  len : s.rx.len = len
  idle : s.rx.idle = 0

theorem feed_header {s : RxPath} (h : Waiting s) (cmd : BitVec 8) (len : BitVec 16) :
    Headed cmd len (feed s [0xA5#8, cmd, len.extractLsb' 0 8, len.extractLsb' 8 8]) ∧
      (feed s [0xA5#8, cmd, len.extractLsb' 0 8, len.extractLsb' 8 8]).rx.st
        = (if len = 0#16 then .c0 else .pl) ∧
      (feed s [0xA5#8, cmd, len.extractLsb' 0 8, len.extractLsb' 8 8]).rx.cnt = 0 := by
  have h1 : (s.clock (arriving 0xA5#8)).rx.st = .cmd := by
    rw [rx_arriving, Rtl.FrameRx.take, h.1]
    rfl
  generalize hs1 : s.clock (arriving 0xA5#8) = s1 at h1
  have h2 : (s1.clock (arriving cmd)).rx.st = .l0 ∧ (s1.clock (arriving cmd)).rx.cmd = cmd := by
    rw [rx_arriving, Rtl.FrameRx.take, h1]
    exact ⟨rfl, rfl⟩
  generalize hs2 : s1.clock (arriving cmd) = s2 at h2
  have h3 : (s2.clock (arriving (len.extractLsb' 0 8))).rx.st = .l1 ∧
      (s2.clock (arriving (len.extractLsb' 0 8))).rx.cmd = cmd ∧
      (s2.clock (arriving (len.extractLsb' 0 8))).rx.len.extractLsb' 0 8 = len.extractLsb' 0 8 := by
    rw [rx_arriving, Rtl.FrameRx.take, h2.1]
    exact ⟨rfl, (Rtl.quiet_cmd _ _).trans h2.2, Rtl.append_low _ _⟩
  generalize hs3 : s2.clock (arriving (len.extractLsb' 0 8)) = s3 at h3
  have hfeed : feed s [0xA5#8, cmd, len.extractLsb' 0 8, len.extractLsb' 8 8]
      = s3.clock (arriving (len.extractLsb' 8 8)) := by
    rw [← hs3, ← hs2, ← hs1]
    rfl
  have h4 : (s3.clock (arriving (len.extractLsb' 8 8))).rx = { s3.rx.quiet true with
      len := len, crc := crc16Step s3.rx.crc (len.extractLsb' 8 8), cnt := 0, wa := 0
      st := if len = 0#16 then .c0 else .pl } := by
    rw [rx_arriving, Rtl.FrameRx.take, h3.1, h3.2.2, Rtl.append_low_high]
  rw [hfeed]
  refine ⟨⟨?_, by rw [h4], idle_after_byte _ _⟩, by rw [h4], by rw [h4]⟩
  rw [h4]
  exact (Rtl.quiet_cmd _ _).trans h3.2.1

/-- The payload leads to the checksum. By induction on what is left of it. -/
theorem feed_payload {cmd : BitVec 8} {len : BitVec 16} {pl : List (BitVec 8)} (hne : pl ≠ []) :
    ∀ {s : RxPath}, Headed cmd len s → s.rx.st = .pl → s.rx.cnt.toNat + pl.length = len.toNat →
      Headed cmd len (feed s pl) ∧ (feed s pl).rx.st = .c0 := by
  induction pl with
  | nil => exact absurd rfl hne
  | cons b pl ih =>
    intro s h hst hlen
    rw [List.length_cons] at hlen
    have hrx : (s.clock (arriving b)).rx = s.rx.payload (s.rx.quiet true) b true := by
      change s.rx.take (s.rx.quiet true) b true = _
      rw [Rtl.FrameRx.take, hst]
    have hfields : (s.clock (arriving b)).rx.cmd = s.rx.cmd ∧ (s.clock (arriving b)).rx.len = s.rx.len ∧
        (s.clock (arriving b)).rx.cnt = s.rx.cnt + 1 ∧ (s.clock (arriving b)).rx.st
          = (if s.rx.cnt.toNat + 1 = s.rx.len.toNat then .c0 else (s.rx.quiet true).st) := by
      rw [hrx, Rtl.FrameRx.payload]
      split_ifs <;> simp
    obtain ⟨hcmd, hlen', hcnt, hst'⟩ := hfields
    have hhead : Headed cmd len (s.clock (arriving b)) :=
      ⟨hcmd.trans h.cmd, hlen'.trans h.len, idle_after_byte s b⟩
    rw [feed_cons]
    rw [h.len] at hst'
    by_cases hend : s.rx.cnt.toNat + 1 = len.toNat
    · rw [if_pos hend] at hst'
      obtain rfl : pl = [] := List.eq_nil_of_length_eq_zero (by omega)
      exact ⟨hhead, hst'⟩
    · rw [if_neg hend, quiet_waiting h.idle] at hst'
      have hcount : (s.rx.cnt + 1).toNat = s.rx.cnt.toNat + 1 := by
        have := len.isLt
        rw [BitVec.toNat_add, show (1 : BitVec 16).toNat = 1 from rfl, Nat.mod_eq_of_lt (by omega)]
      refine ih (by rintro rfl; simp at hlen; omega) hhead (hst'.trans hst) ?_
      rw [hcnt, hcount]
      omega

theorem receiving_feed {past : List (BitVec 8)} {s : RxPath} (h : Rtl.Receiving past s)
    (bs : List (BitVec 8)) : Rtl.Receiving (past ++ bs) (feed s bs) := by
  induction bs generalizing past s with
  | nil => rwa [List.append_nil]
  | cons b bs ih =>
    have hu : Rtl.Undisturbed s (arriving b) := ⟨fun _ _ => rfl, fun h => nomatch h⟩
    have hnext := ih (Rtl.receiving_byte h hu rfl)
    rwa [List.append_assoc] at hnext

theorem receiving_start {s : RxPath} (h : Waiting s) :
    Rtl.Receiving [0xA5#8] (s.clock (arriving 0xA5#8)) := by
  have hst : (s.clock (arriving 0xA5#8)).rx.st = .cmd ∧
      (s.clock (arriving 0xA5#8)).rx.crc = 0xFFFF#16 := by
    rw [rx_arriving, Rtl.FrameRx.take, h.1]
    exact ⟨rfl, rfl⟩
  simp only [Rtl.Receiving, hst.1]
  exact ⟨List.suffix_refl _, hst.2⟩

/-- A frame is reported, and the registers describe it. -/
structure Reported (cmd : BitVec 8) (len : BitVec 16) (s : RxPath) : Prop where
  ok : s.rx.frameOk = true
  st : s.rx.st = .sof
  cmd : s.rx.cmd = cmd
  len : s.rx.len = len
  we : s.rx.we = false

theorem feed_frame {s : RxPath} (h : Waiting s) (cmd : BitVec 8) {pl : List (BitVec 8)}
    (hshort : pl.length ≤ 8192) :
    Reported cmd (BitVec.ofNat 16 pl.length) (feed s (frame 0xA5#8 cmd pl)) := by
  generalize hlen : BitVec.ofNat 16 pl.length = len
  have hn : len.toNat = pl.length := by
    rw [← hlen, BitVec.toNat_ofNat, Nat.mod_eq_of_lt (by omega)]
  generalize hcrc : crcOver (covered cmd len pl) = crc
  have hframe : frame 0xA5#8 cmd pl
      = [0xA5#8, cmd, len.extractLsb' 0 8, len.extractLsb' 8 8] ++ pl ++
        [crc.extractLsb' 0 8, crc.extractLsb' 8 8] := by
    rw [frame, hlen, hcrc]
    rfl
  -- Behind the payload, whether there is any or not.
  obtain ⟨t, ht, hhead, hst⟩ : ∃ t, feed s ([0xA5#8, cmd, len.extractLsb' 0 8, len.extractLsb' 8 8] ++ pl)
      = t ∧ Headed cmd len t ∧ t.rx.st = .c0 := by
    obtain ⟨hhead, hst, hcnt⟩ := feed_header h cmd len
    rw [feed_append]
    by_cases hne : pl = []
    · subst hne
      have hzero : len = 0#16 := BitVec.eq_of_toNat_eq hn
      exact ⟨_, rfl, hhead, by rw [feed, List.map_nil, run, List.foldl_nil, hst, if_pos hzero]⟩
    · have hpos : ¬len = 0#16 := by
        rintro hzero
        rw [hzero] at hn
        exact hne (List.eq_nil_of_length_eq_zero hn.symm)
      rw [if_neg hpos] at hst
      obtain ⟨hhead', hst'⟩ := feed_payload hne hhead hst (by rw [hcnt, hn]; exact Nat.zero_add _)
      exact ⟨_, rfl, hhead', hst'⟩
  have hall : Rtl.Receiving (0xA5#8 :: covered cmd len pl ++ [crc.extractLsb' 0 8])
      (t.clock (arriving (crc.extractLsb' 0 8))) := by
    have hrun := receiving_feed (receiving_start h)
      ([cmd, len.extractLsb' 0 8, len.extractLsb' 8 8] ++ pl ++ [crc.extractLsb' 0 8])
    rw [← feed_cons, ← List.cons_append, ← List.cons_append, feed_append, ht] at hrun
    simpa [covered, feed, run] using hrun
  have hlow : (t.clock (arriving (crc.extractLsb' 0 8))).rx
      = { t.rx.quiet true with c0 := crc.extractLsb' 0 8, st := .c1 } := by
    rw [rx_arriving, Rtl.FrameRx.take, hst]
  generalize hu : t.clock (arriving (crc.extractLsb' 0 8)) = u at hall hlow
  have hst' : u.rx.st = .c1 := by rw [hlow]
  have hcmd' : u.rx.cmd = cmd := by rw [hlow]; exact (Rtl.quiet_cmd _ _).trans hhead.cmd
  have hlen' : u.rx.len = len := by rw [hlow]; exact (Rtl.quiet_len _ _).trans hhead.len
  simp only [Rtl.Receiving, hst'] at hall
  obtain ⟨got, hgot, hin⟩ := hall
  rw [hlen', hn] at hgot
  have hsum : u.rx.crc = crc := by
    have htaken := hin.taken
    rw [hcmd', hlen'] at htaken
    have heq := htaken.eq_of_length (by simp [hgot])
    have hcover : covered cmd len got = covered cmd len pl :=
      (List.cons.inj (List.append_inj' heq rfl).1).2
    rw [hin.crc, hcmd', hlen', hcover, hcrc]
  have hgood : (crc.extractLsb' 8 8 ++ u.rx.c0 : BitVec 16) = u.rx.crc ∧ true = true ∧
      u.rx.len.toNat ≤ 8192 := by
    refine ⟨?_, rfl, by rw [hlen', hn]; exact hshort⟩
    rw [hsum, hlow]
    exact Rtl.append_low_high crc
  have hfeed : feed s (frame 0xA5#8 cmd pl) = u.clock (arriving (crc.extractLsb' 8 8)) := by
    rw [hframe, feed_append, ht, ← hu]
    rfl
  have hfinal : (u.clock (arriving (crc.extractLsb' 8 8))).rx
      = { u.rx.quiet true with st := .sof, frameOk := true } := by
    rw [rx_arriving, Rtl.FrameRx.take, hst']
    exact if_pos hgood
  rw [hfeed]
  exact {
    ok := by rw [hfinal]
    st := by rw [hfinal]
    cmd := by rw [hfinal]; exact (Rtl.quiet_cmd _ _).trans hcmd'
    len := by rw [hfinal]; exact (Rtl.quiet_len _ _).trans hlen'
    we := by rw [hfinal]; exact Rtl.quiet_we _ _ }

theorem frame_inj {a b : BitVec 8} {p q : List (BitVec 8)} (hlen : p.length = q.length)
    (h : frame 0xA5#8 a p = frame 0xA5#8 b q) : p = q := by
  have hbody := (List.append_inj h (by simp [hlen])).1
  simp only [covered, List.cons.injEq] at hbody
  exact hbody.2.2.2.2

/-- What the receiver has when the bytes of a frame have come in, whatever the waits. -/
theorem receives_frame {s : RxPath} (h : Waiting s) (cmd : BitVec 8) {pl : List (BitVec 8)}
    (hshort : pl.length ≤ 8192) {as : List Arrival} (has : as.map Arrival.byte = frame 0xA5#8 cmd pl) :
    (run s (transmission as)).rx.frameOk = true ∧ (run s (transmission as)).rx.cmd = cmd ∧
      (run s (transmission as)).rx.len.toNat = pl.length ∧
      ∀ j (hj : j < pl.length), (run s (transmission as)).ram (BitVec.ofNat 13 j) = pl[j] := by
  have hsame := run_transmission ⟨rfl, rfl⟩ h.2 as
  rw [has] at hsame
  have hrep := feed_frame h cmd hshort
  have hn : (feed s (frame 0xA5#8 cmd pl)).rx.len.toNat = pl.length := by
    rw [hrep.len, BitVec.toNat_ofNat, Nat.mod_eq_of_lt (by omega)]
  have hfilled : ∀ t : RxPath, t.rx.we = false → t.filled = t.ram := by
    intro t ht
    simp [RxPath.filled, Rtl.FrameRx.port, ht, Rtl.Ram.write]
  have hram : (run s (transmission as)).ram = (feed s (frame 0xA5#8 cmd pl)).ram := by
    rw [← hfilled _ hrep.we, ← hsame.2, hfilled _ (by rw [hsame.1]; exact hrep.we)]
  rw [hram, hsame.1]
  refine ⟨hrep.ok, hrep.cmd, hn, ?_⟩
  obtain ⟨rest, hrest⟩ : ∃ rest, frame 0xA5#8 cmd pl = 0xA5#8 :: rest := ⟨_, rfl⟩
  have hall := receiving_feed (receiving_start h) rest
  have hfeed : feed (s.clock (arriving 0xA5#8)) rest = feed s (frame 0xA5#8 cmd pl) := by
    rw [hrest, feed_cons]
  rw [hfeed, List.singleton_append, ← hrest] at hall
  simp only [Rtl.Receiving, hrep.st] at hall
  obtain ⟨payload, hpl, hsuffix, hheld⟩ := hall hrep.ok
  rw [hn] at hpl
  have heq := hsuffix.eq_of_length (by rw [Rtl.frame_length, Rtl.frame_length, hpl])
  obtain rfl := frame_inj hpl heq
  exact hheld

/-! Sending a response. -/

/-- The accelerator has a response ready: status and length are at the inputs of the
transmitter, the payload is in its RAM, and the transport goes on. -/
structure Responding (status : UInt8) (body : Bytes) (s : Rtl.TxPath) (i : Nat → Rtl.TxIn) : Prop where
  fits : body.length ≤ 8192
  idle : s.tx.st = .idle
  req : (i 0).req = true
  status : (i 0).status = status.toBitVec
  len : (i 0).len = BitVec.ofNat 16 body.length
  ram : ∀ j (h : j < body.length), s.ram (BitVec.ofNat 13 j) = body[j].toBitVec
  fair : Rtl.Fair i

/-- What the transmitter sends is read as the status and the payload. -/
theorem Responding.read {s : Rtl.TxPath} {i : Nat → Rtl.TxIn} (h : Responding status body s i) :
    ∃ n, (after Rtl.TxPath.clock s i n).tx.st = .idle ∧ ∃ bytes,
      outputs Rtl.TxPath.clock Rtl.TxPath.sent s i n = wires bytes ∧
        replyOf bytes = .frame status body (frameCrc status body) := by
  have hram : ∀ j (hj : j < (wires body).length), s.ram (BitVec.ofNat 13 j) = (wires body)[j] := by
    intro j hj
    rw [wires_length] at hj
    exact (h.ram j hj).trans (wires_getElem body hj).symm
  obtain ⟨n, hidle, hsent⟩ := Rtl.transmits_frame h.idle h.req
    (show (i 0).len = Rtl.txLen (wires body) by rw [h.len, Rtl.txLen, wires_length]) (by rw [wires_length]; exact h.fits) hram h.fair
  have hfits := h.fits
  refine ⟨n, hidle, response status body, ?_, replyOf_response (by omega)⟩
  rw [hsent, h.status, wires_response]

/-- The caller of an exchange gets status and payload of an intact response. -/
theorem react_intact (B : Accel.Board) (cmd : UInt8) (pl : Bytes) {rspMax : Nat}
    (h : body.length ≤ rspMax) (l : Accel.Link) :
    ∃ l', Accel.react B cmd pl rspMax (.frame status body (frameCrc status body)) l
        = (⟨status == Accel.statusOk, body⟩, l') ∧ l'.last = status := by
  rw [Accel.react, if_neg (Nat.not_lt.mpr h), if_neg fun h => h rfl]
  exact ⟨_, rfl, rfl⟩

end GoiKey.FpgaLink

namespace GoiKey

open FpgaLink Clocked

namespace FpgaLink.Bench

/-- Two clocks go by before every byte. -/
def arrivals (b : Bytes) : List Arrival := (wires b).map fun x => ⟨[0, 0], x, by decide⟩

theorem arrivals_bytes (b : Bytes) : (arrivals b).map Arrival.byte = wires b := by
  rw [arrivals, List.map_map]
  exact List.map_id _

def resetTx : Rtl.FrameTx := ⟨.idle, 0, 0, 0, 0, 0, false, 0⟩

def answering : Rtl.TxPath := ⟨resetTx, fun _ => 0x55, 0⟩

/-- The transport takes every byte at once. -/
def taking (_ : Nat) : Rtl.TxIn := ⟨true, 0, 1, false, true⟩

end FpgaLink.Bench

end GoiKey
