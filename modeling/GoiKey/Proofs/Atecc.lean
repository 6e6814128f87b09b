import GoiKey.Model.Atecc

/-! What the chip answers to a command, and when runCommand takes it. -/

namespace GoiKey.Atecc

/-- Count byte, data and checksum. -/
def packetOf (data : Bytes) : Bytes :=
  let counted := UInt8.ofNat (data.length + 3) :: data
  counted ++ atcaCrc counted

/-- The response that the chip gives within so many reads: a byte, and of what is read
next as much as the byte announces. -/
def response : Nat → (Nat → Bytes) → Option Bytes
  | 0, _ => none
  | reads + 1, answers =>
    match answers 0 with
    | [] => response reads fun k => answers (k + 1)
    | count :: _ => some (count :: (answers 1).take (count.toNat - 1))

@[simp] theorem atcaCrc_length (data : Bytes) : (atcaCrc data).length = 2 := rfl

theorem packetOf_length (data : Bytes) : (packetOf data).length = data.length + 3 := by
  simp [packetOf]

theorem packet_eq (c : Command) : c.packet =
    packetOf (c.opcode :: c.param1 :: c.param2.toUInt8 :: (c.param2 >>> 8).toUInt8 :: c.data) := rfl

section Driver

variable {w : Wire} {n : Nat}

@[simp] theorem flushWireRx_rx : w.flushWireRx.rx = [] := rfl

@[simp] theorem flushWireRx_answers : w.flushWireRx.answers = w.answers := rfl

theorem reads_rx {came : Bytes} (h : w.rx = came) : (w.reads came.length).1 = came := by
  induction came generalizing w with
  | nil => rfl
  | cons b came ih =>
    have hread : w.read = (b, { w with rx := came }) := by
      unfold Wire.read
      rw [h]
    simp only [List.length_cons, Wire.reads, hread]
    rw [ih rfl]

theorem reads_answers (n : Nat) (w : Wire) : (w.reads n).2.answers = w.answers := by
  induction n generalizing w with
  | zero => rfl
  | succ n ih =>
    have hread : w.read.2.answers = w.answers := by
      unfold Wire.read
      split <;> rfl
    exact (ih w.read.2).trans hread

/-- Nothing read is left over between the polls. -/
theorem pollLen_cases (hrx : w.rx = []) :
    (response n w.answers = none ∧ (pollLen n w).1 = none) ∨
      ∃ count w', pollLen n w = (some count, w') ∧ w'.rx = [] ∧
        response n w.answers = some (count :: (w'.answers 0).take (count.toNat - 1)) := by
  induction n generalizing w with
  | zero => exact .inl ⟨rfl, rfl⟩
  | succ n ih =>
    cases ha : w.answers 0 with
    | nil =>
      have hmiss : pollLen (n + 1) w = pollLen n { w with answers := fun k => w.answers (k + 1) } := by
        simp [pollLen, Wire.requestFrom, ha, hrx]
      simp only [hmiss, response, ha]
      exact @ih { w with answers := fun k => w.answers (k + 1) } hrx
    | cons count sent =>
      refine .inr ⟨count, { w with answers := fun k => w.answers (k + 1) }, ?_, hrx, ?_⟩
      · simp [pollLen, Wire.requestFrom, Wire.read, ha, hrx]
      · rw [response, ha]

/-- The chip is awake when one of the reads brings its wake packet. -/
theorem wake_true (h : (wake n w).1 = true) : ∃ k, k < n ∧ (w.answers k).take 4 = packetOf [0x11] := by
  induction n generalizing w with
  | zero => cases h
  | succ n ih =>
    have later (v : Wire) (hv : v.answers = fun k => w.answers (k + 1)) (h : (wake n v).1 = true) :
        ∃ k, k < n + 1 ∧ (w.answers k).take 4 = packetOf [0x11] := by
      obtain ⟨k, hk, hsent⟩ := ih h
      rw [hv] at hsent
      exact ⟨k + 1, Nat.succ_lt_succ hk, hsent⟩
    set asked := (w.flushWireRx.requestFrom 4).2
    have hwake : wake (n + 1) w =
        if ((w.answers 0).take 4).length = 4 then
          if (asked.reads 4).1.take 2 = [0x04, 0x11] ∧
              atcaCrc ((asked.reads 4).1.take 2) = (asked.reads 4).1.drop 2 then (true, (asked.reads 4).2)
          else wake n (asked.reads 4).2
        else wake n asked := rfl
    rw [hwake] at h
    split at h
    next hgot =>
      have hreads : (asked.reads 4).1 = (w.answers 0).take 4 := by
        have hall : (asked.reads ((w.answers 0).take 4).length).1 = (w.answers 0).take 4 := reads_rx rfl
        rwa [hgot] at hall
      rw [hreads] at h
      split at h
      next hpacket =>
        refine ⟨0, Nat.succ_pos n, ?_⟩
        rw [← List.take_append_drop 2 ((w.answers 0).take 4), ← hpacket.2, hpacket.1]
        rfl
      · exact later (asked.reads 4).2 (reads_answers 4 asked) h
    · exact later asked rfl h

example : packetOf [0x11] = [0x04, 0x11, 0x33, 0x43] := by decide +kernel

end Driver

section Response

variable {respLen count : UInt8} {resp data : Bytes} {w : Wire}

theorem checkResponse_ok (hlen : 4 ≤ resp.length) : checkResponse respLen resp = .ok data ↔
    data.length = respLen.toNat ∧ ∃ count, resp = count :: (data ++ atcaCrc (count :: data)) := by
  have hsplit : resp = resp.take (resp.length - 2) ++ resp.drop (resp.length - 2) :=
    (List.take_append_drop _ _).symm
  constructor
  · intro h
    unfold checkResponse at h
    simp only at h
    split at h
    · cases h
    next hcrc =>
    split at h
    · cases h
    split at h
    · cases h
    next hshort =>
      cases h
      cases resp with
      | nil => simp at hlen
      | cons count came =>
        have hbody : (count :: came).take ((count :: came).length - 2) =
            count :: came.take (came.length - 2) := by
          rw [List.length_cons, show came.length + 1 - 2 = came.length - 2 + 1 by
            simp only [List.length_cons] at hlen; omega, List.take_succ_cons]
        rw [not_ne_iff] at hcrc hshort
        rw [hbody] at hcrc hsplit ⊢
        simp only [List.length_cons] at hlen hshort
        refine ⟨?_, count, ?_⟩
        · simp only [List.drop_succ_cons, List.drop_zero, List.length_take]
          omega
        · conv_lhs => rw [hsplit, ← hcrc]
          rfl
  · rintro ⟨hdata, count, rfl⟩
    have hfull : (count :: (data ++ atcaCrc (count :: data))).length - 2 = (count :: data).length := by
      simp
    unfold checkResponse
    simp only [hfull]
    rw [← List.cons_append, List.take_left, List.drop_left]
    have hone : ¬ ((count :: data ++ atcaCrc (count :: data)).length = 4 ∧ respLen ≠ 1) := by
      rintro ⟨hfour, hne⟩
      simp only [List.length_append, List.length_cons, atcaCrc_length] at hfour
      exact hne (UInt8.toNat_inj.mp (by rw [← hdata]; show data.length = 1; omega))
    have hlong : ¬ (count :: data ++ atcaCrc (count :: data)).length - 3 ≠ respLen.toNat := by
      simp only [List.length_append, List.length_cons, atcaCrc_length, ne_eq, not_not]
      omega
    rw [if_neg (fun h => h rfl), if_neg hone, if_neg hlong]
    rfl

/-- A body is taken if it makes a packet with its count byte. -/
theorem readResponse_ok (hrx : w.rx = []) : (readResponse respLen count w).1 = .ok data ↔
    count :: (w.answers 0).take (count.toNat - 1) = packetOf data ∧
      data.length = respLen.toNat ∧ data ≠ [] ∧ data.length + 3 ≤ respSize := by
  set came := (w.answers 0).take (count.toNat - 1) with hcame
  have hle : came.length ≤ count.toNat - 1 := List.length_take_le _ _
  have hcount : (4 : UInt8).toNat = 4 := rfl
  constructor
  · intro h
    unfold readResponse at h
    split at h
    · cases h
    next hfour =>
    split at h
    · cases h
    next hsize =>
    rw [UInt8.lt_iff_toNat_lt, hcount] at hfour
    simp only [Wire.requestFrom, ← hcame] at h
    split at h
    · cases h
    next hgot =>
      rw [not_ne_iff] at hgot
      have hreads : (Wire.reads (count.toNat - 1)
          { w with rx := w.rx ++ came, answers := fun k => w.answers (k + 1) }).1 = came := by
        rw [← hgot]
        exact reads_rx (by rw [hrx, List.nil_append])
      simp only [hreads] at h
      obtain ⟨hdata, first, hresp⟩ := (checkResponse_ok (by simp only [List.length_cons]; omega)).mp h
      obtain ⟨rfl, hrest⟩ := List.cons.inj hresp
      have hlength : data.length + 3 = count.toNat := by
        have := congrArg List.length hrest
        simp only [List.length_append, atcaCrc_length] at this
        omega
      refine ⟨?_, hdata, ?_, by omega⟩
      · rw [packetOf, hlength, UInt8.ofNat_toNat]
        exact hresp
      · rintro rfl
        simp only [List.length_nil] at hlength
        omega
  · rintro ⟨hpacket, hdata, hne, hsize⟩
    obtain ⟨hfirst, hrest⟩ := List.cons.inj hpacket
    have hpos : 0 < data.length := List.length_pos_iff.mpr hne
    have hnat : count.toNat = data.length + 3 := by
      rw [hfirst, UInt8.toNat_ofNat']
      unfold respSize at hsize
      omega
    have hgot : came.length = count.toNat - 1 := by
      rw [hrest, hnat]
      simp
    have hreads : (Wire.reads (count.toNat - 1)
        { w with rx := w.rx ++ came, answers := fun k => w.answers (k + 1) }).1 = came := by
      rw [← hgot]
      exact reads_rx (by rw [hrx, List.nil_append])
    unfold readResponse
    rw [if_neg (by rw [UInt8.lt_iff_toNat_lt, hcount]; omega), if_neg (by omega)]
    simp only [Wire.requestFrom, ← hcame, if_neg (not_not.mpr hgot), hreads]
    refine (checkResponse_ok ?_).mpr ⟨hdata, count, ?_⟩
    · rw [List.length_cons, hgot]
      omega
    · rw [hpacket, packetOf, ← hnat, UInt8.ofNat_toNat]
      rfl

end Response

variable {c : Command} {respOut : Bytes} {errStatus : UInt8} {w : Wire}

/-- The command can be sent, and an answer of the length that is asked for be read. -/
structure Command.Goes (c : Command) (w : Wire) : Prop where
  dataLen : c.data.length ≤ 32
  acks : w.acks = true
  respLen_pos : c.respLen ≠ 0
  respLen_le : c.respLen.toNat + 3 ≤ respSize

/-- The chip answers with a packet of so much data. -/
def Answered (c : Command) (w : Wire) (data : Bytes) : Prop :=
  response pollAttempts w.answers = some (packetOf data) ∧ data.length = c.respLen.toNat

theorem receive_cases (c : Command) (respOut : Bytes) (w : Wire) :
    let r := receive c respOut w
    (∃ data, Answered c w data ∧ data ≠ [] ∧ data.length + 3 ≤ respSize ∧
        r.ok = true ∧ r.respOut = data ++ respOut.drop data.length) ∨
      ((∀ data, Answered c w data → data ≠ [] → ¬ data.length + 3 ≤ respSize) ∧
        r.ok = false ∧ r.respOut = respOut) := by
  intro r
  have hr : r = receive c respOut w := rfl
  rw [hr, receive]
  rcases pollLen_cases (n := pollAttempts) (w := w.flushWireRx) rfl with
    ⟨hresp, hpoll⟩ | ⟨count, w', hpoll, hrx, hresp⟩
  · rcases hp : pollLen pollAttempts w.flushWireRx with ⟨_ | _, w'⟩
    · refine .inr ⟨?_, rfl, rfl⟩
      rintro data ⟨hdata, -⟩
      exact absurd (hdata.symm.trans hresp) (Option.some_ne_none _)
    · rw [hp] at hpoll
      cases hpoll
  · simp only [hpoll]
    rcases hread : readResponse c.respLen count w' with ⟨status | payload, w''⟩
    · refine .inr ⟨?_, rfl, rfl⟩
      rintro data ⟨hdata, hlength⟩ hne hsize
      have hok : (readResponse c.respLen count w').1 = .ok data :=
        (readResponse_ok hrx).mpr ⟨Option.some.inj (hresp.symm.trans hdata), hlength, hne, hsize⟩
      rw [hread] at hok
      cases hok
    · obtain ⟨hpacket, hlength, hne, hsize⟩ := (readResponse_ok hrx).mp (congrArg Prod.fst hread)
      exact .inl ⟨payload, ⟨hresp.trans (congrArg some hpacket), hlength⟩, hne, hsize, rfl, rfl⟩

/-- The wire with the command written. -/
def Command.sent (c : Command) (w : Wire) : Wire := (w.transmit (0x03 :: c.packet)).2

theorem runCommand_goes (hlen : c.data.length ≤ 32) (hacks : w.acks = true) :
    runCommand c respOut errStatus w = receive c respOut (c.sent w) := by
  unfold runCommand
  rw [if_neg (Nat.not_lt.mpr hlen)]
  exact if_neg (by simp [hacks])

theorem runCommand_stays (h : ¬ (c.data.length ≤ 32 ∧ w.acks = true)) :
    (runCommand c respOut errStatus w).ok = false ∧
      (runCommand c respOut errStatus w).respOut = respOut := by
  unfold runCommand
  split
  · exact ⟨rfl, rfl⟩
  next hlen =>
    have hacks : w.acks = false := by
      cases ha : w.acks with
      | false => rfl
      | true => exact absurd ⟨Nat.not_lt.mp hlen, ha⟩ h
    simp only [Wire.transmit, hacks, Bool.not_false, if_true]
    exact ⟨trivial, trivial⟩

/-- A packet of the length asked for is copied to the caller, and anything else leaves
the buffer as it was. -/
theorem runCommand_takes (c : Command) (respOut : Bytes) (errStatus : UInt8) (w : Wire) :
    let r := runCommand c respOut errStatus w
    (c.Goes w ∧ ∃ data, Answered c w data ∧
        r.ok = true ∧ r.respOut = data ++ respOut.drop data.length) ∨
      (¬ (c.Goes w ∧ ∃ data, Answered c w data) ∧ r.ok = false ∧ r.respOut = respOut) := by
  intro r
  by_cases hgo : c.data.length ≤ 32 ∧ w.acks = true
  swap
  · exact .inr ⟨fun h => hgo ⟨h.1.dataLen, h.1.acks⟩, runCommand_stays hgo⟩
  have hr : r = receive c respOut (c.sent w) := runCommand_goes hgo.1 hgo.2
  rw [hr]
  rcases receive_cases c respOut (c.sent w) with
    ⟨data, hdata, hne, hsize, hok, hout⟩ | ⟨hnone, hok, hout⟩
  · refine .inl ⟨⟨hgo.1, hgo.2, ?_, ?_⟩, data, ⟨hdata.1, hdata.2⟩, hok, hout⟩
    · intro h
      have hlength := hdata.2
      rw [h] at hlength
      exact hne (List.eq_nil_of_length_eq_zero hlength)
    · rw [← hdata.2]
      exact hsize
  · refine .inr ⟨?_, hok, hout⟩
    rintro ⟨hgoes, data, hdata⟩
    refine hnone data ⟨hdata.1, hdata.2⟩ ?_ ?_
    · rintro rfl
      exact hgoes.respLen_pos (UInt8.toNat_inj.mp hdata.2.symm)
    · rw [hdata.2]
      exact hgoes.respLen_le

end GoiKey.Atecc
