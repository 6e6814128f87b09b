import GoiKey.Proofs.HidBuffers
import Mathlib.Data.List.Infix

/-!
What the processor is given: messages put together from the packets of one
channel, and the packets of a response put together again.
-/

namespace GoiKey.Hid

variable {s s' : Receiver} {w : Surroundings} {buffer b : Bytes} {m : Message} {past : History}

/-- A packet of a channel. A CANCEL is a command of its own and no part of a message. -/
def Event.packet (channel : Channel) : Event → Option Bytes
  | .output buffer =>
    if 7 ≤ buffer.length && packetChannel buffer == channel && packetByte buffer != ctaphidCancel
    then some buffer else none
  | _ => none

/-- The packets of a channel so far, in order. -/
def channelPackets (channel : Channel) : History → List Bytes
  | [] => []
  | e :: past => channelPackets channel past ++ (e.input.event.packet channel).toList

def sequenceNumbers (n : Nat) : List UInt8 := (List.range n).map UInt8.ofNat

/-- The data fields of an initialization packet and its continuation packets. -/
def payload (first : Bytes) (rest : List Bytes) : Bytes :=
  slice 7 57 first ++ rest.flatMap (slice 5 59)

/-- An initialization packet and the continuation packets SEQ 0, 1, 2, ... that
its byte count calls for, and the message cut from their data fields. -/
def Carries : List Bytes → Message → Prop
  | [], _ => False
  | first :: rest, m =>
    isInitialization first = true ∧ packetByte first = m.cmd ∧ declaredLen first = m.data.length ∧
      rest.length = (m.data.length - 57 + 58) / 59 ∧
      (∀ p ∈ rest, isInitialization p = false) ∧
      rest.map packetByte = sequenceNumbers rest.length ∧
      m.data = (payload first rest).take m.data.length

instance (ps : List Bytes) (m : Message) : Decidable (Carries ps m) :=
  match ps with
  | [] => .isFalse id
  | _ :: _ => inferInstanceAs (Decidable (_ ∧ _))

/-- The packets of the message's channel that follow one another carry it. -/
def Carried (ps : List Bytes) (m : Message) : Prop := ∃ qs, qs <:+: ps ∧ Carries qs m

theorem carried_iff {ps : List Bytes} :
    Carried ps m ↔ ∃ qs ∈ ps.tails.flatMap List.inits, Carries qs m := by
  simp only [Carried, List.infix_iff_prefix_suffix, List.mem_flatMap, List.mem_tails, List.mem_inits]
  exact exists_congr fun qs => and_congr_left' (exists_congr fun t => and_comm)

instance (ps : List Bytes) (m : Message) : Decidable (Carried ps m) :=
  decidable_of_iff _ carried_iff.symm

/-- Every message handed on, other than a CANCEL, is one that its channel's
packets carried. -/
def HandedExactly (past : History) (e : Entry) : Prop :=
  ∀ m, .handed m ∈ e.output → m.cmd ≠ ctaphidCancel → Carried (channelPackets m.channel past) m

def Act.message : Act → Option Message
  | .handed m => some m
  | _ => none

theorem mem_handed {acts : List Act} : .handed m ∈ acts ↔ m ∈ acts.filterMap Act.message := by
  rw [List.mem_filterMap]
  constructor
  · exact fun h => ⟨_, h, rfl⟩
  · rintro ⟨a, ha, hm⟩
    cases a with
    | handed m' =>
      cases hm
      exact ha
    | sent m' => cases hm
    | fault => cases hm

instance (past : History) (e : Entry) : Decidable (HandedExactly past e) :=
  decidable_of_iff
    (∀ m ∈ e.output.filterMap Act.message,
      m.cmd ≠ ctaphidCancel → Carried (channelPackets m.channel past) m)
    (forall_congr' fun _ => imp_congr_left mem_handed.symm)

/-- An initialization packet, not a CANCEL, on the channel whose message is in
assembly, while a command waits in the pending slot. -/
def Receiver.disturbed (s : Receiver) (now : UInt32) (buffer : Bytes) : Bool :=
  7 ≤ buffer.length && isInitialization buffer && packetByte buffer != ctaphidCancel &&
    s.hasPendingCommand && packetChannel buffer == s.ctapCurrentChannel &&
    0 < (s.expire now).ctapExpectedLen

/-- The condition of a step: no such packet. -/
def Undisturbed (_ : History) (s : State) (i : Input) : Prop :=
  match i.event with
  | .output buffer => s.receiver.disturbed i.surroundings.millis buffer = false
  | _ => True

instance (past : History) (s : State) (i : Input) : Decidable (Undisturbed past s i) :=
  match i with
  | ⟨.output buffer, w⟩ => inferInstanceAs (Decidable (s.receiver.disturbed w.millis buffer = false))
  | ⟨.poll, _⟩ => .isTrue trivial
  | ⟨.awaitFinger _, _⟩ => .isTrue trivial

/-- The message in the pending slot. -/
def Receiver.pendingMessage (s : Receiver) : Option Message :=
  if s.hasPendingCommand then
    some ⟨s.pendingChannel, s.pendingCmd, (s.pendingData.getD []).take s.pendingLen⟩
  else none

/-! The message in assembly. -/

/-- The packets so far of the message in assembly, the last of its channel, and
what they have left in the buffer: each was filled to the end. -/
structure Begun (ps : List Bytes) (s : Receiver) (first : Bytes) (rest : List Bytes) : Prop where
  last : first :: rest <:+ ps
  initial : isInitialization first = true
  cmd : packetByte first = s.ctapCurrentCmd
  notCancel : s.ctapCurrentCmd ≠ ctaphidCancel
  declared : declaredLen first = s.ctapExpectedLen
  continuations : ∀ p ∈ rest, isInitialization p = false
  sequence : rest.map packetByte = sequenceNumbers rest.length
  next : s.ctapExpectedSeq = UInt8.ofNat rest.length
  received : s.ctapReceivedLen = 57 + 59 * rest.length
  stored : ∃ b, s.ctapBuffer = some b ∧ s.ctapReceivedLen ≤ b.length ∧
    b.take s.ctapReceivedLen = payload first rest

/-- A receiver with nothing in assembly or a message begun. -/
structure Assembling (ps : Channel → List Bytes) (s : Receiver) : Prop where
  received : s.ctapReceivedLen ≤ s.ctapBufferCapacity
  bounded : s.ctapExpectedLen ≤ 7609
  begun : 0 < s.ctapExpectedLen → s.ctapReceivedLen < s.ctapExpectedLen ∧
    (s.ctapBuffer = none ∨ ∃ first rest, Begun (ps s.ctapCurrentChannel) s first rest)

/-- The pending slot holds a CANCEL or a message that its packets carried, and
then nothing is in assembly. -/
def Held (ps : Channel → List Bytes) (s : Receiver) : Prop :=
  s.hasPendingCommand = true → s.pendingCmd ≠ ctaphidCancel →
    s.ctapExpectedLen = 0 ∧ 0 < s.pendingLen ∧
      ∃ b, s.pendingData = some b ∧ s.pendingLen ≤ b.length ∧
        Carried (ps s.pendingChannel) ⟨s.pendingChannel, s.pendingCmd, b.take s.pendingLen⟩

/-- The buffer of a message that its packets have completed. -/
structure Completed (ps : List Bytes) (s : Receiver) : Prop where
  complete : s.complete = true
  capacity : s.ctapReceivedLen ≤ s.ctapBufferCapacity
  carried : ∃ b, s.ctapBuffer = some b ∧ s.ctapExpectedLen ≤ b.length ∧
    Carried ps ⟨s.ctapCurrentChannel, s.ctapCurrentCmd, b.take s.ctapExpectedLen⟩
  notCancel : s.ctapCurrentCmd ≠ ctaphidCancel

/-- No message waits in the pending slot. -/
def Receiver.Free (s : Receiver) : Prop := s.hasPendingCommand = true → s.pendingCmd = ctaphidCancel

/-- What a packet of the channel leaves, up to the hand-over. -/
inductive Progress.Keeps (ps : Channel → List Bytes) (channel : Channel) : Progress → Prop where
  | returned {acts : List Act} {s : Receiver} (assembling : Assembling ps s) (held : Held ps s) :
    Progress.Keeps ps channel (.returned acts s)
  | fault : Progress.Keeps ps channel .fault
  | taken {s : Receiver} (assembling : s.complete = false → Assembling ps s)
    (completed : s.complete = true → Completed (ps channel) s)
    (same : s.ctapCurrentChannel = channel) (free : s.Free) : Progress.Keeps ps channel (.taken s)

/-! Pieces of packets and buffers. -/

theorem slice_length {start len : Nat} (h : start + len ≤ b.length) :
    (slice start len b).length = len := by
  rw [slice, List.length_take, List.length_drop]
  omega

theorem take_slice {start n len : Nat} (h : n ≤ len) : (slice start len b).take n = slice start n b := by
  rw [slice, slice, List.take_take, Nat.min_eq_left h]

/-- A copy that goes through is in the buffer behind what stood before it. -/
theorem copyInto_some {dst dst' : Option Bytes} {offset : Nat} {src : Bytes} (hne : src ≠ [])
    (h : copyInto dst offset src = some dst') :
    ∃ b b', dst = some b ∧ dst' = some b' ∧ offset + src.length ≤ b'.length ∧
      b'.take (offset + src.length) = b.take offset ++ src := by
  unfold copyInto at h
  rw [if_neg hne] at h
  cases dst with
  | none => cases h
  | some b =>
    simp only at h
    split at h
    next hin =>
      cases h
      have hlen : (b.take offset ++ src).length = offset + src.length := by
        rw [List.length_append, List.length_take]
        omega
      refine ⟨b, _, rfl, rfl, ?_, ?_⟩
      · rw [List.length_append, hlen]
        omega
      · rw [← hlen, List.take_left]
    next => cases h

@[simp] theorem sequenceNumbers_succ (n : Nat) :
    sequenceNumbers (n + 1) = sequenceNumbers n ++ [UInt8.ofNat n] := by
  simp [sequenceNumbers, List.range_succ]

theorem payload_append (first : Bytes) (rest : List Bytes) (p : Bytes) :
    payload first (rest ++ [p]) = payload first rest ++ slice 5 59 p := by
  simp [payload]

/-! How the packets of the channels grow. -/

/-- The packets of the channels with one more report. -/
def received (ps : Channel → List Bytes) (buffer : Bytes) (channel : Channel) : List Bytes :=
  ps channel ++ ((Event.output buffer).packet channel).toList

variable {ps ps' : Channel → List Bytes}

theorem Carried.mono {qs rs : List Bytes} (h : Carried qs m) (hp : qs <+: rs) : Carried rs m := by
  obtain ⟨c, hc, hm⟩ := h
  exact ⟨c, hc.trans hp.isInfix, hm⟩

theorem Held.mono (h : Held ps s) (hp : ∀ channel, ps channel <+: ps' channel) : Held ps' s := by
  intro hpending hcmd
  obtain ⟨he, hl, b, hb, hlen, hc⟩ := h hpending hcmd
  exact ⟨he, hl, b, hb, hlen, hc.mono (hp _)⟩

theorem prefix_received (channel : Channel) : ps channel <+: received ps buffer channel :=
  List.prefix_append _ _

theorem received_of_packet (hlen : 7 ≤ buffer.length) (hc : packetByte buffer ≠ ctaphidCancel) :
    received ps buffer (packetChannel buffer) = ps (packetChannel buffer) ++ [buffer] := by
  simp [received, Event.packet, hlen, hc]

theorem received_of_other {channel : Channel} (h : packetChannel buffer ≠ channel) :
    received ps buffer channel = ps channel := by
  simp [received, Event.packet, h]

theorem received_of_cancel {channel : Channel} (h : packetByte buffer = ctaphidCancel) :
    received ps buffer channel = ps channel := by
  simp [received, Event.packet, h]

theorem Assembling.congr (h : Assembling ps s)
    (hp : 0 < s.ctapExpectedLen → ps' s.ctapCurrentChannel = ps s.ctapCurrentChannel) :
    Assembling ps' s where
  received := h.received
  bounded := h.bounded
  begun he := by
    obtain ⟨hr, hb⟩ := h.begun he
    rw [hp he]
    exact ⟨hr, hb⟩

theorem assembling_idle (s : Receiver) : Assembling ps s.idle :=
  ⟨Nat.zero_le _, Nat.zero_le _, fun h => absurd h (Nat.lt_irrefl 0)⟩

/-! The two kinds of packets. -/

theorem slice_ne_nil {start len : Nat} (h : start + len ≤ b.length) (hpos : 0 < len) :
    slice start len b ≠ [] :=
  List.ne_nil_of_length_pos (by rw [slice_length h]; exact hpos)

theorem Opening.free_of (h : Opening s buffer) : s.Free := by
  intro hp
  rw [h.free] at hp
  cases hp

theorem Receiver.Free.held (h : s.Free) : Held ps s := fun hp hc => absurd (h hp) hc

/-- An accepted initialization packet starts its message, and may be all of it. -/
theorem started_keeps {memory dst : Option Bytes} {capacity : Nat} (ho : Opening s buffer)
    (length : declaredLen buffer ≤ 7609) (hg : Grown s w (declaredLen buffer) memory capacity)
    (whole : 7 + openingChunk buffer ≤ buffer.length)
    (copied : copyInto memory 0 (slice 7 (openingChunk buffer) buffer) = some dst)
    (hlast : [buffer] <:+ ps (packetChannel buffer)) :
    Progress.Keeps ps (packetChannel buffer) (.taken { s.opened buffer with
      ctapBuffer := dst
      ctapBufferCapacity := capacity
      ctapReceivedLen := openingChunk buffer
      ctapExpectedSeq := 0
      lastPacketTime := w.millis }) := by
  have hroom := hg.room
  have hchunk : openingChunk buffer ≤ declaredLen buffer := Nat.min_le_right _ _
  have hreceived : openingChunk buffer ≤ capacity := Nat.le_trans hchunk hroom
  have hfree : s.Free := ho.free_of
  by_cases hzero : declaredLen buffer = 0
  · refine .taken (fun _ => ⟨hreceived, length, fun hpos => ?_⟩) (fun hcomplete => ?_) rfl hfree
    · exact absurd hzero (Nat.pos_iff_ne_zero.mp hpos)
    · simp [Receiver.complete, Receiver.opened, hzero] at hcomplete
  have hpos : 0 < openingChunk buffer := by
    unfold openingChunk
    omega
  obtain ⟨b, b', -, rfl, hin, htake⟩ := copyInto_some (slice_ne_nil whole hpos) copied
  rw [slice_length whole, Nat.zero_add] at hin htake
  rw [List.take_zero, List.nil_append] at htake
  refine .taken (fun hcomplete => ⟨hreceived, length, fun _ => ?_⟩) (fun hcomplete => ?_) rfl hfree
  · -- more packets have to come, so this one was full
    have hmore : openingChunk buffer < declaredLen buffer := by
      change (decide (0 < declaredLen buffer) && decide (declaredLen buffer ≤ openingChunk buffer))
        = false at hcomplete
      simp only [Bool.and_eq_false_iff, decide_eq_false_iff_not] at hcomplete
      omega
    have hfull : openingChunk buffer = 57 := by
      unfold openingChunk at hmore ⊢
      omega
    refine ⟨hmore, .inr ⟨buffer, [], ?_⟩⟩
    exact {
      last := hlast
      initial := ho.initial
      cmd := rfl
      notCancel := ho.notCancel
      declared := rfl
      continuations := fun _ hp => absurd hp List.not_mem_nil
      sequence := rfl
      next := rfl
      received := hfull
      stored := ⟨b', rfl, hin, by rw [htake, hfull]; simp [payload]⟩ }
  · have hall : openingChunk buffer = declaredLen buffer := by
      change (decide (0 < declaredLen buffer) && decide (declaredLen buffer ≤ openingChunk buffer))
        = true at hcomplete
      simp only [Bool.and_eq_true, decide_eq_true_eq] at hcomplete
      omega
    have hshort : declaredLen buffer ≤ 57 := by
      unfold openingChunk at hall
      omega
    rw [hall] at hin htake whole
    have hdata : (slice 7 (declaredLen buffer) buffer).length = declaredLen buffer :=
      slice_length whole
    refine ⟨hcomplete, hreceived, ⟨b', rfl, hin, [buffer], hlast.isInfix, ?_⟩, ho.notCancel⟩
    change Carries [buffer] ⟨packetChannel buffer, packetByte buffer, b'.take (declaredLen buffer)⟩
    rw [htake]
    refine ⟨ho.initial, rfl, hdata.symm, ?_, fun _ hp => absurd hp List.not_mem_nil, rfl, ?_⟩
    · rw [hdata]
      change 0 = _
      omega
    · rw [hdata, payload, List.flatMap_nil, List.append_nil, take_slice hshort]

/-- A continuation packet in sequence brings the next bytes, perhaps the last. -/
theorem continued_keeps {dst : Option Bytes} {qs : List Bytes} (ha : Assembling ps s)
    (hfree : s.Free) (hf : Fitting s buffer)
    (copied : copyInto s.ctapBuffer s.ctapReceivedLen (slice 5 s.chunk buffer) = some dst)
    (hqs : ps s.ctapCurrentChannel = qs) (hps' : ps' s.ctapCurrentChannel = qs ++ [buffer]) :
    Progress.Keeps ps' s.ctapCurrentChannel (.taken { s with
      ctapExpectedSeq := s.ctapExpectedSeq + 1
      ctapBuffer := dst
      ctapReceivedLen := s.ctapReceivedLen + s.chunk
      lastPacketTime := w.millis }) := by
  obtain ⟨hlt, hbuffer⟩ := ha.begun (Nat.pos_of_ne_zero hf.begun)
  have hchunk := chunk_eq hlt.le
  have hroom := hf.room
  obtain ⟨b, b', hb, rfl, hin, htake⟩ := copyInto_some (slice_ne_nil hf.whole (by omega)) copied
  rw [slice_length hf.whole] at hin htake
  rcases hbuffer with hnull | ⟨first, rest, hbegun⟩
  · rw [hnull] at hb
    cases hb
  obtain ⟨b₀, hb₀, hlen, hstored⟩ := hbegun.stored
  rw [hb, Option.some.injEq] at hb₀
  subst hb₀
  rw [hstored] at htake
  have hlast : first :: (rest ++ [buffer]) <:+ ps' s.ctapCurrentChannel := by
    rw [hps', ← hqs]
    obtain ⟨before, hbefore⟩ := hbegun.last
    exact ⟨before, by rw [← hbefore]; simp⟩
  have hcontinuations : ∀ p ∈ rest ++ [buffer], isInitialization p = false := by
    intro p hp
    rcases List.mem_append.mp hp with hp | hp
    · exact hbegun.continuations p hp
    · rw [List.mem_singleton.mp hp]
      exact hf.continuation
  have hsequence : (rest ++ [buffer]).map packetByte = sequenceNumbers (rest ++ [buffer]).length := by
    rw [List.map_append, hbegun.sequence, List.length_append, List.length_singleton,
      sequenceNumbers_succ, List.map_singleton, hf.sequence, hbegun.next]
  have hreceived := hbegun.received
  refine .taken (fun hcomplete => ⟨hroom, ha.bounded, fun _ => ?_⟩) (fun hcomplete => ?_) rfl hfree
  · have hmore : s.ctapReceivedLen + s.chunk < s.ctapExpectedLen := by
      change (decide (0 < s.ctapExpectedLen) &&
        decide (s.ctapExpectedLen ≤ s.ctapReceivedLen + s.chunk)) = false at hcomplete
      simp only [Bool.and_eq_false_iff, decide_eq_false_iff_not] at hcomplete
      omega
    have hfull : s.chunk = 59 := by omega
    refine ⟨hmore, .inr ⟨first, rest ++ [buffer], ?_⟩⟩
    exact {
      last := hlast
      initial := hbegun.initial
      cmd := hbegun.cmd
      notCancel := hbegun.notCancel
      declared := hbegun.declared
      continuations := hcontinuations
      sequence := hsequence
      next := by
        change s.ctapExpectedSeq + 1 = _
        rw [hbegun.next, List.length_append, List.length_singleton, UInt8.ofNat_add]
        rfl
      received := by
        change s.ctapReceivedLen + s.chunk = _
        rw [List.length_append, List.length_singleton]
        omega
      stored := ⟨b', rfl, hin, by rw [htake, hfull, payload_append]⟩ }
  · have hall : s.ctapReceivedLen + s.chunk = s.ctapExpectedLen := by
      change (decide (0 < s.ctapExpectedLen) &&
        decide (s.ctapExpectedLen ≤ s.ctapReceivedLen + s.chunk)) = true at hcomplete
      simp only [Bool.and_eq_true, decide_eq_true_eq] at hcomplete
      omega
    have hchunk59 : s.chunk ≤ 59 := by omega
    rw [hall] at hin htake
    have hwhole : (payload first rest ++ slice 5 s.chunk buffer).length = s.ctapExpectedLen := by
      rw [← htake, List.length_take]
      omega
    have hbefore : (payload first rest).length = s.ctapReceivedLen := by
      rw [← hstored, List.length_take]
      omega
    refine ⟨hcomplete, hroom, ⟨b', rfl, hin, first :: (rest ++ [buffer]), hlast.isInfix, ?_⟩,
      hbegun.notCancel⟩
    change Carries _ ⟨s.ctapCurrentChannel, s.ctapCurrentCmd, b'.take s.ctapExpectedLen⟩
    rw [htake]
    refine ⟨hbegun.initial, hbegun.cmd, ?_, ?_, hcontinuations, hsequence, ?_⟩
    · rw [hwhole]
      exact hbegun.declared
    · rw [hwhole, List.length_append, List.length_singleton]
      omega
    · have hrest : s.ctapExpectedLen - s.ctapReceivedLen = s.chunk := by omega
      rw [hwhole, payload_append, List.take_append, hbefore, hrest,
        List.take_of_length_le (by omega), take_slice hchunk59]

/-- What a packet leaves, when it does not disturb the message in assembly. -/
theorem onPacket_keeps (ha : Assembling ps s) (hh : Held ps s) (hlen : 7 ≤ buffer.length)
    (hu : isInitialization buffer = true → packetByte buffer ≠ ctaphidCancel →
      s.hasPendingCommand = true → packetChannel buffer = s.ctapCurrentChannel →
      s.ctapExpectedLen = 0) :
    (s.onPacket w buffer).Keeps (received ps buffer) (packetChannel buffer) := by
  have hheld : Held (received ps buffer) s := hh.mono prefix_received
  -- a packet that leaves the assembly alone is of another channel or finds nothing in it
  have passed : (packetChannel buffer = s.ctapCurrentChannel → s.ctapExpectedLen = 0) →
      Assembling (received ps buffer) s := by
    intro hother
    refine ha.congr fun hpos => received_of_other fun he => ?_
    exact absurd (hother he) (Nat.pos_iff_ne_zero.mp hpos)
  have dropped : ∀ s' : Receiver, s'.Free → Held (received ps buffer) s' := fun s' hf => hf.held
  have hfree : 0 < s.ctapExpectedLen → s.Free := by
    intro hpos hp
    by_contra hc
    exact absurd (hh hp hc).1 (Nat.pos_iff_ne_zero.mp hpos)
  have hcases : OnPacket s w buffer (s.onPacket w buffer) := onPacket_cases
  generalize s.onPacket w buffer = p at hcases
  cases hcases with
  | cancel initial cancel =>
    refine .returned ⟨ha.received, ha.bounded, ?_⟩ (fun _ hc => absurd rfl hc)
    have hsame : Assembling (received ps buffer) s := ha.congr fun _ => received_of_cancel cancel
    intro hpos
    obtain ⟨hlt, hbuffer⟩ := hsame.begun hpos
    refine ⟨hlt, hbuffer.imp id ?_⟩
    rintro ⟨first, rest, hb⟩
    exact ⟨first, rest, { hb with }⟩
  | ignored initial notCancel pending channel =>
    exact .returned (passed (hu initial notCancel pending)) hheld
  | busy initial notCancel pending channel =>
    exact .returned (passed (hu initial notCancel pending)) hheld
  | tooLong opening long =>
    exact .returned (assembling_idle _) (dropped _ opening.free_of)
  | noMemory opening length small refused =>
    refine .returned ⟨ha.received, length, fun _ => ⟨?_, .inl rfl⟩⟩ (dropped _ opening.free_of)
    exact Nat.lt_of_le_of_lt ha.received small
  | cutShort opening length hg short =>
    exact .returned (assembling_idle _) (dropped _ opening.free_of)
  | startFault opening length hg whole copied => exact .fault
  | started opening length hg whole copied =>
    refine started_keeps opening length hg whole copied ?_
    rw [received_of_packet hlen opening.notCancel]
    exact List.suffix_append _ _
  | stray continuation other =>
    refine .returned (passed fun he => other.resolve_right (not_not.mpr he)) hheld
  | outOfSequence continuation begun channel sequence =>
    exact .returned (assembling_idle _) (dropped _ (hfree (Nat.pos_of_ne_zero begun)))
  | noRoom continuing full =>
    exact .returned (assembling_idle _) (dropped _ (hfree (Nat.pos_of_ne_zero continuing.begun)))
  | cutOff continuing short =>
    exact .returned (assembling_idle _) (dropped _ (hfree (Nat.pos_of_ne_zero continuing.begun)))
  | continueFault fitting copied => exact .fault
  | continued fitting copied =>
    rw [fitting.channel]
    refine continued_keeps ha (hfree (Nat.pos_of_ne_zero fitting.begun)) fitting copied rfl ?_
    rw [← fitting.channel, received_of_packet hlen]
    rintro hc
    have hi := fitting.continuation
    simp [isInitialization, hc, ctaphidCancel] at hi

theorem copyFrom_some {src : Option Bytes} {n : Nat} (hn : 0 < n) (h : copyFrom src n = some b) :
    ∃ c, src = some c ∧ n ≤ c.length ∧ b = c.take n := by
  unfold copyFrom at h
  rw [if_neg (Nat.pos_iff_ne_zero.mp hn)] at h
  cases src with
  | none => cases h
  | some c =>
    simp only at h
    split at h
    next hle =>
      cases h
      exact ⟨c, rfl, hle, rfl⟩
    next => cases h

/-- With memory for it, a completed message becomes the pending one. -/
theorem handOver_message (h : s.Sound) (hc : s.complete = true)
    (hw : s.pendingDataCapacity < s.ctapExpectedLen → w.pendingAllocates = true)
    (hb : s.ctapBuffer = some b) (hlen : s.ctapExpectedLen ≤ b.length) (channel : Channel) :
    ∃ s', s.handOver w channel = some s' ∧ s'.Sound ∧ s'.ctapExpectedLen = 0 ∧
      s'.pendingMessage = some ⟨channel, s.ctapCurrentCmd, b.take s.ctapExpectedLen⟩ := by
  obtain ⟨s', hs, hsound⟩ := handOver_sound (w := w) h channel
  refine ⟨s', hs, hsound.mpr fun _ => hw, ?_⟩
  have hpos : 0 < s.ctapExpectedLen := by
    simp only [Receiver.complete, Bool.and_eq_true, decide_eq_true_eq] at hc
    exact hc.1
  unfold Receiver.handOver at hs
  rw [if_pos hc] at hs
  have hgrown : (s.growPending w).ctapBuffer = some b ∧
      (s.growPending w).ctapExpectedLen = s.ctapExpectedLen ∧
      (s.growPending w).ctapCurrentCmd = s.ctapCurrentCmd ∧
      (s.growPending w).pendingData.isSome = true := by
    unfold Receiver.growPending
    split
    next hsmall => exact ⟨hb, rfl, rfl, by simp [malloc, hw hsmall]⟩
    next hroom =>
      obtain ⟨p, hp, -⟩ := h.pending (by omega)
      exact ⟨hb, rfl, rfl, by rw [hp]; rfl⟩
  generalize s.growPending w = g at hs hgrown
  obtain ⟨hbuffer, hexpected, hcmd, hpending⟩ := hgrown
  have hfrom : copyFrom g.ctapBuffer g.ctapExpectedLen = some (b.take s.ctapExpectedLen) := by
    rw [hbuffer, hexpected, copyFrom, if_neg (Nat.pos_iff_ne_zero.mp hpos)]
    exact if_pos hlen
  have hmlen : (b.take s.ctapExpectedLen).length = s.ctapExpectedLen := by
    rw [List.length_take]
    omega
  obtain ⟨p, hp⟩ := Option.isSome_iff_exists.mp hpending
  simp only [hp, hfrom, Option.bind_eq_bind, Option.bind_some] at hs
  cases hinto : copyInto (some p) 0 (b.take s.ctapExpectedLen) with
  | none =>
    rw [hinto] at hs
    cases hs
  | some dst =>
    obtain ⟨_, b', -, rfl, -, htake⟩ :=
      copyInto_some (List.ne_nil_of_length_pos (by rw [hmlen]; exact hpos)) hinto
    rw [hinto] at hs
    cases hs
    rw [hmlen, Nat.zero_add, List.take_zero, List.nil_append] at htake
    exact ⟨rfl, by simp [Receiver.pendingMessage, hcmd, hexpected, htake]⟩

/-- A completed message goes to the pending slot, or is dropped for want of memory. -/
theorem handOver_keeps {channel : Channel} (hk : Progress.Keeps ps channel (.taken s))
    (hs : s.handOver w channel = some s') : Assembling ps s' ∧ Held ps s' := by
  cases hk with
  | taken assembling completed same free =>
    unfold Receiver.handOver at hs
    cases hc : s.complete with
    | false =>
      rw [hc, if_neg Bool.false_ne_true, Option.some.injEq] at hs
      subst hs
      exact ⟨assembling hc, free.held⟩
    | true =>
      have hcompleted := completed hc
      have hpos : 0 < s.ctapExpectedLen := by
        simp only [Receiver.complete, Bool.and_eq_true, decide_eq_true_eq] at hc
        exact hc.1
      obtain ⟨message, hmessage, hlong, hcarried⟩ := hcompleted.carried
      rw [hc, if_pos rfl] at hs
      have hgrown : (s.growPending w).Free ∧ (s.growPending w).ctapBuffer = s.ctapBuffer ∧
          (s.growPending w).ctapExpectedLen = s.ctapExpectedLen ∧
          (s.growPending w).ctapCurrentCmd = s.ctapCurrentCmd := by
        unfold Receiver.growPending
        split
        · exact ⟨free, rfl, rfl, rfl⟩
        · exact ⟨free, rfl, rfl, rfl⟩
      generalize s.growPending w = g at hs hgrown
      obtain ⟨hfree, hbuffer, hlen, hcmd⟩ := hgrown
      simp only at hs
      split at hs
      · cases hs
        exact ⟨assembling_idle _, Receiver.Free.held hfree⟩
      · have hfrom : copyFrom g.ctapBuffer g.ctapExpectedLen
            = some (message.take s.ctapExpectedLen) := by
          rw [hbuffer, hlen, hmessage, copyFrom, if_neg (Nat.pos_iff_ne_zero.mp hpos)]
          exact if_pos hlong
        rw [hfrom] at hs
        simp only [Option.bind_eq_bind, Option.bind_some] at hs
        cases hinto : copyInto g.pendingData 0 (message.take s.ctapExpectedLen) with
        | none =>
          rw [hinto] at hs
          cases hs
        | some dst =>
          rw [hinto] at hs
          cases hs
          have hmlen : (message.take s.ctapExpectedLen).length = s.ctapExpectedLen := by
            rw [List.length_take]
            omega
          obtain ⟨b, b', -, rfl, hin, htake⟩ :=
            copyInto_some (List.ne_nil_of_length_pos (by rw [hmlen]; exact hpos)) hinto
          rw [hmlen, Nat.zero_add] at hin htake
          rw [List.take_zero, List.nil_append] at htake
          refine ⟨⟨Nat.zero_le _, Nat.zero_le _, fun h => absurd h (Nat.lt_irrefl 0)⟩, ?_⟩
          intro _ _
          refine ⟨rfl, ?_, b', rfl, ?_, ?_⟩
          · rw [hlen]
            exact hpos
          · rw [hlen]
            exact hin
          · subst same
            rw [hlen, htake, hcmd]
            exact hcarried

theorem Assembling.expire (h : Assembling ps s) (now : UInt32) : Assembling ps (s.expire now) := by
  unfold Receiver.expire
  split
  · exact ⟨Nat.zero_le _, Nat.zero_le _, fun h => absurd h (Nat.lt_irrefl 0)⟩
  · exact h

theorem Held.expire (h : Held ps s) (now : UInt32) : Held ps (s.expire now) := by
  unfold Receiver.expire
  split
  · intro hp hc
    obtain ⟨-, hheld⟩ := h hp hc
    exact ⟨rfl, hheld⟩
  · exact h

theorem onOutput_keeps {acts : List Act} (ha : Assembling ps s) (hh : Held ps s)
    (hu : s.disturbed w.millis buffer = false) (hs : s.onOutput w buffer = some (acts, s')) :
    Assembling (received ps buffer) s' ∧ Held (received ps buffer) s' := by
  unfold Receiver.onOutput at hs
  by_cases hlen : buffer.length < 7
  · rw [if_pos hlen] at hs
    cases hs
    have hsame : ∀ channel, received ps buffer channel = ps channel := fun channel => by
      simp [received, Event.packet, Nat.not_le.mpr hlen]
    exact ⟨ha.congr fun _ => hsame _, hh.mono prefix_received⟩
  rw [if_neg hlen] at hs
  have hlen : 7 ≤ buffer.length := Nat.not_lt.mp hlen
  have hkeeps := onPacket_keeps (w := w) (ha.expire w.millis) (hh.expire w.millis) hlen (by
    intro hi hc hp hch
    have hcur : (s.expire w.millis).ctapCurrentChannel = s.ctapCurrentChannel := by
      unfold Receiver.expire
      split <;> rfl
    rw [expire_hasPendingCommand] at hp
    rw [hcur] at hch
    simpa [Receiver.disturbed, hlen, hi, hc, hp, hch] using hu)
  generalize (s.expire w.millis).onPacket w buffer = p at hs hkeeps
  cases p with
  | returned acts' r =>
    cases hs
    cases hkeeps with
    | returned assembling held => exact ⟨assembling, held⟩
  | fault => cases hs
  | taken r =>
    simp only [Option.map_eq_some_iff, Prod.mk.injEq] at hs
    obtain ⟨r', hr, -, rfl⟩ := hs
    exact handOver_keeps hkeeps hr

theorem onOutput_acts {acts : List Act} (hs : s.onOutput w buffer = some (acts, s')) :
    .handed m ∉ acts := by
  unfold Receiver.onOutput at hs
  split at hs
  · cases hs
    exact List.not_mem_nil
  have hcases : OnPacket (s.expire w.millis) w buffer ((s.expire w.millis).onPacket w buffer) :=
    onPacket_cases
  generalize (s.expire w.millis).onPacket w buffer = p at hs hcases
  cases hcases <;> simp only [Option.some.injEq, Prod.mk.injEq, Option.map_eq_some_iff,
    reduceCtorEq] at hs
  all_goals first
    | (obtain ⟨rfl, -⟩ := hs; simp [errorAct])
    | (obtain ⟨_, -, rfl, -⟩ := hs; simp)

theorem poll_keeps {m : Option Message} (ha : Assembling ps s) (hh : Held ps s)
    (hs : s.poll w = some (m, s')) :
    Assembling ps s' ∧ Held ps s' ∧
      ∀ m' ∈ m, m'.cmd ≠ ctaphidCancel → Carried (ps m'.channel) m' := by
  have htaken : Assembling ps { s with hasPendingCommand := false } ∧
      Held ps { s with hasPendingCommand := false } := by
    refine ⟨⟨ha.received, ha.bounded, fun hpos => ?_⟩, fun hp => by cases hp⟩
    obtain ⟨hlt, hbuffer⟩ := ha.begun hpos
    refine ⟨hlt, hbuffer.imp id ?_⟩
    rintro ⟨first, rest, hb⟩
    exact ⟨first, rest, { hb with }⟩
  unfold Receiver.poll at hs
  simp only at hs
  split at hs
  · cases hs
    exact ⟨ha, hh, nofun⟩
  next hpending =>
    have hpending : s.hasPendingCommand = true := by simpa using hpending
    split at hs
    next hzero =>
      cases hs
      refine ⟨htaken.1, htaken.2, ?_⟩
      rintro _ ⟨⟩ hc
      exact absurd hzero (Nat.pos_iff_ne_zero.mp (hh hpending hc).2.1)
    next hne =>
      split at hs
      · cases hs
        exact ⟨htaken.1, htaken.2, nofun⟩
      · simp only [Option.map_eq_some_iff, Prod.mk.injEq] at hs
        obtain ⟨data, hdata, rfl, rfl⟩ := hs
        refine ⟨htaken.1, htaken.2, ?_⟩
        rintro _ ⟨⟩ hc
        obtain ⟨-, -, b, hb, -, hcarried⟩ := hh hpending hc
        obtain ⟨c, hsrc, -, rfl⟩ := copyFrom_some (Nat.pos_of_ne_zero hne) hdata
        rw [hb, Option.some.injEq] at hsrc
        rw [← hsrc]
        exact hcarried

theorem takeCancel_keeps (channel : Channel) (ha : Assembling ps s) (hh : Held ps s) :
    Assembling ps (s.takeCancel channel) ∧ Held ps (s.takeCancel channel) := by
  unfold Receiver.takeCancel
  split
  · refine ⟨⟨ha.received, ha.bounded, fun hpos => ?_⟩, fun hp => by cases hp⟩
    obtain ⟨hlt, hbuffer⟩ := ha.begun hpos
    refine ⟨hlt, hbuffer.imp id ?_⟩
    rintro ⟨first, rest, hb⟩
    exact ⟨first, rest, { hb with }⟩
  · exact ⟨ha, hh⟩

/-! Runs. -/

/-- What a receiver holds is what the packets of the past brought. -/
def Traced (past : History) (d : State) : Prop :=
  Assembling (fun channel => channelPackets channel past) d.receiver ∧
    Held (fun channel => channelPackets channel past) d.receiver

theorem initial_keeps (ps : Channel → List Bytes) :
    Assembling ps initial.receiver ∧ Held ps initial.receiver :=
  ⟨⟨Nat.le_refl 0, Nat.zero_le _, fun h => absurd h (Nat.lt_irrefl 0)⟩, fun h => by cases h⟩

theorem step_traced {d : State} {i : Input} (h : Traced past d) (hu : Undisturbed past d i) :
    Traced (Trace.entry step d i :: past) (step d i).2 ∧
      HandedExactly past (Trace.entry step d i) := by
  obtain ⟨ha, hh⟩ := h
  have hpackets : ∀ channel, channelPackets channel (Trace.entry step d i :: past) =
      channelPackets channel past ++ (i.event.packet channel).toList := fun _ => rfl
  unfold Traced
  simp only [hpackets]
  unfold HandedExactly Trace.entry
  simp only
  unfold Undisturbed at hu
  unfold step
  cases hevent : i.event with
  | output buffer =>
    rw [hevent] at hu
    simp only
    cases hs : d.receiver.onOutput i.surroundings buffer with
    | none => exact ⟨initial_keeps _, by simp⟩
    | some r =>
      obtain ⟨acts, r⟩ := r
      exact ⟨onOutput_keeps ha hh hu hs, fun m hm => absurd hm (onOutput_acts hs)⟩
  | poll =>
    have hnone : ∀ channel, (Event.packet channel .poll).toList = [] := fun _ => rfl
    simp only [hnone, List.append_nil]
    cases hs : d.receiver.poll i.surroundings with
    | none => exact ⟨initial_keeps _, by simp⟩
    | some r =>
      obtain ⟨m, r⟩ := r
      obtain ⟨ha', hh', hm⟩ := poll_keeps ha hh hs
      cases m with
      | none => exact ⟨⟨ha', hh'⟩, by simp⟩
      | some m =>
        refine ⟨⟨ha', hh'⟩, fun m' hin hc => ?_⟩
        have hacts : ∀ h : Handled, .handed m' ∉ h.acts m.channel := by
          intro h
          cases h <;> simp [Handled.acts]
        simp only [List.mem_cons, Act.handed.injEq, hacts, or_false] at hin
        subst hin
        exact hm m' rfl hc
  | awaitFinger channel =>
    have hnone : ∀ c, (Event.packet c (.awaitFinger channel)).toList = [] := fun _ => rfl
    simp only [hnone, List.append_nil]
    exact ⟨takeCancel_keeps channel ha hh, by simp⟩

end GoiKey.Hid
