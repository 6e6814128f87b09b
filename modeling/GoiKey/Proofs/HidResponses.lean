import GoiKey.Proofs.HidMessages
import GoiKey.Proofs.RoundTrips

/-! The packets of a response, read back by the receiver. -/

namespace GoiKey.Hid

variable {s s' : Receiver} {w : Surroundings} {buffer data : Bytes} {m : Message} {n : Nat}
variable {channel : Channel} {cmd seq : UInt8}

/-! The fields of the packets that sendCtapResponse makes. -/

theorem fromBigEndian_channel (channel : Channel) :
    UInt32.ofNat (fromBigEndian (bigEndian 4 channel.toNat)) = channel := by
  rw [fromBigEndian_bigEndian channel.toNat_lt]
  exact UInt32.ofNat_toNat

/-- A header and what fits of the data behind it. -/
theorem slice_padTo {header b : Bytes} {start size : Nat} (hh : header.length = start)
    (hsize : start + n ≤ size) (hb : n ≤ b.length) :
    slice start n (padTo size (header ++ b)) = b.take n := by
  subst hh
  rw [slice, padTo, List.drop_take, List.append_assoc, List.drop_left, List.take_take,
    Nat.min_eq_left (by omega), List.take_append_of_le_length hb]

theorem byteAt_padTo {header b : Bytes} {i size : Nat} (hi : i < header.length)
    (hsize : header.length ≤ size) : byteAt (padTo size (header ++ b)) i = header.getD i 0 := by
  rw [byteAt, padTo, List.append_assoc, List.getD_eq_getElem?_getD, List.getD_eq_getElem?_getD,
    List.getElem?_take_of_lt (by omega), List.getElem?_append_left hi]

def initializationHeader (channel : Channel) (cmd : UInt8) (len : Nat) : Bytes :=
  bigEndian 4 channel.toNat ++ cmd :: bigEndian 2 len

def continuationHeader (channel : Channel) (seq : UInt8) : Bytes :=
  bigEndian 4 channel.toNat ++ [seq &&& 0x7F]

theorem initializationPacket_eq : initializationPacket channel cmd data =
    padTo 64 (initializationHeader channel cmd data.length ++ data.take 57) := by
  simp [initializationPacket, initializationHeader]

theorem continuationPacket_eq : continuationPacket channel seq data =
    padTo 64 (continuationHeader channel seq ++ data.take 59) := by
  simp [continuationPacket, continuationHeader]

theorem packetChannel_padTo {header b : Bytes} {size : Nat}
    (hh : header.take 4 = bigEndian 4 channel.toNat) (hsize : 4 ≤ size) :
    packetChannel (padTo size (header ++ b)) = channel := by
  have hlen : 4 ≤ header.length := by
    have := congrArg List.length hh
    rw [List.length_take, bigEndian_length] at this
    omega
  have hfield : slice 0 4 (padTo size (header ++ b)) = bigEndian 4 channel.toNat := by
    rw [slice, List.drop_zero, padTo, List.take_take, Nat.min_eq_left hsize, List.append_assoc,
      List.take_append_of_le_length hlen, hh]
  rw [packetChannel, hfield]
  exact fromBigEndian_channel channel

/-- The header of a response's first packet. -/
structure Heads (p : Bytes) (channel : Channel) (cmd : UInt8) (data : Bytes) : Prop where
  length : p.length = 64
  channel : packetChannel p = channel
  cmd : packetByte p = cmd
  declared : declaredLen p = data.length
  chunk : ∀ n, n ≤ 57 → n ≤ data.length → slice 7 n p = data.take n

theorem initializationPacket_heads (channel : Channel) (cmd : UInt8) (hlen : data.length < 2 ^ 16) :
    Heads (initializationPacket channel cmd data) channel cmd data := by
  have hh : (initializationHeader channel cmd data.length).length = 7 := by
    simp [initializationHeader]
  rw [initializationPacket_eq]
  refine ⟨padTo_length _ _, ?_, ?_, ?_, ?_⟩
  · exact packetChannel_padTo (by simp [initializationHeader]) (by omega)
  · rw [packetByte, byteAt_padTo (by omega) (by omega)]
    simp [initializationHeader, bigEndian]
  · rw [declaredLen, byteAt_padTo (by omega) (by omega), byteAt_padTo (by omega) (by omega)]
    simp only [initializationHeader, bigEndian, List.cons_append, List.nil_append,
      List.getD_cons_succ, List.getD_cons_zero, beByte, UInt8.toNat_ofNat']
    omega
  · intro n hn hd
    have hfit : n ≤ (data.take 57).length := by
      rw [List.length_take]
      omega
    rw [slice_padTo hh (by omega) hfit, List.take_take, Nat.min_eq_left hn]

/-- The same of its further packets, by their sequence numbers. -/
structure Continues (p : Bytes) (channel : Channel) (seq : UInt8) (data : Bytes) : Prop where
  length : p.length = 64
  channel : packetChannel p = channel
  seq : packetByte p = seq
  chunk : ∀ n, n ≤ 59 → n ≤ data.length → slice 5 n p = data.take n

theorem and_seven_bits {k : Nat} (hk : k < 128) : UInt8.ofNat k &&& 0x7F = UInt8.ofNat k := by
  apply UInt8.toNat_inj.mp
  rw [UInt8.toNat_and, UInt8.toNat_ofNat']
  change k % 256 &&& 2 ^ 7 - 1 = k % 256
  rw [Nat.and_two_pow_sub_one_eq_mod]
  omega

theorem continuationPacket_continues {k : Nat} (channel : Channel) (data : Bytes) (hk : k < 128) :
    Continues (continuationPacket channel (UInt8.ofNat k) data) channel (UInt8.ofNat k) data := by
  have hh : (continuationHeader channel (UInt8.ofNat k)).length = 5 := by simp [continuationHeader]
  rw [continuationPacket_eq]
  refine ⟨padTo_length _ _, ?_, ?_, ?_⟩
  · exact packetChannel_padTo (by simp [continuationHeader]) (by omega)
  · rw [packetByte, byteAt_padTo (by omega) (by omega)]
    simp [continuationHeader, bigEndian, and_seven_bits hk]
  · intro n hn hd
    have hfit : n ≤ (data.take 59).length := by
      rw [List.length_take]
      omega
    rw [slice_padTo hh (by omega) hfit, List.take_take, Nat.min_eq_left hn]

/-! The receiver on its way through them. -/

/-- The first bytes of a message are in the assembly buffer, and nothing waits. -/
structure Receiving (m : Message) (n : Nat) (s : Receiver) : Prop where
  sound : s.Sound
  free : s.hasPendingCommand = false
  channel : s.ctapCurrentChannel = m.channel
  cmd : s.ctapCurrentCmd = m.cmd
  expected : s.ctapExpectedLen = m.data.length
  received : s.ctapReceivedLen = n
  stored : ∃ b, s.ctapBuffer = some b ∧ n ≤ b.length ∧ b.take n = m.data.take n

/-- All the memory that is asked for is there. -/
def Surroundings.Allocates (w : Surroundings) : Prop :=
  w.assemblyAllocates = true ∧ w.pendingAllocates = true

instance (w : Surroundings) : Decidable w.Allocates := inferInstanceAs (Decidable (_ ∧ _))

theorem Receiving.complete (h : Receiving m n s) :
    s.complete = (decide (0 < m.data.length) && decide (m.data.length ≤ n)) := by
  rw [Receiver.complete, h.expected, h.received]

/-- With all bytes there the message becomes the pending one. -/
theorem Receiving.handOver (h : Receiving m m.data.length s) (hpos : 0 < m.data.length)
    (hw : w.Allocates) :
    ∃ s', s.handOver w m.channel = some s' ∧ s'.Sound ∧ s'.pendingMessage = some m := by
  have hcomplete : s.complete = true := by simp [h.complete, hpos]
  obtain ⟨b, hb, hlen, hstored⟩ := h.stored
  obtain ⟨s', hs, hsound, -, hpending⟩ := handOver_message h.sound hcomplete (fun _ => hw.2) hb
    (by rw [h.expected]; exact hlen) m.channel
  rw [List.take_length] at hstored
  rw [h.cmd, h.expected, hstored] at hpending
  exact ⟨s', hs, hsound, hpending⟩

/-- The first packet of a response opens its message, whatever was in assembly. -/
theorem onPacket_heads {p : Bytes} (hs : s.Sound) (hfree : s.hasPendingCommand = false)
    (hi : 0x80 ≤ m.cmd) (hc : m.cmd ≠ ctaphidCancel) (hpos : 0 < m.data.length)
    (hlen : m.data.length ≤ 7609) (hp : Heads p m.channel m.cmd m.data) (hw : w.Allocates) :
    ∃ s', s.onPacket w p = .taken s' ∧ Receiving m (min 57 m.data.length) s' ∧
      s'.ctapExpectedSeq = 0 ∧ s'.lastPacketTime = w.millis := by
  have ho : Opening s p := ⟨by simp [isInitialization, hp.cmd, hi], by rw [hp.cmd]; exact hc, hfree⟩
  have hchunk : openingChunk p = min 57 m.data.length := by rw [openingChunk, hp.declared]
  have hdeclared := hp.declared
  have hplen := hp.length
  have hfits : (s.onPacket w p).Fits s w p := onPacket_fits hs (by omega)
  have hcases : OnPacket s w p (s.onPacket w p) := onPacket_cases
  generalize s.onPacket w p = r at hfits hcases
  cases hcases with
  | cancel initial cancel => exact absurd cancel ho.notCancel
  | ignored initial notCancel pending channel => exact absurd pending (by simp [hfree])
  | busy initial notCancel pending channel => exact absurd pending (by simp [hfree])
  | tooLong opening long => omega
  | noMemory opening length small refused => exact absurd hw.1 (by simp [refused])
  | cutShort opening length hg short => omega
  | startFault opening length hg whole copied => cases hfits
  | stray continuation other => exact absurd ho.initial (by simp [continuation])
  | outOfSequence continuation begun channel sequence => exact absurd ho.initial (by simp [continuation])
  | noRoom continuing full => exact absurd ho.initial (by simp [continuing.continuation])
  | cutOff continuing short => exact absurd ho.initial (by simp [continuing.continuation])
  | continueFault fitting copied => cases hfits
  | continued fitting copied => exact absurd ho.initial (by simp [fitting.continuation])
  | @started memory dst capacity opening length hg whole copied =>
    refine ⟨_, rfl, ?_, rfl, rfl⟩
    cases hfits with
    | taken sound same last given =>
      refine ⟨sound, hfree, hp.channel, hp.cmd, hp.declared, hchunk, ?_⟩
      have hslice : slice 7 (openingChunk p) p = m.data.take (min 57 m.data.length) := by
        rw [hchunk]
        exact hp.chunk _ (Nat.min_le_left _ _) (Nat.min_le_right _ _)
      obtain ⟨b, b', -, rfl, hin, htake⟩ :=
        copyInto_some (slice_ne_nil whole (by omega)) copied
      rw [slice_length whole, Nat.zero_add] at hin htake
      rw [List.take_zero, List.nil_append, hslice, hchunk] at htake
      rw [hchunk] at hin
      exact ⟨b', rfl, hin, htake⟩

/-- A further packet brings the next bytes. -/
theorem onPacket_continues {p : Bytes} {k : Nat} (h : Receiving m n s) (hn : n = 57 + 59 * k)
    (hseq : s.ctapExpectedSeq = UInt8.ofNat k) (hmore : n < m.data.length)
    (hlen : m.data.length ≤ 7609)
    (hp : Continues p m.channel (UInt8.ofNat k) (m.data.drop n)) :
    ∃ s', s.onPacket w p = .taken s' ∧ Receiving m (min (n + 59) m.data.length) s' ∧
      s'.ctapExpectedSeq = UInt8.ofNat (k + 1) ∧ s'.lastPacketTime = w.millis := by
  have hk : k < 128 := by omega
  have hi : isInitialization p = false := by
    rw [isInitialization, hp.seq]
    simp only [decide_eq_false_iff_not, UInt8.not_le]
    rw [UInt8.lt_iff_toNat_lt, UInt8.toNat_ofNat']
    change k % 256 < 128
    omega
  have hexpected := h.expected
  have hreceived := h.received
  have hc : Continuing s p := by
    refine ⟨hi, ?_, by rw [hp.channel, h.channel], by rw [hp.seq, hseq]⟩
    omega
  have hchunk := chunk_eq h.sound.received
  have hroom := h.sound.expected
  have hplen := hp.length
  have hfits : (s.onPacket w p).Fits s w p := onPacket_fits h.sound (by omega)
  have hcases : OnPacket s w p (s.onPacket w p) := onPacket_cases
  generalize s.onPacket w p = r at hfits hcases
  cases hcases with
  | cancel initial cancel => exact absurd initial (by simp [hi])
  | ignored initial notCancel pending channel => exact absurd initial (by simp [hi])
  | busy initial notCancel pending channel => exact absurd initial (by simp [hi])
  | tooLong opening long => exact absurd opening.initial (by simp [hi])
  | noMemory opening length small refused => exact absurd opening.initial (by simp [hi])
  | cutShort opening length hg short => exact absurd opening.initial (by simp [hi])
  | startFault opening length hg whole copied => cases hfits
  | started opening length hg whole copied => exact absurd opening.initial (by simp [hi])
  | stray continuation other => exact absurd other (by simp [hc.begun, hc.channel])
  | outOfSequence continuation begun channel sequence => exact absurd hc.sequence sequence
  | noRoom continuing full => omega
  | cutOff continuing short => omega
  | continueFault fitting copied => cases hfits
  | continued fitting copied =>
    have hnext : s.ctapReceivedLen + s.chunk = min (n + 59) m.data.length := by omega
    refine ⟨_, rfl, ?_, ?_, rfl⟩
    · cases hfits with
      | taken sound same last given =>
        refine ⟨sound, h.free, h.channel, h.cmd, h.expected, hnext, ?_⟩
        obtain ⟨b, b', hb, rfl, hin, htake⟩ :=
          copyInto_some (slice_ne_nil fitting.whole (by omega)) copied
        obtain ⟨b₀, hb₀, -, hstored⟩ := h.stored
        rw [hb, Option.some.injEq] at hb₀
        subst hb₀
        have hslice : slice 5 s.chunk p = (m.data.drop n).take s.chunk :=
          hp.chunk _ (by omega) (by rw [List.length_drop]; omega)
        rw [slice_length fitting.whole] at hin htake
        rw [hslice, hreceived, hstored, ← List.take_add, ← hreceived, hnext] at htake
        rw [hnext] at hin
        exact ⟨b', rfl, hin, htake⟩
    · change s.ctapExpectedSeq + 1 = _
      rw [hseq, UInt8.ofNat_add]
      rfl

/-- A packet that comes in time finds the assembly as the last one left it. -/
theorem expire_of_prompt {now : UInt32} (h : now - s.lastPacketTime ≤ 500) : s.expire now = s := by
  have hfresh : s.expired now = false := by
    simp only [Receiver.expired, Bool.and_eq_false_iff, decide_eq_false_iff_not, UInt32.not_lt]
    exact .inr h
  rw [Receiver.expire, hfresh, if_neg Bool.false_ne_true]

/-- Packets at most 500 ms apart. -/
def Prompt : List Input → Prop
  | i :: j :: is => j.surroundings.millis - i.surroundings.millis ≤ 500 ∧ Prompt (j :: is)
  | _ => True

instance promptDecidable (inputs : List Input) : Decidable (Prompt inputs) :=
  match inputs with
  | [] => .isTrue trivial
  | [_] => .isTrue trivial
  | _ :: j :: is =>
    have := promptDecidable (j :: is)
    inferInstanceAs (Decidable (_ ∧ _))

theorem Receiving.step {d : State} {p : Bytes} {i : Input} {s' : Receiver} {len : Nat}
    (hlen : 7 ≤ p.length) (he : i.event = .output p) (hch : packetChannel p = m.channel)
    (hs : (d.receiver.expire i.surroundings.millis).onPacket i.surroundings p = .taken s')
    (h : Receiving m len s') (hpos : 0 < m.data.length) (hle : len ≤ m.data.length)
    (hw : i.surroundings.Allocates) :
    (len < m.data.length ∧ (Hid.step d i).2.receiver = s') ∨
      (len = m.data.length ∧ (Hid.step d i).2.receiver.Sound ∧
        (Hid.step d i).2.receiver.pendingMessage = some m) := by
  unfold Hid.step
  rw [he]
  simp only [Receiver.onOutput, if_neg (Nat.not_lt.mpr hlen), hs, hch]
  by_cases hmore : len < m.data.length
  · left
    have hcomplete : s'.complete = false := by simp [h.complete, hmore]
    rw [Receiver.handOver, hcomplete, if_neg Bool.false_ne_true]
    exact ⟨hmore, rfl⟩
  · right
    have hall : len = m.data.length := Nat.le_antisymm hle (Nat.not_lt.mp hmore)
    rw [hall] at h
    obtain ⟨s'', hover, hsound, hpending⟩ := h.handOver hpos hw
    rw [hover]
    exact ⟨hall, hsound, hpending⟩

@[simp] theorem continuationPackets_nil (k : Nat) : continuationPackets channel k seq [] = [] := by
  cases k <;> rfl

/-- The rest of a response, by the packets still to come. -/
theorem continuationPackets_received (hpos : 0 < m.data.length) (hlen : m.data.length ≤ 7609)
    (fuel : Nat) {d : State} {k n : Nat} {inputs : List Input} (h : Receiving m n d.receiver)
    (hn : n = 57 + 59 * k) (hseq : d.receiver.ctapExpectedSeq = UInt8.ofNat k)
    (hmore : n < m.data.length) (hfuel : m.data.length ≤ n + fuel)
    (hp : inputs.map Input.event =
      (continuationPackets m.channel fuel (UInt8.ofNat k) (m.data.drop n)).map Event.output)
    (hw : ∀ i ∈ inputs, i.surroundings.Allocates)
    (hfirst : ∀ i ∈ inputs.head?, i.surroundings.millis - d.receiver.lastPacketTime ≤ 500)
    (hprompt : Prompt inputs) :
    (Trace.final step d inputs).receiver.pendingMessage = some m := by
  induction fuel generalizing d k n inputs with
  | zero => omega
  | succ fuel ih =>
    have hrest : m.data.drop n ≠ [] := by
      intro hnil
      have := congrArg List.length hnil
      rw [List.length_drop, List.length_nil] at this
      omega
    rw [continuationPackets, if_neg hrest, List.map_cons, List.drop_drop] at hp
    cases inputs with
    | nil => cases hp
    | cons i is =>
      rw [List.map_cons, List.cons.injEq] at hp
      obtain ⟨he, hp⟩ := hp
      have hk : k < 128 := by omega
      have hc := continuationPacket_continues m.channel (m.data.drop n) hk
      obtain ⟨s', hs, hreceiving, hseq', htime⟩ :=
        onPacket_continues (w := i.surroundings) h hn hseq hmore hlen hc
      have hfresh := expire_of_prompt (hfirst i rfl)
      rw [Trace.final_cons]
      rcases hreceiving.step (by rw [hc.length]; omega) he hc.channel (by rw [hfresh]; exact hs) hpos
        (Nat.min_le_right _ _) (hw i (List.mem_cons_self ..)) with ⟨hless, hstate⟩ | ⟨hall, -, hdone⟩
      · have hstep : min (n + 59) m.data.length = n + 59 := by omega
        rw [hstep] at hreceiving hless
        refine ih (k := k + 1) (n := n + 59) (hstate ▸ hreceiving) (by omega) (hstate ▸ hseq') hless
          (by omega) ?_ (fun j hj => hw j (List.mem_cons_of_mem _ hj)) ?_ ?_
        · rw [hp, UInt8.ofNat_add]
          rfl
        · intro j hj
          rw [hstate, htime]
          cases is with
          | nil => cases hj
          | cons j' is =>
            cases hj
            exact hprompt.1
        · cases is with
          | nil => trivial
          | cons j is => exact hprompt.2
      · have hnone : m.data.drop (n + 59) = [] := List.drop_eq_nil_of_le (by omega)
        rw [hnone, continuationPackets_nil, List.map_nil, List.map_eq_nil_iff] at hp
        subst hp
        exact hdone

/-- Fed to a receiver with an empty slot, the packets of a response become the
pending message again. -/
theorem response_received {d : State} {inputs : List Input} (hs : d.receiver.Sound)
    (hfree : d.receiver.hasPendingCommand = false) (hi : 0x80 ≤ m.cmd) (hc : m.cmd ≠ ctaphidCancel)
    (hpos : 0 < m.data.length) (hlen : m.data.length ≤ 7609)
    (hp : inputs.map Input.event = (sendCtapResponse m.channel m.cmd m.data).map Event.output)
    (hw : ∀ i ∈ inputs, i.surroundings.Allocates) (hprompt : Prompt inputs) :
    (Trace.final step d inputs).receiver.pendingMessage = some m := by
  rw [sendCtapResponse, List.map_cons] at hp
  cases inputs with
  | nil => cases hp
  | cons i is =>
    rw [List.map_cons, List.cons.injEq] at hp
    obtain ⟨he, hp⟩ := hp
    have hdata : m.data.length < 2 ^ 16 := by omega
    have hh := initializationPacket_heads m.channel m.cmd hdata
    obtain ⟨s', hs', hreceiving, hseq, htime⟩ := onPacket_heads (w := i.surroundings)
      (hs.expire i.surroundings.millis) (by rw [expire_hasPendingCommand]; exact hfree) hi hc hpos
      hlen hh (hw i (List.mem_cons_self ..))
    rw [Trace.final_cons]
    rcases hreceiving.step (by rw [hh.length]; omega) he hh.channel hs' hpos (Nat.min_le_right _ _)
      (hw i (List.mem_cons_self ..)) with ⟨hless, hstate⟩ | ⟨hall, -, hdone⟩
    · have hfull : min 57 m.data.length = 57 := by omega
      rw [hfull] at hreceiving hless
      refine continuationPackets_received hpos hlen m.data.length (k := 0) (hstate ▸ hreceiving) rfl
        (hstate ▸ hseq) hless (by omega) hp (fun j hj => hw j (List.mem_cons_of_mem _ hj)) ?_ ?_
      · intro j hj
        rw [hstate, htime]
        cases is with
        | nil => cases hj
        | cons j' is =>
          cases hj
          exact hprompt.1
      · cases is with
        | nil => trivial
        | cons j is => exact hprompt.2
    · have hnone : m.data.drop 57 = [] := List.drop_eq_nil_of_le (by omega)
      rw [hnone, continuationPackets_nil, List.map_nil, List.map_eq_nil_iff] at hp
      subst hp
      exact hdone

/-- In a run whose packets do not disturb a message in assembly, every message
handed on is one that its channel's packets carried; and a response of 1 to 7609
bytes is put together again from its packets. -/
theorem messages_exact (inputs : List Input) :
    (Trace.Guarded step Undisturbed initial inputs → Trace.Always HandedExactly (run inputs)) ∧
    (∀ (d : State) (m : Message), d.receiver.Sound →
      d.receiver.hasPendingCommand = false → 0x80 ≤ m.cmd → m.cmd ≠ ctaphidCancel →
      0 < m.data.length → m.data.length ≤ 7609 →
      inputs.map Input.event = (sendCtapResponse m.channel m.cmd m.data).map Event.output →
      (∀ i ∈ inputs, i.surroundings.Allocates) → Prompt inputs →
      (Trace.final step d inputs).receiver.pendingMessage = some m) := by
  constructor
  · intro hg
    exact Trace.always (I := Traced) (fun _ _ _ h hu => (step_traced h hu).1)
      (fun _ _ _ h hu => (step_traced h hu).2) (initial_keeps fun channel => channelPackets channel [])
      hg
  · intro d m hs hfree hi hc hpos hlen hp hw hprompt
    exact response_received hs hfree hi hc hpos hlen hp hw hprompt

/-- The reports of a response on one channel, then a turn of the main loop. -/
def pinged (data : Bytes) : List Input :=
  (sendCtapResponse 1 ctaphidPing data).map (fun p => ⟨.output p, { millis := 1 }⟩)

theorem messages_exact_pinged :
    Trace.Always HandedExactly (run (pinged (zeros 100) ++ [⟨.poll, { millis := 2 }⟩])) ∧
      (Trace.final step initial (pinged (zeros 100))).receiver.pendingMessage =
        some ⟨1, ctaphidPing, zeros 100⟩ :=
  ⟨(messages_exact _).1 (by decide +kernel),
    (messages_exact _).2 initial ⟨1, ctaphidPing, zeros 100⟩ initial_sound rfl (by decide) (by decide)
      (by decide) (by decide) (by decide +kernel) (by decide +kernel) (by decide +kernel)⟩

/-- A PING is cancelled after its first packet and sent anew: the new first packet
is ignored while the CANCEL waits, the packet after it completes the old PING. -/
def glued : List Input :=
  (pinged (zeros 100)).take 1 ++
    [⟨.output (initializationPacket 1 ctaphidCancel []), { millis := 1 }⟩] ++
    pinged (List.replicate 100 1) ++ [⟨.poll, { millis := 2 }⟩]

theorem glued_inexact : ¬Trace.Always HandedExactly (run glued) := by decide +kernel

end GoiKey.Hid
