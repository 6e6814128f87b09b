import GoiKey.Proofs.HidMessages

/-!
What becomes of the messages that hosts send: each channel's transmissions as its
packets make them, against what the one receiver does with them.
-/

namespace GoiKey.Hid

variable {s s' : Receiver} {w : Surroundings} {buffer : Bytes} {m : Message} {past : History}

/-- A message on its way over a channel, as far as its packets have come. It is
reported once an error has answered one of them. -/
structure Transmission where
  cmd : UInt8
  declared : Nat
  data : Bytes
  next : UInt8
  reported : Bool
  deriving DecidableEq, Repr

def Transmission.complete (t : Transmission) : Bool := t.declared ≤ t.data.length

/-- The transmission an initialization packet opens, if it has all its bytes. -/
def opening (buffer : Bytes) : Option Transmission :=
  if 7 + openingChunk buffer ≤ buffer.length then
    some ⟨packetByte buffer, declaredLen buffer, slice 7 (openingChunk buffer) buffer, 0, false⟩
  else none

def Transmission.chunk (t : Transmission) : Nat := min 59 (t.declared - t.data.length)

/-- The same with the continuation packet it waits for; any other one ends it. -/
def Transmission.continued (t : Transmission) (buffer : Bytes) : Option Transmission :=
  if !t.complete && packetByte buffer == t.next && 5 + t.chunk ≤ buffer.length then
    some { t with data := t.data ++ slice 5 t.chunk buffer, next := t.next + 1 }
  else none

def arrive (t : Option Transmission) (buffer : Bytes) : Option Transmission :=
  if isInitialization buffer then opening buffer else t.bind fun t => t.continued buffer

/-- An error went to the channel. -/
def answersError (channel : Channel) (acts : List Act) : Bool :=
  acts.any fun a => match a with
    | .sent m => m.channel == channel && m.cmd == ctaphidError
    | _ => false

def Transmission.answered (t : Transmission) (channel : Channel) (acts : List Act) : Transmission :=
  { t with reported := t.reported || answersError channel acts }

/-- The last transmission of a channel. -/
def transmission (channel : Channel) : History → Option Transmission
  | [] => none
  | e :: past =>
    match e.input.event.packet channel with
    | none => transmission channel past
    | some buffer => (arrive (transmission channel past) buffer).map fun t =>
        t.answered channel e.output

/-- The message whose declared bytes are all there with this step, no error
having answered it. -/
def acceptedBy (past : History) (e : Entry) : Option Message :=
  match e.input.event with
  | .output buffer =>
    let channel := packetChannel buffer
    if (e.input.event.packet channel).isSome then
      (transmission channel (e :: past)).bind fun t =>
        if t.complete && !t.reported then some ⟨channel, t.cmd, t.data⟩ else none
    else none
  | _ => none

def accepted : History → List Message
  | [] => []
  | e :: past => accepted past ++ (acceptedBy past e).toList

def Message.isRequest (m : Message) : Bool := m.cmd != ctaphidCancel

/-- The messages handed on, CANCEL apart, in order. -/
def handedOn : History → List Message
  | [] => []
  | e :: past => handedOn past ++ (e.output.filterMap Act.message).filter Message.isRequest

/-- The message that waits in the pending slot. -/
def Receiver.waiting (s : Receiver) : List Message := s.pendingMessage.toList.filter Message.isRequest

/-- The receiver has the transmission in assembly, as far as it has come. -/
structure InAssembly (s : Receiver) (channel : Channel) (t : Transmission) : Prop where
  channel : s.ctapCurrentChannel = channel
  cmd : s.ctapCurrentCmd = t.cmd
  declared : s.ctapExpectedLen = t.declared
  received : s.ctapReceivedLen = t.data.length
  next : s.ctapExpectedSeq = t.next
  stored : ∃ b, s.ctapBuffer = some b ∧ b.take t.data.length = t.data

/-- Every accepted message has been handed on once, in order, or waits to be; and
every transmission under way that no error has answered is in assembly. -/
def Delivered (past : History) (e : Entry) : Prop :=
  accepted (e :: past) = handedOn (e :: past) ++ e.after.receiver.waiting ∧
    ∀ channel t, transmission channel (e :: past) = some t → t.complete = false →
      t.reported = false → InAssembly e.after.receiver channel t

/-- An initialization packet for a free slot that starts the assembly anew. -/
def Receiver.restarts (s : Receiver) (buffer : Bytes) : Bool :=
  isInitialization buffer && packetByte buffer != ctaphidCancel && !s.hasPendingCommand &&
    packetChannel buffer == s.ctapCurrentChannel

/-- An initialization packet that takes nothing away: a CANCEL while no message
waits; one of another channel than the waiting command's and than the assembly's;
one that announces bytes, with the assembly empty or its channel's own. -/
def Receiver.yields (s : Receiver) (buffer : Bytes) : Bool :=
  if packetByte buffer = ctaphidCancel then !s.hasPendingCommand || s.pendingCmd == ctaphidCancel
  else if s.hasPendingCommand then
    packetChannel buffer != s.pendingChannel &&
      (s.ctapExpectedLen == 0 || packetChannel buffer != s.ctapCurrentChannel)
  else
    declaredLen buffer != 0 &&
      (s.ctapExpectedLen == 0 || packetChannel buffer == s.ctapCurrentChannel)

/-- What a packet must respect for nothing to be lost. -/
structure Receiver.Respects (s : Receiver) (w : Surroundings) (buffer : Bytes) : Prop where
  prompt : s.expired w.millis = true → s.restarts buffer = true
  assembly : s.asksAssembly buffer = true → w.assemblyAllocates = true
  pending : s.asksPending w.millis buffer = true → w.pendingAllocates = true
  slot : isInitialization buffer = true → s.yields buffer = true

instance (s : Receiver) (w : Surroundings) (buffer : Bytes) : Decidable (s.Respects w buffer) :=
  decidable_of_iff
    ((s.expired w.millis = true → s.restarts buffer = true) ∧
      (s.asksAssembly buffer = true → w.assemblyAllocates = true) ∧
      (s.asksPending w.millis buffer = true → w.pendingAllocates = true) ∧
      (isInitialization buffer = true → s.yields buffer = true))
    ⟨fun h => ⟨h.1, h.2.1, h.2.2.1, h.2.2.2⟩, fun h => ⟨h.prompt, h.assembly, h.pending, h.slot⟩⟩

/-- The condition of a step. -/
def Respectful (_ : History) (d : State) (i : Input) : Prop :=
  match i.event with
  | .output buffer => 7 ≤ buffer.length → d.receiver.Respects i.surroundings buffer
  | .poll => d.receiver.hasPendingCommand = true → d.receiver.pendingLen ≠ 0 →
      i.surroundings.copyAllocates = true
  | .awaitFinger _ => True

instance (past : History) (d : State) (i : Input) : Decidable (Respectful past d i) :=
  match i with
  | ⟨.output buffer, w⟩ => inferInstanceAs (Decidable (7 ≤ buffer.length → d.receiver.Respects w buffer))
  | ⟨.poll, w⟩ => inferInstanceAs (Decidable
      (d.receiver.hasPendingCommand = true → d.receiver.pendingLen ≠ 0 → w.copyAllocates = true))
  | ⟨.awaitFinger _, _⟩ => .isTrue trivial

/-! The transmissions after one more report. -/

variable {ts : Channel → Option Transmission} {acts : List Act} {channel : Channel}

def advance (ts : Channel → Option Transmission) (buffer : Bytes) (acts : List Act)
    (channel : Channel) : Option Transmission :=
  match (Event.output buffer).packet channel with
  | none => ts channel
  | some buffer => (arrive (ts channel) buffer).map fun t => t.answered channel acts

/-- The message of a transmission that is complete and that no error answered. -/
def settled (channel : Channel) (t : Option Transmission) : Option Message :=
  t.bind fun t => if t.complete && !t.reported then some ⟨channel, t.cmd, t.data⟩ else none

/-- A transmission under way that counts on being assembled. -/
def Transmission.Open (t : Transmission) : Prop := t.complete = false ∧ t.reported = false

theorem advance_other (h : packetChannel buffer ≠ channel) : advance ts buffer acts channel = ts channel := by
  simp [advance, Event.packet, h]

theorem advance_cancel (h : packetByte buffer = ctaphidCancel) :
    advance ts buffer acts channel = ts channel := by
  simp [advance, Event.packet, h]

theorem advance_own (hlen : 7 ≤ buffer.length) (hc : packetByte buffer ≠ ctaphidCancel) :
    advance ts buffer acts (packetChannel buffer) =
      (arrive (ts (packetChannel buffer)) buffer).map fun t =>
        t.answered (packetChannel buffer) acts := by
  simp [advance, Event.packet, hlen, hc]

theorem continuation_notCancel (hi : isInitialization buffer = false) :
    packetByte buffer ≠ ctaphidCancel := by
  intro hc
  simp [isInitialization, hc, ctaphidCancel] at hi

/-- The receiver and the transmissions of the channels agree. -/
structure Tracking (ts : Channel → Option Transmission) (s : Receiver) : Prop where
  assembled : ∀ channel t, ts channel = some t → t.Open → InAssembly s channel t
  tracked : 0 < s.ctapExpectedLen → ∃ t, ts s.ctapCurrentChannel = some t ∧ t.Open
  request : ∀ channel t, ts channel = some t → t.cmd ≠ ctaphidCancel

/-- A message waits only while nothing is in assembly. -/
def Receiver.Alone (s : Receiver) : Prop :=
  s.hasPendingCommand = true → s.pendingCmd ≠ ctaphidCancel → s.ctapExpectedLen = 0

/-- The receiver after a packet, against the transmissions after it. -/
structure Lands (ts : Channel → Option Transmission) (s : Receiver) (buffer : Bytes)
    (acts : List Act) (s' : Receiver) : Prop where
  tracking : Tracking (advance ts buffer acts) s'
  alone : s'.Alone
  waiting : s'.waiting = s.waiting ++
    (if packetByte buffer = ctaphidCancel then none
      else settled (packetChannel buffer) (advance ts buffer acts (packetChannel buffer))).toList

theorem Tracking.only (h : Tracking ts s) {t : Transmission} (ht : ts channel = some t) (ho : t.Open) :
    0 < s.ctapExpectedLen ∧ s.ctapCurrentChannel = channel := by
  have ha := h.assembled channel t ht ho
  have hmore := ho.1
  simp only [Transmission.complete, decide_eq_false_iff_not] at hmore
  exact ⟨by rw [ha.declared]; omega, ha.channel⟩

theorem arrive_request {t : Option Transmission} {t' : Transmission}
    (h : ∀ u, t = some u → u.cmd ≠ ctaphidCancel) (hc : packetByte buffer ≠ ctaphidCancel)
    (ha : arrive t buffer = some t') : t'.cmd ≠ ctaphidCancel := by
  unfold arrive at ha
  split at ha
  · unfold opening at ha
    split at ha
    · cases ha
      exact hc
    · cases ha
  · obtain ⟨u, hu, hcont⟩ := Option.bind_eq_some_iff.mp ha
    unfold Transmission.continued at hcont
    split at hcont
    · cases hcont
      exact h u hu
    · cases hcont

theorem advance_request (h : ∀ channel t, ts channel = some t → t.cmd ≠ ctaphidCancel) :
    ∀ channel t, advance ts buffer acts channel = some t → t.cmd ≠ ctaphidCancel := by
  intro channel t ht
  unfold advance at ht
  split at ht
  · exact h channel t ht
  next p hp =>
    obtain ⟨u, hu, rfl⟩ := Option.map_eq_some_iff.mp ht
    have hcancel : packetByte p ≠ ctaphidCancel := by
      simp only [Event.packet, Option.ite_none_right_eq_some, Bool.and_eq_true, bne_iff_ne] at hp
      obtain ⟨⟨-, hc⟩, he⟩ := hp
      cases he
      exact hc
    have hr : u.cmd ≠ ctaphidCancel := arrive_request (h channel) hcancel hu
    exact hr

/-- A packet whose channel is left with no open transmission, the assembly being
untouched or emptied with no other channel's in it. -/
theorem Tracking.closed (h : Tracking ts s)
    (hown : ∀ t, advance ts buffer acts (packetChannel buffer) = some t → ¬t.Open)
    (hs : (s'.ctapExpectedLen = 0 ∧
        (s.ctapExpectedLen = 0 ∨ packetChannel buffer = s.ctapCurrentChannel)) ∨
      (s' = s ∧ (s.ctapExpectedLen = 0 ∨ packetChannel buffer ≠ s.ctapCurrentChannel))) :
    Tracking (advance ts buffer acts) s' := by
  refine ⟨?_, ?_, advance_request h.request⟩
  · intro channel t ht ho
    by_cases hch : packetChannel buffer = channel
    · subst hch
      exact absurd ho (hown t ht)
    · rw [advance_other hch] at ht
      obtain ⟨hpos, hcur⟩ := h.only ht ho
      rcases hs with ⟨-, hempty⟩ | ⟨rfl, -⟩
      · rcases hempty with hz | hsame
        · omega
        · exact absurd (hsame.trans hcur) hch
      · exact h.assembled channel t ht ho
  · intro hpos
    rcases hs with ⟨hzero, -⟩ | ⟨rfl, hother⟩
    · omega
    · obtain ⟨t, ht, ho⟩ := h.tracked hpos
      have hch : packetChannel buffer ≠ s'.ctapCurrentChannel := hother.resolve_left (by omega)
      exact ⟨t, by rw [advance_other hch]; exact ht, ho⟩

theorem answersError_errorAct (channel : Channel) (code : UInt8) :
    answersError channel [errorAct channel code] = true := by
  simp [answersError, errorAct]

@[simp] theorem answered_nil (t : Transmission) (channel : Channel) : t.answered channel [] = t := by
  simp [Transmission.answered, answersError]

theorem advance_reported (hlen : 7 ≤ buffer.length) (hc : packetByte buffer ≠ ctaphidCancel)
    (he : answersError (packetChannel buffer) acts = true) {t : Transmission}
    (ht : advance ts buffer acts (packetChannel buffer) = some t) : t.reported = true := by
  rw [advance_own hlen hc] at ht
  obtain ⟨u, -, rfl⟩ := Option.map_eq_some_iff.mp ht
  simp [Transmission.answered, he]

theorem settled_eq_none {t : Option Transmission} (h : ∀ u, t = some u → u.reported = true) :
    settled channel t = none := by
  cases t with
  | none => rfl
  | some u => simp [settled, h u rfl]

/-- A packet that leaves its channel without a transmission, or with one that an
error has answered. -/
theorem Tracking.dropped (h : Tracking ts s) (hc : packetByte buffer ≠ ctaphidCancel)
    (hreported : ∀ t, advance ts buffer acts (packetChannel buffer) = some t → t.reported = true)
    (hs : (s'.ctapExpectedLen = 0 ∧
        (s.ctapExpectedLen = 0 ∨ packetChannel buffer = s.ctapCurrentChannel)) ∨
      (s' = s ∧ (s.ctapExpectedLen = 0 ∨ packetChannel buffer ≠ s.ctapCurrentChannel)))
    (ha : s'.Alone) (hw : s'.waiting = s.waiting) : Lands ts s buffer acts s' where
  tracking := h.closed (fun t ht ho => by simpa [ho.2] using hreported t ht) hs
  alone := ha
  waiting := by
    rw [if_neg hc, settled_eq_none hreported, hw]
    simp

theorem alone_of_idle (h : s.ctapExpectedLen = 0) : s.Alone := fun _ _ => h

theorem waiting_of_free (h : s.Free) : s.waiting = [] := by
  unfold Receiver.waiting Receiver.pendingMessage
  cases hp : s.hasPendingCommand with
  | false => rfl
  | true => simp [Message.isRequest, h hp]

theorem Opening.waiting (h : Opening s buffer) : s.waiting = [] := waiting_of_free h.free_of

/-- With the bytes of one more packet in the assembly buffer: the transmission
goes on, or is complete and waits. -/
theorem assembled_lands {r : Receiver} {t : Transmission} (h : Tracking ts s)
    (hc : packetByte buffer ≠ ctaphidCancel)
    (hadvance : advance ts buffer [] (packetChannel buffer) = some t) (hreported : t.reported = false)
    (hpos : 0 < t.declared) (hr : InAssembly r (packetChannel buffer) t) (hsound : r.Sound)
    (hfree : r.Free) (hwaiting : s.waiting = [])
    (hsame : s.ctapExpectedLen = 0 ∨ packetChannel buffer = s.ctapCurrentChannel)
    (hw : r.complete = true → r.pendingDataCapacity < r.ctapExpectedLen → w.pendingAllocates = true) :
    ∃ s', r.handOver w (packetChannel buffer) = some s' ∧ s'.Sound ∧ Lands ts s buffer [] s' := by
  have hcomplete : r.complete = t.complete := by
    simp [Receiver.complete, Transmission.complete, hr.declared, hr.received, hpos]
  have hrequest : t.cmd ≠ ctaphidCancel := advance_request h.request _ t hadvance
  cases hdone : t.complete with
  | false =>
    refine ⟨r, by rw [Receiver.handOver, hcomplete, hdone]; rfl, hsound, ?_, ?_, ?_⟩
    · refine ⟨?_, fun _ => ⟨t, by rw [hr.channel]; exact hadvance, hdone, hreported⟩,
        advance_request h.request⟩
      intro channel u hu ho
      by_cases hch : packetChannel buffer = channel
      · subst hch
        rw [hadvance, Option.some.injEq] at hu
        exact hu ▸ hr
      · -- nothing of another channel was in assembly
        rw [advance_other hch] at hu
        obtain ⟨hpos, hcur⟩ := h.only hu ho
        rcases hsame with hz | hsame
        · omega
        · exact absurd (hsame.trans hcur) hch
    · exact fun hp hn => absurd (hfree hp) hn
    · rw [if_neg hc, hadvance, hwaiting, waiting_of_free hfree]
      simp [settled, hdone]
  | true =>
    obtain ⟨b, hb, hstored⟩ := hr.stored
    have hall : t.declared = t.data.length := by
      have hle := hsound.received
      rw [hr.declared, hr.received] at hle
      simp only [Transmission.complete, decide_eq_true_eq] at hdone
      omega
    have hlong : t.data.length ≤ b.length := by
      have := congrArg List.length hstored
      rw [List.length_take] at this
      omega
    obtain ⟨s', hs', hsound', hempty, hpending⟩ := handOver_message hsound (by rw [hcomplete, hdone])
      (hw (by rw [hcomplete, hdone])) hb (by rw [hr.declared, hall]; exact hlong) (packetChannel buffer)
    rw [hr.declared, hall, hstored, hr.cmd] at hpending
    refine ⟨s', hs', hsound', h.closed ?_ (.inl ⟨hempty, hsame⟩), alone_of_idle hempty, ?_⟩
    · intro u hu ho
      rw [hadvance, Option.some.injEq] at hu
      subst hu
      rw [ho.1] at hdone
      cases hdone
    · rw [if_neg hc, hadvance, hwaiting, Receiver.waiting, hpending]
      simp [settled, hdone, hreported, Message.isRequest, hrequest]

/-- An initialization packet that is let in opens its transmission. -/
theorem started_assembles {memory dst : Option Bytes} {capacity : Nat}
    (whole : 7 + openingChunk buffer ≤ buffer.length) (hpos : 0 < declaredLen buffer)
    (copied : copyInto memory 0 (slice 7 (openingChunk buffer) buffer) = some dst) :
    InAssembly { s.opened buffer with
        ctapBuffer := dst
        ctapBufferCapacity := capacity
        ctapReceivedLen := openingChunk buffer
        ctapExpectedSeq := 0
        lastPacketTime := w.millis } (packetChannel buffer)
      ⟨packetByte buffer, declaredLen buffer, slice 7 (openingChunk buffer) buffer, 0, false⟩ := by
  have hchunk : 0 < openingChunk buffer := by
    unfold openingChunk
    omega
  obtain ⟨b, b', -, rfl, -, htake⟩ := copyInto_some (slice_ne_nil whole hchunk) copied
  rw [Nat.zero_add, List.take_zero, List.nil_append] at htake
  exact ⟨rfl, rfl, rfl, (slice_length whole).symm, rfl, b', rfl, htake⟩

/-- A continuation packet in sequence brings its transmission on. -/
theorem continued_assembles {t : Transmission} {dst : Option Bytes} (hf : Fitting s buffer)
    (ha : InAssembly s (packetChannel buffer) t) (hmore : t.complete = false) (hs : s.Sound)
    (copied : copyInto s.ctapBuffer s.ctapReceivedLen (slice 5 s.chunk buffer) = some dst) :
    t.continued buffer = some { t with data := t.data ++ slice 5 s.chunk buffer, next := t.next + 1 } ∧
      InAssembly { s with
        ctapExpectedSeq := s.ctapExpectedSeq + 1
        ctapBuffer := dst
        ctapReceivedLen := s.ctapReceivedLen + s.chunk
        lastPacketTime := w.millis } (packetChannel buffer)
        { t with data := t.data ++ slice 5 s.chunk buffer, next := t.next + 1 } := by
  have hchunk : s.chunk = t.chunk := by
    rw [chunk_eq hs.received, ha.declared, ha.received]
    rfl
  have hpos : 0 < s.chunk := by
    have hless := hmore
    simp only [Transmission.complete, decide_eq_false_iff_not] at hless
    rw [hchunk, Transmission.chunk]
    omega
  constructor
  · rw [Transmission.continued, hmore, ← ha.next, hf.sequence, ← hchunk]
    simp [hf.whole]
  · obtain ⟨b, b', hb, rfl, -, htake⟩ := copyInto_some (slice_ne_nil hf.whole hpos) copied
    obtain ⟨b₀, hb₀, hstored⟩ := ha.stored
    rw [hb, Option.some.injEq] at hb₀
    subst hb₀
    have hlen : (t.data ++ slice 5 s.chunk buffer).length = s.ctapReceivedLen + s.chunk := by
      rw [List.length_append, slice_length hf.whole, ha.received]
    refine ⟨ha.channel, ha.cmd, ha.declared, hlen.symm, by rw [ha.next], b', rfl, ?_⟩
    rw [slice_length hf.whole, ha.received, hstored] at htake
    rw [hlen, ha.received]
    exact htake

/-- A transmission that gets a packet the receiver has no use for was given up. -/
theorem stray_reported (h : Tracking ts s) (hlen : 7 ≤ buffer.length)
    (hi : isInitialization buffer = false)
    (other : s.ctapExpectedLen = 0 ∨ packetChannel buffer ≠ s.ctapCurrentChannel) {t : Transmission}
    (ht : advance ts buffer acts (packetChannel buffer) = some t) : t.reported = true := by
  rw [advance_own hlen (continuation_notCancel hi)] at ht
  obtain ⟨u, hu, rfl⟩ := Option.map_eq_some_iff.mp ht
  rw [arrive, hi, if_neg Bool.false_ne_true] at hu
  obtain ⟨v, hv, hcont⟩ := Option.bind_eq_some_iff.mp hu
  unfold Transmission.continued at hcont
  split at hcont
  next hnext =>
    cases hcont
    simp only [Bool.and_eq_true, Bool.not_eq_true'] at hnext
    cases hr : v.reported with
    | true => simp [Transmission.answered]
    | false =>
      obtain ⟨hpos, hcur⟩ := h.only hv ⟨hnext.1.1, hr⟩
      rcases other with hz | hne
      · omega
      · exact absurd hcur.symm hne
  next => cases hcont

/-- A packet within 500 ms of the last one, or with nothing in assembly. -/
theorem onOutput_lands (h : Tracking ts s) (hs : s.Sound) (ha : s.Alone) (hlen : 7 ≤ buffer.length)
    (hfresh : s.expired w.millis = false) (hr : s.Respects w buffer) :
    ∃ acts s', s.onOutput w buffer = some (acts, s') ∧ s'.Sound ∧ Lands ts s buffer acts s' := by
  have hsame : s.expire w.millis = s := by rw [Receiver.expire, hfresh, if_neg Bool.false_ne_true]
  unfold Receiver.onOutput
  rw [if_neg (Nat.not_lt.mpr hlen), hsame]
  have hroom := hs.expected
  have hchunk := chunk_eq hs.received
  have hfits : (s.onPacket w buffer).Fits s w buffer := onPacket_fits hs hlen
  have hcases : OnPacket s w buffer (s.onPacket w buffer) := onPacket_cases
  have hyields := hr.slot
  -- what an initialization packet for a free slot finds
  have opens : Opening s buffer → 0 < declaredLen buffer ∧
      (s.ctapExpectedLen = 0 ∨ packetChannel buffer = s.ctapCurrentChannel) := by
    intro ho
    have hy := hyields ho.initial
    simp only [Receiver.yields, if_neg ho.notCancel, ho.free, Bool.false_eq_true, if_false,
      Bool.and_eq_true, bne_iff_ne, Bool.or_eq_true, beq_iff_eq] at hy
    exact ⟨Nat.pos_of_ne_zero hy.1, hy.2⟩
  -- a message in assembly has the pending slot free of other messages
  have free : s.ctapExpectedLen ≠ 0 → s.Free := fun hpos hp => by
    by_contra hc
    exact hpos (ha hp hc)
  have pending : ∀ r : Receiver, r.pendingDataCapacity = s.pendingDataCapacity →
      s.completing buffer = (if r.complete then some r.ctapExpectedLen else none) →
      r.complete = true → r.pendingDataCapacity < r.ctapExpectedLen → w.pendingAllocates = true := by
    intro r hcapacity hlast hcomplete hsmall
    refine hr.pending ?_
    rw [Receiver.asksPending, hsame, hlast, hcomplete, if_pos rfl]
    simp [hlen, ← hcapacity, hsmall]
  generalize s.onPacket w buffer = p at hfits hcases
  cases hcases with
  | cancel initial cancel =>
    have hfree : s.Free := by
      intro hp
      have hy := hyields initial
      rw [Receiver.yields, if_pos cancel] at hy
      simpa [hp] using hy
    refine ⟨_, _, rfl, { hs with held := Nat.zero_le _ }, ⟨?_, ?_, advance_request h.request⟩, ?_, ?_⟩
    · intro channel t ht ho
      rw [advance_cancel cancel] at ht
      exact { h.assembled channel t ht ho with }
    · intro hpos
      obtain ⟨t, ht, ho⟩ := h.tracked hpos
      exact ⟨t, by rw [advance_cancel cancel]; exact ht, ho⟩
    · exact fun _ hn => absurd rfl hn
    · rw [if_pos cancel, waiting_of_free hfree, waiting_of_free fun _ => rfl]
      rfl
  | ignored initial notCancel pending channel =>
    have hy := hyields initial
    simp [Receiver.yields, notCancel, pending, channel] at hy
  | busy initial notCancel pending channel =>
    have hy := hyields initial
    simp only [Receiver.yields, if_neg notCancel, pending, if_true, Bool.and_eq_true, bne_iff_ne,
      Bool.or_eq_true, beq_iff_eq] at hy
    exact ⟨_, _, rfl, hs, h.dropped notCancel
      (fun _ => advance_reported hlen notCancel (answersError_errorAct _ _)) (.inr ⟨rfl, hy.2⟩) ha rfl⟩
  | tooLong opening long =>
    exact ⟨_, _, rfl, { hs.idle with }, h.dropped opening.notCancel
      (fun _ => advance_reported hlen opening.notCancel (answersError_errorAct _ _))
      (.inl ⟨rfl, (opens opening).2⟩) (alone_of_idle rfl) rfl⟩
  | noMemory opening length small refused =>
    have hgiven := hr.assembly (by simp [Receiver.asksAssembly, hlen, opening.opens, length, small])
    rw [refused] at hgiven
    cases hgiven
  | cutShort opening length hg short =>
    refine ⟨_, _, rfl, ?_, h.dropped opening.notCancel ?_ (.inl ⟨rfl, (opens opening).2⟩)
      (alone_of_idle rfl) rfl⟩
    · exact ⟨hg.allocated hs, hs.pending, Nat.le_refl 0, Nat.zero_le _, hs.held⟩
    · intro t ht
      rw [advance_own hlen opening.notCancel, arrive, if_pos opening.initial, Hid.opening,
        if_neg (Nat.not_le.mpr short)] at ht
      cases ht
  | startFault opening length hg whole copied => cases hfits
  | started opening length hg whole copied =>
    obtain ⟨hpos, hempty⟩ := opens opening
    cases hfits with
    | taken sound capacity last given =>
      obtain ⟨s', hs', hsound, hlands⟩ := assembled_lands (w := w) h opening.notCancel
        (by rw [advance_own hlen opening.notCancel, arrive, if_pos opening.initial, Hid.opening,
          if_pos whole]; rfl) rfl hpos (started_assembles whole hpos copied) sound opening.free_of
        opening.waiting hempty (pending _ capacity last)
      exact ⟨[], s', congrArg (Option.map fun s => ([], s)) hs', hsound, hlands⟩
  | stray continuation other =>
    exact ⟨_, _, rfl, hs, h.dropped (continuation_notCancel continuation)
      (fun _ => stray_reported h hlen continuation other) (.inr ⟨rfl, other⟩) ha rfl⟩
  | outOfSequence continuation begun channel sequence =>
    have notCancel := continuation_notCancel continuation
    exact ⟨_, _, rfl, hs.idle, h.dropped notCancel
      (fun _ => advance_reported hlen notCancel (answersError_errorAct _ _))
      (.inl ⟨rfl, .inr channel⟩) (alone_of_idle rfl) rfl⟩
  | noRoom continuing full =>
    have hreceived := hs.received
    omega
  | cutOff continuing short =>
    have notCancel := continuation_notCancel continuing.continuation
    exact ⟨_, _, rfl, { hs.idle with }, h.dropped notCancel
      (fun _ => advance_reported hlen notCancel (answersError_errorAct _ _))
      (.inl ⟨rfl, .inr continuing.channel⟩) (alone_of_idle rfl) rfl⟩
  | continueFault fitting copied => cases hfits
  | continued fitting copied =>
    have notCancel := continuation_notCancel fitting.continuation
    have hfree : s.Free := free fitting.begun
    obtain ⟨t, ht, ho⟩ := h.tracked (Nat.pos_of_ne_zero fitting.begun)
    rw [← fitting.channel] at ht
    have hin := h.assembled _ t ht ho
    obtain ⟨hcont, hassembled⟩ := continued_assembles (w := w) fitting hin ho.1 hs copied
    have hdeclared : 0 < t.declared := by
      rw [← hin.declared]
      exact Nat.pos_of_ne_zero fitting.begun
    have hadvance : advance ts buffer [] (packetChannel buffer) =
        some { t with data := t.data ++ slice 5 s.chunk buffer, next := t.next + 1 } := by
      rw [advance_own hlen notCancel, arrive, fitting.continuation, if_neg Bool.false_ne_true, ht,
        Option.bind_some, hcont, Option.map_some, answered_nil]
    cases hfits with
    | taken sound capacity last given =>
      obtain ⟨s', hs', hsound, hlands⟩ := assembled_lands (w := w) h notCancel hadvance ho.2 hdeclared
        hassembled sound hfree (waiting_of_free hfree) (.inr fitting.channel) (pending _ capacity last)
      exact ⟨[], s', congrArg (Option.map fun s => ([], s)) hs', hsound, hlands⟩

/-! Runs. -/

@[simp] theorem expire_waiting (now : UInt32) : (s.expire now).waiting = s.waiting := by
  unfold Receiver.expire
  split <;> rfl

/-- A message that has waited too long is given up for the one that its channel
starts, so the others are as before. -/
theorem expired_lands (h : Tracking ts s) (hs : s.Sound) (hlen : 7 ≤ buffer.length)
    (hexpired : s.expired w.millis = true) (hr : s.Respects w buffer) :
    ∃ acts s', s.onOutput w buffer = some (acts, s') ∧ s'.Sound ∧ Lands ts s buffer acts s' := by
  have hrestarts := hr.prompt hexpired
  simp only [Receiver.restarts, Bool.and_eq_true, bne_iff_ne, Bool.not_eq_true', beq_iff_eq] at hrestarts
  obtain ⟨⟨⟨hi, hc⟩, hfree⟩, hcur⟩ := hrestarts
  have hopen : s.expire w.millis = { s.idle with ctapExpectedSeq := 0 } := by
    rw [Receiver.expire, hexpired, if_pos rfl]
  -- the same channels but for the one that starts anew
  let ts' : Channel → Option Transmission := fun c => if c = packetChannel buffer then none else ts c
  have hadvance : ∀ acts, advance ts' buffer acts = advance ts buffer acts := by
    intro acts
    funext channel
    by_cases hch : packetChannel buffer = channel
    · subst hch
      rw [advance_own hlen hc, advance_own hlen hc, arrive, arrive, if_pos hi, if_pos hi]
    · rw [advance_other hch, advance_other hch]
      exact if_neg fun he => hch he.symm
  have htracking : Tracking ts' (s.expire w.millis) := by
    rw [hopen]
    refine ⟨?_, fun hpos => absurd hpos (Nat.lt_irrefl 0), ?_⟩
    · intro channel t ht ho
      simp only [ts', Option.ite_none_left_eq_some] at ht
      obtain ⟨-, hsame⟩ := h.only ht.2 ho
      exact absurd (hsame.symm.trans hcur.symm) ht.1
    · intro channel t ht
      simp only [ts', Option.ite_none_left_eq_some] at ht
      exact h.request channel t ht.2
  have hempty : (s.expire w.millis).ctapExpectedLen = 0 := by rw [hopen]; rfl
  have hfresh : (s.expire w.millis).expired w.millis = false := by
    rw [Receiver.expired, hempty]
    rfl
  have hagain : (s.expire w.millis).expire w.millis = s.expire w.millis := by
    rw [Receiver.expire, hfresh, if_neg Bool.false_ne_true]
  have hrespects : (s.expire w.millis).Respects w buffer := by
    refine ⟨fun he => ?_, ?_, ?_, ?_⟩
    · rw [hfresh] at he
      cases he
    · rw [expire_asksAssembly]
      exact hr.assembly
    · have hpending := hr.pending
      rw [Receiver.asksPending] at hpending ⊢
      rw [hagain, expire_pendingDataCapacity]
      exact hpending
    · intro _
      have hy := hr.slot hi
      simp only [Receiver.yields, if_neg hc, hfree, Bool.false_eq_true, if_false, Bool.and_eq_true] at hy
      simp only [Receiver.yields, if_neg hc, expire_hasPendingCommand, hfree, Bool.false_eq_true,
        if_false, hempty, hy.1]
      rfl
  obtain ⟨acts, s', hout, hsound, hl⟩ := onOutput_lands htracking (hs.expire w.millis)
    (alone_of_idle hempty) hlen hfresh hrespects
  have hsame : (s.expire w.millis).onOutput w buffer = s.onOutput w buffer := by
    have hlong : ¬buffer.length < 7 := Nat.not_lt.mpr hlen
    rw [Receiver.onOutput, Receiver.onOutput, if_neg hlong, if_neg hlong, hagain]
  refine ⟨acts, s', hsame ▸ hout, hsound, ⟨hadvance acts ▸ hl.tracking, hl.alone, ?_⟩⟩
  rw [hl.waiting, expire_waiting, hadvance]

/-- What holds of a receiver whose packets so far met the condition. -/
structure Faithful (past : History) (d : State) : Prop where
  sound : d.receiver.Sound
  alone : d.receiver.Alone
  tracking : Tracking (fun channel => transmission channel past) d.receiver
  delivered : accepted past = handedOn past ++ d.receiver.waiting

theorem poll_waiting {out : Option Message}
    (hw : s.hasPendingCommand = true → s.pendingLen ≠ 0 → w.copyAllocates = true)
    (h : s.poll w = some (out, s')) :
    (s' = s ∨ s' = { s with hasPendingCommand := false }) ∧
      s.waiting = out.toList.filter Message.isRequest ++ s'.waiting := by
  unfold Receiver.poll at h
  simp only at h
  cases hp : s.hasPendingCommand with
  | false =>
    rw [hp] at h
    cases h
    exact ⟨.inl rfl, by simp⟩
  | true =>
    rw [hp] at h
    simp only [Bool.not_true, Bool.false_eq_true, if_false] at h
    have htaken : ({ s with hasPendingCommand := false } : Receiver).waiting = [] :=
      waiting_of_free fun he => by cases he
    by_cases hz : s.pendingLen = 0
    · rw [if_pos hz] at h
      cases h
      refine ⟨.inr rfl, ?_⟩
      rw [htaken]
      simp [Receiver.waiting, Receiver.pendingMessage, hp, hz]
    · rw [if_neg hz, hw hp hz] at h
      obtain ⟨data, hdata, hpair⟩ := Option.map_eq_some_iff.mp h
      cases hpair
      obtain ⟨b, hb, -, rfl⟩ := copyFrom_some (Nat.pos_of_ne_zero hz) hdata
      refine ⟨.inr rfl, ?_⟩
      rw [htaken]
      simp [Receiver.waiting, Receiver.pendingMessage, hp, hb]

theorem takeCancel_waiting (channel : Channel) :
    (s.takeCancel channel = s ∨ s.takeCancel channel = { s with hasPendingCommand := false }) ∧
      s.waiting = (s.takeCancel channel).waiting := by
  unfold Receiver.takeCancel
  split
  next hcancel =>
    simp only [Bool.and_eq_true, beq_iff_eq] at hcancel
    refine ⟨.inr rfl, ?_⟩
    rw [waiting_of_free fun _ => hcancel.1.2, waiting_of_free fun he => by cases he]
  next => exact ⟨.inl rfl, rfl⟩

theorem handedOn_cons {e : Entry} (h : e.output.filterMap Act.message = []) :
    handedOn (e :: past) = handedOn past := by
  rw [handedOn, h, List.filter_nil, List.append_nil]

theorem Faithful.output {d : State} {i : Input} (h : Faithful past d) (he : i.event = .output buffer)
    (hr : 7 ≤ buffer.length → d.receiver.Respects i.surroundings buffer) :
    Faithful (Trace.entry step d i :: past) (step d i).2 := by
  have hpackets : ∀ acts after, (fun channel => transmission channel
      ((⟨d, i, acts, after⟩ : Entry) :: past)) =
        advance (fun channel => transmission channel past) buffer acts := by
    intro acts after
    funext channel
    rw [transmission, he]
    rfl
  have hstep : ∀ acts s', d.receiver.onOutput i.surroundings buffer = some (acts, s') →
      step d i = (acts, { d with receiver := s' }) := by
    intro acts s' hs
    rw [step, he]
    simp only [hs]
  by_cases hlen : 7 ≤ buffer.length
  · have hland : ∃ acts s', d.receiver.onOutput i.surroundings buffer = some (acts, s') ∧ s'.Sound ∧
        Lands (fun channel => transmission channel past) d.receiver buffer acts s' := by
      cases hexp : d.receiver.expired i.surroundings.millis with
      | false => exact onOutput_lands h.tracking h.sound h.alone hlen hexp (hr hlen)
      | true => exact expired_lands h.tracking h.sound hlen hexp (hr hlen)
    obtain ⟨acts, s', hout, hsound, hl⟩ := hland
    have hs := hstep acts s' hout
    have hacts : acts.filterMap Act.message = [] :=
      List.eq_nil_iff_forall_not_mem.mpr fun m hm => onOutput_acts hout (mem_handed.mpr hm)
    have haccepted : ∀ after, acceptedBy past ⟨d, i, acts, after⟩ =
        if packetByte buffer = ctaphidCancel then none
        else settled (packetChannel buffer)
          (advance (fun channel => transmission channel past) buffer acts (packetChannel buffer)) := by
      intro after
      rw [acceptedBy, ← hpackets acts after]
      simp only [he, Event.packet, hlen, decide_true, beq_self_eq_true, Bool.true_and, bne_iff_ne]
      by_cases hc : packetByte buffer = ctaphidCancel
      · simp [hc]
      · simp only [ne_eq, hc, not_false_eq_true, if_true, Option.isSome_some, if_false]
        rfl
    rw [Trace.entry, hs]
    refine ⟨hsound, hl.alone, ?_, ?_⟩
    · rw [hpackets]
      exact hl.tracking
    · rw [handedOn_cons hacts, accepted, h.delivered, List.append_assoc, haccepted]
      change _ = handedOn past ++ s'.waiting
      rw [hl.waiting]
  · have hout : d.receiver.onOutput i.surroundings buffer = some ([], d.receiver) :=
      if_pos (Nat.not_le.mp hlen)
    have hs := hstep _ _ hout
    have hnone : ∀ channel, i.event.packet channel = none := by
      intro channel
      simp [he, Event.packet, hlen]
    have hsame : ∀ channel, transmission channel (Trace.entry step d i :: past) =
        transmission channel past := by
      intro channel
      simp only [transmission, Trace.entry, hnone]
    refine ⟨by rw [hs]; exact h.sound, by rw [hs]; exact h.alone, ?_, ?_⟩
    · simp only [hsame, hs]
      exact h.tracking
    · have haccepted : acceptedBy past (Trace.entry step d i) = none := by
        simp only [acceptedBy, Trace.entry, he]
        rw [← he, hnone]
        rfl
      rw [handedOn_cons (by rw [Trace.entry, hs]; rfl), accepted, haccepted, h.delivered, hs]
      exact List.append_nil _

/-- A step without a packet that at most takes what is in the pending slot. -/
theorem Faithful.taken {d : State} {i : Input} {s' : Receiver} (h : Faithful past d)
    (he : ∀ buffer, i.event ≠ .output buffer) (hr : (step d i).2.receiver = s')
    (hs' : s' = d.receiver ∨ s' = { d.receiver with hasPendingCommand := false })
    (hw : d.receiver.waiting =
      ((step d i).1.filterMap Act.message).filter Message.isRequest ++ s'.waiting) :
    Faithful (Trace.entry step d i :: past) (step d i).2 := by
  have hnone : ∀ channel, i.event.packet channel = none := by
    intro channel
    cases hevent : i.event with
    | output buffer => exact absurd hevent (he buffer)
    | poll => rfl
    | awaitFinger channel => rfl
  have haccepted : acceptedBy past (Trace.entry step d i) = none := by
    simp only [acceptedBy, Trace.entry]
  have hsame : ∀ channel, transmission channel (Trace.entry step d i :: past) =
      transmission channel past := by
    intro channel
    simp only [transmission, Trace.entry, hnone]
  have hdelivered : accepted (Trace.entry step d i :: past) =
      handedOn (Trace.entry step d i :: past) ++ s'.waiting := by
    rw [accepted, haccepted, h.delivered, handedOn, hw, Option.toList_none, List.append_nil,
      List.append_assoc]
    rfl
  have htracking := h.tracking
  rcases hs' with rfl | rfl
  · refine ⟨hr ▸ h.sound, hr ▸ h.alone, ?_, hr ▸ hdelivered⟩
    simp only [hsame, hr]
    exact htracking
  · refine ⟨hr ▸ { h.sound with }, hr ▸ (fun hp => by cases hp), ?_, hr ▸ hdelivered⟩
    simp only [hsame, hr]
    exact ⟨fun channel t ht ho => { htracking.assembled channel t ht ho with },
      htracking.tracked, htracking.request⟩

theorem acts_message (channel : Channel) (handled : Handled) :
    (handled.acts channel).filterMap Act.message = [] := by
  cases handled <;> rfl

theorem Faithful.step {d : State} {i : Input} (h : Faithful past d) (hc : Respectful past d i) :
    Faithful (Trace.entry Hid.step d i :: past) (Hid.step d i).2 := by
  unfold Respectful at hc
  cases hevent : i.event with
  | output buffer =>
    rw [hevent] at hc
    exact h.output hevent hc
  | poll =>
    rw [hevent] at hc
    obtain ⟨out, s', hs, -⟩ := poll_sound (w := i.surroundings) h.sound
    obtain ⟨hs', hw⟩ := poll_waiting hc hs
    have hstep : (Hid.step d i).2.receiver = s' ∧
        (Hid.step d i).1.filterMap Act.message = out.toList := by
      rw [Hid.step, hevent]
      simp only [hs]
      cases out with
      | none => exact ⟨rfl, rfl⟩
      | some m =>
        refine ⟨rfl, ?_⟩
        rw [List.filterMap_cons, acts_message]
        rfl
    refine h.taken (by simp [hevent]) hstep.1 hs' ?_
    rw [hstep.2]
    exact hw
  | awaitFinger channel =>
    obtain ⟨hs', hw⟩ := takeCancel_waiting (s := d.receiver) channel
    have hstep : Hid.step d i = ([], { d with receiver := d.receiver.takeCancel channel }) := by
      rw [Hid.step, hevent]
    refine h.taken (by simp [hevent]) (by rw [hstep]) hs' ?_
    rw [hstep]
    exact hw

theorem initial_faithful : Faithful [] initial where
  sound := initial_sound
  alone := fun hp => by cases hp
  tracking := ⟨fun _ _ ht => (by cases ht), fun hpos => absurd hpos (Nat.lt_irrefl 0),
    fun _ _ ht => (by cases ht)⟩
  delivered := rfl

/-- In a run whose steps meet the condition, every message whose bytes have all
come without an error is handed on once, in order, or waits to be; and every one
under way is still in assembly. -/
theorem requests_delivered (inputs : List Input)
    (hg : Trace.Guarded step Respectful initial inputs) : Trace.Always Delivered (run inputs) := by
  refine Trace.always (I := Faithful) (fun _ _ _ h hc => h.step hc) ?_ initial_faithful hg
  intro past d i h hc
  have hf := h.step hc
  exact ⟨hf.delivered, fun channel t ht hmore hreported =>
    hf.tracking.assembled channel t ht ⟨hmore, hreported⟩⟩

/-- A report, at a time at which nothing is too late. -/
def report (packet : Bytes) : Input := ⟨.output packet, { millis := 1 }⟩

def turn : Input := ⟨.poll, { millis := 1 }⟩

/-- A PING in two packets, with one of another channel turned away in between. -/
def shared : List Input :=
  (sendCtapResponse 1 ctaphidPing (zeros 100)).map report ++
    [report (initializationPacket 2 ctaphidPing [1]), turn]

theorem requests_delivered_shared : Trace.Always Delivered (run shared) :=
  requests_delivered shared (by decide +kernel)

/-- A CANCEL comes before the main loop has taken the PING of another channel. -/
def overtaken : List Input :=
  [report (initializationPacket 1 ctaphidPing [1]), report (initializationPacket 2 ctaphidCancel []), turn]

/-- A PING without data. -/
def empty : List Input := [report (initializationPacket 1 ctaphidPing []), turn]

theorem overtaken_lost : ¬Trace.Always Delivered (run overtaken) ∧ ¬Trace.Always Delivered (run empty) := by
  have lost : ∀ inputs, ¬Trace.Always (fun past e =>
      accepted (e :: past) = handedOn (e :: past) ++ e.after.receiver.waiting) (run inputs) →
      ¬Trace.Always Delivered (run inputs) :=
    fun inputs hn h => hn (h.imp fun _ _ hd => hd.1)
  exact ⟨lost _ (by decide +kernel), lost _ (by decide +kernel)⟩

end GoiKey.Hid
