import GoiKey.Model.Hid

/-! Every way _onOutput deals with one packet, up to the hand-over. -/

namespace GoiKey.Hid

variable {s : Receiver} {w : Surroundings} {buffer : Bytes}

/-- An initialization packet that gets past the look at the pending slot. -/
structure Opening (s : Receiver) (buffer : Bytes) : Prop where
  initial : isInitialization buffer = true
  notCancel : packetByte buffer ≠ ctaphidCancel
  free : s.hasPendingCommand = false

/-- The receiver with the header of a new message. -/
def Receiver.opened (s : Receiver) (buffer : Bytes) : Receiver :=
  { s with
    ctapCurrentCmd := packetByte buffer
    ctapExpectedLen := declaredLen buffer
    ctapCurrentChannel := packetChannel buffer }

/-- The assembly buffer and its capacity, large enough for a message. -/
inductive Grown (s : Receiver) (w : Surroundings) (n : Nat) : Option Bytes → Nat → Prop where
  | kept (room : n ≤ s.ctapBufferCapacity) : Grown s w n s.ctapBuffer s.ctapBufferCapacity
  | renewed (small : s.ctapBufferCapacity < n) (given : w.assemblyAllocates = true) :
    Grown s w n (some (padTo n w.memory)) n

theorem Grown.room {n : Nat} {memory : Option Bytes} {capacity : Nat}
    (h : Grown s w n memory capacity) : n ≤ capacity := by
  cases h with
  | kept room => exact room
  | renewed small given => exact Nat.le_refl n

/-- The bytes an initialization packet brings. -/
def openingChunk (buffer : Bytes) : Nat := min 57 (declaredLen buffer)

/-- A continuation packet for the message in assembly, in sequence. -/
structure Continuing (s : Receiver) (buffer : Bytes) : Prop where
  continuation : isInitialization buffer = false
  begun : s.ctapExpectedLen ≠ 0
  channel : packetChannel buffer = s.ctapCurrentChannel
  sequence : packetByte buffer = s.ctapExpectedSeq

/-- The same with all its bytes and room for them. -/
structure Fitting (s : Receiver) (buffer : Bytes) : Prop extends Continuing s buffer where
  room : s.ctapReceivedLen + s.chunk ≤ s.ctapBufferCapacity
  whole : 5 + s.chunk ≤ buffer.length

/-- The outcomes for a packet, by what decides them. -/
inductive OnPacket (s : Receiver) (w : Surroundings) (buffer : Bytes) : Progress → Prop where
  | cancel (initial : isInitialization buffer = true) (cancel : packetByte buffer = ctaphidCancel) :
    OnPacket s w buffer (.returned [] { s with
      pendingChannel := packetChannel buffer
      pendingCmd := ctaphidCancel
      pendingLen := 0
      hasPendingCommand := true })
  | ignored (initial : isInitialization buffer = true)
    (notCancel : packetByte buffer ≠ ctaphidCancel) (pending : s.hasPendingCommand = true)
    (channel : packetChannel buffer = s.pendingChannel) : OnPacket s w buffer (.returned [] s)
  | busy (initial : isInitialization buffer = true)
    (notCancel : packetByte buffer ≠ ctaphidCancel) (pending : s.hasPendingCommand = true)
    (channel : packetChannel buffer ≠ s.pendingChannel) :
    OnPacket s w buffer (.returned [errorAct (packetChannel buffer) 0x05] s)
  | tooLong (opening : Opening s buffer) (long : 7609 < declaredLen buffer) :
    OnPacket s w buffer
      (.returned [errorAct (packetChannel buffer) 0x01] (s.opened buffer).idle)
  | noMemory (opening : Opening s buffer) (length : declaredLen buffer ≤ 7609)
    (small : s.ctapBufferCapacity < declaredLen buffer) (refused : w.assemblyAllocates = false) :
    OnPacket s w buffer
      (.returned [errorAct (packetChannel buffer) 0x01] { s.opened buffer with ctapBuffer := none })
  | cutShort {memory : Option Bytes} {capacity : Nat} (opening : Opening s buffer)
    (length : declaredLen buffer ≤ 7609) (grown : Grown s w (declaredLen buffer) memory capacity)
    (short : buffer.length < 7 + openingChunk buffer) :
    OnPacket s w buffer (.returned [] ({ s.opened buffer with
      ctapBuffer := memory, ctapBufferCapacity := capacity } : Receiver).idle)
  | startFault {memory : Option Bytes} {capacity : Nat} (opening : Opening s buffer)
    (length : declaredLen buffer ≤ 7609) (grown : Grown s w (declaredLen buffer) memory capacity)
    (whole : 7 + openingChunk buffer ≤ buffer.length)
    (copied : copyInto memory 0 (slice 7 (openingChunk buffer) buffer) = none) :
    OnPacket s w buffer .fault
  | started {memory b : Option Bytes} {capacity : Nat} (opening : Opening s buffer)
    (length : declaredLen buffer ≤ 7609) (grown : Grown s w (declaredLen buffer) memory capacity)
    (whole : 7 + openingChunk buffer ≤ buffer.length)
    (copied : copyInto memory 0 (slice 7 (openingChunk buffer) buffer) = some b) :
    OnPacket s w buffer (.taken { s.opened buffer with
      ctapBuffer := b
      ctapBufferCapacity := capacity
      ctapReceivedLen := openingChunk buffer
      ctapExpectedSeq := 0
      lastPacketTime := w.millis })
  | stray (continuation : isInitialization buffer = false)
    (other : s.ctapExpectedLen = 0 ∨ packetChannel buffer ≠ s.ctapCurrentChannel) :
    OnPacket s w buffer (.returned [] s)
  | outOfSequence (continuation : isInitialization buffer = false) (begun : s.ctapExpectedLen ≠ 0)
    (channel : packetChannel buffer = s.ctapCurrentChannel)
    (sequence : packetByte buffer ≠ s.ctapExpectedSeq) :
    OnPacket s w buffer (.returned [errorAct (packetChannel buffer) 0x04] s.idle)
  | noRoom (continuing : Continuing s buffer)
    (full : s.ctapBufferCapacity < s.ctapReceivedLen + s.chunk) :
    OnPacket s w buffer (.returned [errorAct (packetChannel buffer) 0x01]
      ({ s with ctapExpectedSeq := s.ctapExpectedSeq + 1 } : Receiver).idle)
  | cutOff (continuing : Continuing s buffer) (short : buffer.length < 5 + s.chunk) :
    OnPacket s w buffer (.returned [errorAct (packetChannel buffer) 0x01]
      ({ s with ctapExpectedSeq := s.ctapExpectedSeq + 1 } : Receiver).idle)
  | continueFault (fitting : Fitting s buffer)
    (copied : copyInto s.ctapBuffer s.ctapReceivedLen (slice 5 s.chunk buffer) = none) :
    OnPacket s w buffer .fault
  | continued {b : Option Bytes} (fitting : Fitting s buffer)
    (copied : copyInto s.ctapBuffer s.ctapReceivedLen (slice 5 s.chunk buffer) = some b) :
    OnPacket s w buffer (.taken { s with
      ctapExpectedSeq := s.ctapExpectedSeq + 1
      ctapBuffer := b
      ctapReceivedLen := s.ctapReceivedLen + s.chunk
      lastPacketTime := w.millis })

theorem growAssembly_cases (w : Surroundings) :
    (s.ctapBufferCapacity < s.ctapExpectedLen ∧ w.assemblyAllocates = false ∧
        s.growAssembly w = none) ∨
      ∃ memory capacity, Grown s w s.ctapExpectedLen memory capacity ∧
        s.growAssembly w = some { s with ctapBuffer := memory, ctapBufferCapacity := capacity } := by
  unfold Receiver.growAssembly
  by_cases hsmall : s.ctapBufferCapacity < s.ctapExpectedLen
  · rw [if_pos hsmall]
    cases hw : w.assemblyAllocates with
    | false => exact .inl ⟨hsmall, rfl, rfl⟩
    | true => exact .inr ⟨_, _, .renewed hsmall hw, rfl⟩
  · rw [if_neg hsmall]
    exact .inr ⟨_, _, .kept (Nat.not_lt.mp hsmall), rfl⟩

theorem Grown.of_opened {n : Nat} {memory : Option Bytes} {capacity : Nat}
    (h : Grown (s.opened buffer) w n memory capacity) : Grown s w n memory capacity := by
  cases h with
  | kept room => exact .kept room
  | renewed small given => exact .renewed small given

theorem startMessage_cases (ho : Opening s buffer) :
    OnPacket s w buffer (s.startMessage w buffer) := by
  unfold Receiver.startMessage
  simp only
  by_cases hlong : 7609 < declaredLen buffer
  · rw [if_pos hlong]
    exact .tooLong ho hlong
  rw [if_neg hlong]
  have hlength : declaredLen buffer ≤ 7609 := Nat.not_lt.mp hlong
  have hopened : s.opened buffer = { s with
      ctapCurrentCmd := packetByte buffer
      ctapExpectedLen := declaredLen buffer
      ctapCurrentChannel := packetChannel buffer } := rfl
  rw [← hopened]
  rcases growAssembly_cases (s := s.opened buffer) w with
    ⟨hsmall, hw, hgrow⟩ | ⟨memory, capacity, hgrown, hgrow⟩
  · rw [hgrow]
    exact .noMemory ho hlength hsmall hw
  · rw [hgrow]
    have hg : Grown s w (declaredLen buffer) memory capacity := hgrown.of_opened
    have hchunk : min 57 (s.opened buffer).ctapExpectedLen = openingChunk buffer := rfl
    simp only
    rw [hchunk]
    by_cases hshort : buffer.length < 7 + openingChunk buffer
    · rw [if_pos hshort]
      exact .cutShort ho hlength hg hshort
    · rw [if_neg hshort]
      have hwhole : 7 + openingChunk buffer ≤ buffer.length := Nat.not_lt.mp hshort
      cases hcopy : copyInto memory 0 (slice 7 (openingChunk buffer) buffer) with
      | none => exact .startFault ho hlength hg hwhole hcopy
      | some b => exact .started ho hlength hg hwhole hcopy

theorem onInitialization_cases (hi : isInitialization buffer = true) :
    OnPacket s w buffer (s.onInitialization w buffer) := by
  unfold Receiver.onInitialization
  simp only
  by_cases hc : packetByte buffer = ctaphidCancel
  · rw [if_pos hc]
    exact .cancel hi hc
  rw [if_neg hc]
  cases hp : s.hasPendingCommand with
  | false =>
    simp only [Bool.false_and, Bool.false_eq_true, if_false]
    exact startMessage_cases ⟨hi, hc, hp⟩
  | true =>
    by_cases hch : packetChannel buffer = s.pendingChannel
    · simp only [hch, beq_self_eq_true, Bool.and_self, if_true]
      exact .ignored hi hc hp hch
    · simp only [beq_eq_false_iff_ne.mpr hch, Bool.and_false, Bool.false_eq_true, if_false, if_true]
      exact .busy hi hc hp hch

theorem onContinuation_cases (hi : isInitialization buffer = false) :
    OnPacket s w buffer (s.onContinuation w buffer) := by
  unfold Receiver.onContinuation
  simp only
  split
  next hother =>
    simp only [Bool.or_eq_true, decide_eq_true_eq, bne_iff_ne] at hother
    exact .stray hi hother
  next hother =>
    simp only [Bool.or_eq_true, decide_eq_true_eq, bne_iff_ne, not_or, not_not] at hother
    obtain ⟨hb, hch⟩ := hother
    split
    next hseq => exact .outOfSequence hi hb hch hseq
    next hseq =>
      have hc : Continuing s buffer := ⟨hi, hb, hch, not_not.mp hseq⟩
      split
      next hfull =>
        simp only [Bool.or_eq_true, decide_eq_true_eq] at hfull
        exact .noRoom hc (by omega)
      next hfull =>
        simp only [Bool.or_eq_true, decide_eq_true_eq] at hfull
        split
        next hshort => exact .cutOff hc hshort
        next hshort =>
          have hf : Fitting s buffer := { hc with room := by omega, whole := Nat.not_lt.mp hshort }
          cases hcopy : copyInto s.ctapBuffer s.ctapReceivedLen (slice 5 s.chunk buffer) with
          | none => exact .continueFault hf hcopy
          | some b => exact .continued hf hcopy

theorem onPacket_cases : OnPacket s w buffer (s.onPacket w buffer) := by
  unfold Receiver.onPacket
  cases hi : isInitialization buffer with
  | true => exact onInitialization_cases hi
  | false => exact onContinuation_cases hi

end GoiKey.Hid
