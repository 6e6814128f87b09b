import GoiKey.Proofs.HidPackets

/-!
The two buffers of the receiver: what the recorded capacities and lengths
promise about the memory behind the pointers.
-/

namespace GoiKey.Hid

variable {s s' : Receiver} {w : Surroundings} {buffer : Bytes} {dst src : Option Bytes} {c n : Nat}

/-- A positive capacity is the capacity of memory that is there. -/
def Allocated (memory : Option Bytes) (capacity : Nat) : Prop :=
  0 < capacity → ∃ b, memory = some b ∧ capacity ≤ b.length

instance (memory : Option Bytes) (capacity : Nat) : Decidable (Allocated memory capacity) :=
  match memory with
  | none => decidable_of_iff (¬0 < capacity) (by simp [Allocated])
  | some b => decidable_of_iff (0 < capacity → capacity ≤ b.length) (by simp [Allocated])

/-- What keeps every copy in bounds. -/
structure Receiver.Sound (s : Receiver) : Prop where
  assembly : Allocated s.ctapBuffer s.ctapBufferCapacity
  pending : Allocated s.pendingData s.pendingDataCapacity
  received : s.ctapReceivedLen ≤ s.ctapExpectedLen
  expected : s.ctapExpectedLen ≤ s.ctapBufferCapacity
  held : s.pendingLen ≤ s.pendingDataCapacity

instance (s : Receiver) : Decidable s.Sound :=
  decidable_of_iff
    (Allocated s.ctapBuffer s.ctapBufferCapacity ∧ Allocated s.pendingData s.pendingDataCapacity ∧
      s.ctapReceivedLen ≤ s.ctapExpectedLen ∧ s.ctapExpectedLen ≤ s.ctapBufferCapacity ∧
      s.pendingLen ≤ s.pendingDataCapacity)
    ⟨fun h => ⟨h.1, h.2.1, h.2.2.1, h.2.2.2.1, h.2.2.2.2⟩,
      fun h => ⟨h.assembly, h.pending, h.received, h.expected, h.held⟩⟩

/-- The step leaves the receiver sound and copies nothing outside a buffer. -/
def BuffersSound (_ : History) (e : Entry) : Prop :=
  e.after.receiver.Sound ∧ .fault ∉ e.output

instance (past : History) (e : Entry) : Decidable (BuffersSound past e) :=
  inferInstanceAs (Decidable (_ ∧ _))

/-- An initialization packet that a message may begin with. -/
def Receiver.opens (s : Receiver) (buffer : Bytes) : Bool :=
  isInitialization buffer && packetByte buffer != ctaphidCancel && !s.hasPendingCommand &&
    declaredLen buffer ≤ 7609

/-- _onOutput asks for a larger assembly buffer. -/
def Receiver.asksAssembly (s : Receiver) (buffer : Bytes) : Bool :=
  7 ≤ buffer.length && s.opens buffer && s.ctapBufferCapacity < declaredLen buffer

/-- The length of the message whose last bytes the packet brings. -/
def Receiver.completing (s : Receiver) (buffer : Bytes) : Option Nat :=
  if isInitialization buffer then
    if s.opens buffer && 0 < declaredLen buffer && declaredLen buffer ≤ 57 &&
        7 + declaredLen buffer ≤ buffer.length then some (declaredLen buffer) else none
  else if s.ctapExpectedLen != 0 && packetChannel buffer == s.ctapCurrentChannel &&
      packetByte buffer == s.ctapExpectedSeq && s.ctapExpectedLen ≤ s.ctapReceivedLen + 59 &&
      5 + (s.ctapExpectedLen - s.ctapReceivedLen) ≤ buffer.length then some s.ctapExpectedLen
  else none

/-- _onOutput asks for a larger buffer for the pending message. -/
def Receiver.asksPending (s : Receiver) (now : UInt32) (buffer : Bytes) : Bool :=
  7 ≤ buffer.length && ((s.expire now).completing buffer).any (s.pendingDataCapacity < ·)

/-- The condition of a step: a buffer that has to grow gets its memory. -/
def GrowthAllocates (_ : History) (s : State) (i : Input) : Prop :=
  match i.event with
  | .output buffer =>
    (s.receiver.asksAssembly buffer = true → i.surroundings.assemblyAllocates = true) ∧
      (s.receiver.asksPending i.surroundings.millis buffer = true →
        i.surroundings.pendingAllocates = true)
  | _ => True

instance (past : History) (s : State) (i : Input) : Decidable (GrowthAllocates past s i) :=
  match i with
  | ⟨.output buffer, w⟩ => inferInstanceAs (Decidable
      ((s.receiver.asksAssembly buffer = true → w.assemblyAllocates = true) ∧
        (s.receiver.asksPending w.millis buffer = true → w.pendingAllocates = true)))
  | ⟨.poll, _⟩ => .isTrue trivial
  | ⟨.awaitFinger _, _⟩ => .isTrue trivial

/-! Copies between buffers. -/

theorem malloc_allocated (memory : Bytes) (n : Nat) : Allocated (malloc true memory n) n :=
  fun _ => ⟨padTo n memory, rfl, (padTo_length n memory).ge⟩

theorem copyInto_allocated {offset : Nat} {b : Bytes} (h : Allocated dst c)
    (hc : offset + b.length ≤ c) : ∃ dst', copyInto dst offset b = some dst' ∧ Allocated dst' c := by
  by_cases hb : b = []
  · exact ⟨dst, if_pos hb, h⟩
  · have hlen : 0 < b.length := List.length_pos_iff.mpr hb
    obtain ⟨m, rfl, hm⟩ := h (by omega)
    have hin : offset + b.length ≤ m.length := by omega
    refine ⟨_, by rw [copyInto, if_neg hb]; exact if_pos hin, ?_⟩
    intro _
    refine ⟨_, rfl, ?_⟩
    simp only [List.length_append, List.length_take, List.length_drop]
    omega

theorem copyFrom_allocated (h : Allocated src c) (hn : n ≤ c) :
    ∃ b, copyFrom src n = some b ∧ b.length = n := by
  by_cases hz : n = 0
  · exact ⟨[], if_pos hz, hz.symm⟩
  · obtain ⟨m, rfl, hm⟩ := h (by omega)
    have hin : n ≤ m.length := by omega
    refine ⟨m.take n, by rw [copyFrom, if_neg hz]; exact if_pos hin, ?_⟩
    rw [List.length_take]
    omega

theorem slice_length_le (start len : Nat) (b : Bytes) : (slice start len b).length ≤ len := by
  rw [slice, List.length_take]
  omega

/-! The parts of _onOutput. -/

theorem Receiver.Sound.idle (h : s.Sound) : s.idle.Sound :=
  { h with received := Nat.le_refl 0, expected := Nat.zero_le _ }

theorem Receiver.Sound.expire (h : s.Sound) (now : UInt32) : (s.expire now).Sound := by
  unfold Receiver.expire
  split
  · exact { h.idle with }
  · exact h

@[simp] theorem expire_hasPendingCommand (now : UInt32) :
    (s.expire now).hasPendingCommand = s.hasPendingCommand := by
  unfold Receiver.expire
  split <;> rfl

@[simp] theorem expire_ctapBufferCapacity (now : UInt32) :
    (s.expire now).ctapBufferCapacity = s.ctapBufferCapacity := by
  unfold Receiver.expire
  split <;> rfl

@[simp] theorem expire_pendingDataCapacity (now : UInt32) :
    (s.expire now).pendingDataCapacity = s.pendingDataCapacity := by
  unfold Receiver.expire
  split <;> rfl

/-- The missing bytes of a sound receiver fit in 16 bits, so nothing wraps. -/
theorem chunk_eq (h : s.ctapReceivedLen ≤ s.ctapExpectedLen) :
    s.chunk = min 59 (s.ctapExpectedLen - s.ctapReceivedLen) := by
  unfold Receiver.chunk
  split <;> omega

/-- What a packet leaves behind: a sound receiver, unless the larger assembly
buffer it needs is refused; in a sound one the message is complete when the
packet was its last. -/
inductive Progress.Fits (s : Receiver) (w : Surroundings) (buffer : Bytes) : Progress → Prop where
  | returned {acts : List Act} {s' : Receiver} (sound : s'.Sound) (faultless : .fault ∉ acts)
    (kept : s.completing buffer = none)
    (given : s.asksAssembly buffer = true → w.assemblyAllocates = true) :
    Progress.Fits s w buffer (.returned acts s')
  | refused {acts : List Act} {s' : Receiver} (unsound : ¬s'.Sound) (faultless : .fault ∉ acts)
    (asks : s.asksAssembly buffer = true) (refused : w.assemblyAllocates = false) :
    Progress.Fits s w buffer (.returned acts s')
  | taken {s' : Receiver} (sound : s'.Sound) (same : s'.pendingDataCapacity = s.pendingDataCapacity)
    (last : s.completing buffer = if s'.complete then some s'.ctapExpectedLen else none)
    (given : s.asksAssembly buffer = true → w.assemblyAllocates = true) :
    Progress.Fits s w buffer (.taken s')

theorem errorAct_ne_fault (channel : Channel) (code : UInt8) : .fault ∉ [errorAct channel code] := by
  simp [errorAct]

theorem Opening.opens (h : Opening s buffer) : s.opens buffer = decide (declaredLen buffer ≤ 7609) := by
  simp [Receiver.opens, h.initial, h.notCancel, h.free]

theorem Opening.completing (h : Opening s buffer) : s.completing buffer =
    if declaredLen buffer ≤ 7609 ∧ 0 < declaredLen buffer ∧ declaredLen buffer ≤ 57 ∧
      7 + declaredLen buffer ≤ buffer.length then some (declaredLen buffer) else none := by
  simp [Receiver.completing, h.initial, h.opens, and_assoc]

theorem Continuing.completing (h : Continuing s buffer) : s.completing buffer =
    if s.ctapExpectedLen ≤ s.ctapReceivedLen + 59 ∧
      5 + (s.ctapExpectedLen - s.ctapReceivedLen) ≤ buffer.length
    then some s.ctapExpectedLen else none := by
  simp [Receiver.completing, h.continuation, h.begun, h.channel, h.sequence]

theorem Grown.allocated {memory : Option Bytes} {capacity : Nat} (h : s.Sound)
    (hg : Grown s w n memory capacity) : Allocated memory capacity := by
  cases hg with
  | kept room => exact h.assembly
  | renewed small given => exact malloc_allocated w.memory n

theorem Grown.copied {memory : Option Bytes} {capacity : Nat} (h : s.Sound)
    (hg : Grown s w (declaredLen buffer) memory capacity) :
    ∃ b, copyInto memory 0 (slice 7 (openingChunk buffer) buffer) = some b ∧
      Allocated b capacity := by
  have hfit := slice_length_le 7 (openingChunk buffer) buffer
  have hroom := hg.room
  have hchunk : openingChunk buffer ≤ declaredLen buffer := Nat.min_le_right _ _
  exact copyInto_allocated (hg.allocated h) (by omega)

theorem Fitting.copied (h : s.Sound) (hf : Fitting s buffer) :
    ∃ b, copyInto s.ctapBuffer s.ctapReceivedLen (slice 5 s.chunk buffer) = some b ∧
      Allocated b s.ctapBufferCapacity := by
  have hfit := slice_length_le 5 s.chunk buffer
  have hroom := hf.room
  exact copyInto_allocated h.assembly (by omega)

theorem onPacket_fits (h : s.Sound) (hlen : 7 ≤ buffer.length) :
    (s.onPacket w buffer).Fits s w buffer := by
  have hr := h.received
  have he := h.expected
  have hchunk := chunk_eq hr
  -- a packet that opens nothing neither asks for memory nor completes a message
  have quiet : ∀ acts (s' : Receiver), s'.Sound → .fault ∉ acts → isInitialization buffer = true →
      s.opens buffer = false → Progress.Fits s w buffer (.returned acts s') := fun _ _ hs hf hi ho =>
    .returned hs hf (by simp [Receiver.completing, hi, ho]) (by simp [Receiver.asksAssembly, ho])
  have unasked : isInitialization buffer = false →
      (s.asksAssembly buffer = true → w.assemblyAllocates = true) := by
    intro hi
    simp [Receiver.asksAssembly, Receiver.opens, hi]
  -- growing kept the buffer or was given the memory it asked for
  have grown : ∀ memory capacity, Grown s w (declaredLen buffer) memory capacity →
      (s.asksAssembly buffer = true → w.assemblyAllocates = true) := by
    intro memory capacity hg hasks
    simp only [Receiver.asksAssembly, Bool.and_eq_true, decide_eq_true_eq] at hasks
    cases hg with
    | kept room => omega
    | renewed small given => exact given
  have hcases : OnPacket s w buffer (s.onPacket w buffer) := onPacket_cases
  generalize s.onPacket w buffer = p at hcases
  cases hcases with
  | cancel initial cancel =>
    exact quiet _ _ { h with held := Nat.zero_le _ } List.not_mem_nil initial
      (by simp [Receiver.opens, cancel])
  | ignored initial notCancel pending channel =>
    exact quiet _ _ h List.not_mem_nil initial (by simp [Receiver.opens, pending])
  | busy initial notCancel pending channel =>
    exact quiet _ _ h (errorAct_ne_fault _ _) initial (by simp [Receiver.opens, pending])
  | tooLong opening long =>
    exact quiet _ _ { h.idle with } (errorAct_ne_fault _ _) opening.initial
      (by simp [opening.opens, long])
  | noMemory opening length small refused =>
    refine .refused ?_ (errorAct_ne_fault _ _) ?_ refused
    · intro hs
      exact absurd hs.expected (Nat.not_le.mpr small)
    · simp [Receiver.asksAssembly, hlen, opening.opens, length, small]
  | cutShort opening length hg short =>
    refine .returned ⟨hg.allocated h, h.pending, Nat.le_refl 0, Nat.zero_le _, h.held⟩
      List.not_mem_nil ?_ (grown _ _ hg)
    rw [opening.completing]
    refine if_neg fun hlast => ?_
    rw [openingChunk, Nat.min_eq_right hlast.2.2.1] at short
    omega
  | startFault opening length hg whole copied =>
    obtain ⟨b, hb, -⟩ := hg.copied h
    rw [copied] at hb
    cases hb
  | started opening length hg whole copied =>
    have hchunk : openingChunk buffer ≤ declaredLen buffer := Nat.min_le_right _ _
    obtain ⟨b, hb, hm⟩ := hg.copied h
    rw [copied, Option.some.injEq] at hb
    subst hb
    refine .taken ⟨hm, h.pending, hchunk, hg.room, h.held⟩ rfl ?_ (grown _ _ hg)
    rw [opening.completing]
    change _ = if (0 < declaredLen buffer && declaredLen buffer ≤ openingChunk buffer) = true then
      some (declaredLen buffer) else none
    unfold openingChunk at whole ⊢
    congr 1
    simp only [Bool.and_eq_true, decide_eq_true_eq, eq_iff_iff]
    omega
  | stray continuation other =>
    refine .returned h List.not_mem_nil ?_ (unasked continuation)
    rcases other with hz | hne
    · simp [Receiver.completing, continuation, hz]
    · simp [Receiver.completing, continuation, hne]
  | outOfSequence continuation begun channel sequence =>
    exact .returned h.idle (errorAct_ne_fault _ _)
      (by simp [Receiver.completing, continuation, sequence]) (unasked continuation)
  | noRoom continuing full => omega
  | cutOff continuing short =>
    refine .returned { h.idle with } (errorAct_ne_fault _ _) ?_ (unasked continuing.continuation)
    rw [continuing.completing]
    exact if_neg (by omega)
  | continueFault fitting copied =>
    obtain ⟨b, hb, -⟩ := fitting.copied h
    rw [copied] at hb
    cases hb
  | continued fitting copied =>
    obtain ⟨b, hb, hm⟩ := fitting.copied h
    rw [copied, Option.some.injEq] at hb
    subst hb
    have hgrown : s.ctapReceivedLen + s.chunk ≤ s.ctapExpectedLen := by omega
    refine .taken ⟨hm, h.pending, hgrown, he, h.held⟩ rfl ?_ (unasked fitting.continuation)
    have hwhole := fitting.whole
    have hbegun := fitting.begun
    rw [fitting.completing]
    simp only [Receiver.complete]
    congr 1
    simp only [Bool.and_eq_true, decide_eq_true_eq, eq_iff_iff]
    omega

/-- The hand-over of a sound receiver never faults; it leaves it sound when a
larger pending buffer got its memory. -/
theorem handOver_sound (h : s.Sound) (channel : Channel) :
    ∃ s', s.handOver w channel = some s' ∧
      (s'.Sound ↔ (s.complete = true → s.pendingDataCapacity < s.ctapExpectedLen →
        w.pendingAllocates = true)) := by
  unfold Receiver.handOver
  cases hc : s.complete with
  | false => exact ⟨s, by simp, by simp [h]⟩
  | true =>
    have hpos : 0 < s.ctapExpectedLen := by
      simp only [Receiver.complete, Bool.and_eq_true, decide_eq_true_eq] at hc
      exact hc.1
    simp only [if_true]
    obtain ⟨message, hm, hml⟩ := copyFrom_allocated h.assembly h.expected
    -- the pending buffer as growing left it
    have store : ∀ (memory : Option Bytes) (capacity : Nat), Allocated memory capacity →
        s.ctapExpectedLen ≤ capacity → ∃ b, memory = some b ∧ ∃ data,
          copyInto memory 0 message = some data ∧ Allocated data capacity := by
      intro memory capacity ha hle
      obtain ⟨b, hb, _⟩ := ha (by omega)
      exact ⟨b, hb, copyInto_allocated ha (by omega)⟩
    unfold Receiver.growPending
    by_cases hgrow : s.pendingDataCapacity < s.ctapExpectedLen
    · rw [if_pos hgrow]
      cases hw : w.pendingAllocates with
      | false =>
        refine ⟨_, rfl, ?_⟩
        simp only [hgrow, forall_const, Bool.false_eq_true, iff_false]
        intro hs
        obtain ⟨b, hb, -⟩ := hs.pending hpos
        cases hb
      | true =>
        obtain ⟨b, hb, data, hd, ha⟩ :=
          store _ _ (malloc_allocated w.memory s.ctapExpectedLen) (Nat.le_refl _)
        simp only [hb, hm, Option.bind_eq_bind, Option.bind_some]
        rw [hb] at hd
        rw [hd]
        refine ⟨_, rfl, ?_⟩
        simp only [implies_true, iff_true]
        exact ⟨h.assembly, ha, Nat.le_refl 0, Nat.zero_le _, Nat.le_refl _⟩
    · rw [if_neg hgrow]
      obtain ⟨b, hb, data, hd, ha⟩ := store _ _ h.pending (Nat.not_lt.mp hgrow)
      rw [hb] at hd
      simp only [hb, hm, hd, Option.bind_eq_bind, Option.bind_some]
      refine ⟨_, rfl, ?_⟩
      simp only [hgrow, false_implies, implies_true, iff_true]
      exact ⟨h.assembly, ha, Nat.le_refl 0, Nat.zero_le _, Nat.not_lt.mp hgrow⟩

@[simp] theorem expire_opens (now : UInt32) : (s.expire now).opens buffer = s.opens buffer := by
  simp [Receiver.opens]

@[simp] theorem expire_asksAssembly (now : UInt32) :
    (s.expire now).asksAssembly buffer = s.asksAssembly buffer := by
  simp [Receiver.asksAssembly]

theorem onOutput_sound (h : s.Sound) :
    ∃ acts s', s.onOutput w buffer = some (acts, s') ∧ .fault ∉ acts ∧
      (s'.Sound ↔ (s.asksAssembly buffer = true → w.assemblyAllocates = true) ∧
        (s.asksPending w.millis buffer = true → w.pendingAllocates = true)) := by
  unfold Receiver.onOutput
  by_cases hlen : buffer.length < 7
  · have hshort : ¬7 ≤ buffer.length := Nat.not_le.mpr hlen
    exact ⟨[], s, if_pos hlen, List.not_mem_nil,
      by simp [h, Receiver.asksAssembly, Receiver.asksPending, hshort]⟩
  rw [if_neg hlen]
  have hlen : 7 ≤ buffer.length := Nat.not_lt.mp hlen
  have hfits := onPacket_fits (w := w) (h.expire w.millis) hlen
  generalize (s.expire w.millis).onPacket w buffer = p at hfits
  cases hfits with
  | @returned acts s' sound faultless kept given =>
    refine ⟨acts, s', rfl, faultless, ?_⟩
    simp only [sound, true_iff, Receiver.asksPending, kept]
    exact ⟨by simpa using given, by simp⟩
  | @refused acts s' unsound faultless asks refused =>
    refine ⟨acts, s', rfl, faultless, ?_⟩
    rw [expire_asksAssembly] at asks
    simp [unsound, asks, refused]
  | @taken s' sound same last given =>
    obtain ⟨s'', hover, hiff⟩ := handOver_sound (w := w) sound (packetChannel buffer)
    refine ⟨[], s'', by simp [hover], List.not_mem_nil, ?_⟩
    rw [expire_asksAssembly] at given
    rw [expire_pendingDataCapacity] at same
    rw [hiff, Receiver.asksPending, last, ← same]
    cases hc : s'.complete with
    | false => simpa [hlen] using given
    | true =>
      simp only [if_true, Option.any_some, hlen, decide_true, Bool.true_and, decide_eq_true_eq]
      exact ⟨fun hp => ⟨given, hp trivial⟩, fun hp _ => hp.2⟩

theorem poll_sound (h : s.Sound) : ∃ m s', s.poll w = some (m, s') ∧ s'.Sound := by
  unfold Receiver.poll
  have taken : ({ s with hasPendingCommand := false } : Receiver).Sound := { h with }
  simp only
  split
  · exact ⟨_, _, rfl, h⟩
  split
  · exact ⟨_, _, rfl, taken⟩
  split
  · exact ⟨_, _, rfl, taken⟩
  obtain ⟨data, hdata, -⟩ := copyFrom_allocated h.pending h.held
  exact ⟨_, _, by rw [hdata]; rfl, taken⟩

theorem Receiver.Sound.takeCancel (h : s.Sound) (channel : Channel) : (s.takeCancel channel).Sound := by
  unfold Receiver.takeCancel
  split
  · exact { h with }
  · exact h

theorem fault_notMem_acts (m : Message) (h : Handled) : .fault ∉ h.acts m.channel := by
  cases h <;> simp [Handled.acts]

theorem step_buffersSound {past : History} {d : State} {i : Input} (h : d.receiver.Sound) :
    BuffersSound past (Trace.entry step d i) ↔ GrowthAllocates past d i := by
  simp only [BuffersSound, Trace.entry]
  unfold step GrowthAllocates
  cases i.event with
  | output buffer =>
    have hsound : ∃ acts s', d.receiver.onOutput i.surroundings buffer = some (acts, s') ∧
        .fault ∉ acts ∧ (s'.Sound ↔
          (d.receiver.asksAssembly buffer = true → i.surroundings.assemblyAllocates = true) ∧
          (d.receiver.asksPending i.surroundings.millis buffer = true →
            i.surroundings.pendingAllocates = true)) := onOutput_sound h
    obtain ⟨acts, s', hs, hf, hiff⟩ := hsound
    simp only [hs, hf, not_false_eq_true, and_true]
    exact hiff
  | poll =>
    obtain ⟨m, s', hs, hsound⟩ := poll_sound (w := i.surroundings) h
    cases m with
    | none => simp [hs, hsound]
    | some m => simp [hs, hsound, fault_notMem_acts]
  | awaitFinger channel => simp [h.takeCancel channel]

theorem initial_sound : initial.receiver.Sound :=
  ⟨nofun, nofun, Nat.le_refl 0, Nat.le_refl 0, Nat.le_refl 0⟩

/-- In every run, the buffers stay sound exactly as long as each growth gets its
memory. -/
theorem buffersSound_iff (inputs : List Input) :
    Trace.Always BuffersSound (run inputs) ↔ Trace.Guarded step GrowthAllocates initial inputs :=
  Trace.always_iff_guarded (I := fun _ d => d.receiver.Sound)
    (fun _ _ _ h hg => ((step_buffersSound h).mpr hg).1)
    (fun _ _ _ h => step_buffersSound h) initial_sound

/-- A PING of 60 bytes, one of 100 bytes that there is no memory for and one of
10 bytes, which is copied through the null pointer. -/
def refusedGrowth : List Input :=
  [⟨.output (initializationPacket 1 ctaphidPing (zeros 60)), { millis := 1 }⟩,
    ⟨.output (initializationPacket 1 ctaphidPing (zeros 100)),
      { millis := 2, assemblyAllocates := false }⟩,
    ⟨.output (initializationPacket 1 ctaphidPing (zeros 10)), { millis := 3 }⟩]

theorem refusedGrowth_faults : ¬Trace.Always BuffersSound (run refusedGrowth) ∧
    (run refusedGrowth).head?.map Trace.Entry.output = some [.fault] := by
  decide +kernel

end GoiKey.Hid
