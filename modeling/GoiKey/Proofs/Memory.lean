import GoiKey.Proofs.Acts

/-!
What lives in memory between two commands: the list of GetNextAssertion, the
time of the cached verification and the array being received.
-/

namespace GoiKey

variable {P : Platform} {env : Env} {d : Device} {i : Input}

structure Memory where
  next : NextAssertion
  last : UInt32
  writing : Option BlobWrite

def Device.memory (d : Device) : Memory :=
  ⟨d.next, d.uv.lastFingerprintSuccessTime, d.blob.writing⟩

/-- A device that kept its memory, or one that has restarted. -/
def Kept (d d' : Device) : Prop := d'.memory = d.memory ∨ d'.memory = initial.memory

theorem Kept.next {d d' : Device} (h : Kept d d') : d'.next = d.next ∨ d'.next = {} :=
  h.imp (congrArg Memory.next) (congrArg Memory.next)

theorem Kept.last {d d' : Device} (h : Kept d d') :
    d'.uv.lastFingerprintSuccessTime = d.uv.lastFingerprintSuccessTime ∨
      d'.uv.lastFingerprintSuccessTime = 0 :=
  h.imp (congrArg Memory.last) (congrArg Memory.last)

theorem Kept.writing {d d' : Device} (h : Kept d d') :
    d'.blob.writing = d.blob.writing ∨ d'.blob.writing = none :=
  h.imp (congrArg Memory.writing) (congrArg Memory.writing)

theorem Kept.refl : Kept d d := .inl rfl

theorem reboot_kept : Kept d (reboot env d) := .inr rfl

theorem checkPin_kept {pin : Str} {accepted : Device → SerialResult}
    (ha : ∀ d : Device, (accepted d).dev.memory = d.memory) :
    Kept d (checkPin P env d pin accepted).dev := by
  refine checkPin_cases (Q := fun r => Kept d r.dev) ?_ ?_ ?_ ?_
  · exact .refl
  · intro _ _
    exact .inl (ha _)
  · intro stored n _ _ _ _
    exact .inl rfl
  · intro stored _ _ _
    exact .inr rfl

theorem replacePin_memory (newPin : Str) (d : Device) :
    (replacePin P env newPin d).dev.memory = d.memory := by
  unfold replacePin
  split <;> rfl

theorem serialCommand_kept {c : SerialCommand} : Kept d (serialCommand P env d c).dev := by
  refine serialCommand_cases (Q := fun r => Kept d r.dev) ?_ ?_ ?_ ?_ ?_ ?_ ?_ ?_
  · intro ms v s alg dflt
    exact .inl rfl
  · intro ms pin p _ _ _
    exact .inl rfl
  · intro pin _ _
    exact checkPin_kept fun _ => rfl
  · intro currentPin newPin _ _
    exact checkPin_kept (replacePin_memory newPin)
  · intro ms site k _ _
    exact .inl rfl
  · intro ms _
    exact .inl rfl
  · intro ms id _ _
    exact .inl rfl
  · intro ms _ _
    exact .inl rfl

theorem updateFingerprintAsync_kept : Kept d (updateFingerprintAsync P env d).dev := by
  refine updateFingerprintAsync_cases (Q := fun r => Kept d r.dev) ?_ ?_
  · intro ms n s
    exact .inl rfl
  · intro ms n v s _ _ _ _
    exact .inl rfl

/-! One rule for each part: the commands that write it, everything else. -/

theorem authenticatorReset_next : (authenticatorReset env d).2.next = d.next := by
  unfold authenticatorReset
  split <;> rfl

theorem step_next (hg : i.event.code ≠ some 0x02) (hn : i.event.code ≠ some 0x08) :
    (step P d i).2.next = d.next ∨ (step P d i).2.next = {} := by
  refine step_cases (Q := fun r => r.2.next = d.next ∨ r.2.next = {})
    ?_ ?_ ?_ ?_ ?_ ?_ ?_ ?_ ?_ ?_ ?_ ?_ ?_ ?_
  · intro reply
    exact .inl rfl
  · intro body he
    exact .inl rfl
  · intro body req he
    exact absurd (by rw [he]; rfl) hg
  · intro body he
    exact absurd (by rw [he]; rfl) hn
  · intro body he
    exact .inl rfl
  · intro body he
    exact .inl authenticatorReset_next
  · intro code body he _
    exact .inl rfl
  · intro code body he _
    exact .inl rfl
  · intro body he
    exact .inl rfl
  · intro body he
    exact .inl rfl
  · intro data he
    exact .inl rfl
  · intro c he
    exact serialCommand_kept.next
  · intro he
    exact updateFingerprintAsync_kept.next
  · intro he
    exact reboot_kept.next

theorem authenticatorReset_last : (authenticatorReset env d).2.uv.lastFingerprintSuccessTime
    = d.uv.lastFingerprintSuccessTime := by
  unfold authenticatorReset
  have hlast := waitForFinger_last env d.bio env.polls d.uv
  rcases hw : waitForFinger env d.bio env.polls d.uv with ⟨r, uv⟩
  rw [hw] at hlast
  cases r <;> exact hlast

theorem makeCredential_last {req : MakeCredentialRequest} :
    (makeCredential P env d req).uv.lastFingerprintSuccessTime
      = d.uv.lastFingerprintSuccessTime := by
  refine makeCredential_cases (Q := fun r => r.uv.lastFingerprintSuccessTime
    = d.uv.lastFingerprintSuccessTime) ?_ ?_
  · intro code uv h
    exact h
  · intro act time uv p _ _ _ h
    exact h

theorem largeBlobs_last {body : Bytes} :
    (largeBlobs P env d body).uv.lastFingerprintSuccessTime = d.uv.lastFingerprintSuccessTime := by
  refine largeBlobs_cases (Q := fun r => r.uv.lastFingerprintSuccessTime
    = d.uv.lastFingerprintSuccessTime) ?_ ?_ ?_ ?_
  · intro reply uv h
    exact h
  · intro act uv _ h
    exact h
  · intro req fragment total act uv _ _ _ _ h
    exact h
  · intro req fragment _ _ _
    rfl

theorem processU2fCommand_last {data : Bytes} :
    (processU2fCommand P env d data).uv.lastFingerprintSuccessTime
      = d.uv.lastFingerprintSuccessTime := by
  refine processU2fCommand_cases (Q := fun r => r.uv.lastFingerprintSuccessTime
    = d.uv.lastFingerprintSuccessTime) ?_ ?_ ?_
  · intro reply
    rfl
  · intro challenge
    refine u2fRegister_cases (Q := fun r => r.uv.lastFingerprintSuccessTime
      = d.uv.lastFingerprintSuccessTime) ?_ ?_
    · intro reply acts uv _ h
      exact h
    · intro reply key k act uv signed _ _ _ h _
      exact h
  · intro hins challenge
    refine u2fAuthenticate_cases (Q := fun r => r.uv.lastFingerprintSuccessTime
      = d.uv.lastFingerprintSuccessTime) ?_ ?_
    · intro reply acts uv n _ h
      exact h
    · intro reply c act uv msg sig _ _ _ _ h _
      exact h

/-- The cache keeps its time through a wait that does not succeed; one that does
leaves its own, and the act that accounts for it. -/
theorem Waited.last {b : BioStore} {u u' : UvState} {r : WaitResult} (h : Waited env b u r u') :
    u'.lastFingerprintSuccessTime = u.lastFingerprintSuccessTime ∨
      ∃ p ∈ env.polls, ∃ act, r = .verified act p.time ∧ Accepted env b p.sensor act p.time ∧
        u'.lastFingerprintSuccessTime = p.time := by
  cases h with
  | cached h => exact .inl rfl
  | @finger act _ p mem accepted last => exact .inr ⟨p, mem, act, rfl, accepted, last⟩
  | cancelled last => exact .inl last
  | timedOut last => exact .inl last

/-- The commands that cache a verification. -/
def Event.caches (e : Event) : Bool :=
  e.code ∈ [some 0x02, some 0x09, some 0x40, some 0x0A, some 0x41]

/-- The cached time after a step: what it was, zero, or the time of a finger
that the step itself accepted. -/
inductive CacheWritten (d : Device) (i : Input) (acts : List Act) (last : UInt32) : Prop where
  | kept (h : last = d.uv.lastFingerprintSuccessTime)
  | cleared (h : last = 0)
  | accepted (p : Poll) (act : Act) (caches : i.event.caches = true) (poll : p ∈ i.env.polls)
    (mem : act ∈ acts) (finger : Accepted i.env d.bio p.sensor act p.time) (h : last = p.time)

theorem cacheWritten_of_waited {uv : UvState} {r : WaitResult} {acts : List Act}
    (hc : i.event.caches = true) (hw : Waited i.env d.bio d.uv r uv) (hs : r.acts ⊆ acts) :
    CacheWritten d i acts uv.lastFingerprintSuccessTime := by
  rcases hw.last with h | ⟨p, hp, act, rfl, ha, h⟩
  · exact .kept h
  · exact .accepted p act hc hp (hs (by simp [WaitResult.acts])) ha h

theorem getAssertion_cache {req : GetAssertionRequest} (hcache : i.event.caches = true) :
    CacheWritten d i (getAssertion P i.env d req).acts
      (getAssertion P i.env d req).uv.lastFingerprintSuccessTime := by
  have hw := cachedOrWait_waited i.env d.bio d.uv
  refine getAssertion_cases
    (Q := fun r => CacheWritten d i r.acts r.uv.lastFingerprintSuccessTime) ?_ ?_ ?_
  · intro code k creds _ _
    exact .kept rfl
  · intro code k k' cid rest c uv _ _ _ _ hacts huv
    rw [← huv]
    exact cacheWritten_of_waited hcache hw (by simp [hacts])
  · intro k k' cid rest c act time uv _ _ _ _ _ hc
    rw [hc] at hw
    exact cacheWritten_of_waited hcache hw (by simp [WaitResult.acts])

theorem credentialManagement_cache {body : Bytes} (hcache : i.event.caches = true) :
    CacheWritten d i (credentialManagement P i.env d body).acts
      (credentialManagement P i.env d body).uv.lastFingerprintSuccessTime := by
  refine credentialManagement_cases
    (Q := fun r => CacheWritten d i r.acts r.uv.lastFingerprintSuccessTime) ?_ ?_ ?_
  · intro reply enumeration
    exact .kept rfl
  · intro req _ _
    refine enumerateCredentialsBegin_cases
      (Q := fun r => CacheWritten d i r.acts r.uv.lastFingerprintSuccessTime) ?_ ?_
    · intro reply enumeration
      exact .kept rfl
    · intro reply enumeration r uv hw
      exact cacheWritten_of_waited hcache hw (by simp)
  · intro req k _ _ _
    exact .kept rfl

theorem bioEnrollment_cache {body : Bytes} (hcache : i.event.caches = true) :
    CacheWritten d i (bioEnrollment i.env d body).acts
      (bioEnrollment i.env d body).uv.lastFingerprintSuccessTime := by
  refine bioEnrollment_cases
    (Q := fun r => CacheWritten d i r.acts r.uv.lastFingerprintSuccessTime) ?_ ?_ ?_ ?_ ?_ ?_
  · intro reply enroll
    exact .kept rfl
  · intro req answer _ _ _
    exact .kept (by rw [captureStep_acts.2])
  · intro req answer _ _ _
    exact .kept (by rw [captureStep_acts.2])
  · refine enumerateEnrollments_cases
      (Q := fun r => CacheWritten d i r.acts r.uv.lastFingerprintSuccessTime) ?_
    intro reply r uv hw
    exact cacheWritten_of_waited hcache hw (List.Subset.refl _)
  · intro req id name b _ _ _ _ _ _
    exact .kept rfl
  · intro req id enroll _ _ _ _
    exact .kept rfl

theorem Kept.cache {d' : Device} {acts : List Act} (h : Kept d d') :
    CacheWritten d i acts d'.uv.lastFingerprintSuccessTime :=
  h.last.elim .kept .cleared

theorem step_cache (P : Platform) (d : Device) (i : Input) :
    CacheWritten d i (step P d i).1.acts (step P d i).2.uv.lastFingerprintSuccessTime := by
  refine step_cases (Q := fun r => CacheWritten d i r.1.acts r.2.uv.lastFingerprintSuccessTime)
    ?_ ?_ ?_ ?_ ?_ ?_ ?_ ?_ ?_ ?_ ?_ ?_ ?_ ?_
  · intro reply
    exact .kept rfl
  · intro body he
    exact .kept makeCredential_last
  · intro body req he _ _
    exact getAssertion_cache (by rw [he]; rfl)
  · intro body he
    refine getNextAssertion_cases (Q := fun r => CacheWritten d i (r.run d).1.acts
      (r.run d).2.uv.lastFingerprintSuccessTime) ?_ ?_ ?_
    · exact .kept rfl
    · intro k _ _
      exact .kept rfl
    · intro k cid c _ _ _
      exact .kept rfl
  · intro body he
    exact .kept rfl
  · intro body he
    exact .kept authenticatorReset_last
  · rintro code body he (rfl | rfl) <;> exact bioEnrollment_cache (by rw [he]; rfl)
  · rintro code body he (rfl | rfl) <;> exact credentialManagement_cache (by rw [he]; rfl)
  · intro body he
    exact .kept largeBlobs_last
  · intro body he
    exact .kept rfl
  · intro data he
    exact .kept processU2fCommand_last
  · intro c he
    exact serialCommand_kept.cache
  · intro he
    exact updateFingerprintAsync_kept.cache
  · intro he
    exact reboot_kept.cache

theorem authenticatorReset_writing : (authenticatorReset env d).2.blob.writing = d.blob.writing ∨
    (authenticatorReset env d).2.blob.writing = none := by
  unfold authenticatorReset
  split
  · exact .inl rfl
  · exact .inl rfl
  · exact .inr rfl

theorem step_writing (hl : i.event.code ≠ some 0x0C) :
    (step P d i).2.blob.writing = d.blob.writing ∨ (step P d i).2.blob.writing = none := by
  refine step_cases (Q := fun r => r.2.blob.writing = d.blob.writing ∨ r.2.blob.writing = none)
    ?_ ?_ ?_ ?_ ?_ ?_ ?_ ?_ ?_ ?_ ?_ ?_ ?_ ?_
  · intro reply
    exact .inl rfl
  · intro body he
    exact .inl rfl
  · intro body req he _ _
    exact .inl rfl
  · intro body he
    exact .inl rfl
  · intro body he
    exact .inl rfl
  · intro body he
    exact authenticatorReset_writing
  · intro code body he _
    exact .inl rfl
  · intro code body he _
    exact .inl rfl
  · intro body he
    exact absurd (by rw [he]; rfl) hl
  · intro body he
    exact .inl rfl
  · intro data he
    exact .inl rfl
  · intro c he
    exact serialCommand_kept.writing
  · intro he
    exact updateFingerprintAsync_kept.writing
  · intro he
    exact reboot_kept.writing

end GoiKey
