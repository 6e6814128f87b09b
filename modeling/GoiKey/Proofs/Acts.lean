import GoiKey.Proofs.Handlers
import GoiKey.Proofs.ManagementRules

/-! Which acts each kind of event can leave. -/

namespace GoiKey

variable {P : Platform} {env : Env} {d : Device}

inductive ActKind where
  | matched | touched | approved | usedCache | listSetUp | created | issued | listed | deleted
  | signed | authData | pinGuess | tokenIssued | pinUvAuthParamChecked | wiped
  deriving DecidableEq, Repr

def Act.kind : Act → ActKind
  | .matched .. => .matched
  | .touched _ => .touched
  | .approved _ => .approved
  | .usedCache _ => .usedCache
  | .listSetUp _ => .listSetUp
  | .created .. => .created
  | .issued .. => .issued
  | .listed .. => .listed
  | .deleted .. => .deleted
  | .signed .. => .signed
  | .authData _ => .authData
  | .pinGuess _ => .pinGuess
  | .tokenIssued _ => .tokenIssued
  | .pinUvAuthParamChecked => .pinUvAuthParamChecked
  | .wiped => .wiped

def fingerKinds : List ActKind := [.matched, .touched]

def commandKinds (code : UInt8) : List ActKind :=
  match code with
  | 0x01 => fingerKinds ++ [.created, .issued, .deleted, .signed, .authData]
  | 0x02 => fingerKinds ++ [.usedCache, .listed, .listSetUp, .signed, .authData]
  | 0x06 => [.pinGuess, .tokenIssued]
  | 0x07 => fingerKinds ++ [.wiped]
  | 0x08 => [.signed, .authData]
  | 0x09 | 0x40 => fingerKinds ++ [.usedCache]
  | 0x0A | 0x41 => fingerKinds ++ [.usedCache, .listed]
  | 0x0C => fingerKinds
  | _ => []

def u2fKinds : List ActKind := fingerKinds ++ [.created, .signed]

def serialKinds : List ActKind := [.pinGuess, .wiped, .deleted]

def Event.kinds : Event → List ActKind
  | .cbor (code :: _) => commandKinds code
  | .cbor [] | .powerCycle => []
  | .u2f _ => u2fKinds
  | .serial _ => serialKinds
  | .fingerprintTask => [.approved]

theorem Event.kinds_cases {e : Event} {k : ActKind} {Q : Prop}
    (command : ∀ code, e.code = some code → k ∈ commandKinds code → Q)
    (u2f : ∀ data, e = .u2f data → k ∈ u2fKinds → Q)
    (serial : ∀ c, e = .serial c → k ∈ serialKinds → Q)
    (task : e = .fingerprintTask → k = .approved → Q) (h : k ∈ e.kinds) : Q := by
  cases e with
  | cbor data =>
    cases data with
    | nil => cases h
    | cons code body => exact command code rfl h
  | u2f data => exact u2f data rfl h
  | serial c => exact serial c rfl h
  | fingerprintTask => exact task rfl (List.mem_singleton.mp h)
  | powerCycle => cases h

/-- What the sensor shows while a command runs. -/
def Env.looks (env : Env) : List SensorRead := env.sensor :: env.polls.map Poll.sensor

/-- An accepted finger is one of those looks, judged by the templates on record. -/
def FromLook (env : Env) (b : BioStore) (a : Act) : Prop :=
  ∃ s ∈ env.looks, ∃ time, Accepted env b s a time

/-- Every act is of one of these kinds, and every finger among them was seen. -/
def OfKinds (env : Env) (b : BioStore) (kinds : List ActKind) (acts : List Act) : Prop :=
  ∀ a ∈ acts, a.kind ∈ kinds ∧ (a.kind ∈ fingerKinds → FromLook env b a)

variable {b : BioStore} {ks : List ActKind} {a : Act} {acts as bs : List Act}

@[simp] theorem ofKinds_nil : OfKinds env b ks [] := by simp [OfKinds]

@[simp] theorem ofKinds_cons :
    OfKinds env b ks (a :: acts) ↔
      (a.kind ∈ ks ∧ (a.kind ∈ fingerKinds → FromLook env b a)) ∧ OfKinds env b ks acts := by
  simp [OfKinds]

@[simp] theorem ofKinds_append :
    OfKinds env b ks (as ++ bs) ↔ OfKinds env b ks as ∧ OfKinds env b ks bs := by
  simp only [OfKinds, List.mem_append]
  exact ⟨fun h => ⟨fun a ha => h a (.inl ha), fun a ha => h a (.inr ha)⟩,
    fun h a ha => ha.elim (h.1 a) (h.2 a)⟩

theorem OfKinds.mono {ks' : List ActKind} (h : OfKinds env b ks acts)
    (hs : ks ⊆ ks') : OfKinds env b ks' acts :=
  fun a ha => ⟨hs (h a ha).1, (h a ha).2⟩

theorem Accepted.kind {s : SensorRead} {time : UInt32} (h : Accepted env b s a time) :
    a.kind ∈ fingerKinds := by
  rcases h.act with ⟨-, rfl⟩ | ⟨-, -, -, -, rfl⟩ <;> simp [Act.kind, fingerKinds]

theorem Accepted.ofKinds {s : SensorRead} {time : UInt32} (h : Accepted env b s a time)
    (hs : s ∈ env.looks) (hk : fingerKinds ⊆ ks) (ha : OfKinds env b ks acts) :
    OfKinds env b ks (a :: acts) :=
  ofKinds_cons.mpr ⟨⟨hk h.kind, fun _ => ⟨s, hs, time, h⟩⟩, ha⟩

theorem sensor_mem_looks : env.sensor ∈ env.looks := List.mem_cons_self

theorem poll_mem_looks {p : Poll} (h : p ∈ env.polls) : p.sensor ∈ env.looks :=
  List.mem_cons_of_mem _ (List.mem_map_of_mem h)

theorem Waited.kinds {u u' : UvState} {r : WaitResult} (h : Waited env b u r u') :
    OfKinds env b (fingerKinds ++ [.usedCache]) r.acts := by
  cases h with
  | cached h => simp [WaitResult.acts, Act.kind, fingerKinds]
  | finger p mem accepted last =>
    exact accepted.ofKinds (poll_mem_looks mem) (by simp) ofKinds_nil
  | cancelled last => simp [WaitResult.acts]
  | timedOut last => simp [WaitResult.acts]

theorem assertCredential_kinds {c : StoredCredential} {a : AssertionInput} {n : UInt32} :
    OfKinds env d.bio [.signed, .authData] (assertCredential P env c a n).2 := by
  intro act h
  rcases assertCredential_acts h with rfl | ⟨msg, sig, rfl, -⟩ <;> simp [Act.kind, fingerKinds]

theorem listedActs_kinds (env : Env) (b : BioStore) (creds : List Str) (rpId : Str) :
    OfKinds env b [.listed] (listedActs creds rpId) := by
  intro a ha
  obtain ⟨cid, -, rfl⟩ := List.mem_map.mp ha
  simp [Act.kind, fingerKinds]

theorem getAssertion_kinds {req : GetAssertionRequest} :
    OfKinds env d.bio (commandKinds 0x02) (getAssertion P env d req).acts := by
  have listed : ∀ creds, OfKinds env d.bio (commandKinds 0x02) (listedActs creds req.targetRpId) :=
    fun creds => (listedActs_kinds env d.bio creds _).mono (by decide)
  refine getAssertion_cases (Q := fun r => OfKinds env d.bio _ r.acts) ?_ ?_ ?_
  · intro code k creds _ _
    exact listed creds
  · intro code k k' cid rest c uv _ _ _ _ _ _
    exact ofKinds_append.mpr ⟨listed _, by simp [Act.kind, commandKinds, fingerKinds]⟩
  · intro k k' cid rest c act time uv _ _ _ _ _ hc
    have hk := (cachedOrWait_waited env d.bio d.uv).kinds
    rw [hc] at hk
    have hk : OfKinds env d.bio (commandKinds 0x02) [act] := hk.mono (by decide)
    have hs : OfKinds env d.bio (commandKinds 0x02)
        (assertCredential P env c (req.input cid (rest.length + 1)) d.signCount).2 :=
      assertCredential_kinds.mono (by decide)
    exact ofKinds_append.mpr ⟨ofKinds_append.mpr
      ⟨listed _, by simp [Act.kind, commandKinds, fingerKinds]⟩,
      ofKinds_cons.mpr ⟨(ofKinds_cons.mp hk).1, hs⟩⟩

theorem getNextAssertion_kinds : OfKinds env d.bio (commandKinds 0x08) (getNextAssertion P env d).acts := by
  refine getNextAssertion_cases (Q := fun r => OfKinds env d.bio _ r.acts) ?_ ?_ ?_
  · exact ofKinds_nil
  · intro k _ _
    exact ofKinds_nil
  · intro k cid c _ _ _
    exact assertCredential_kinds

theorem storeCredential_kinds {k : Keystore} {req : MakeCredentialRequest} {key : KeyPair} :
    OfKinds env d.bio [.created, .issued, .deleted] (storeCredential P env k req key).acts := by
  have replaced : ∀ (b : Bool) (cid : Str), OfKinds env d.bio [.created, .issued, .deleted]
      (if b = true then [Act.deleted cid (.rpId req.targetRpId)] else []) := by
    intro b cid
    cases b <;> simp [Act.kind, fingerKinds]
  unfold storeCredential
  split
  · unfold storeResident
    simp only
    split
    · exact replaced _ _
    · exact ofKinds_append.mpr ⟨replaced _ _, by simp [Act.kind, fingerKinds]⟩
  · unfold storeStateless
    split <;> simp [Act.kind, fingerKinds]

theorem attestCredential_kinds {req : MakeCredentialRequest} {n : UInt32} {credId : Bytes}
    {key : KeyPair} : OfKinds env d.bio [.signed, .authData] (attestCredential P env req n credId key).2 := by
  intro act h
  rcases attestCredential_acts h with rfl | ⟨msg, sig, rfl, -⟩ <;> simp [Act.kind, fingerKinds]

theorem register_kinds {k : Keystore} {n : UInt32} {req : MakeCredentialRequest} :
    OfKinds env d.bio (commandKinds 0x01) (register P env k n req).2.1 := by
  refine register_cases (Q := fun r => OfKinds env d.bio _ r.2.1) ?_ ?_ ?_
  · exact ofKinds_nil
  · intro key code _ _
    exact storeCredential_kinds.mono (by decide)
  · intro key credId _ _
    exact ofKinds_append.mpr
      ⟨storeCredential_kinds.mono (by decide), attestCredential_kinds.mono (by decide)⟩

theorem makeCredential_kinds {req : MakeCredentialRequest} :
    OfKinds env d.bio (commandKinds 0x01) (makeCredential P env d req).acts := by
  refine makeCredential_cases (Q := fun r => OfKinds env d.bio _ r.acts) ?_ ?_
  · intro code uv _
    exact ofKinds_nil
  · intro act time uv p hp _ ha _
    exact ha.ofKinds (poll_mem_looks hp) (by decide) register_kinds

theorem clientPin_kinds {body : Bytes} :
    OfKinds env d.bio (commandKinds 0x06) (clientPin P env d.pins d.session body).acts := by
  refine clientPin_cases (Q := fun r => OfKinds env d.bio _ r.acts) ?_ ?_ ?_ ?_ ?_
  · intro reply session
    exact ofKinds_nil
  · intro req _ _
    exact ofKinds_nil
  · intro req _ _
    simp [setPin_acts]
  · intro req _ _
    unfold changePin
    repeat' split
    all_goals simp [Act.kind, commandKinds, fingerKinds]
  · simp [issueToken, Act.kind, commandKinds, fingerKinds]

theorem authenticatorReset_kinds : OfKinds env d.bio (commandKinds 0x07) (authenticatorReset env d).1.acts := by
  unfold authenticatorReset
  have hacc := @waitForFinger_accepted env d.bio d.uv env.polls
  rcases hw : waitForFinger env d.bio env.polls d.uv with ⟨r, uv⟩
  rw [hw] at hacc
  cases r with
  | cancelled => exact ofKinds_nil
  | timedOut => exact ofKinds_nil
  | verified act time =>
    obtain ⟨p, hp, -, ha⟩ := hacc rfl
    exact ha.ofKinds (poll_mem_looks hp) (by decide) (by simp [Act.kind, commandKinds, fingerKinds])

theorem bioEnrollment_kinds {body : Bytes} :
    OfKinds env d.bio (commandKinds 0x09) (bioEnrollment env d body).acts := by
  refine bioEnrollment_cases (Q := fun r => OfKinds env d.bio _ r.acts) ?_ ?_ ?_ ?_ ?_ ?_
  · intro reply enroll
    exact ofKinds_nil
  · intro req answer _ _ _
    simp [captureStep_acts]
  · intro req answer _ _ _
    simp [captureStep_acts]
  · refine enumerateEnrollments_cases (Q := fun r => OfKinds env d.bio _ r.acts) ?_
    intro reply r uv hw
    exact hw.kinds
  · intro req id name b _ _ _ _ _ _
    exact ofKinds_nil
  · intro req id enroll _ _ _ _
    exact ofKinds_nil

theorem credentialManagement_kinds {body : Bytes} :
    OfKinds env d.bio (commandKinds 0x0A) (credentialManagement P env d body).acts := by
  have listed : ∀ (h : Bytes) (cids : List Str),
      OfKinds env d.bio (commandKinds 0x0A) (cids.map fun cid => .listed cid (.rpIdHash h)) := by
    intro h cids a ha
    obtain ⟨cid, -, rfl⟩ := List.mem_map.mp ha
    simp [Act.kind, commandKinds, fingerKinds]
  refine credentialManagement_cases (Q := fun r => OfKinds env d.bio _ r.acts) ?_ ?_ ?_
  · intro reply enumeration
    exact ofKinds_nil
  · intro req _ _
    refine enumerateCredentialsBegin_cases (Q := fun r => OfKinds env d.bio _ r.acts) ?_ ?_
    · intro reply enumeration
      exact listed _ _
    · intro reply enumeration r uv hw
      exact ofKinds_append.mpr ⟨listed _ _, hw.kinds.mono (by decide)⟩
  · intro req k _ _ _
    exact ofKinds_nil

theorem largeBlobs_kinds {body : Bytes} :
    OfKinds env d.bio (commandKinds 0x0C) (largeBlobs P env d body).acts := by
  refine largeBlobs_cases (Q := fun r => OfKinds env d.bio _ r.acts) ?_ ?_ ?_ ?_
  · intro reply uv _
    exact ofKinds_nil
  · intro act uv ha _
    exact ha.ofKinds sensor_mem_looks (by decide) ofKinds_nil
  · intro req fragment total act uv _ _ _ ha _
    exact ha.ofKinds sensor_mem_looks (by decide) ofKinds_nil
  · intro req fragment _ _ _
    exact ofKinds_nil

theorem processU2fCommand_kinds {data : Bytes} :
    OfKinds env d.bio u2fKinds (processU2fCommand P env d data).acts := by
  have refused : ∀ acts : List Act, (acts = [] ∨ ∃ act, acts = [act] ∧
      Accepted env d.bio env.sensor act env.now) → OfKinds env d.bio u2fKinds acts := by
    rintro acts (rfl | ⟨act, rfl, ha⟩)
    · exact ofKinds_nil
    · exact ha.ofKinds sensor_mem_looks (by decide) ofKinds_nil
  refine processU2fCommand_cases (Q := fun r => OfKinds env d.bio _ r.acts) ?_ ?_ ?_
  · intro reply
    exact ofKinds_nil
  · intro challenge
    refine u2fRegister_cases (Q := fun r => OfKinds env d.bio _ r.acts) ?_ ?_
    · intro reply acts uv ha _
      exact refused acts ha
    · intro reply key k act uv signed _ _ ha _ hs
      refine ofKinds_append.mpr ⟨ha.ofKinds sensor_mem_looks (by decide)
        (by simp [Act.kind, u2fKinds, fingerKinds]), ?_⟩
      intro a h
      obtain ⟨msg, sig, rfl, -⟩ := hs a h
      simp [Act.kind, u2fKinds, fingerKinds]
  · intro hins challenge
    refine u2fAuthenticate_cases (Q := fun r => OfKinds env d.bio _ r.acts) ?_ ?_
    · intro reply acts uv n ha _
      exact refused acts ha
    · intro reply c act uv msg sig _ _ _ ha _ _
      exact ha.ofKinds sensor_mem_looks (by decide) (by simp [Act.kind, u2fKinds, fingerKinds])

theorem checkPin_kinds {pin : Str} {accepted : Device → SerialResult}
    (ha : ∀ d, (accepted d).acts = []) :
    OfKinds env d.bio serialKinds (checkPin P env d pin accepted).acts := by
  refine checkPin_cases (Q := fun r => OfKinds env d.bio _ r.acts) ?_ ?_ ?_ ?_
  · exact ofKinds_nil
  · intro _ _
    simp [ha, Act.kind, serialKinds, fingerKinds]
  · intro stored n _ _ _ _
    simp [Act.kind, serialKinds, fingerKinds]
  · intro stored _ _ _
    simp [Act.kind, serialKinds, fingerKinds]

theorem replacePin_acts (newPin : Str) (d : Device) : (replacePin P env newPin d).acts = [] := by
  unfold replacePin
  split <;> rfl

theorem serialCommand_kinds {c : SerialCommand} :
    OfKinds env d.bio serialKinds (serialCommand P env d c).acts := by
  refine serialCommand_cases (Q := fun r => OfKinds env d.bio _ r.acts) ?_ ?_ ?_ ?_ ?_ ?_ ?_ ?_
  · intro ms v s alg dflt
    exact ofKinds_nil
  · intro ms pin p _ _ _
    exact ofKinds_nil
  · intro pin _ _
    exact checkPin_kinds fun _ => rfl
  · intro currentPin newPin _ _
    exact checkPin_kinds (replacePin_acts newPin)
  · intro ms site k _ _ a ha
    obtain ⟨r, -, rfl⟩ := List.mem_map.mp ha
    simp [Act.kind, serialKinds, fingerKinds]
  · intro ms _
    exact ofKinds_nil
  · intro ms id _ _
    exact ofKinds_nil
  · intro ms _ _
    simp [Act.kind, serialKinds, fingerKinds]

theorem updateFingerprintAsync_kinds :
    OfKinds env d.bio [.approved] (updateFingerprintAsync P env d).acts := by
  refine updateFingerprintAsync_cases (Q := fun r => OfKinds env d.bio _ r.acts) ?_ ?_
  · intro ms n s
    exact ofKinds_nil
  · intro ms n v s _ _ _ _
    simp [Act.kind, fingerKinds]

theorem step_kinds (P : Platform) (d : Device) (i : Input) :
    OfKinds i.env d.bio i.event.kinds (step P d i).1.acts := by
  refine step_cases (Q := fun r => OfKinds i.env d.bio _ r.1.acts) ?_ ?_ ?_ ?_ ?_ ?_ ?_ ?_ ?_ ?_ ?_ ?_ ?_ ?_
  · intro reply
    exact ofKinds_nil
  · intro body he
    rw [he]
    exact makeCredential_kinds
  · intro body req he _ _
    rw [he]
    exact getAssertion_kinds
  · intro body he
    rw [he]
    exact getNextAssertion_kinds
  · intro body he
    rw [he]
    exact clientPin_kinds
  · intro body he
    rw [he]
    exact authenticatorReset_kinds
  · rintro code body he (rfl | rfl) <;> rw [he] <;> exact bioEnrollment_kinds
  · rintro code body he (rfl | rfl) <;> rw [he] <;> exact credentialManagement_kinds
  · intro body he
    rw [he]
    exact largeBlobs_kinds
  · intro body he
    exact ofKinds_nil
  · intro data he
    rw [he]
    exact processU2fCommand_kinds
  · intro c he
    rw [he]
    exact serialCommand_kinds
  · intro he
    rw [he]
    exact updateFingerprintAsync_kinds
  · intro he
    exact ofKinds_nil

end GoiKey
