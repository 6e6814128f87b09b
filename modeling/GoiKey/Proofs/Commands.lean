import GoiKey.Model.Step

/-!
What a step can be. Each rule turns a fact about every step into one fact for
each command, and states beside it what that command leaves alone.
-/

namespace GoiKey

variable {P : Platform} {env : Env} {d : Device}

theorem cborCommand_cases {code : UInt8} {body : Bytes} {Q : Output × Device → Prop}
    (idle : ∀ reply, Q (⟨reply, []⟩, d))
    (makeCredential : code = 0x01 → Q (runMakeCredential P env d body))
    (getAssertion : ∀ req, code = 0x02 → parseGetAssertion env.strayCount body = some req →
      Q ((getAssertion P env d req).run d))
    (getNextAssertion : code = 0x08 → Q ((getNextAssertion P env d).run d))
    (clientPin : code = 0x06 → Q (runClientPin P env d body))
    (reset : code = 0x07 → Q (authenticatorReset env d))
    (bioEnrollment : code = 0x09 ∨ code = 0x40 → Q (runBioEnrollment env d body))
    (credentialManagement : code = 0x0A ∨ code = 0x41 → Q (runCredentialManagement P env d body))
    (largeBlobs : code = 0x0C → Q (runLargeBlobs P env d body))
    (config : code = 0x0D → Q (runConfig env d body)) :
    Q (cborCommand P env d code body) := by
  unfold cborCommand
  split
  · exact makeCredential rfl
  · rw [runGetAssertion]
    cases hp : parseGetAssertion env.strayCount body with
    | none => exact idle _
    | some req => exact getAssertion req rfl hp
  · exact idle _
  · exact clientPin rfl
  · exact reset rfl
  · exact getNextAssertion rfl
  · exact bioEnrollment (.inl rfl)
  · exact bioEnrollment (.inr rfl)
  · exact credentialManagement (.inl rfl)
  · exact credentialManagement (.inr rfl)
  · exact idle _
  · exact largeBlobs rfl
  · exact config rfl
  · exact idle _

theorem step_cases {i : Input} {Q : Output × Device → Prop}
    (idle : ∀ reply, Q (⟨reply, []⟩, d))
    (makeCredential : ∀ body, i.event = .cbor (0x01 :: body) → Q (runMakeCredential P i.env d body))
    (getAssertion : ∀ body req, i.event = .cbor (0x02 :: body) →
      i.env.allocates .response = true → parseGetAssertion i.env.strayCount body = some req →
      Q ((getAssertion P i.env d req).run d))
    (getNextAssertion : ∀ body, i.event = .cbor (0x08 :: body) →
      Q ((getNextAssertion P i.env d).run d))
    (clientPin : ∀ body, i.event = .cbor (0x06 :: body) → Q (runClientPin P i.env d body))
    (reset : ∀ body, i.event = .cbor (0x07 :: body) → Q (authenticatorReset i.env d))
    (bioEnrollment : ∀ code body, i.event = .cbor (code :: body) → code = 0x09 ∨ code = 0x40 →
      Q (runBioEnrollment i.env d body))
    (credentialManagement : ∀ code body, i.event = .cbor (code :: body) →
      code = 0x0A ∨ code = 0x41 → Q (runCredentialManagement P i.env d body))
    (largeBlobs : ∀ body, i.event = .cbor (0x0C :: body) → Q (runLargeBlobs P i.env d body))
    (config : ∀ body, i.event = .cbor (0x0D :: body) → Q (runConfig i.env d body))
    (u2f : ∀ data, i.event = .u2f data → Q (runU2f P i.env d data))
    (serial : ∀ c, i.event = .serial c → Q (serialCommand P i.env d c).run)
    (fingerprintTask : i.event = .fingerprintTask → Q (updateFingerprintAsync P i.env d).run)
    (powerCycle : i.event = .powerCycle → Q (⟨.none, []⟩, reboot i.env d)) :
    Q (step P d i) := by
  unfold step
  cases he : i.event with
  | cbor data =>
    cases data with
    | nil => exact idle _
    | cons code body =>
      simp only [processCborCommand]
      split
      next ha =>
        apply cborCommand_cases idle
        · rintro rfl; exact makeCredential body he
        · rintro req rfl hp; exact getAssertion body req he ha hp
        · rintro rfl; exact getNextAssertion body he
        · rintro rfl; exact clientPin body he
        · rintro rfl; exact reset body he
        · exact bioEnrollment code body he
        · exact credentialManagement code body he
        · rintro rfl; exact largeBlobs body he
        · rintro rfl; exact config body he
      · exact idle _
  | u2f data => exact u2f data he
  | serial c => exact serial c he
  | fingerprintTask => exact fingerprintTask he
  | powerCycle => exact powerCycle he

/-- A CTAP2 message is refused at once, or its command runs. -/
theorem step_code {i : Input} {code : UInt8} (hc : i.event.code = some code) :
    ∃ body, i.event = .cbor (code :: body) ∧
      ((∃ refusal, step P d i = (⟨.cbor (.status refusal), []⟩, d)) ∨
      (i.env.allocates .response = true ∧ step P d i = cborCommand P i.env d code body)) := by
  cases he : i.event with
  | cbor data =>
    cases data with
    | nil => simp [he, Event.code] at hc
    | cons c body =>
      simp only [he, Event.code, Option.some.injEq] at hc
      subst hc
      refine ⟨body, rfl, ?_⟩
      simp only [step, he, processCborCommand]
      cases ha : i.env.allocates .response with
      | false => exact .inl ⟨_, rfl⟩
      | true => exact .inr ⟨rfl, rfl⟩
  | _ => simp [he, Event.code] at hc

/-- The request of a GetAssertion that is taken up. -/
def assertionRequest (i : Input) : Option GetAssertionRequest :=
  match i.event with
  | .cbor (0x02 :: body) =>
    if i.env.allocates .response then parseGetAssertion i.env.strayCount body else none
  | _ => none

theorem step_makeCredential {i : Input} (hc : i.event.code = some 0x01) :
    (∃ refusal, step P d i = (⟨.cbor (.status refusal), []⟩, d)) ∨
      ∃ body, step P d i = runMakeCredential P i.env d body := by
  obtain ⟨body, -, hidle | ⟨-, hs⟩⟩ := step_code (P := P) (d := d) hc
  · exact .inl hidle
  · exact .inr ⟨body, hs⟩

theorem step_getAssertion {i : Input} (hc : i.event.code = some 0x02) :
    (∃ refusal, step P d i = (⟨.cbor (.status refusal), []⟩, d)) ∨
      ∃ req ∈ assertionRequest i, step P d i = (getAssertion P i.env d req).run d := by
  obtain ⟨body, he, hidle | ⟨ha, hs⟩⟩ := step_code (P := P) (d := d) hc
  · exact .inl hidle
  · rw [hs]
    simp only [cborCommand, runGetAssertion]
    cases hp : parseGetAssertion i.env.strayCount body with
    | none => exact .inl ⟨_, rfl⟩
    | some req => exact .inr ⟨req, by simp [assertionRequest, he, ha, hp], rfl⟩

theorem step_getNextAssertion {i : Input} (hc : i.event.code = some 0x08) :
    (∃ refusal, step P d i = (⟨.cbor (.status refusal), []⟩, d)) ∨
      step P d i = (getNextAssertion P i.env d).run d := by
  obtain ⟨body, he, hidle | ⟨ha, hs⟩⟩ := step_code (P := P) (d := d) hc
  · exact .inl hidle
  · exact .inr hs

/-! Serial commands. -/

/-- A PIN given over the serial line: what verifyPin says and what it leaves. -/
theorem checkPin_cases {pin : Str} {accepted : Device → SerialResult} {Q : SerialResult → Prop}
    (unread : Q ⟨[], [], d⟩)
    (correct : d.pins.pin = some (hashPin P pin) → env.opens .pin .read = true →
      let r := accepted { d with pins := resetFailedPinAttempts d.pins }
      Q { r with acts := .pinGuess true :: r.acts })
    (wrong : ∀ stored n, d.pins.pin = some stored → stored ≠ hashPin P pin →
      getFailedPinAttempts env (incrementFailedPinAttempts env d.pins) = n → n < 10 →
      Q ⟨pinErrors (.wrong n), [.pinGuess false],
        { d with pins := incrementFailedPinAttempts env d.pins }⟩)
    (wiped : ∀ stored, d.pins.pin = some stored → stored ≠ hashPin P pin →
      10 ≤ getFailedPinAttempts env (incrementFailedPinAttempts env d.pins) →
      Q ⟨pinErrors .wiped, [.pinGuess false, .wiped],
        reboot env (factoryResetSystem env
          { d with pins := incrementFailedPinAttempts env d.pins })⟩) :
    Q (checkPin P env d pin accepted) := by
  unfold checkPin verifyPin
  cases hp : d.pins.pin with
  | none => exact unread
  | some stored =>
    cases hr : env.opens .pin .read with
    | false => exact unread
    | true =>
      by_cases hs : stored = hashPin P pin
      · simp only [Bool.not_true, Bool.false_eq_true, if_false, if_pos hs]
        exact correct (hp.trans (congrArg some hs)) hr
      · by_cases hw : 10 ≤ getFailedPinAttempts env (incrementFailedPinAttempts env d.pins)
        · simp only [Bool.not_true, Bool.false_eq_true, if_false, if_neg hs, if_pos hw]
          exact wiped stored hp hs hw
        · simp only [Bool.not_true, Bool.false_eq_true, if_false, if_neg hs, if_neg hw]
          exact wrong stored _ hp hs rfl (by omega)

/-- The device after FACTORY_RESET has ended the session. -/
def Device.locked (d : Device) : Device := { d with serial := d.serial.lock }

/-- The records DELETE_FIDO hits, as the acts it leaves behind. -/
def deletedOf (env : Env) (site : Str) (k : Keystore) : List Act :=
  ((readPasskeys env k).filter fun r => r.status == 1 && r.rp == site).map fun r =>
    .deleted r.cid (.rpId site)

theorem authenticatedCommand_cases {c : SerialCommand} {Q : SerialResult → Prop}
    (quiet : ∀ ms v s alg dflt,
      Q ⟨ms, [], { d with vault := v, serial := s, cryptoAlg := alg, defaultCryptoAlg := dflt }⟩)
    (update : ∀ currentPin newPin, c = .updatePin currentPin newPin →
      Q (checkPin P env d currentPin (replacePin P env newPin)))
    (deleteFido : ∀ ms site k, c = .deleteFido site →
      deleteFidoWebsite env d.keys site = (true, k) →
      Q ⟨ms, deletedOf env site d.keys, { d with keys := k }⟩)
    (purge : ∀ ms, c = .purgeStorage → Q ⟨ms, [], clearAllStoredPasswords d⟩)
    (enroll : ∀ ms id, c = .enrollFinger id →
      Q ⟨ms, [], { d with bio := (enrollFingerprint env d.bio id).2 }⟩)
    (factoryReset : ∀ ms, c = .factoryReset →
      Q ⟨ms, [.wiped], (factoryResetSystem env d).locked⟩) :
    Q (authenticatedCommand P env d c) := by
  have same : ∀ ms, Q ⟨ms, [], d⟩ := fun ms =>
    quiet ms d.vault d.serial d.cryptoAlg d.defaultCryptoAlg
  have session : ∀ ms s, Q ⟨ms, [], { d with serial := s }⟩ := fun ms s =>
    quiet ms d.vault s d.cryptoAlg d.defaultCryptoAlg
  have vault : ∀ ms v, Q ⟨ms, [], { d with vault := v }⟩ := fun ms v =>
    quiet ms v d.serial d.cryptoAlg d.defaultCryptoAlg
  unfold authenticatedCommand
  cases c <;> dsimp only
  case savePass => split <;> (try split) <;> first | exact same _ | exact vault _ _
  case getPass => split <;> first | exact same _ | exact session _ _
  case deletePass => split <;> first | exact same _ | exact vault _ _
  case saveTotp => split <;> first | exact same _ | exact vault _ _
  case deleteTotp => split <;> first | exact same _ | exact vault _ _
  case deleteFido site =>
    split
    next k hk => exact deleteFido _ site k rfl hk
    next => exact same _
  case purgeStorage => exact purge _ rfl
  case runDiagnostics => exact vault _ _
  case setCryptoAlg => exact quiet _ d.vault d.serial _ _
  case updatePass => split <;> (try split) <;> first | exact same _ | exact session _ _
  case enrollFinger id => exact enroll _ id rfl
  case factoryReset => exact factoryReset _ rfl
  case updatePin currentPin newPin =>
    split
    · exact same _
    · exact update currentPin newPin rfl
  all_goals exact same _

theorem serialCommand_cases {c : SerialCommand} {Q : SerialResult → Prop}
    (quiet : ∀ ms v s alg dflt,
      Q ⟨ms, [], { d with vault := v, serial := s, cryptoAlg := alg, defaultCryptoAlg := dflt }⟩)
    (create : ∀ ms pin p, c = .createPin pin → d.pins.pin = none →
      createPin P env d.pins pin = some p → Q ⟨ms, [], { d with pins := p }⟩)
    (verify : ∀ pin, c = .verifyPin pin → d.serial.authenticated = false →
      Q (checkPin P env d pin (openSession P pin)))
    (update : ∀ currentPin newPin, c = .updatePin currentPin newPin →
      d.serial.authenticated = true → Q (checkPin P env d currentPin (replacePin P env newPin)))
    (deleteFido : ∀ ms site k, c = .deleteFido site →
      deleteFidoWebsite env d.keys site = (true, k) →
      Q ⟨ms, deletedOf env site d.keys, { d with keys := k }⟩)
    (purge : ∀ ms, c = .purgeStorage → Q ⟨ms, [], clearAllStoredPasswords d⟩)
    (enroll : ∀ ms id, c = .enrollFinger id → d.serial.authenticated = true →
      Q ⟨ms, [], { d with bio := (enrollFingerprint env d.bio id).2 }⟩)
    (factoryReset : ∀ ms, c = .factoryReset → d.serial.authenticated = true →
      Q ⟨ms, [.wiped], (factoryResetSystem env d).locked⟩) :
    Q (serialCommand P env d c) := by
  have same : ∀ ms, Q ⟨ms, [], d⟩ := fun ms =>
    quiet ms d.vault d.serial d.cryptoAlg d.defaultCryptoAlg
  have session : ∀ ms s, Q ⟨ms, [], { d with serial := s }⟩ := fun ms s =>
    quiet ms d.vault s d.cryptoAlg d.defaultCryptoAlg
  have authenticated : d.serial.authenticated = true → Q (authenticatedCommand P env d c) :=
    fun ha => authenticatedCommand_cases quiet (fun _ _ hc => update _ _ hc ha) deleteFido purge
      (fun _ _ hc => enroll _ _ hc ha) (fun _ hc => factoryReset _ hc ha)
  cases c <;> simp only [serialCommand]
  case handshake => exact session _ _
  case restartSystem => exact session _ _
  case disconnect => exact session _ _
  case createPin pin =>
    split
    next hp =>
      split
      next p hc => exact create _ pin p rfl (by simpa [isPinSet] using hp) hc
      next => exact same _
    next => split <;> exact same _
  case verifyPin pin =>
    split
    · exact same _
    · split
      next ha => exact verify pin rfl (by simpa using ha)
      next ha => exact authenticated (by simpa using ha)
  all_goals
    split
    · exact same _
    · split
      · exact same _
      next ha => exact authenticated (by simpa using ha)

theorem updateFingerprintAsync_cases {Q : SerialResult → Prop}
    (quiet : ∀ ms n s,
      Q ⟨ms, [], { d with uv := { d.uv with lastConfidenceScore := n }, serial := s }⟩)
    (approved : ∀ ms n v s, env.sensor.settled = .ok → env.sensor.tz = .ok →
      env.sensor.search = .ok → 50 < env.sensor.confidence →
      Q ⟨ms, [.approved env.sensor.confidence],
        { d with vault := v, uv := { d.uv with lastConfidenceScore := n }, serial := s }⟩) :
    Q (updateFingerprintAsync P env d) := by
  have same : ∀ ms s, Q ⟨ms, [], { d with serial := s }⟩ := fun ms s =>
    quiet ms d.uv.lastConfidenceScore s
  unfold updateFingerprintAsync
  split
  · exact same _ d.serial
  split
  · exact same _ d.serial
  split
  · exact same _ d.serial
  split
  · exact same _ _
  next hok hsearch _ =>
    simp only [not_or, ne_eq, not_not] at hok
    have hsearch : env.sensor.search = .ok := by simpa using hsearch
    unfold judgeScore
    split
    · exact quiet _ _ d.serial
    next hc =>
      unfold releasePending
      split
      · exact approved _ _ _ _ hok.1 hok.2 hsearch (by omega)
      · exact approved _ _ d.vault _ hok.1 hok.2 hsearch (by omega)

end GoiKey
