import GoiKey.Model.Bench
import GoiKey.Proofs.ManagementRules

/-!
The serial session from step to step, and the key it works with. The flag and the
key are written by different hands, so what each step does to both is said once.
-/

namespace GoiKey

variable {P : Platform} {env : Env} {d : Device} {i : Input}

/-! What a step does to the session and the stored PIN. -/

/-- A changePIN that is carried out, with its new PIN. -/
inductive ChangesPin (P : Platform) (env : Env) (d : Device) (body : Bytes) : Str → Prop where
  | changed {req : ClientPinRequest} {secret padded : Bytes}
    (parsed : parseClientPin body = some req) (sub : req.subCommand = 0x04)
    (retries : getFailedPinAttempts env d.pins < 10)
    (agreed : sharedSecret P d.session req = some secret)
    (authentic : pinAuthOk P secret (req.newPinEnc ++ req.pinHashEnc) req.pinAuth = true)
    (known : pinHashEncOk P env secret d.pins req = true)
    (decrypted : aesCbcZeroIvDecrypt P secret req.newPinEnc = some padded)
    (long : getMinPinLength env d.pins ≤ (decryptedPin padded).length)
    (written : env.opens .pin .write = true) : ChangesPin P env d body (decryptedPin padded)

/-- The stored PIN and the session after a step. -/
inductive SessionMove (P : Platform) (env : Env) (d : Device) : Event → Option Str → SerialSession → Prop
    where
  | same {e : Event} : SessionMove P env d e d.pins.pin d.serial
  | handshake : SessionMove P env d (.serial .handshake) d.pins.pin
      { d.serial with authenticated := false, commandState := .ready }
  | locked {e : Event} {pin : Option Str} : SessionMove P env d e pin d.serial.lock
  | restarted {e : Event} {pin : Option Str} : SessionMove P env d e pin {}
  | created {e : Event} {pin : Option Str} (unset : d.pins.pin = none) :
    SessionMove P env d e pin d.serial
  | changed {body : Bytes} {newPin : Str} (room : env.allocates .response = true)
    (changes : ChangesPin P env d body newPin) :
    SessionMove P env d (.cbor (0x06 :: body)) (some (hashPin P newPin)) d.serial
  | opened {pin : Str} (stored : d.pins.pin = some (hashPin P pin)) :
    SessionMove P env d (.serial (.verifyPin pin)) d.pins.pin
      { d.serial with authenticated := true, storageKey := some (deriveStorageKey P pin) }
  | replaced {currentPin newPin : Str} (authenticated : d.serial.authenticated = true)
    (stored : d.pins.pin = some (hashPin P currentPin)) (read : env.opens .pin .read = true)
    (long : getMinPinLength env d.pins ≤ newPin.length) :
    SessionMove P env d (.serial (.updatePin currentPin newPin))
      (if env.opens .pin .write then some (hashPin P newPin) else d.pins.pin)
      { d.serial with storageKey := some (deriveStorageKey P newPin) }
  | requested {site login : Str} (authenticated : d.serial.authenticated = true)
    (found : getPasswordFromStorage P env d.serial.storageKey d.vault site login ≠ []) :
    SessionMove P env d (.serial (.getPass site login)) d.pins.pin
      { d.serial with
        pendingPasswordToTransmit := getPasswordFromStorage P env d.serial.storageKey d.vault site login
        commandState := .awaitingFingerprint }
  | updating {site login pass : Str} {autogen : Bool} (authenticated : d.serial.authenticated = true) :
    SessionMove P env d (.serial (.updatePass site login pass autogen)) d.pins.pin
      { d.serial with
        pendingWebsite := site, pendingLogin := login
        pendingPasswordToSave := newPassword env pass autogen
        commandState := .awaitingFingerprintUpdate }
  | purged (authenticated : d.serial.authenticated = true) :
    SessionMove P env d (.serial .purgeStorage) d.pins.pin { d.serial with storageKey := none }
  | settled {s : SerialSession} (authenticated : s.authenticated = d.serial.authenticated)
    (storageKey : s.storageKey = d.serial.storageKey) (ready : s.commandState = .ready) :
    SessionMove P env d .fingerprintTask d.pins.pin s

theorem createPin_some {p p' : PinFiles} {pin : Str} (h : createPin P env p pin = some p') :
    getMinPinLength env p ≤ pin.length ∧
      p'.pin = if env.opens .pin .write then some (hashPin P pin) else p.pin := by
  unfold createPin at h
  split at h
  · cases h
  next hlen =>
    split at h
    next hw =>
      cases h
      exact ⟨Nat.not_lt.mp hlen, by rw [if_pos hw]⟩
    next hw =>
      cases h
      exact ⟨Nat.not_lt.mp hlen, by rw [if_neg hw]⟩

theorem incrementFailedPinAttempts_pin (env : Env) (p : PinFiles) :
    (incrementFailedPinAttempts env p).pin = p.pin := by
  unfold incrementFailedPinAttempts
  split <;> rfl

theorem authenticatorConfig_pin {p : PinFiles} {body : Bytes} :
    (authenticatorConfig env p body).2.pin = p.pin := by
  unfold authenticatorConfig setForcePinChange setMinPinLength
  repeat' (first | split | rfl)

/-- Nothing is written, or the new PIN is. -/
theorem changePin_pin (P : Platform) (env : Env) (d : Device) {body : Bytes} {req : ClientPinRequest}
    (hparse : parseClientPin body = some req) (hsub : req.subCommand = 0x04) :
    (changePin P env d.pins d.session req).2.2.pin = d.pins.pin ∨
      ∃ newPin, ChangesPin P env d body newPin ∧
        (changePin P env d.pins d.session req).2.2.pin = some (hashPin P newPin) := by
  unfold changePin
  split
  · exact .inl rfl
  split
  · exact .inl rfl
  next hretries =>
    split
    · exact .inl rfl
    split
    · exact .inl rfl
    next secret hsecret =>
      split
      · exact .inl rfl
      next hauth =>
        split
        · exact .inl (incrementFailedPinAttempts_pin _ _)
        next hknown =>
          simp only [storeNewPin]
          split
          · exact .inl rfl
          next padded hplain =>
            split
            · exact .inl rfl
            next p hp =>
              obtain ⟨hlong, hpin⟩ := createPin_some hp
              cases hw : env.opens .pin .write with
              | false =>
                rw [hw, if_neg Bool.false_ne_true] at hpin
                exact .inl hpin
              | true =>
                rw [hw, if_pos rfl] at hpin
                exact .inr ⟨_, .changed hparse hsub (by omega) hsecret (by simpa using hauth)
                  (by simpa using hknown) hplain hlong hw, hpin⟩

/-- A correct PIN does what its command is for, a wrong one counts or wipes. -/
theorem checkPin_moves {e : Event} {pin : Str} {accepted : Device → SerialResult}
    (ha : d.pins.pin = some (hashPin P pin) → env.opens .pin .read = true →
      SessionMove P env d e (accepted { d with pins := resetFailedPinAttempts d.pins }).dev.pins.pin
        (accepted { d with pins := resetFailedPinAttempts d.pins }).dev.serial) :
    SessionMove P env d e (checkPin P env d pin accepted).dev.pins.pin
      (checkPin P env d pin accepted).dev.serial := by
  refine checkPin_cases (Q := fun r => SessionMove P env d e r.dev.pins.pin r.dev.serial) ?_ ?_ ?_ ?_
  · exact .same
  · exact ha
  · intro stored n hp hs hn hten
    change SessionMove P env d e (incrementFailedPinAttempts env d.pins).pin d.serial
    rw [incrementFailedPinAttempts_pin]
    exact .same
  · intro stored hp hs hten
    exact .restarted

theorem replacePin_moves {currentPin newPin : Str} (ha : d.serial.authenticated = true)
    (hs : d.pins.pin = some (hashPin P currentPin)) (hr : env.opens .pin .read = true) :
    SessionMove P env d (.serial (.updatePin currentPin newPin))
      (replacePin P env newPin { d with pins := resetFailedPinAttempts d.pins }).dev.pins.pin
      (replacePin P env newPin { d with pins := resetFailedPinAttempts d.pins }).dev.serial := by
  unfold replacePin
  split
  next p hp =>
    obtain ⟨hlong, hpin⟩ := createPin_some hp
    simp only
    rw [hpin]
    exact .replaced ha hs hr hlong
  · exact .same

theorem authenticatedCommand_moves {c : SerialCommand} (ha : d.serial.authenticated = true) :
    SessionMove P env d (.serial c) (authenticatedCommand P env d c).dev.pins.pin
      (authenticatedCommand P env d c).dev.serial := by
  unfold authenticatedCommand
  cases c with
  | savePass site login pass autogen =>
    dsimp only
    split
    · exact .same
    · split <;> exact .same
  | getPass site login =>
    dsimp only
    split
    · exact .same
    next hpw => exact .requested ha hpw
  | deletePass site login =>
    dsimp only
    split <;> exact .same
  | saveTotp name secret =>
    dsimp only
    split <;> exact .same
  | deleteTotp name =>
    dsimp only
    split <;> exact .same
  | deleteFido site =>
    dsimp only
    split <;> exact .same
  | purgeStorage => exact .purged ha
  | updatePass site login pass autogen =>
    dsimp only
    split
    · exact .same
    · split
      · exact .same
      · exact .updating ha
  | factoryReset => exact .locked
  | updatePin currentPin newPin =>
    dsimp only
    split
    · exact .same
    · exact checkPin_moves fun hs hr => replacePin_moves ha hs hr
  | _ => exact .same

theorem serialCommand_moves (c : SerialCommand) :
    SessionMove P env d (.serial c) (serialCommand P env d c).dev.pins.pin
      (serialCommand P env d c).dev.serial := by
  -- Without a PIN only CREATE_PIN does something, without a session only VERIFY_PIN.
  have asked : c ≠ .handshake → c ≠ .restartSystem → c ≠ .disconnect →
      SessionMove P env d (.serial c) (serialCommand P env d c).dev.pins.pin
        (serialCommand P env d c).dev.serial := by
    intro hh hr hd
    unfold serialCommand
    split
    · exact absurd rfl hh
    · exact absurd rfl hr
    · exact absurd rfl hd
    next c _ _ _ =>
      split
      next hset =>
        split
        · split
          · exact .created (by simpa [isPinSet] using hset)
          · exact .same
        · exact .same
      next hset =>
        split
        next ha =>
          split
          next pin => exact checkPin_moves fun hs _ => .opened hs
          · exact .same
        next ha => exact authenticatedCommand_moves (by simpa using ha)
  cases c with
  | handshake => exact .handshake
  | restartSystem => exact .locked
  | disconnect => exact .locked
  | _ => exact asked (by simp) (by simp) (by simp)

theorem releasePending_settles (P : Platform) (env : Env) (d : Device) :
    (releasePending P env d).dev.pins = d.pins ∧
      (releasePending P env d).dev.serial.authenticated = d.serial.authenticated ∧
      (releasePending P env d).dev.serial.storageKey = d.serial.storageKey ∧
      (releasePending P env d).dev.serial.commandState = .ready := by
  unfold releasePending
  split <;> exact ⟨rfl, rfl, rfl, rfl⟩

theorem updateFingerprintAsync_moves :
    SessionMove P env d .fingerprintTask (updateFingerprintAsync P env d).dev.pins.pin
      (updateFingerprintAsync P env d).dev.serial := by
  unfold updateFingerprintAsync
  split
  · exact .same
  split
  · exact .same
  split
  · exact .same
  split
  · exact .settled rfl rfl rfl
  unfold judgeScore
  split
  · exact .same
  · obtain ⟨hpins, ha, hk, hs⟩ := releasePending_settles P env
      { d with uv := { d.uv with lastConfidenceScore := env.sensor.confidence } }
    rw [hpins]
    exact .settled ha hk hs

theorem clientPin_moves {body : Bytes} (hroom : env.allocates .response = true) :
    SessionMove P env d (.cbor (0x06 :: body)) (clientPin P env d.pins d.session body).pins.pin
      d.serial := by
  refine clientPin_cases (Q := fun r => SessionMove P env d (.cbor (0x06 :: body)) r.pins.pin d.serial)
    ?_ ?_ ?_ ?_ ?_
  · exact fun reply session => .same
  · exact fun req hparse hsub => .same
  · intro req hparse hsub
    cases hpin : d.pins.pin with
    | none => exact .created hpin
    | some stored =>
      have hset : isPinSet d.pins = true := by simp [isPinSet, hpin]
      simp only [setPin, hset, if_true]
      exact .same
  · intro req hparse hsub
    rcases changePin_pin P env d hparse hsub with hsame | ⟨newPin, hc, hpin⟩
    · simp only [hsame]
      exact .same
    · simp only [hpin]
      exact .changed hroom hc
  · exact .same

/-- A CTAP2 message there is no memory to answer changes nothing. -/
theorem step_without_room {data : Bytes} (he : i.event = .cbor data)
    (hroom : i.env.allocates .response = false) : (step P d i).2 = d := by
  cases data with
  | nil => simp only [step, he, processCborCommand]
  | cons code body =>
    simp only [step, he, processCborCommand, hroom]
    rfl

theorem step_moves (P : Platform) (d : Device) (i : Input) :
    SessionMove P i.env d i.event (step P d i).2.pins.pin (step P d i).2.serial := by
  by_cases hidle : (∃ data, i.event = .cbor data) ∧ i.env.allocates .response = false
  · obtain ⟨⟨data, he⟩, hroom⟩ := hidle
    rw [step_without_room he hroom]
    exact .same
  refine step_cases (Q := fun r => SessionMove P i.env d i.event r.2.pins.pin r.2.serial)
    ?_ ?_ ?_ ?_ ?_ ?_ ?_ ?_ ?_ ?_ ?_ ?_ ?_ ?_
  · exact fun reply => .same
  · exact fun body he => .same
  · exact fun body req he ha hp => .same
  · exact fun body he => .same
  · intro body he
    have hroom : i.env.allocates .response = true := by
      by_contra hno
      exact hidle ⟨⟨_, he⟩, by simpa using hno⟩
    rw [he]
    exact clientPin_moves hroom
  · intro body he
    unfold authenticatorReset
    split
    · exact .same
    · exact .same
    · exact .locked
  · exact fun code body he hc => .same
  · exact fun code body he hc => .same
  · exact fun body he => .same
  · intro body he
    change SessionMove P i.env d i.event (authenticatorConfig i.env d.pins body).2.pin d.serial
    rw [authenticatorConfig_pin]
    exact .same
  · exact fun data he => .same
  · intro c he
    rw [he]
    exact serialCommand_moves c
  · intro he
    rw [he]
    exact updateFingerprintAsync_moves
  · exact fun he => .restarted

/-! The flag and the key. -/

/-- A session is open exactly while a key made from the stored PIN is loaded, and no other
key ever is. -/
structure Keyed (P : Platform) (d : Device) : Prop where
  key : d.serial.authenticated = true ↔ ∃ pin, d.pins.pin = some (hashPin P pin) ∧
    d.serial.storageKey = some (deriveStorageKey P pin)
  locked : d.serial.authenticated = false → d.serial.storageKey = none

/-- What an open session must not meet: the handshake and PURGE_STORAGE, which touch only one
of flag and key, and a new PIN that reaches only one of key and file. -/
structure KeyHeeded (P : Platform) (_ : History) (d : Device) (i : Input) : Prop where
  handshake : i.event = .serial .handshake → d.serial.authenticated = false
  purge : i.event = .serial .purgeStorage → d.serial.authenticated = false
  updatePin : ∀ currentPin newPin, i.event = .serial (.updatePin currentPin newPin) →
    d.serial.authenticated = true → d.pins.pin = some (hashPin P currentPin) →
    i.env.opens .pin .read = true → getMinPinLength i.env d.pins ≤ newPin.length →
    i.env.opens .pin .write = true ∨ newPin = currentPin
  changePin : ∀ body newPin, i.event = .cbor (0x06 :: body) → d.serial.authenticated = true →
    i.env.allocates .response = true → ChangesPin P i.env d body newPin →
    d.pins.pin = some (hashPin P newPin)

theorem Keyed.closed {d : Device} (ha : d.serial.authenticated = false)
    (hk : d.serial.storageKey = none) : Keyed P d where
  key := by
    rw [ha, hk]
    simp
  locked := fun _ => hk

theorem Keyed.opened {d : Device} {pin : Str} (ha : d.serial.authenticated = true)
    (hs : d.pins.pin = some (hashPin P pin))
    (hk : d.serial.storageKey = some (deriveStorageKey P pin)) : Keyed P d where
  key := ⟨fun _ => ⟨pin, hs, hk⟩, fun _ => ha⟩
  locked := by
    rw [ha]
    intro h
    cases h

/-- Flag, key and stored PIN are all that counts. -/
theorem Keyed.congr {d d' : Device} (h : Keyed P d) (hp : d'.pins.pin = d.pins.pin)
    (ha : d'.serial.authenticated = d.serial.authenticated)
    (hk : d'.serial.storageKey = d.serial.storageKey) : Keyed P d' := by
  constructor
  · rw [hp, ha, hk]
    exact h.key
  · rw [ha, hk]
    exact h.locked

theorem Keyed.unauthenticated (h : Keyed P d) (hp : d.pins.pin = none) :
    d.serial.authenticated = false := by
  by_contra ha
  obtain ⟨pin, hs, -⟩ := h.key.mp (by simpa using ha)
  rw [hp] at hs
  cases hs

theorem step_keyed {past : History} (h : Keyed P d) (hc : KeyHeeded P past d i) :
    Keyed P (step P d i).2 := by
  have hmove := step_moves P d i
  generalize hp : (step P d i).2.pins.pin = pin at hmove
  generalize hs : (step P d i).2.serial = s at hmove
  generalize he : i.event = e at hmove
  cases hmove with
  | same => exact h.congr hp (by rw [hs]) (by rw [hs])
  | handshake =>
    have ha := hc.handshake he
    exact .closed (by rw [hs]) (by rw [hs]; exact h.locked ha)
  | locked => exact .closed (by rw [hs]; rfl) (by rw [hs]; rfl)
  | restarted => exact .closed (by rw [hs]) (by rw [hs])
  | created unset =>
    have ha := h.unauthenticated unset
    exact .closed (by rw [hs, ha]) (by rw [hs]; exact h.locked ha)
  | @changed body newPin room changes =>
    cases ha : d.serial.authenticated with
    | false => exact .closed (by rw [hs, ha]) (by rw [hs]; exact h.locked ha)
    | true =>
      -- The PIN it was opened with is the one stored again.
      have hstored := hc.changePin body newPin he ha room changes
      exact h.congr (by rw [hp, hstored]) (by rw [hs]) (by rw [hs])
  | @opened pin stored => exact .opened (by rw [hs]) (by rw [hp, stored]) (by rw [hs])
  | @replaced currentPin newPin authenticated stored read long =>
    rcases hc.updatePin _ _ he authenticated stored read long with hw | rfl
    · exact .opened (by rw [hs]; exact authenticated) (by rw [hp, hw, if_pos rfl]) (by rw [hs])
    · exact .opened (by rw [hs]; exact authenticated) (by rw [hp, stored, ite_self]) (by rw [hs])
  | requested authenticated found => exact h.congr hp (by rw [hs]) (by rw [hs])
  | updating authenticated => exact h.congr hp (by rw [hs]) (by rw [hs])
  | purged authenticated =>
    have ha := hc.purge he
    rw [authenticated] at ha
    cases ha
  | settled authenticated storageKey ready =>
    exact h.congr hp (by rw [hs, authenticated]) (by rw [hs, storageKey])

/-- In every run that spares an open session, flag and key agree in every state. -/
theorem session_keyed (inputs : List Input)
    (hg : Trace.Guarded (step P) (KeyHeeded P) initial inputs) :
    Keyed P (Trace.final (step P) initial inputs) :=
  Trace.invariant (I := fun _ d => Keyed P d) (fun _ _ _ h hc => step_keyed h hc) (.closed rfl rfl) hg

/-- Serial commands other than these three touch neither half alone. -/
theorem keyHeeded_serial {past : History} {c : SerialCommand} {env : Env} (hh : c ≠ .handshake)
    (hp : c ≠ .purgeStorage) (hu : ∀ currentPin newPin, c ≠ .updatePin currentPin newPin) :
    KeyHeeded P past d ⟨.serial c, env⟩ where
  handshake := fun he => absurd (Event.serial.inj he) hh
  purge := fun he => absurd (Event.serial.inj he) hp
  updatePin := fun _ _ he => absurd (Event.serial.inj he) (hu _ _)
  changePin := fun _ _ he => by cases he

theorem session_keyed_opened :
    Keyed Bench.platform (Trace.final (step Bench.platform) initial
      [⟨.serial (.createPin (text "1234")), Bench.idleEnv 1 0⟩,
        ⟨.serial (.verifyPin (text "1234")), Bench.idleEnv 1 0⟩]) :=
  session_keyed _ ⟨keyHeeded_serial (by simp) (by simp) (by simp),
    keyHeeded_serial (by simp) (by simp) (by simp), trivial⟩

/-- After the handshake of a second host nobody is authenticated and the key is still there. -/
theorem handshake_keepsKey :
    ¬ Keyed Bench.platform (Trace.final (step Bench.platform) initial
      [⟨.serial (.createPin (text "1234")), Bench.idleEnv 1 0⟩,
        ⟨.serial (.verifyPin (text "1234")), Bench.idleEnv 1 0⟩,
        ⟨.serial .handshake, Bench.idleEnv 1 0⟩]) := by
  rintro ⟨-, hlocked⟩
  exact absurd (hlocked (by decide +kernel)) (by decide +kernel)

end GoiKey
