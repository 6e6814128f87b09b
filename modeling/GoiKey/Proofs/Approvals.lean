import GoiKey.Proofs.Acts

/-!
The approvals of the serial session over whole runs: what waits for a finger, as the replies
tell it, and what a finger releases.
-/

namespace GoiKey

variable {P : Platform} {env : Env} {d : Device} {i : Input}

/-- What waits for a finger. -/
inductive Approval where
  | none
  | transmit (password : Str)
  | replace (site login password : Str)

/-- What the session waits to do. -/
def SerialSession.approval (s : SerialSession) : Approval :=
  match s.commandState with
  | .ready => .none
  | .awaitingFingerprint => .transmit s.pendingPasswordToTransmit
  | .awaitingFingerprintUpdate => .replace s.pendingWebsite s.pendingLogin s.pendingPasswordToSave

/-- The answer to GET_PASS and UPDATE_PASS when they are accepted. -/
def awaitingApproval : Message := .event "PASS" "AWAITING_HARDWARE_APPROVAL" []

/-- A password on its way to the host. -/
def transmitted (password : Str) : Message := .event "PASS" "TRANSMITTED" [("password", password)]

/-- What a command asks for: the password stored now, or the one to replace it by. -/
def SerialCommand.asks (P : Platform) (env : Env) (d : Device) : SerialCommand → Approval
  | .getPass site login => .transmit (getPasswordFromStorage P env d.serial.storageKey d.vault site login)
  | .updatePass site login pass autogen => .replace site login (newPassword env pass autogen)
  | _ => .none

/-- The commands that end a session whatever its state. -/
def SerialCommand.ends : SerialCommand → Bool
  | .handshake | .restartSystem | .disconnect => true
  | _ => false

/-- Messages that neither accept a request nor carry a password to the host. -/
def PlainMessages (ms : List Message) : Prop := ms ≠ [awaitingApproval] ∧ ∀ password, transmitted password ∉ ms

/-- What a serial command does to the approval. -/
inductive ApprovalMove (P : Platform) (env : Env) (d : Device) (c : SerialCommand) (r : SerialResult) : Prop where
  | asked (messages : r.messages = [awaitingApproval]) (approval : r.dev.serial.approval = c.asks P env d)
    (authenticated : r.dev.serial.authenticated = true) (acts : r.acts = []) (goes : c.ends = false)
  | ended (plain : PlainMessages r.messages) (ends : c.ends = true ∨ .wiped ∈ r.acts)
    (approval : r.dev.serial.approval = .none)
  | kept (plain : PlainMessages r.messages) (goes : c.ends = false) (acts : .wiped ∉ r.acts)
    (approval : r.dev.serial.approval = d.serial.approval)
    (authenticated : d.serial.authenticated = true → r.dev.serial.authenticated = true)

theorem plain_nil : PlainMessages [] := ⟨by simp, by simp⟩

theorem plain_error (module code : String) (m : Str) : PlainMessages [.error module code m] := by
  simp [PlainMessages, awaitingApproval, transmitted]

theorem plain_event {module event : String} {data : List (String × Str)}
    (h : event ≠ "AWAITING_HARDWARE_APPROVAL" ∧ event ≠ "TRANSMITTED") : PlainMessages [.event module event data] := by
  simp [PlainMessages, awaitingApproval, transmitted, h.1, Ne.symm h.2]

theorem savePassword_plain {key : Option Bytes} {v : Vault} {site login pass : Str} {m : Message}
    (h : savePassword P env key v site login pass = .error m) : PlainMessages [m] := by
  unfold savePassword at h
  split at h
  · cases h
    exact plain_error _ _ _
  · simp only at h
    repeat' split at h
    all_goals cases h
    all_goals exact plain_error _ _ _

theorem saveTotpSecret_plain {key : Option Bytes} {v : Vault} {name secret : Str} :
    PlainMessages (saveTotpSecret P env key v name secret).1 := by
  unfold saveTotpSecret
  split
  · exact plain_nil
  · simp only
    split
    · exact plain_error _ _ _
    · split
      · exact plain_error _ _ _
      · exact plain_event (by simp)

theorem pinErrors_plain (v : PinVerdict) : PlainMessages (pinErrors v) := by
  cases v with
  | unreadable => exact plain_nil
  | accepted => exact plain_nil
  | wrong n => exact plain_error _ _ _
  | wiped => exact plain_error _ _ _

variable {c : SerialCommand}

theorem ApprovalMove.same {ms : List Message} (h : PlainMessages ms) (hc : c.ends = false) :
    ApprovalMove P env d c ⟨ms, [], d⟩ :=
  .kept h hc (by simp) rfl fun ha => ha

theorem checkPin_approval {pin : Str} {accepted : Device → SerialResult} (hc : c.ends = false)
    (ha : ∀ d : Device, PlainMessages (accepted d).messages ∧ (accepted d).acts = [] ∧
      (accepted d).dev.serial.approval = d.serial.approval ∧
      (d.serial.authenticated = true → (accepted d).dev.serial.authenticated = true)) :
    ApprovalMove P env d c (checkPin P env d pin accepted) := by
  refine checkPin_cases (Q := ApprovalMove P env d c) ?_ ?_ ?_ ?_
  · exact .same plain_nil hc
  · intro _ _
    obtain ⟨hplain, hacts, happroval, hauth⟩ := ha { d with pins := resetFailedPinAttempts d.pins }
    exact .kept hplain hc (by simp [hacts]) happroval hauth
  · intro stored n _ _ _ _
    exact .kept (pinErrors_plain (.wrong n)) hc (by simp) rfl fun h => h
  · intro stored _ _ _
    exact .ended (pinErrors_plain .wiped) (.inr (by simp)) rfl

theorem replacePin_approval (newPin : Str) (d : Device) : PlainMessages (replacePin P env newPin d).messages ∧
    (replacePin P env newPin d).acts = [] ∧ (replacePin P env newPin d).dev.serial.approval = d.serial.approval ∧
    (d.serial.authenticated = true → (replacePin P env newPin d).dev.serial.authenticated = true) := by
  unfold replacePin
  split
  · exact ⟨plain_event (by simp), rfl, rfl, fun h => h⟩
  · exact ⟨plain_error _ _ _, rfl, rfl, fun h => h⟩

theorem authenticatedCommand_approval (ha : d.serial.authenticated = true) (hc : c.ends = false) :
    ApprovalMove P env d c (authenticatedCommand P env d c) := by
  unfold authenticatedCommand
  cases c with
  | savePass site login pass autogen =>
    dsimp only
    split
    · exact .same (plain_error _ _ _) hc
    · split
      next m hm => exact .same (savePassword_plain hm) hc
      · exact .kept (plain_event (by simp)) hc (by simp) rfl fun h => h
  | getPass site login =>
    dsimp only
    split
    · exact .same (plain_error _ _ _) hc
    · exact .asked rfl rfl ha rfl rfl
  | deletePass site login =>
    dsimp only
    split
    · exact .kept (plain_event (by simp)) hc (by simp) rfl fun h => h
    · exact .same (plain_error _ _ _) hc
  | saveTotp name secret =>
    dsimp only
    split
    · exact .same (plain_error _ _ _) hc
    · exact .kept saveTotpSecret_plain hc (by simp) rfl fun h => h
  | deleteTotp name =>
    dsimp only
    split
    · exact .kept (plain_event (by simp)) hc (by simp) rfl fun h => h
    · exact .same (plain_error _ _ _) hc
  | deleteFido site =>
    dsimp only
    split
    · refine .kept (plain_event (by simp)) hc ?_ rfl fun h => h
      simp
    · exact .same (plain_error _ _ _) hc
  | purgeStorage => exact .kept (plain_event (by simp)) hc (by simp) rfl fun h => h
  | runDiagnostics => exact .kept (plain_event (by simp)) hc (by simp) rfl fun h => h
  | setCryptoAlg algId => exact .kept (plain_event (by simp)) hc (by simp) rfl fun h => h
  | updatePass site login pass autogen =>
    dsimp only
    split
    · exact .same (plain_error _ _ _) hc
    · split
      · exact .same (plain_error _ _ _) hc
      · exact .asked rfl rfl ha rfl rfl
  | enrollFinger id =>
    dsimp only
    refine .kept ?_ hc (by simp) rfl fun h => h
    split
    · exact plain_event (by simp)
    · exact plain_error _ _ _
  | factoryReset => exact .ended (plain_event (by simp)) (.inr (by simp)) rfl
  | updatePin currentPin newPin =>
    dsimp only
    split
    · exact .same (plain_error _ _ _) hc
    · exact checkPin_approval hc (replacePin_approval newPin)
  | report => exact .same plain_nil hc
  | handshake => exact absurd hc (by decide)
  | restartSystem => exact absurd hc (by decide)
  | disconnect => exact absurd hc (by decide)
  | createPin pin => exact .same (plain_error _ _ _) hc
  | verifyPin pin => exact .same (plain_error _ _ _) hc
  | unknown => exact .same (plain_error _ _ _) hc

theorem serialCommand_approval : ApprovalMove P env d c (serialCommand P env d c) := by
  have asked : c.ends = false → ApprovalMove P env d c (serialCommand P env d c) := by
    intro hc
    unfold serialCommand
    split
    · exact absurd hc (by decide)
    · exact absurd hc (by decide)
    · exact absurd hc (by decide)
    next c _ _ _ =>
      split
      · split
        · split
          · exact .kept (plain_event (by simp)) hc (by simp) rfl fun h => h
          · exact .same (plain_error _ _ _) hc
        · exact .same (plain_error _ _ _) hc
      · split
        · split
          next pin =>
            exact checkPin_approval hc fun d => ⟨plain_event (by simp), rfl, rfl, fun _ => rfl⟩
          · exact .same (plain_error _ _ _) hc
        next ha => exact authenticatedCommand_approval (by simpa using ha) hc
  cases c with
  | handshake => exact .ended plain_nil (.inl rfl) rfl
  | restartSystem => exact .ended (plain_event (by simp)) (.inl rfl) rfl
  | disconnect => exact .ended (plain_event (by simp)) (.inl rfl) rfl
  | _ => exact asked rfl

/-! A look at the sensor. -/

def replayDetected : Message := .error "AUTH" "REPLAY_DETECTED" []

/-- The sensor found a finger and is sure of it. -/
def Confident (env : Env) : Prop :=
  env.sensor.settled = .ok ∧ env.sensor.tz = .ok ∧ env.sensor.search = .ok ∧ 50 < env.sensor.confidence

/-- The vault with an entry replaced, as far as the storage lets it. -/
def replacedVault (P : Platform) (env : Env) (key : Option Bytes) (v : Vault) (site login password : Str) : Vault :=
  let v := (deletePassword env v site login).2
  match savePassword P env key v site login password with
  | .ok v => v
  | .error _ => v

inductive FingerMove (P : Platform) (env : Env) (d : Device) (r : SerialResult) : Prop where
  | kept (plain : PlainMessages r.messages) (quiet : r.messages ≠ [replayDetected]) (acts : r.acts = [])
    (serial : r.dev.serial = d.serial) (vault : r.dev.vault = d.vault)
  | ended (messages : r.messages = [replayDetected]) (approval : r.dev.serial.approval = .none)
    (vault : r.dev.vault = d.vault)
  | released {password : Str} (waits : d.serial.approval = .transmit password) (confident : Confident env)
    (messages : r.messages = [transmitted password]) (acts : r.acts ≠ []) (approval : r.dev.serial.approval = .none)
    (vault : r.dev.vault = d.vault)
  | replaced {site login password : Str} (waits : d.serial.approval = .replace site login password)
    (confident : Confident env) (plain : PlainMessages r.messages) (acts : r.acts ≠ [])
    (approval : r.dev.serial.approval = .none)
    (vault : r.dev.vault = replacedVault P env d.serial.storageKey d.vault site login password)

theorem applyUpdate_plain (P : Platform) (env : Env) (d : Device) : PlainMessages (applyUpdate P env d).1 ∧
    (applyUpdate P env d).2 = replacedVault P env d.serial.storageKey d.vault d.serial.pendingWebsite d.serial.pendingLogin
      d.serial.pendingPasswordToSave := by
  unfold applyUpdate replacedVault
  simp only
  split
  next v hv => exact ⟨plain_event (by simp), by simp only [hv]⟩
  next m hm =>
    have hplain := savePassword_plain hm
    refine ⟨⟨by simp, fun password hin => ?_⟩, by simp only [hm]⟩
    obtain h | h := List.mem_cons.mp hin
    · exact hplain.2 password (List.mem_singleton.mpr h)
    · exact (plain_error _ _ _).2 password h

theorem releasePending_moves (hs : d.serial.commandState ≠ .ready) (hc : Confident env) :
    FingerMove P env d (releasePending P env d) := by
  unfold releasePending
  split
  next hupdate =>
    obtain ⟨hplain, hvault⟩ := applyUpdate_plain P env d
    refine .replaced ?_ hc hplain (by simp) rfl hvault
    rw [SerialSession.approval, hupdate]
  next hno =>
    have hwaits : d.serial.commandState = .awaitingFingerprint := by
      cases h : d.serial.commandState with
      | ready => exact absurd h hs
      | awaitingFingerprint => rfl
      | awaitingFingerprintUpdate => exact absurd h hno
    refine .released ?_ hc rfl (by simp) rfl rfl
    rw [SerialSession.approval, hwaits]

theorem updateFingerprintAsync_approval : FingerMove P env d (updateFingerprintAsync P env d) := by
  unfold updateFingerprintAsync
  split
  · exact .kept plain_nil (by simp) rfl rfl rfl
  next hs =>
    split
    · exact .kept plain_nil (by simp) rfl rfl rfl
    next hlook =>
      split
      · exact .kept (plain_error _ _ _) (by simp [replayDetected]) rfl rfl rfl
      next hsearch =>
        split
        · exact .ended rfl rfl rfl
        · unfold judgeScore
          split
          · exact .kept (plain_error _ _ _) (by simp [replayDetected]) rfl rfl rfl
          next hscore =>
            have hc : Confident env := by
              obtain ⟨hsettled, htz⟩ := not_or.mp hlook
              exact ⟨not_not.mp hsettled, not_not.mp htz, not_not.mp hsearch, by omega⟩
            have hmoves := releasePending_moves (P := P)
              (d := { d with uv := { d.uv with lastConfidenceScore := env.sensor.confidence } }) hs hc
            cases hmoves with
            | kept plain quiet acts serial vault => exact .kept plain quiet acts serial vault
            | ended messages approval vault => exact .ended messages approval vault
            | released waits confident messages acts approval vault =>
              exact .released waits confident messages acts approval vault
            | replaced waits confident plain acts approval vault =>
              exact .replaced waits confident plain acts approval vault

/-! The other steps. -/

theorem cborCommand_reply (P : Platform) (env : Env) (d : Device) (code : UInt8) (body : Bytes) :
    ∃ r, (cborCommand P env d code body).1.reply = .cbor r := by
  unfold cborCommand
  split
  case h_2 =>
    unfold runGetAssertion
    split <;> exact ⟨_, rfl⟩
  case h_5 =>
    unfold authenticatorReset
    split <;> exact ⟨_, rfl⟩
  all_goals exact ⟨_, rfl⟩

/-- A step of the other front end ends the session when it wipes the device, and touches it in no
other way. -/
theorem step_session (hs : ∀ c, i.event ≠ .serial c) (hf : i.event ≠ .fingerprintTask) (hp : i.event ≠ .powerCycle) :
    (step P d i).2.serial = (if .wiped ∈ (step P d i).1.acts then d.serial.lock else d.serial) ∧
      ∀ ms, (step P d i).1.reply ≠ .serial ms := by
  have kept : ∀ {acts : List Act} {b : BioStore} {ks : List ActKind}, OfKinds i.env b ks acts → .wiped ∉ ks →
      d.serial = if .wiped ∈ acts then d.serial.lock else d.serial := fun hk hw =>
    (if_neg fun ha : Act.wiped ∈ _ => hw (hk _ ha).1).symm
  refine ⟨?_, ?_⟩
  · refine step_cases (Q := fun r => r.2.serial = if .wiped ∈ r.1.acts then d.serial.lock else d.serial)
      ?_ ?_ ?_ ?_ ?_ ?_ ?_ ?_ ?_ ?_ ?_ ?_ ?_ ?_
    · intro reply
      rfl
    · intro body _
      exact kept makeCredential_kinds (by decide)
    · intro body req _ _ _
      exact kept getAssertion_kinds (by decide)
    · intro body _
      exact kept getNextAssertion_kinds (by decide)
    · intro body _
      exact kept clientPin_kinds (by decide)
    · intro body _
      unfold authenticatorReset
      split
      · rfl
      · rfl
      · exact (if_pos (List.mem_cons_of_mem _ List.mem_cons_self)).symm
    · intro code body _ _
      exact kept bioEnrollment_kinds (by decide)
    · intro code body _ _
      exact kept credentialManagement_kinds (by decide)
    · intro body _
      exact kept largeBlobs_kinds (by decide)
    · intro body _
      rfl
    · intro data _
      exact kept processU2fCommand_kinds (by decide)
    · intro c he
      exact absurd he (hs c)
    · intro he
      exact absurd he hf
    · intro he
      exact absurd he hp
  · intro ms hreply
    unfold step at hreply
    split at hreply
    next data he =>
      unfold processCborCommand at hreply
      split at hreply
      · cases hreply
      next code body =>
        split at hreply
        · obtain ⟨r, hr⟩ := cborCommand_reply P i.env d code body
          rw [hr] at hreply
          cases hreply
        · cases hreply
    · cases hreply
    next c he => exact hs c he
    next he => exact hf he
    next he => exact hp he

/-! What waits, as the replies tell it. -/

/-- Whatever waited has ended: the session, or the approval itself. -/
def endsApproval (e : Entry) : Bool :=
  match e.input.event with
  | .serial c => c.ends || decide (.wiped ∈ e.output.acts)
  | .fingerprintTask => e.output.reply = .serial [replayDetected] || e.output.acts ≠ []
  | .powerCycle => true
  | _ => .wiped ∈ e.output.acts

/-- A request that was accepted. -/
def acceptedRequest (P : Platform) (e : Entry) : Option Approval :=
  match e.input.event with
  | .serial c => if e.output.reply = .serial [awaitingApproval] then some (c.asks P e.input.env e.before) else none
  | _ => none

/-- The request accepted last, unless it has ended. -/
def waitingFor (P : Platform) : History → Approval
  | [] => .none
  | e :: past => if endsApproval e then .none else (acceptedRequest P e).getD (waitingFor P past)

/-- What waits is what the host was told, and only in an open session. -/
structure KnownApproval (P : Platform) (past : History) (d : Device) : Prop where
  approval : d.serial.approval = waitingFor P past
  authenticated : d.serial.approval ≠ .none → d.serial.authenticated = true

/-- What a finger releases: the password of the request accepted last, in a session that has
stayed open since, or the replacement that was asked for. -/
structure Released (P : Platform) (past : History) (e : Entry) : Prop where
  transmits : ∀ ms, e.output.reply = .serial ms → ∀ password, transmitted password ∈ ms →
    e.input.event = .fingerprintTask ∧ Confident e.input.env ∧ e.before.serial.authenticated = true ∧
      waitingFor P past = .transmit password
  replaces : e.input.event = .fingerprintTask → e.after.vault ≠ e.before.vault →
    Confident e.input.env ∧ e.before.serial.authenticated = true ∧ ∃ site login password,
      waitingFor P past = .replace site login password ∧
      e.after.vault = replacedVault P e.input.env e.before.serial.storageKey e.before.vault site login password

theorem KnownApproval.serial {past : History} (h : KnownApproval P past d) (he : i.event = .serial c) :
    KnownApproval P (Trace.entry (step P) d i :: past) (step P d i).2 ∧ Released P past (Trace.entry (step P) d i) := by
  have hmoves : ApprovalMove P i.env d c (serialCommand P i.env d c) := serialCommand_approval
  have hstep : step P d i = (serialCommand P i.env d c).run := by
    rw [step, he]
  have hwaiting : waitingFor P (Trace.entry (step P) d i :: past) =
      if c.ends || decide (.wiped ∈ (serialCommand P i.env d c).acts) then .none
      else (if (serialCommand P i.env d c).messages = [awaitingApproval] then some (c.asks P i.env d) else none).getD
        (waitingFor P past) := by
    simp only [waitingFor, endsApproval, acceptedRequest, Trace.entry, he, hstep, SerialResult.run, Reply.serial.injEq]
  have released : (∀ password, transmitted password ∉ (serialCommand P i.env d c).messages) →
      Released P past (Trace.entry (step P) d i) := by
    intro hno
    refine ⟨fun ms hms password hin => ?_, fun hfinger => ?_⟩
    · simp only [Trace.entry, hstep, SerialResult.run, Reply.serial.injEq] at hms
      rw [← hms] at hin
      exact absurd hin (hno password)
    · exact absurd (he.symm.trans hfinger) (by simp)
  cases hmoves with
  | asked messages approval authenticated acts goes =>
    refine ⟨⟨?_, fun _ => ?_⟩, released ?_⟩
    · rw [hwaiting, goes, acts, messages, if_pos rfl, hstep]
      exact approval
    · rw [hstep]
      exact authenticated
    · rw [messages]
      simp [awaitingApproval, transmitted]
  | ended plain ends approval =>
    have hends : (c.ends || decide (.wiped ∈ (serialCommand P i.env d c).acts)) = true := by
      obtain hc | hw := ends
      · rw [hc, Bool.true_or]
      · rw [decide_eq_true hw, Bool.or_true]
    refine ⟨⟨?_, fun hne => ?_⟩, released plain.2⟩
    · rw [hwaiting, if_pos hends, hstep]
      exact approval
    · rw [hstep] at hne
      exact absurd approval hne
  | kept plain goes acts approval authenticated =>
    have hgoes : ¬(c.ends || decide (.wiped ∈ (serialCommand P i.env d c).acts)) = true := by
      rw [goes, decide_eq_false acts]
      exact Bool.false_ne_true
    refine ⟨⟨?_, fun hne => ?_⟩, released plain.2⟩
    · rw [hwaiting, if_neg hgoes, if_neg plain.1, hstep]
      exact approval.trans h.approval
    · rw [hstep] at hne ⊢
      exact authenticated (h.authenticated fun hnone => hne (approval.trans hnone))

theorem KnownApproval.finger {past : History} (h : KnownApproval P past d) (he : i.event = .fingerprintTask) :
    KnownApproval P (Trace.entry (step P) d i :: past) (step P d i).2 ∧ Released P past (Trace.entry (step P) d i) := by
  have hmoves : FingerMove P i.env d (updateFingerprintAsync P i.env d) := updateFingerprintAsync_approval
  have hstep : step P d i = (updateFingerprintAsync P i.env d).run := by
    rw [step, he]
  have hwaiting : waitingFor P (Trace.entry (step P) d i :: past) =
      if (updateFingerprintAsync P i.env d).messages = [replayDetected] ∨ (updateFingerprintAsync P i.env d).acts ≠ []
      then .none
      else waitingFor P past := by
    simp only [waitingFor, endsApproval, acceptedRequest, Trace.entry, he, hstep, SerialResult.run,
      Reply.serial.injEq, Bool.or_eq_true, decide_eq_true_eq, Option.getD_none]
  have settled : (updateFingerprintAsync P i.env d).messages = [replayDetected] ∨
      (updateFingerprintAsync P i.env d).acts ≠ [] →
      (updateFingerprintAsync P i.env d).dev.serial.approval = .none →
      KnownApproval P (Trace.entry (step P) d i :: past) (step P d i).2 := by
    intro hends happroval
    refine ⟨?_, fun hne => ?_⟩
    · rw [hwaiting, if_pos hends, hstep]
      exact happroval
    · rw [hstep] at hne
      exact absurd happroval hne
  have quiet : (∀ password, transmitted password ∉ (updateFingerprintAsync P i.env d).messages) →
      (updateFingerprintAsync P i.env d).dev.vault = d.vault → Released P past (Trace.entry (step P) d i) := by
    intro hno hvault
    refine ⟨fun ms hms password hin => ?_, fun _ hne => ?_⟩
    · simp only [Trace.entry, hstep, SerialResult.run, Reply.serial.injEq] at hms
      rw [← hms] at hin
      exact absurd hin (hno password)
    · simp only [Trace.entry, hstep] at hne
      exact absurd hvault hne
  cases hmoves with
  | kept plain still acts serial vault =>
    refine ⟨⟨?_, fun hne => ?_⟩, quiet plain.2 vault⟩
    · rw [hwaiting, if_neg (not_or.mpr ⟨still, not_not.mpr acts⟩), hstep]
      exact (congrArg SerialSession.approval serial).trans h.approval
    · rw [hstep] at hne ⊢
      exact (congrArg SerialSession.authenticated serial).trans
        (h.authenticated fun hnone => hne ((congrArg SerialSession.approval serial).trans hnone))
  | ended messages approval vault =>
    refine ⟨settled (.inl messages) approval, quiet ?_ vault⟩
    rw [messages]
    simp [replayDetected, transmitted]
  | @released password waits confident messages acts approval vault =>
    refine ⟨settled (.inr acts) approval, fun ms hms password' hin => ?_, fun _ hne => ?_⟩
    · simp only [Trace.entry, hstep, SerialResult.run, Reply.serial.injEq] at hms
      rw [← hms, messages, List.mem_singleton] at hin
      have hsame : password' = password := by simpa [transmitted] using hin
      rw [hsame]
      exact ⟨he, confident, h.authenticated (by rw [waits]; simp), h.approval.symm.trans waits⟩
    · simp only [Trace.entry, hstep] at hne
      exact absurd vault hne
  | @replaced site login password waits confident plain acts approval vault =>
    refine ⟨settled (.inr acts) approval, fun ms hms password' hin => ?_, fun _ _ => ?_⟩
    · simp only [Trace.entry, hstep, SerialResult.run, Reply.serial.injEq] at hms
      rw [← hms] at hin
      exact absurd hin (plain.2 password')
    · refine ⟨confident, h.authenticated (by rw [waits]; simp), site, login, password, h.approval.symm.trans waits, ?_⟩
      simp only [Trace.entry, hstep]
      exact vault

theorem KnownApproval.other {past : History} (h : KnownApproval P past d) (hs : ∀ c, i.event ≠ .serial c)
    (hf : i.event ≠ .fingerprintTask) (hp : i.event ≠ .powerCycle) :
    KnownApproval P (Trace.entry (step P) d i :: past) (step P d i).2 ∧ Released P past (Trace.entry (step P) d i) := by
  obtain ⟨hserial, hreply⟩ := step_session (P := P) (d := d) hs hf hp
  have hwaiting : waitingFor P (Trace.entry (step P) d i :: past) =
      if .wiped ∈ (step P d i).1.acts then .none else waitingFor P past := by
    cases he : i.event with
    | cbor data =>
      simp only [waitingFor, endsApproval, acceptedRequest, Trace.entry, he, Option.getD_none]
      exact if_congr decide_eq_true_iff rfl rfl
    | u2f data =>
      simp only [waitingFor, endsApproval, acceptedRequest, Trace.entry, he, Option.getD_none]
      exact if_congr decide_eq_true_iff rfl rfl
    | serial c => exact absurd he (hs c)
    | fingerprintTask => exact absurd he hf
    | powerCycle => exact absurd he hp
  refine ⟨?_, fun ms hms => absurd hms (hreply ms), fun he => absurd he hf⟩
  by_cases hw : .wiped ∈ (step P d i).1.acts
  · rw [if_pos hw] at hserial hwaiting
    refine ⟨?_, fun hne => ?_⟩
    · rw [hwaiting, hserial]
      rfl
    · rw [hserial] at hne
      exact absurd rfl hne
  · rw [if_neg hw] at hserial hwaiting
    refine ⟨?_, fun hne => ?_⟩
    · rw [hwaiting, hserial]
      exact h.approval
    · rw [hserial] at hne ⊢
      exact h.authenticated hne

theorem step_approval {past : History} (h : KnownApproval P past d) :
    KnownApproval P (Trace.entry (step P) d i :: past) (step P d i).2 ∧ Released P past (Trace.entry (step P) d i) := by
  cases he : i.event with
  | serial c => exact h.serial he
  | fingerprintTask => exact h.finger he
  | powerCycle =>
    have hstep : step P d i = (⟨.none, []⟩, reboot i.env d) := by
      rw [step, he]
    refine ⟨⟨?_, fun hne => ?_⟩, fun ms hms => ?_, fun hfinger => absurd (he.symm.trans hfinger) (by simp)⟩
    · simp only [waitingFor, endsApproval, Trace.entry, he, hstep]
      rfl
    · rw [hstep] at hne
      exact absurd rfl hne
    · simp only [Trace.entry, hstep] at hms
      exact absurd hms (by simp)
  | cbor data => exact h.other (by simp [he]) (by simp [he]) (by simp [he])
  | u2f data => exact h.other (by simp [he]) (by simp [he]) (by simp [he])

theorem initial_approval : KnownApproval P [] initial := ⟨rfl, fun hne => absurd rfl hne⟩

/-- In every run a stored password goes to the host only for the request accepted last, in a
session that has stayed open since, after a finger the sensor is sure of; the same holds of the
replacement of one. What waits waits only in an open session. -/
theorem releases_approved (P : Platform) (inputs : List Input) :
    KnownApproval P (run P inputs) (Trace.final (step P) initial inputs) ∧ Trace.Always (Released P) (run P inputs) := by
  have hg := Trace.guarded_true (step P) initial inputs
  have hstep : ∀ past d i, KnownApproval P past d → True →
      KnownApproval P (Trace.entry (step P) d i :: past) (step P d i).2 := fun _ _ _ h _ => (step_approval h).1
  exact ⟨Trace.invariant hstep initial_approval hg,
    Trace.always hstep (fun _ _ _ h _ => (step_approval h).2) initial_approval hg⟩

end GoiKey
