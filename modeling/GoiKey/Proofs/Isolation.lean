import GoiKey.Model.CliBench

/-!
What one serial session leaves to the next. Two devices are compared by what a
session can use of them, and no command tells apart two that agree there.
-/

namespace GoiKey

variable {P : Platform} {J : ArchiveJson} {hmacSha1 : Bytes → Bytes → Bytes} {env : Env}
variable {d e : Device}

/-- The same files, keys and sensor. -/
structure SameStorage (d e : Device) : Prop where
  pins : d.pins = e.pins
  vault : d.vault = e.vault
  keys : d.keys = e.keys
  bio : d.bio = e.bio
  failed : d.uv.failed = e.uv.failed
  stored : d.blob.stored = e.blob.stored
  cryptoAlg : d.cryptoAlg = e.cryptoAlg
  signCount : d.signCount = e.signCount

/-- That is, the same once the power was off. -/
theorem sameStorage_iff_reboot : SameStorage d e ↔ ∀ env, reboot env d = reboot env e := by
  constructor
  · intro h env
    simp only [reboot, loadDefaultCryptoAlg, h.pins, h.vault, h.keys, h.bio, h.failed, h.stored,
      h.cryptoAlg, h.signCount]
  · intro h
    have hr := h (Bench.idleEnv 0 0)
    simp only [reboot, Device.mk.injEq, UvState.mk.injEq, LargeBlob.mk.injEq, and_true] at hr
    obtain ⟨hp, hv, hk, hb, hf, hs, hc, hn, -⟩ := hr
    exact ⟨hp, hv, hk, hb, hf, hs, hc, hn⟩

/-- What a session can use: a key once it was let in or waits for a finger, a pending
value while it waits for the finger that value is for. -/
structure Alike (d e : Device) : Prop where
  storage : SameStorage d e
  score : d.uv.lastConfidenceScore = e.uv.lastConfidenceScore
  authenticated : d.serial.authenticated = e.serial.authenticated
  commandState : d.serial.commandState = e.serial.commandState
  storageKey : d.serial.authenticated = true ∨ d.serial.commandState ≠ .ready →
    d.serial.storageKey = e.serial.storageKey
  transmit : d.serial.commandState = .awaitingFingerprint →
    d.serial.pendingPasswordToTransmit = e.serial.pendingPasswordToTransmit
  update : d.serial.commandState = .awaitingFingerprintUpdate →
    d.serial.pendingWebsite = e.serial.pendingWebsite ∧ d.serial.pendingLogin = e.serial.pendingLogin ∧
      d.serial.pendingPasswordToSave = e.serial.pendingPasswordToSave

structure ResultAlike (r r' : SerialResult) : Prop where
  messages : r.messages = r'.messages
  acts : r.acts = r'.acts
  dev : Alike r.dev r'.dev

/-! What storage decides alone. -/

theorem SameStorage.factoryReset (h : SameStorage d e) :
    SameStorage (factoryResetSystem env d) (factoryResetSystem env e) := by
  refine ⟨rfl, rfl, ?_, ?_, rfl, rfl, rfl, h.signCount⟩
  · simp only [factoryResetSystem, removeFiles, h.keys]
  · simp only [factoryResetSystem, removeFiles, h.bio]

theorem reboot_alike (h : SameStorage d e) : Alike (reboot env d) (reboot env e) := by
  rw [sameStorage_iff_reboot.mp h env]
  exact ⟨⟨rfl, rfl, rfl, rfl, rfl, rfl, rfl, rfl⟩, rfl, rfl, rfl, fun _ => rfl, fun _ => rfl,
    fun _ => ⟨rfl, rfl, rfl⟩⟩

/-- A session that is over, whatever it left behind. -/
theorem alike_of_over (h : SameStorage d e) (hs : d.uv.lastConfidenceScore = e.uv.lastConfidenceScore)
    (hd : d.serial.authenticated = false ∧ d.serial.commandState = .ready)
    (he : e.serial.authenticated = false ∧ e.serial.commandState = .ready) : Alike d e := by
  refine ⟨h, hs, hd.1.trans he.1.symm, hd.2.trans he.2.symm, ?_, ?_, ?_⟩
  · rintro (ha | hc)
    · rw [hd.1] at ha
      cases ha
    · exact absurd hd.2 hc
  · intro hc
    rw [hd.2] at hc
    cases hc
  · intro hc
    rw [hd.2] at hc
    cases hc

/-! The commands one by one. -/

theorem checkPin_alike {accepted : Device → SerialResult} {pin : Str} (h : Alike d e)
    (ha : ∀ p, ResultAlike (accepted { d with pins := p }) (accepted { e with pins := p })) :
    ResultAlike (checkPin P env d pin accepted) (checkPin P env e pin accepted) := by
  unfold checkPin
  rw [← h.storage.pins]
  rcases verifyPin P env d.pins pin with ⟨v, p⟩
  have hp : SameStorage { d with pins := p } { e with pins := p } := { h.storage with pins := rfl }
  cases v with
  | unreadable => exact ⟨rfl, rfl, { h with storage := hp }⟩
  | wrong n => exact ⟨rfl, rfl, { h with storage := hp }⟩
  | accepted => exact ⟨(ha p).messages, congrArg (.pinGuess true :: ·) (ha p).acts, (ha p).dev⟩
  | wiped => exact ⟨rfl, rfl, reboot_alike hp.factoryReset⟩

theorem openSession_alike {pin : Str} (h : Alike d e) :
    ResultAlike (openSession P pin d) (openSession P pin e) :=
  ⟨rfl, rfl, { h with storage := { h.storage with }, authenticated := rfl, storageKey := fun _ => rfl }⟩

theorem replacePin_alike {newPin : Str} (h : Alike d e) :
    ResultAlike (replacePin P env newPin d) (replacePin P env newPin e) := by
  unfold replacePin
  rw [← h.storage.pins]
  cases createPin P env d.pins newPin with
  | none => exact ⟨rfl, rfl, h⟩
  | some p => exact ⟨rfl, rfl, { h with storage := { h.storage with pins := rfl }, storageKey := fun _ => rfl }⟩

/-- A change of the vault alone. -/
theorem vault_alike {ms : List Message} {acts : List Act} {v : Vault} (h : Alike d e) :
    ResultAlike ⟨ms, acts, { d with vault := v }⟩ ⟨ms, acts, { e with vault := v }⟩ :=
  ⟨rfl, rfl, { h with storage := { h.storage with vault := rfl } }⟩

theorem authenticatedCommand_alike (c : SerialCommand) (h : Alike d e)
    (ha : d.serial.authenticated = true) :
    ResultAlike (authenticatedCommand P env d c) (authenticatedCommand P env e c) := by
  have hk := h.storageKey (.inl ha)
  have hv := h.storage.vault
  have same : ∀ ms : List Message, ResultAlike ⟨ms, [], d⟩ ⟨ms, [], e⟩ := fun ms => ⟨rfl, rfl, h⟩
  cases c with
  | savePass site login pass autogen =>
    unfold authenticatedCommand
    simp only [← hk, ← hv]
    split
    · exact same _
    cases savePassword P env d.serial.storageKey d.vault site login (newPassword env pass autogen) with
    | error m => exact same _
    | ok v => exact vault_alike h
  | getPass site login =>
    have hpw : getPasswordFromStorage P env e.serial.storageKey e.vault site login =
        getPasswordFromStorage P env d.serial.storageKey d.vault site login := by rw [hk, hv]
    unfold authenticatedCommand
    simp only [hpw]
    split
    · exact same _
    · exact ⟨rfl, rfl, { h with
        storage := { h.storage with }, commandState := rfl, storageKey := fun _ => hk, transmit := fun _ => rfl, update := nofun }⟩
  | deletePass site login =>
    unfold authenticatedCommand
    simp only [← hv]
    rcases deletePassword env d.vault site login with ⟨_ | _, v⟩
    · exact same _
    · exact vault_alike h
  | saveTotp name secret =>
    unfold authenticatedCommand
    simp only [← hk, ← hv]
    split
    · exact same _
    · exact vault_alike h
  | deleteTotp name =>
    unfold authenticatedCommand
    simp only [← hv]
    rcases deleteTotpSecret env d.vault name with ⟨_ | _, v⟩
    · exact same _
    · exact vault_alike h
  | deleteFido site =>
    unfold authenticatedCommand
    simp only [← h.storage.keys]
    rcases deleteFidoWebsite env d.keys site with ⟨_ | _, k⟩
    · exact same _
    · exact ⟨rfl, rfl, { h with storage := { h.storage with keys := rfl } }⟩
  | purgeStorage =>
    refine ⟨rfl, rfl, { h with storage := { h.storage with vault := ?_, keys := ?_ }, storageKey := fun _ => rfl }⟩
    · unfold authenticatedCommand
      simp only [clearAllStoredPasswords, hv]
    · unfold authenticatedCommand
      simp only [clearAllStoredPasswords, h.storage.keys]
  | runDiagnostics =>
    unfold authenticatedCommand
    simp only [← hk, ← hv]
    exact vault_alike h
  | setCryptoAlg algId =>
    refine ⟨rfl, rfl, { h with storage := { h.storage with cryptoAlg := ?_ } }⟩
    unfold authenticatedCommand
    simp only [h.storage.cryptoAlg]
  | updatePass site login pass autogen =>
    have hx : isPasswordExists env e.vault site login = isPasswordExists env d.vault site login := by rw [hv]
    unfold authenticatedCommand
    simp only [hx]
    split
    · exact same _
    split
    · exact same _
    · exact ⟨rfl, rfl, { h with
        storage := { h.storage with }, commandState := rfl, storageKey := fun _ => hk, transmit := nofun, update := fun _ => ⟨rfl, rfl, rfl⟩ }⟩
  | enrollFinger id =>
    unfold authenticatedCommand
    simp only [← h.storage.bio]
    exact ⟨rfl, rfl, { h with storage := { h.storage with bio := rfl } }⟩
  | factoryReset =>
    exact ⟨rfl, rfl, alike_of_over { h.storage.factoryReset with } h.score ⟨rfl, rfl⟩ ⟨rfl, rfl⟩⟩
  | updatePin currentPin newPin =>
    unfold authenticatedCommand
    simp only
    split
    · exact same _
    · exact checkPin_alike h fun p => replacePin_alike { h with storage := { h.storage with pins := rfl } }
  | handshake => exact same _
  | restartSystem => exact same _
  | disconnect => exact same _
  | createPin pin => exact same _
  | verifyPin pin => exact same _
  | report => exact same _
  | unknown => exact same _

theorem serialCommand_alike (c : SerialCommand) (h : Alike d e) :
    ResultAlike (serialCommand P env d c) (serialCommand P env e c) := by
  have hp : isPinSet e.pins = isPinSet d.pins := by rw [h.storage.pins]
  have ha : e.serial.authenticated = d.serial.authenticated := h.authenticated.symm
  have same : ∀ ms : List Message, ResultAlike ⟨ms, [], d⟩ ⟨ms, [], e⟩ := fun ms => ⟨rfl, rfl, h⟩
  have ended : ∀ {s t : SerialSession} {ms : List Message},
      s.authenticated = false ∧ s.commandState = .ready → t.authenticated = false ∧ t.commandState = .ready →
      ResultAlike ⟨ms, [], { d with serial := s }⟩ ⟨ms, [], { e with serial := t }⟩ := fun hs ht =>
    ⟨rfl, rfl, alike_of_over { h.storage with } h.score hs ht⟩
  have inside : ResultAlike
      (if !d.serial.authenticated then ⟨[.error "AUTH" "PIN_REQ" []], [], d⟩ else authenticatedCommand P env d c)
      (if !d.serial.authenticated then ⟨[.error "AUTH" "PIN_REQ" []], [], e⟩
        else authenticatedCommand P env e c) := by
    cases hd : d.serial.authenticated with
    | false => exact same _
    | true => exact authenticatedCommand_alike c h hd
  cases c <;> simp only [serialCommand, hp, ha]
  case handshake => exact ended ⟨rfl, rfl⟩ ⟨rfl, rfl⟩
  case restartSystem => exact ended ⟨rfl, rfl⟩ ⟨rfl, rfl⟩
  case disconnect => exact ended ⟨rfl, rfl⟩ ⟨rfl, rfl⟩
  case createPin pin =>
    split
    · have hc : createPin P env e.pins pin = createPin P env d.pins pin := by rw [h.storage.pins]
      rw [hc]
      cases createPin P env d.pins pin with
      | none => exact same _
      | some p => exact ⟨rfl, rfl, { h with storage := { h.storage with pins := rfl } }⟩
    · exact inside
  case verifyPin pin =>
    split
    · exact same _
    split
    · exact checkPin_alike h fun p =>
        openSession_alike { h with storage := { h.storage with pins := rfl } }
    next hd => exact authenticatedCommand_alike _ h (by simpa using hd)
  all_goals
    split
    · exact same _
    · exact inside

/-! A finger on the sensor. -/

theorem releasePending_alike (h : Alike d e) (hc : d.serial.commandState ≠ .ready) :
    ResultAlike (releasePending P env d) (releasePending P env e) := by
  have hk := h.storageKey (.inr hc)
  unfold releasePending
  rw [← h.commandState]
  split
  next hu =>
    obtain ⟨hw, hl, hs⟩ := h.update hu
    have hm : applyUpdate P env e = applyUpdate P env d := by
      simp only [applyUpdate, h.storage.vault, hk, hw, hl, hs]
    rw [hm]
    exact ⟨rfl, rfl, { h with
      storage := { h.storage with vault := rfl }, commandState := rfl
      storageKey := fun _ => hk, transmit := nofun, update := nofun }⟩
  next hu =>
    have ht : d.serial.commandState = .awaitingFingerprint := by
      cases hs : d.serial.commandState with
      | ready => exact absurd hs hc
      | awaitingFingerprint => rfl
      | awaitingFingerprintUpdate => exact absurd hs hu
    refine ⟨?_, rfl, { h with
      storage := { h.storage with }, commandState := rfl
      storageKey := fun _ => hk, transmit := nofun, update := nofun }⟩
    rw [h.transmit ht]

theorem updateFingerprintAsync_alike (h : Alike d e) :
    ResultAlike (updateFingerprintAsync P env d) (updateFingerprintAsync P env e) := by
  have same : ∀ ms : List Message, ResultAlike ⟨ms, [], d⟩ ⟨ms, [], e⟩ := fun ms => ⟨rfl, rfl, h⟩
  unfold updateFingerprintAsync
  rw [← h.commandState, ← h.score]
  split
  · exact same _
  next hc =>
    split
    · exact same _
    split
    · exact same _
    split
    · exact ⟨rfl, rfl, { h with
        storage := { h.storage with }, commandState := rfl
        storageKey := fun _ => h.storageKey (.inr hc), transmit := nofun, update := nofun }⟩
    · have hj : Alike { d with uv := { d.uv with lastConfidenceScore := env.sensor.confidence } }
          { e with uv := { e.uv with lastConfidenceScore := env.sensor.confidence } } :=
        { h with storage := { h.storage with }, score := rfl }
      unfold judgeScore
      split
      · exact ⟨rfl, rfl, hj⟩
      · exact releasePending_alike hj hc

/-! The commands that read, and the backup commands. -/

theorem backupExport_alike {B : BackupEnv} {passphrase : Str} (h : Alike d e)
    (hk : d.serial.storageKey = e.serial.storageKey) :
    backupExport P J B passphrase d = backupExport P J B passphrase e := by
  have ha : exportVaultPlaintext P B.env d.serial.storageKey d =
      exportVaultPlaintext P B.env e.serial.storageKey e := by
    simp only [exportVaultPlaintext, loadDefaultCryptoAlg, h.storage.vault, h.storage.cryptoAlg, hk]
  simp only [backupExport, ha]

theorem backupImportCommit_alike (B : BackupEnv) (s : ImportState) (passphrase : Str) (overwrite : Bool)
    (h : Alike d e) (hk : d.serial.storageKey = e.serial.storageKey) :
    let r := backupImportCommit P J B s passphrase overwrite d
    let r' := backupImportCommit P J B s passphrase overwrite e
    r.result = r'.result ∧ r.state = r'.state ∧ Alike r.dev r'.dev := by
  intro r r'
  simp only [r, r', backupImportCommit]
  cases commitArchive P J B s passphrase with
  | error x => exact ⟨rfl, rfl, h⟩
  | ok archive =>
    simp only [importVaultPlaintext, ← hk]
    cases d.serial.storageKey with
    | none => exact ⟨rfl, rfl, h⟩
    | some key =>
      rw [← h.storage.vault]
      refine ⟨rfl, rfl, ?_⟩
      cases archive.cryptoAlg with
      | none => exact { h with storage := { h.storage with vault := rfl } }
      | some algId =>
        simp only [saveDefaultCryptoAlg, ← h.storage.cryptoAlg]
        exact { h with storage := { h.storage with vault := rfl, cryptoAlg := rfl } }

/-- The same for the front end: the import comes along. -/
structure CliAlike (s t : CliState) : Prop where
  dev : Alike s.dev t.dev
  backup : s.backup = t.backup

def RepliesAlike (r r' : CliReply × CliState) : Prop := r.1 = r'.1 ∧ CliAlike r.2 r'.2

theorem sessionCommand_alike {s t : CliState} (C : CliEnv) (c : CliCommand) (h : CliAlike s t)
    (ha : s.dev.serial.authenticated = true) :
    RepliesAlike (sessionCommand P J hmacSha1 C s c) (sessionCommand P J hmacSha1 C t c) := by
  have hk := h.dev.storageKey (.inl ha)
  have hv := h.dev.storage.vault
  have same : ∀ m : CliReply, RepliesAlike (m, s) (m, t) := fun m => ⟨rfl, h⟩
  have imports : ∀ (m : CliReply) (b : ImportState),
      RepliesAlike (m, { s with backup := b }) (m, { t with backup := b }) := fun m b => ⟨rfl, h.dev, rfl⟩
  cases c with
  | serial c => exact same _
  | help => exact same _
  | listPass =>
    have hl : listPasswords P C t.dev.serial.storageKey t.dev.vault =
        listPasswords P C s.dev.serial.storageKey s.dev.vault := by rw [hk, hv]
    simp only [sessionCommand, hl]
    cases listPasswords P C s.dev.serial.storageKey s.dev.vault with
    | none => exact same _
    | some items => exact same _
  | getTotp epoch =>
    simp only [sessionCommand, hk, hv]
    exact same _
  | listFido =>
    simp only [sessionCommand, h.dev.storage.keys]
    exact same _
  | storageInfo =>
    simp only [sessionCommand, hv, h.dev.storage.keys]
    exact same _
  | backupExport passphrase =>
    simp only [sessionCommand, backupExport_alike h.dev hk]
    cases GoiKey.backupExport P J C.storage passphrase t.dev with
    | ok ms => exact same _
    | error x => exact same _
  | backupImportBegin totalLen sha256 =>
    simp only [sessionCommand]
    rcases GoiKey.backupImportBegin totalLen sha256 with ⟨_ | x, b⟩
    · exact imports _ b
    · exact imports _ b
  | backupImportChunk data =>
    simp only [sessionCommand, h.backup]
    rcases GoiKey.backupImportChunk t.backup data with ⟨_ | x, b⟩
    · exact imports _ b
    · exact imports _ b
  | backupImportCommit passphrase overwrite =>
    simp only [sessionCommand, h.backup]
    obtain ⟨hr, hs, hd⟩ := backupImportCommit_alike C.storage t.backup passphrase overwrite h.dev hk
    refine ⟨?_, hd, hs⟩
    simp only [commitReply, hr]
  | backupImportAbort => exact imports _ _

/-- No command or finger tells two such states apart. -/
theorem cliStep_alike {s t : CliState} (i : CliInput) (h : CliAlike s t) :
    RepliesAlike (cliStep P J hmacSha1 s i) (cliStep P J hmacSha1 t i) := by
  unfold cliStep
  cases i.event with
  | finger =>
    have hr : ResultAlike (updateFingerprintAsync P i.surroundings.env s.dev)
        (updateFingerprintAsync P i.surroundings.env t.dev) := updateFingerprintAsync_alike h.dev
    exact ⟨congrArg CliReply.messages hr.messages, hr.dev, h.backup⟩
  | command c =>
    cases c with
    | serial c =>
      have hr : ResultAlike (serialCommand P i.surroundings.env s.dev c)
          (serialCommand P i.surroundings.env t.dev c) := serialCommand_alike c h.dev
      have hw : restarts c (serialCommand P i.surroundings.env s.dev c) =
          restarts c (serialCommand P i.surroundings.env t.dev c) := by rw [restarts, restarts, hr.acts]
      refine ⟨congrArg CliReply.messages hr.messages, hr.dev, ?_⟩
      simp only [cliCommand, hw, h.backup]
    | _ =>
      simp only [cliCommand, ← h.dev.storage.pins, ← h.dev.authenticated]
      split
      · exact ⟨rfl, h⟩
      split
      · exact ⟨rfl, h⟩
      next ha => exact sessionCommand_alike _ _ h (by simpa using ha)

/-! Sessions. -/

/-- The commands a session ends with; a reset counts where it is carried out. -/
def EndsSession (s : CliState) (i : CliInput) : Prop :=
  i.event = .command (.serial .handshake) ∨ i.event = .command (.serial .restartSystem) ∨
    i.event = .command (.serial .disconnect) ∨
    (i.event = .command (.serial .factoryReset) ∧ isPinSet s.dev.pins = true ∧
      s.dev.serial.authenticated = true)

theorem EndsSession.ended {s : CliState} {i : CliInput} (h : EndsSession s i) :
    (cliStep P J hmacSha1 s i).2.dev.serial.authenticated = false ∧
      (cliStep P J hmacSha1 s i).2.dev.serial.commandState = .ready := by
  obtain ⟨event, surroundings⟩ := i
  rcases h with h | h | h | ⟨h, hp, ha⟩ <;> cases h
  · exact ⟨rfl, rfl⟩
  · exact ⟨rfl, rfl⟩
  · exact ⟨rfl, rfl⟩
  · simp only [cliStep, cliCommand, serialCommand, hp, ha]
    exact ⟨rfl, rfl⟩

/-- Of a session only its storage, the last score of the sensor and an import that was
begun reach the next one. -/
theorem sessions_isolated (P : Platform) (J : ArchiveJson) (hmacSha1 : Bytes → Bytes → Bytes)
    (start₁ start₂ : CliState) (run₁ run₂ : List CliInput) (end₁ end₂ : CliInput)
    (hend₁ : EndsSession (Trace.final (cliStep P J hmacSha1) start₁ run₁) end₁)
    (hend₂ : EndsSession (Trace.final (cliStep P J hmacSha1) start₂ run₂) end₂) :
    let s₁ := (cliStep P J hmacSha1 (Trace.final (cliStep P J hmacSha1) start₁ run₁) end₁).2
    let s₂ := (cliStep P J hmacSha1 (Trace.final (cliStep P J hmacSha1) start₂ run₂) end₂).2
    SameStorage s₁.dev s₂.dev → s₁.dev.uv.lastConfidenceScore = s₂.dev.uv.lastConfidenceScore →
    s₁.backup = s₂.backup → ∀ next : List CliInput,
    Trace.outputs (cliStep P J hmacSha1) s₁ next = Trace.outputs (cliStep P J hmacSha1) s₂ next ∧
      SameStorage (Trace.final (cliStep P J hmacSha1) s₁ next).dev
        (Trace.final (cliStep P J hmacSha1) s₂ next).dev := by
  intro s₁ s₂ hstorage hscore hbackup next
  have h : CliAlike s₁ s₂ := ⟨alike_of_over hstorage hscore hend₁.ended hend₂.ended, hbackup⟩
  obtain ⟨hout, hfinal⟩ := Trace.lockstep (fun s t i => cliStep_alike i) h next
  exact ⟨hout, hfinal.dev.storage⟩

/-! Sessions on the bench: a password asked for and not released, then the next session. -/

namespace Bench

def owned : CliState := { dev := { pins := { pin := some (hashPin platform (text "1234")) } } }

def login : CliInput := ask (.serial (.verifyPin (text "1234")))

def save : CliInput := ask (.serial (.savePass site (text "u") (text "hunter2") false))

def get : CliInput := ask (.serial (.getPass site (text "u")))

def disconnect : CliInput := ask (.serial .disconnect)

/-- After a run and the command that ends it. -/
def afterwards (run : List CliInput) : CliState := (cli (Trace.final cli owned run) disconnect).2

end Bench

open Bench

theorem sessions_isolated_pending :
    Trace.outputs cli (afterwards [login, save, get]) [touch 80, login, get, touch 80] =
      Trace.outputs cli (afterwards [login, save]) [touch 80, login, get, touch 80] ∧
    SameStorage (Trace.final cli (afterwards [login, save, get]) [touch 80, login, get, touch 80]).dev
      (Trace.final cli (afterwards [login, save]) [touch 80, login, get, touch 80]).dev :=
  sessions_isolated platform archiveJson hmacSha1 owned owned [login, save, get] [login, save] disconnect
    disconnect (.inr (.inr (.inl rfl))) (.inr (.inr (.inl rfl)))
    ⟨by decide +kernel, by decide +kernel, by decide +kernel, by decide +kernel, by decide +kernel,
      by decide +kernel, by decide +kernel, by decide +kernel⟩
    (by decide +kernel) (by decide +kernel) [touch 80, login, get, touch 80]

/-- An import begun in the session before takes chunks in the next, and a finger that
scored there is a replay. -/
theorem session_left_behind :
    (SameStorage (afterwards [login, ask (.backupImportBegin 2 (List.replicate 64 0x30))]).dev (afterwards [login]).dev ∧
      Trace.outputs cli (afterwards [login, ask (.backupImportBegin 2 (List.replicate 64 0x30))])
          [login, ask (.backupImportChunk (text "00"))] ≠
        Trace.outputs cli (afterwards [login]) [login, ask (.backupImportChunk (text "00"))]) ∧
    SameStorage (afterwards [login, save, get, touch 80]).dev (afterwards [login, save]).dev ∧
      Trace.outputs cli (afterwards [login, save, get, touch 80]) [login, get, touch 80] ≠
        Trace.outputs cli (afterwards [login, save]) [login, get, touch 80] := by
  refine ⟨⟨⟨?_, ?_, ?_, ?_, ?_, ?_, ?_, ?_⟩, ?_⟩, ⟨?_, ?_, ?_, ?_, ?_, ?_, ?_, ?_⟩, ?_⟩ <;> decide +kernel

end GoiKey
