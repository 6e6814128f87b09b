import GoiKey.Model.Vault
import GoiKey.Model.Verification

/-!
The serial front end: cliTask of main.cpp behind the line cipher and the JSON
parser, updateFingerprintAsync, and the two ways the device is wiped.
-/

namespace GoiKey

variable (P : Platform) (env : Env)

/-- The files both wipes remove. -/
def removeFiles (d : Device) : Device :=
  { d with
    vault := {}
    keys := { d.keys with passkeys := [] }
    pins := {}
    cryptoAlg := none
    uv := { d.uv with failed := 0 }
    blob := { d.blob with stored := none }
    bio := { d.bio with templates := [] } }

def factoryResetSystem (d : Device) : Device :=
  { removeFiles d with bio := deleteAllFingerprints env (removeFiles d).bio }

def SerialSession.lock (s : SerialSession) : SerialSession :=
  { s with authenticated := false, storageKey := none, commandState := .ready }

def resetFido2System (d : Device) : Device :=
  { removeFiles d with
    keys := rotateStatelessMasterSecret env (removeFiles d).keys
    serial := d.serial.lock
    bio := deleteAllFingerprints env (removeFiles d).bio }

/-- `loadDefaultCryptoAlg`. -/
def loadDefaultCryptoAlg (d : Device) : Int :=
  if env.opens .cryptoAlg .read then d.cryptoAlg.getD (-7) else -7

/-- Power lost and back, or `ESP.restart()`: what lived in memory starts over. -/
def reboot (d : Device) : Device :=
  { d with
    uv := { failed := d.uv.failed }
    blob := { stored := d.blob.stored }
    next := {}
    enumeration := {}
    session := {}
    enroll := {}
    serial := {}
    defaultCryptoAlg := loadDefaultCryptoAlg env d }

/-- The commands of cliTask. `report` stands for those that only read: help,
LIST_PASS, GET_TOTP, LIST_FIDO and STORAGE_INFO. -/
inductive SerialCommand where
  | handshake
  | restartSystem
  | disconnect
  | createPin (pin : Str)
  | verifyPin (pin : Str)
  | report
  | savePass (site login pass : Str) (autogen : Bool)
  | getPass (site login : Str)
  | deletePass (site login : Str)
  | saveTotp (name secret : Str)
  | deleteTotp (name : Str)
  | deleteFido (site : Str)
  | purgeStorage
  | runDiagnostics
  | setCryptoAlg (algId : Int)
  | updatePass (site login pass : Str) (autogen : Bool)
  | enrollFinger (id : UInt8)
  | factoryReset
  | updatePin (currentPin newPin : Str)
  | unknown
  deriving DecidableEq, Repr

structure SerialResult where
  messages : List Message
  acts : List Act := []
  dev : Device

/-- clearAllStoredPasswords: PURGE_STORAGE keeps the TOTP secrets. -/
def clearAllStoredPasswords (d : Device) : Device :=
  { d with
    vault := { d.vault with passwords := [] }
    keys := { d.keys with passkeys := [] }
    serial := { d.serial with storageKey := none } }

/-- enrollFingerprint; the waits for a finger end when one is there. -/
def enrollFingerprint (b : BioStore) (id : UInt8) : Bool × BioStore :=
  let b := deleteAllFingerprints env b
  if env.sampleTz ≠ .ok ∨ env.secondTz ≠ .ok ∨ env.createModel ≠ .ok ∨ env.storeModel ≠ .ok then
    (false, b)
  else (true, storeModel b id)

def mockWebsite : Str := text "test_mock_site.com"
def mockAccount : Str := text "test_mock_user_123"
def mockSecret : Str := text "SuperSecurePassword99!"

/-- What testStorageSubsystem does to the vault. -/
def diagnosedVault (key : Option Bytes) (v : Vault) : Vault :=
  let v := (deletePassword env v mockWebsite mockAccount).2
  let v := match savePassword P env key v mockWebsite mockAccount mockSecret with
    | .ok v => v
    | .error _ => v
  (deletePassword env v mockWebsite mockAccount).2

def pinErrors : PinVerdict → List Message
  | .unreadable | .accepted => []
  | .wrong failures =>
    [.error "SECURITY" "BAD_PIN_ATTEMPT" (decimal failures ++ text "/10 attempts used.")]
  | .wiped =>
    [.error "SECURITY" "MAX_ATTEMPTS_EXCEEDED"
      (text "Maximum PIN attempts reached. Device wiped.")]

/-- verifyPin with the wipe and restart it may end in; `accepted` goes on with
what the caller does for a correct PIN. -/
def checkPin (d : Device) (pin : Str) (accepted : Device → SerialResult) : SerialResult :=
  match verifyPin P env d.pins pin with
  | (.unreadable, p) => ⟨[], [], { d with pins := p }⟩
  | (.accepted, p) =>
    let r := accepted { d with pins := p }
    { r with acts := .pinGuess true :: r.acts }
  | (.wrong n, p) => ⟨pinErrors (.wrong n), [.pinGuess false], { d with pins := p }⟩
  | (.wiped, p) =>
    ⟨pinErrors .wiped, [.pinGuess false, .wiped],
      reboot env (factoryResetSystem env { d with pins := p })⟩

/-- VERIFY_PIN after a correct PIN. -/
def openSession (pin : Str) (d : Device) : SerialResult :=
  ⟨[.event "SECURITY" "PIN_OK" []], [],
    { d with serial := { d.serial with
      authenticated := true, storageKey := some (deriveStorageKey P pin) } }⟩

/-- UPDATE_PIN after a correct PIN: the key of the new one is loaded, what is
stored stays as it is. -/
def replacePin (newPin : Str) (d : Device) : SerialResult :=
  match createPin P env d.pins newPin with
  | some p =>
    ⟨[.event "AUTH" "PIN_UPDATED" []], [],
      { d with pins := p, serial := { d.serial with
        storageKey := some (deriveStorageKey P newPin) } }⟩
  | none => ⟨[.error "AUTH" "PIN_TOO_SHORT" []], [], d⟩

/-- String(n) of an int. -/
def signedDecimal (n : Int) : Str := if n < 0 then 0x2D :: decimal n.natAbs else decimal n.natAbs

def newPassword (pass : Str) (autogen : Bool) : Str :=
  if autogen then generateRandomPassword env 16 else pass

def authenticatedCommand (d : Device) : SerialCommand → SerialResult
  | .savePass site login pass autogen =>
    let pass := newPassword env pass autogen
    if site = [] ∨ login = [] then ⟨[.error "PASS" "MISSING_ARGS" []], [], d⟩
    else match savePassword P env d.serial.storageKey d.vault site login pass with
      | .error m => ⟨[m], [], d⟩
      | .ok v =>
        ⟨[.event "PASS" "SAVED" (if autogen then [("generated_password", pass)] else [])], [],
          { d with vault := v }⟩
  | .getPass site login =>
    let pw := getPasswordFromStorage P env d.serial.storageKey d.vault site login
    if pw = [] then ⟨[.error "PASS" "NOT_FOUND" []], [], d⟩
    else
      ⟨[.event "PASS" "AWAITING_HARDWARE_APPROVAL" []], [],
        { d with serial := { d.serial with
          pendingPasswordToTransmit := pw, commandState := .awaitingFingerprint } }⟩
  | .deletePass site login =>
    match deletePassword env d.vault site login with
    | (true, v) => ⟨[.event "PASS" "DELETED" []], [], { d with vault := v }⟩
    | (false, _) => ⟨[.error "PASS" "NOT_FOUND" []], [], d⟩
  | .saveTotp name secret =>
    if name = [] ∨ secret = [] then ⟨[.error "TOTP" "MISSING_ARGS" []], [], d⟩
    else
      let (ms, v) := saveTotpSecret P env d.serial.storageKey d.vault name secret
      ⟨ms, [], { d with vault := v }⟩
  | .deleteTotp name =>
    match deleteTotpSecret env d.vault name with
    | (true, v) => ⟨[.event "TOTP" "DELETED" []], [], { d with vault := v }⟩
    | (false, _) => ⟨[.error "TOTP" "NOT_FOUND" []], [], d⟩
  | .deleteFido site =>
    let hit := (readPasskeys env d.keys).filter fun r => r.status == 1 && r.rp == site
    match deleteFidoWebsite env d.keys site with
    | (true, k) =>
      ⟨[.event "FIDO2" "DELETED" []], hit.map fun r => .deleted r.cid (.rpId site),
        { d with keys := k }⟩
    | (false, _) => ⟨[.error "FIDO2" "NOT_FOUND" []], [], d⟩
  | .purgeStorage => ⟨[.event "STORAGE" "PURGE_COMPLETE" []], [], clearAllStoredPasswords d⟩
  | .runDiagnostics =>
    ⟨[.event "SYS" "DIAGNOSTICS_COMPLETE" [("passed", text "4"), ("total", text "4")]], [],
      { d with vault := diagnosedVault P env d.serial.storageKey d.vault }⟩
  | .setCryptoAlg algId =>
    ⟨[.event "SYS" "SETTINGS_UPDATED" [("algId", signedDecimal algId)]], [],
      { d with
        cryptoAlg := if env.opens .cryptoAlg .write then some algId else d.cryptoAlg
        defaultCryptoAlg := algId }⟩
  | .updatePass site login pass autogen =>
    let pass := newPassword env pass autogen
    if site = [] ∨ login = [] then ⟨[.error "PASS" "MISSING_ARGS" []], [], d⟩
    else if !isPasswordExists env d.vault site login then
      ⟨[.error "PASS" "NOT_FOUND" []], [], d⟩
    else
      ⟨[.event "PASS" "AWAITING_HARDWARE_APPROVAL" []], [],
        { d with serial := { d.serial with
          pendingWebsite := site, pendingLogin := login, pendingPasswordToSave := pass
          commandState := .awaitingFingerprintUpdate } }⟩
  | .enrollFinger id =>
    let (ok, b) := enrollFingerprint env d.bio id
    ⟨[if ok then .event "AUTH" "FINGERPRINT_ENROLLED" [] else .error "AUTH" "ENROLL_FAILED" []],
      [], { d with bio := b }⟩
  | .factoryReset =>
    let d := factoryResetSystem env d
    ⟨[.event "SYS" "FACTORY_RESET_COMPLETE" []], [.wiped], { d with serial := d.serial.lock }⟩
  | .updatePin currentPin newPin =>
    if currentPin = [] ∨ newPin = [] then ⟨[.error "AUTH" "MISSING_ARGS" []], [], d⟩
    else checkPin P env d currentPin (replacePin P env newPin)
  | .report => ⟨[], [], d⟩
  | _ => ⟨[.error "SYS" "UNKNOWN_CMD" []], [], d⟩

/-- Only the handshake and the two commands that end a session come before the
questions whether a PIN is set and whether it was given. -/
def serialCommand (d : Device) (c : SerialCommand) : SerialResult :=
  match c with
  | .handshake =>
    ⟨[], [], { d with serial := { d.serial with authenticated := false, commandState := .ready } }⟩
  | .restartSystem =>
    ⟨[.event "SYS" "BOOT" [("pin_set", text (if isPinSet d.pins then "true" else "false"))]], [],
      { d with serial := d.serial.lock }⟩
  | .disconnect => ⟨[.event "SYS" "DISCONNECTED" []], [], { d with serial := d.serial.lock }⟩
  | c =>
    if !isPinSet d.pins then
      match c with
      | .createPin pin =>
        match createPin P env d.pins pin with
        | some p => ⟨[.event "AUTH" "PIN_CREATED" []], [], { d with pins := p }⟩
        | none => ⟨[.error "AUTH" "PIN_TOO_SHORT" []], [], d⟩
      | _ => ⟨[.error "AUTH" "NEW_PIN_REQ" []], [], d⟩
    else if !d.serial.authenticated then
      match c with
      | .verifyPin pin => checkPin P env d pin (openSession P pin)
      | _ => ⟨[.error "AUTH" "PIN_REQ" []], [], d⟩
    else authenticatedCommand P env d c

/-- The pending update, applied: the old entry goes first. -/
def applyUpdate (d : Device) : List Message × Vault :=
  let s := d.serial
  let v := (deletePassword env d.vault s.pendingWebsite s.pendingLogin).2
  match savePassword P env s.storageKey v s.pendingWebsite s.pendingLogin s.pendingPasswordToSave with
  | .ok v => ([.event "PASS" "UPDATED" []], v)
  | .error m => ([m, .error "PASS" "UPDATE_FAILED" []], v)

/-- What a score above the threshold releases. -/
def releasePending (d : Device) : SerialResult :=
  if d.serial.commandState = .awaitingFingerprintUpdate then
    let (ms, v) := applyUpdate P env d
    ⟨ms, [.approved env.sensor.confidence],
      { d with
        vault := v
        serial := { d.serial with
          pendingWebsite := [], pendingLogin := [], pendingPasswordToSave := []
          commandState := .ready } }⟩
  else
    ⟨[.event "PASS" "TRANSMITTED" [("password", d.serial.pendingPasswordToTransmit)]],
      [.approved env.sensor.confidence],
      { d with serial := { d.serial with
        pendingPasswordToTransmit := [], commandState := .ready } }⟩

def judgeScore (d : Device) : SerialResult :=
  if env.sensor.confidence ≤ 50 then ⟨[.error "AUTH" "LOW_CONFIDENCE" []], [], d⟩
  else releasePending P env d

/-- A look at the sensor while an approval is pending. -/
def updateFingerprintAsync (d : Device) : SerialResult :=
  if d.serial.commandState = .ready then ⟨[], [], d⟩
  else if env.sensor.settled ≠ .ok ∨ env.sensor.tz ≠ .ok then ⟨[], [], d⟩
  else if env.sensor.search ≠ .ok then ⟨[.error "AUTH" "UNKNOWN_FINGER" []], [], d⟩
  else if env.sensor.confidence = d.uv.lastConfidenceScore ∧ 0 < env.sensor.confidence then
    ⟨[.error "AUTH" "REPLAY_DETECTED" []], [],
      { d with serial := { d.serial with commandState := .ready } }⟩
  else judgeScore P env { d with uv := { d.uv with lastConfidenceScore := env.sensor.confidence } }

end GoiKey
