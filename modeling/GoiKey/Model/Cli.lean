import GoiKey.Model.Backup
import GoiKey.Model.RecordLists
import GoiKey.Model.Vault

/-!
The whole of the serial front end: the commands of Serial.lean, those that only
read, and the backup commands with the import they share.
-/

namespace GoiKey

/-- What one turn of cliTask meets. -/
structure CliEnv where
  /-- The surroundings of the command; an import meets others item by item. -/
  storage : BackupEnv
  /-- /passwords.json is there and holds no entry. -/
  emptyPasswords : Bool
  totalBytes : Nat
  usedBytes : Nat

def CliEnv.env (C : CliEnv) : Env := C.storage.env

variable (P : Platform) (J : ArchiveJson) (hmacSha1 : Bytes → Bytes → Bytes)

/-! The commands that only read. -/

def isUpper (c : UInt8) : Bool := 0x41 ≤ c && c ≤ 0x5A
def isLower (c : UInt8) : Bool := 0x61 ≤ c && c ≤ 0x7A

/-- The audit of a password among all of them. -/
def isWeak (passwords : List Str) (pwd : Str) : Bool :=
  pwd.length < 12 || !pwd.any isDecimal || !pwd.any isUpper || !pwd.any isLower ||
    !(pwd.any fun c => !isDecimal c && !isUpper c && !isLower c) || 1 < passwords.count pwd

structure ListedPassword where
  website : Str
  login : Str
  weak : Bool
  deriving DecidableEq, Repr

/-- LIST_PASS. No key loaded is a key of zeros here; `none` is READ_FAILED. -/
def listPasswords (C : CliEnv) (key : Option Bytes) (v : Vault) : Option (List ListedPassword) :=
  if v.passwords = [] ∧ !C.emptyPasswords then some []
  else if !C.env.opens .passwords .read then none
  else
    let entries := v.passwords.flatMap fun site => site.2.map fun login =>
      (site.1, login.1, decryptStoragePayload P C.env login.2 (key.getD (zeros 32)))
    some (entries.map fun e => ⟨e.1, e.2.1, isWeak (entries.map fun e => e.2.2) e.2.2⟩)

/-- GET_TOTP. -/
def handleTotpGetAll (C : CliEnv) (key : Option Bytes) (v : Vault) (currentEpoch : UInt32) :
    List (Str × Str) :=
  match key with
  | none => []
  | some key => (readTotp C.env v).foldl (fun codes entry =>
      let secret := decryptStoragePayload P C.env entry.2 key
      if secret = [] then codes
      else Members.set entry.1 (generateTOTP hmacSha1 secret currentEpoch) codes) []

/-- LIST_FIDO. -/
def listFidoWebsites (C : CliEnv) (k : Keystore) : RecordFile.FidoList :=
  let rps := ((readPasskeys C.env k).filter fun r => r.status == 1).map PasskeyRecord.rp
  ⟨rps.foldl RecordFile.pushNew [], rps.length, RecordFile.maxDiscoverableCredentials - rps.length⟩

/-- STORAGE_INFO; two more numbers of the event are quotients of these. -/
structure StorageStats where
  totalBytes : Nat
  usedBytes : Nat
  freeBytes : Nat
  passwordsCount : Nat
  passwordsChars : Nat
  passkeysCount : Nat
  deriving DecidableEq, Repr

def showStorageInfo (C : CliEnv) (v : Vault) (k : Keystore) : StorageStats :=
  let payloads := (readPasswords C.env v).flatMap fun site => site.2.map Prod.snd
  ⟨C.totalBytes, C.usedBytes, C.totalBytes - C.usedBytes, payloads.length,
    (payloads.map List.length).foldl (· + ·) 0,
    ((readPasskeys C.env k).filter fun r => r.status == 1).length⟩

def helpMenu : List String :=
  ["SAVE_PASS", "GET_PASS", "DELETE_PASS", "LIST_PASS", "SAVE_TOTP", "GET_TOTP", "DELETE_TOTP",
    "LIST_FIDO", "DELETE_FIDO", "STORAGE_INFO", "PURGE_STORAGE", "RUN_DIAGNOSTICS",
    "UPDATE_SETTINGS", "UPDATE_PASS", "SET_CRYPTO_ALG", "ENROLL_FINGERPRINT", "FACTORY_RESET",
    "UPDATE_PIN", "BACKUP_EXPORT", "BACKUP_IMPORT_BEGIN", "BACKUP_IMPORT_CHUNK",
    "BACKUP_IMPORT_COMMIT", "BACKUP_IMPORT_ABORT"]

/-! All commands. -/

/-- The commands of cliTask; `serial` carries those of Serial.lean other than `report`. -/
inductive CliCommand where
  | serial (command : SerialCommand)
  | help
  | listPass
  | getTotp (epoch : UInt32)
  | listFido
  | storageInfo
  | backupExport (passphrase : Str)
  | backupImportBegin (totalLen : Nat) (sha256 : Str)
  | backupImportChunk (data : Str)
  | backupImportCommit (passphrase : Str) (overwrite : Bool)
  | backupImportAbort
  deriving DecidableEq, Repr

/-- What a command sends: messages, or the data of HELP_MENU, LIST, CODES or STATS. -/
inductive CliReply where
  | messages (sent : List Message)
  | help (commands : List String)
  | passwords (items : List ListedPassword)
  | codes (codes : List (Str × Str))
  | fido (list : RecordFile.FidoList)
  | stats (stats : StorageStats)
  deriving DecidableEq, Repr

/-- The globals the front end works on. -/
structure CliState where
  dev : Device := {}
  backup : ImportState := {}
  deriving DecidableEq, Repr

/-- Too many wrong PINs end in a restart. -/
def restarts (c : SerialCommand) (r : SerialResult) : Bool :=
  c != .factoryReset && r.acts.contains .wiped

def backupError (code : String) (err : String) : CliReply :=
  .messages [.error "BACKUP" code (text err)]

/-- BACKUP_IMPORT_COMMIT with the message of its outcome. -/
def commitReply (r : Committed) : CliReply × CliState :=
  (match r.result with
    | .ok ms => .messages ms
    | .error e => backupError "IMPORT_FAILED" e, ⟨r.dev, r.state⟩)

/-- The commands of a session that Serial.lean leaves out. -/
def sessionCommand (C : CliEnv) (s : CliState) : CliCommand → CliReply × CliState
  | .help => (.help helpMenu, s)
  | .listPass =>
    match listPasswords P C s.dev.serial.storageKey s.dev.vault with
    | some items => (.passwords items, s)
    | none =>
      (.messages [.error "PASS" "READ_FAILED" (text "Failed to open passwords file.")], s)
  | .getTotp epoch =>
    (.codes (handleTotpGetAll P hmacSha1 C s.dev.serial.storageKey s.dev.vault epoch), s)
  | .listFido => (.fido (listFidoWebsites C s.dev.keys), s)
  | .storageInfo => (.stats (showStorageInfo C s.dev.vault s.dev.keys), s)
  | .backupExport passphrase =>
    match backupExport P J C.storage passphrase s.dev with
    | .ok ms => (.messages ms, s)
    | .error e => (backupError "EXPORT_FAILED" e, s)
  | .backupImportBegin totalLen sha256 =>
    match backupImportBegin totalLen sha256 with
    | (none, backup) => (.messages [.event "BACKUP" "IMPORT_READY" []], { s with backup := backup })
    | (some e, backup) => (backupError "IMPORT_BEGIN_FAILED" e, { s with backup := backup })
  | .backupImportChunk data =>
    match backupImportChunk s.backup data with
    | (none, backup) => (.messages [], { s with backup := backup })
    | (some e, backup) => (backupError "IMPORT_CHUNK_FAILED" e, { s with backup := backup })
  | .backupImportCommit passphrase overwrite =>
    commitReply (backupImportCommit P J C.storage s.backup passphrase overwrite s.dev)
  | .backupImportAbort =>
    (.messages [.event "BACKUP" "IMPORT_ABORTED" []], { s with backup := backupImportAbort })
  | .serial _ => (.messages [], s)

def cliCommand (C : CliEnv) (s : CliState) : CliCommand → CliReply × CliState
  | .serial c =>
    let r := serialCommand P C.env s.dev c
    (.messages r.messages, ⟨r.dev, if restarts c r then {} else s.backup⟩)
  | c =>
    if !isPinSet s.dev.pins then (.messages [.error "AUTH" "NEW_PIN_REQ" []], s)
    else if !s.dev.serial.authenticated then (.messages [.error "AUTH" "PIN_REQ" []], s)
    else sessionCommand P J hmacSha1 C s c

/-- What cliTask goes round for: a look at the sensor, then a command. -/
inductive CliEvent where
  | finger
  | command (c : CliCommand)
  deriving DecidableEq, Repr

structure CliInput where
  event : CliEvent
  surroundings : CliEnv

def cliStep (s : CliState) (i : CliInput) : CliReply × CliState :=
  match i.event with
  | .finger =>
    let r := updateFingerprintAsync P i.surroundings.env s.dev
    (.messages r.messages, { s with dev := r.dev })
  | .command c => cliCommand P J hmacSha1 i.surroundings s c

end GoiKey
