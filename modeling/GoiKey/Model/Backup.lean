import GoiKey.Model.Serial

/-!
BackupManager.cpp, and the import and export of StorageManager.cpp it goes through:
the vault as an archive, sealed under a passphrase and carried as hex in chunks.
-/

namespace GoiKey

/-- What importVaultPlaintext reads of an archive; a member that is not there or no
string reads as "". -/
structure Archive where
  passwords : List (Str × Str × Str) := []
  totp : List (Str × Str) := []
  cryptoAlg : Option Int := none
  deriving DecidableEq, Repr

/-- ArduinoJson on archives, `none` for a text that does not parse. -/
structure ArchiveJson where
  serialize : Archive → Str
  deserialize : Str → Option Archive

/-- What one backup command meets: each call into the storage has its own surroundings. -/
structure BackupEnv where
  env : Env
  /-- The import of an item: looking it up, removing it, saving it. -/
  lookup : Nat → Env
  removal : Nat → Env
  saving : Nat → Env
  salt : Bytes
  nonce : Bytes
  derives : Bool
  cipherBuffer : Bool
  blobBuffer : Bool
  plainBuffer : Bool

variable (P : Platform) (J : ArchiveJson) (B : BackupEnv)

/-! The vault as an archive. -/

/-- Entries that do not open under the key, and empty ones, are left out. -/
def exportVaultPlaintext (env : Env) (key : Option Bytes) (d : Device) : Option Archive :=
  match key with
  | none => none
  | some key => some {
      passwords := (readPasswords env d.vault).flatMap fun site => site.2.filterMap fun login =>
        let plain := decryptStoragePayload P env login.2 key
        if plain = [] then none else some (site.1, login.1, plain)
      totp := (readTotp env d.vault).filterMap fun entry =>
        let plain := decryptStoragePayload P env entry.2 key
        if plain = [] then none else some (entry.1, plain)
      cryptoAlg := some (loadDefaultCryptoAlg env d) }

/-- deletePassword and then savePassword: the error of the save and the vault left. -/
def replacePassword (removal saving : Env) (key : Option Bytes) (v : Vault)
    (site login password : Str) : Option Message × Vault :=
  let v := (deletePassword removal v site login).2
  match savePassword P saving key v site login password with
  | .ok v => (none, v)
  | .error m => (some m, v)

/-- An import so far. -/
structure Importing where
  messages : List Message := []
  imported : Nat := 0
  skipped : Nat := 0
  vault : Vault
  deriving DecidableEq, Repr

def Importing.skip (s : Importing) : Importing := { s with skipped := s.skipped + 1 }

/-- After the save of an entry. -/
def Importing.saved (s : Importing) (r : Option Message × Vault) : Importing :=
  match r.1 with
  | none => { s with imported := s.imported + 1, vault := r.2 }
  | some m => { s with messages := s.messages ++ [m], skipped := s.skipped + 1, vault := r.2 }

def importPassword (lookup removal saving : Env) (key : Option Bytes) (overwrite : Bool) (s : Importing)
    (site login pass : Str) : Importing :=
  if site = [] ∨ login = [] then s.skip
  else if isPasswordExists lookup s.vault site login then
    if !overwrite then s.skip
    else s.saved (replacePassword P removal saving key s.vault site login pass)
  else
    match savePassword P saving key s.vault site login pass with
    | .ok v => s.saved (none, v)
    | .error m => s.saved (some m, s.vault)

/-- What saveTotpSecret does counts as imported. -/
def importTotp (lookup saving : Env) (key : Option Bytes) (overwrite : Bool) (s : Importing)
    (name secret : Str) : Importing :=
  if name = [] ∨ secret = [] then s.skip
  else if getTotpSecret P lookup key s.vault name ≠ [] ∧ !overwrite then s.skip
  else
    let (ms, v) := saveTotpSecret P saving key s.vault name secret
    { s with messages := s.messages ++ ms, imported := s.imported + 1, vault := v }

/-- The loop over the passwords, from the given item on. -/
def importPasswords (key : Option Bytes) (overwrite : Bool) :
    Nat → Importing → List (Str × Str × Str) → Importing
  | _, s, [] => s
  | k, s, (site, login, pass) :: items =>
    importPasswords key overwrite (k + 1)
      (importPassword P (B.lookup k) (B.removal k) (B.saving k) key overwrite s site login pass) items

def importTotps (key : Option Bytes) (overwrite : Bool) :
    Nat → Importing → List (Str × Str) → Importing
  | _, s, [] => s
  | k, s, (name, secret) :: items =>
    importTotps key overwrite (k + 1) (importTotp P (B.lookup k) (B.saving k) key overwrite s name secret) items

def saveDefaultCryptoAlg (env : Env) (d : Device) (algId : Int) : Device :=
  { d with cryptoAlg := if env.opens .cryptoAlg .write then some algId else d.cryptoAlg }

/-- What was imported, and the device; `none` without a storage key. -/
def importVaultPlaintext (a : Archive) (overwrite : Bool) (d : Device) : Option (Importing × Device) :=
  match d.serial.storageKey with
  | none => none
  | some key =>
    let s := importPasswords P B (some key) overwrite 0 { vault := d.vault } a.passwords
    let s := importTotps P B (some key) overwrite a.passwords.length s a.totp
    let d := { d with vault := s.vault }
    some (s, match a.cryptoAlg with
      | some algId => saveDefaultCryptoAlg B.env d algId
      | none => d)

/-! The sealed archive. -/

def backupIterations : Nat := 200000
def backupHeaderLen : Nat := 57

def deriveBackupKey (passphrase : Str) (salt : Bytes) (iterations : Nat) : Option Bytes :=
  if B.derives then some (P.pbkdf2 passphrase salt iterations) else none

/-- Magic and version, salt, iterations, nonce, tag, length and ciphertext. -/
def blobOf (salt : Bytes) (iterations : Nat) (nonce tag cipher : Bytes) (ptLen : Nat) : Bytes :=
  text "VBK1" ++ (1 :: (salt ++ (bigEndian 4 iterations ++ (nonce ++ (tag ++ (bigEndian 4 ptLen ++ cipher))))))

/-- The hex text of the blob, or an error. -/
def backupEncryptBlob (plaintext passphrase : Str) : Except String Str :=
  let salt := padTo 16 B.salt
  let nonce := padTo 12 B.nonce
  match deriveBackupKey P B passphrase salt backupIterations with
  | none => .error "KDF_FAILED"
  | some key =>
    if !B.cipherBuffer then .error "OOM"
    else match P.gcmEncrypt key nonce plaintext with
      | none => .error "GCM_ENCRYPT_FAILED"
      | some (cipher, tag) =>
        if !B.blobBuffer then .error "OOM"
        else .ok (toHex (blobOf salt backupIterations nonce tag cipher plaintext.length))

def backupDecryptBlob (hexIn passphrase : Str) : Except String Str :=
  let totalLen := hexIn.length / 2
  if hexIn.length % 2 ≠ 0 ∨ totalLen < backupHeaderLen then .error "MALFORMED_BLOB"
  else if !B.blobBuffer then .error "OOM"
  else
    let blob := fromHex hexIn totalLen
    let iterations := fromBigEndian (slice 21 4 blob)
    let ctLen := fromBigEndian (slice 53 4 blob)
    if slice 0 4 blob ≠ text "VBK1" then .error "BAD_MAGIC"
    else if slice 4 1 blob ≠ [1] then .error "UNSUPPORTED_VERSION"
    else if iterations = 0 ∨ 2000000 < iterations then .error "BAD_ITERATIONS"
    else if backupHeaderLen + ctLen ≠ totalLen then .error "LENGTH_MISMATCH"
    else match deriveBackupKey P B passphrase (slice 5 16 blob) iterations with
      | none => .error "KDF_FAILED"
      | some key =>
        if !B.plainBuffer then .error "OOM"
        else match P.gcmDecrypt key (slice 25 12 blob) (slice 57 ctLen blob) (slice 37 16 blob) with
          | none => .error "DECRYPT_FAILED_OR_WRONG_PASSPHRASE"
          | some plain => .ok plain

/-! Export. -/

def exportChunkSize : Nat := 256

def exportChunks (hexBlob : Str) : List Str :=
  (List.range ((hexBlob.length + exportChunkSize - 1) / exportChunkSize)).map fun i =>
    slice (i * exportChunkSize) exportChunkSize hexBlob

def exportMessages (hexBlob : Str) : List Message :=
  let chunks := exportChunks hexBlob
  .event "BACKUP" "EXPORT_START" [("total_len", decimal hexBlob.length),
      ("total_chunks", decimal chunks.length), ("sha256", hashSHA256 P hexBlob)] ::
    ((chunks.zipIdx.map fun c =>
        .event "BACKUP" "EXPORT_CHUNK" [("seq", decimal c.2), ("data", c.1)]) ++
      [.event "BACKUP" "EXPORT_DONE" [("total_chunks", decimal chunks.length)]])

/-- The messages of an export, or an error. -/
def backupExport (passphrase : Str) (d : Device) : Except String (List Message) :=
  if passphrase.length < 8 then .error "PASSPHRASE_TOO_SHORT"
  else match exportVaultPlaintext P B.env d.serial.storageKey d with
    | none => .error "KEY_LOCKED"
    | some archive => (backupEncryptBlob P B (J.serialize archive) passphrase).map (exportMessages P)

/-! Import. -/

/-- `importAccumHex` and its companions. -/
structure ImportState where
  accumHex : Str := []
  totalLen : Nat := 0
  expectedSha256 : Str := []
  inProgress : Bool := false
  deriving DecidableEq, Repr

def maxBackupHexLen : Nat := 512 * 1024

def backupImportAbort : ImportState := {}

def backupImportBegin (totalHexLen : Nat) (expectedSha256Hex : Str) : Option String × ImportState :=
  if totalHexLen = 0 ∨ maxBackupHexLen < totalHexLen then (some "BAD_LENGTH", backupImportAbort)
  else if expectedSha256Hex.length ≠ 64 then (some "BAD_CHECKSUM_FORMAT", backupImportAbort)
  else (none, { totalLen := totalHexLen, expectedSha256 := expectedSha256Hex, inProgress := true })

def backupImportChunk (s : ImportState) (hexData : Str) : Option String × ImportState :=
  if !s.inProgress then (some "NOT_STARTED", s)
  else if s.totalLen < s.accumHex.length + hexData.length then (some "OVERFLOW", backupImportAbort)
  else (none, { s with accumHex := s.accumHex ++ hexData })

/-- What a commit leaves. -/
structure Committed where
  result : Except String (List Message)
  state : ImportState
  dev : Device

/-- The archive a commit restores, or an error with the import it leaves. -/
def commitArchive (s : ImportState) (passphrase : Str) : Except (String × ImportState) Archive :=
  if !s.inProgress then .error ("NOT_STARTED", s)
  else if s.accumHex.length ≠ s.totalLen then .error ("INCOMPLETE", s)
  else if hashSHA256 P s.accumHex ≠ s.expectedSha256 then .error ("CHECKSUM_MISMATCH", backupImportAbort)
  else match backupDecryptBlob P B s.accumHex passphrase with
    | .error e => .error (e, backupImportAbort)
    | .ok plaintext =>
      match J.deserialize plaintext with
      | none => .error ("BAD_ARCHIVE_JSON", backupImportAbort)
      | some archive => .ok archive

def backupImportCommit (s : ImportState) (passphrase : Str) (overwrite : Bool) (d : Device) : Committed :=
  match commitArchive P J B s passphrase with
  | .error (e, s) => ⟨.error e, s, d⟩
  | .ok archive =>
    match importVaultPlaintext P B archive overwrite d with
    | none => ⟨.error "IMPORT_FAILED", backupImportAbort, d⟩
    | some (done, d) =>
      ⟨.ok (done.messages ++ [.event "BACKUP" "IMPORT_DONE"
        [("imported", decimal done.imported), ("skipped", decimal done.skipped)]]), backupImportAbort, d⟩

end GoiKey
