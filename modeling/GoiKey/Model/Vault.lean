import GoiKey.Model.Text
import GoiKey.Model.Storage

/-! The one-time codes of CryptoManager.cpp. -/

namespace GoiKey

/-- The value of a character of the alphabet, in either case. -/
def base32Value (c : UInt8) : Option Nat :=
  if 0x41 ≤ c ∧ c ≤ 0x5A then some (c.toNat - 0x41)
  else if 0x61 ≤ c ∧ c ≤ 0x7A then some (c.toNat - 0x61)
  else if 0x32 ≤ c ∧ c ≤ 0x37 then some (c.toNat - 0x32 + 26)
  else none

/-- The locals of decodeBase32, with `out[0..count)`. -/
structure Base32State where
  buffer : Nat := 0
  bitsLeft : Nat := 0
  out : Bytes := []
  deriving DecidableEq, Repr

/-- One character; others are passed over. `buffer` is an int. -/
def base32Step (s : Base32State) (c : UInt8) : Base32State :=
  match base32Value c with
  | none => s
  | some val =>
    let buffer := (s.buffer * 32 + val) % 2 ^ 32
    let bitsLeft := s.bitsLeft + 5
    if 8 ≤ bitsLeft then
      ⟨buffer, bitsLeft - 8, s.out ++ [UInt8.ofNat (buffer / 2 ^ (bitsLeft - 8))]⟩
    else ⟨buffer, bitsLeft, s.out⟩

/-- The bytes written; the caller has room for 64 of them. -/
def decodeBase32 (b32 : Str) : Bytes := ((cstr b32).foldl base32Step {}).out

/-- `%06u`. -/
def sixDigits (otp : Nat) : Str :=
  List.replicate (6 - (decimal otp).length) 0x30 ++ decimal otp

/-- HMAC-SHA1 as mbedTLS computes it: key, message. -/
def generateTOTP (hmacSha1 : Bytes → Bytes → Bytes) (base32Secret : Str) (unixTime : UInt32) : Str :=
  let hash := padTo 20 (hmacSha1 (decodeBase32 base32Secret) (bigEndian 8 (unixTime.toNat / 30)))
  let offset := (hash.getD 19 0).toNat % 16
  let binary := fromBigEndian ((hash.drop offset).take 4) % 2 ^ 31
  sixDigits (binary % 1000000)

end GoiKey

/-! The passwords and TOTP secrets of StorageManager.cpp, and generateRandomPassword. -/

namespace GoiKey

variable (P : Platform) (env : Env)

def deriveStorageKey (pin : Str) : Bytes := P.pbkdf2 pin (text "VAULT_STORAGE_SALT") 10000

/-- The passwords a reader gets to see; a file that cannot be opened is empty. -/
def readPasswords (v : Vault) : List (Str × List (Str × Str)) :=
  if env.opens .passwords .read then v.passwords else []

def storedPassword (v : Vault) (site login : Str) : Option Str :=
  (Members.get? site (readPasswords env v)).bind (Members.get? login)

def isPasswordExists (v : Vault) (site login : Str) : Bool := (storedPassword env v site login).isSome

def maxLogins : Nat := 1000

/-- The new vault, or the error that was sent. -/
def savePassword (key : Option Bytes) (v : Vault) (site login password : Str) :
    Except Message Vault :=
  match key with
  | none => .error (.error "PASS" "KEY_LOCKED" (text "Storage key is not unlocked."))
  | some key =>
    let sites := readPasswords env v
    if 64 < site.length ∨ 64 < login.length then
      .error (.error "PASS" "IDENTIFIER_TOO_LONG" (text "Website or login parameter is too long."))
    else if 4000 < password.length then
      .error (.error "PASS" "PASS_TOO_LONG" (text "Password length exceeds limits."))
    else if isPasswordExists env v site login then
      .error (.error "PASS" "ALREADY_EXISTS" (text "Credential record already exists."))
    else if maxLogins ≤ (sites.map fun s => s.2.length).sum then
      .error (.error "PASS" "MAX_LIMIT_REACHED" (text "Vault capacity reached."))
    else
      let encrypted := encryptStoragePayload P env password key
      if encrypted = [] then
        .error (.error "PASS" "ENC_FAILED" (text "Failed to encrypt password payload."))
      else if !env.opens .passwords .write then
        .error (.error "PASS" "FILE_CREATE_FAILED" (text "Unable to open vault storage file."))
      else
        let logins := Members.set login encrypted ((Members.get? site sites).getD [])
        .ok { v with passwords := Members.set site logins sites }

/-- "" without a key, an entry or a payload that opens. -/
def getPasswordFromStorage (key : Option Bytes) (v : Vault) (site login : Str) : Str :=
  match key, storedPassword env v site login with
  | some key, some payload => decryptStoragePayload P env payload key
  | _, _ => []

def deletePassword (v : Vault) (site login : Str) : Bool × Vault :=
  if !isPasswordExists env v site login || !env.opens .passwords .write then (false, v)
  else
    let sites := readPasswords env v
    let logins := Members.remove login ((Members.get? site sites).getD [])
    (true, { v with passwords :=
      if logins = [] then Members.remove site sites else Members.set site logins sites })

def readTotp (v : Vault) : List (Str × Str) := if env.opens .totp .read then v.totp else []

def saveTotpSecret (key : Option Bytes) (v : Vault) (name secret : Str) : List Message × Vault :=
  match key with
  | none => ([], v)
  | some key =>
    let encrypted := encryptStoragePayload P env secret key
    if encrypted = [] then ([.error "TOTP" "ENC_FAILED" (text "Failed to encrypt secret.")], v)
    else if !env.opens .totp .write then
      ([.error "TOTP" "FILE_WRITE_FAILED" (text "Unable to save secret.")], v)
    else ([.event "TOTP" "SAVED" []], { v with totp := Members.set name encrypted (readTotp env v) })

def getTotpSecret (key : Option Bytes) (v : Vault) (name : Str) : Str :=
  match key, Members.get? name (readTotp env v) with
  | some key, some payload => decryptStoragePayload P env payload key
  | _, _ => []

def deleteTotpSecret (v : Vault) (name : Str) : Bool × Vault :=
  if (Members.get? name (readTotp env v)).isNone || !env.opens .totp .write then (false, v)
  else (true, { v with totp := Members.remove name v.totp })

/-! Generated passwords. -/

def lowerPool : Str := text "abcdefghijkmnopqrstuvwxyz"
def upperPool : Str := text "ABCDEFGHIJKLMNPQRSTUVWXYZ"
def numPool : Str := text "23456789"
def symPool : Str := text "!@#$%^*()-_=+"
def allPool : Str := lowerPool ++ upperPool ++ numPool ++ symPool

/-- The pool of the character at an index: one of each class first. -/
def poolAt : Nat → Str
  | 0 => lowerPool
  | 1 => upperPool
  | 2 => numPool
  | 3 => symPool
  | _ => allPool

def pick (pool : Str) (r : UInt8) : UInt8 := pool.getD (r.toNat % pool.length) 0

def swapAt (s : Str) (i j : Nat) : Str := (s.set i (s.getD j 0)).set j (s.getD i 0)

/-- The shuffle reuses the bytes the characters were picked with. -/
def generateRandomPassword (length : Nat) : Str :=
  let length := max 4 length
  if !env.allocates .cipher then []
  else
    let random := env.draw .password length
    let picked := (List.range length).map fun i => pick (poolAt i) (random.getD i 0)
    (List.range length).foldl (fun s i => swapAt s i ((random.getD i 0).toNat % length)) picked

end GoiKey
