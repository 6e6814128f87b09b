import GoiKey.Lib.Nested
import GoiKey.Model.Vault

/-!
The operations of StorageManager.cpp that write a whole file, down to the bytes: the
live file is opened for writing, which empties it, and what reaches the flash of the
new text is what it holds from then on.
-/

namespace GoiKey.FileWrites

/-- How the file of an operation fares: whether it opens for reading and for writing,
and how many bytes there is room for. -/
structure Flash where
  reads : Bool
  writes : Bool
  room : Nat
  deriving DecidableEq, Repr

/-- What an operation reports, the text it set out to write and the file it leaves. -/
structure Outcome where
  success : Bool
  messages : List Message := []
  content : Option Bytes
  file : Option Bytes
  deriving DecidableEq, Repr

abbrev Passwords := List (Str × List (Str × Str))
abbrev Secrets := List (Str × Str)

/-- ArduinoJson on a document: what serializeJson writes, what deserializeJson leaves
in the document, and whether it reports an error. -/
structure Json (δ : Type) where
  serialize : δ → Bytes
  parse : Bytes → δ
  fails : Bytes → Bool

variable (P : Platform) (env : Env) (J : Json Passwords) (T : Json Secrets) (f : Flash)

/-- An operation that stops before it opens the file for writing. -/
def refused (messages : List Message) (file : Option Bytes) : Outcome :=
  { success := false, messages := messages, content := none, file := file }

/-- `serializeJson` into the file, whose result nobody looks at: what is sent when the
file does not open, and when it does. -/
def unchecked (unopened done : List Message) (file : Option Bytes) (new : Bytes) : Outcome :=
  if f.writes then { success := true, messages := done, content := some new, file := some (new.take f.room) }
  else { success := false, messages := unopened, content := some new, file := file }

/-- `print` into the file, and no word about whether it opened. -/
def unconditional (file : Option Bytes) (new : Bytes) : Outcome :=
  { unchecked f [] [] file new with success := true }

/-! The PIN files. -/

def createPin (minLength : Nat) (file : Option Bytes) (pin : Str) : Outcome :=
  if pin.length < minLength then refused [] file else unconditional f file (hashPin P pin)

/-- `file.print(n)`. -/
def printInt (n : Int) : Str := if n < 0 then 0x2D :: decimal n.natAbs else decimal n.natAbs

def getFailedPinAttempts (file : Option Bytes) : Int :=
  match file with
  | some b => if f.reads then toInt b else 0
  | none => 0

def incrementFailedPinAttempts (file : Option Bytes) : Outcome :=
  unconditional f file (printInt (getFailedPinAttempts f file + 1))

def setForcePinChange (file : Option Bytes) (force : Bool) : Outcome :=
  unconditional f file (text (if force then "1" else "0"))

def setMinPinLength (file : Option Bytes) (length : UInt8) : Outcome :=
  unconditional f file (decimal length.toNat)

/-! The vault. -/

/-- The document a file is read into; one that is not there or does not open leaves it empty. -/
def load {δ : Type} (D : Json (List δ)) (file : Option Bytes) : List δ :=
  match file with
  | some b => if f.reads then D.parse b else []
  | none => []

def isPasswordExists (file : Option Bytes) (site login : Str) : Bool :=
  match file with
  | some b => f.reads && !J.fails b && (Nested.get? site login (J.parse b)).isSome
  | none => false

/-- The checks of savePassword, and the text it writes when they are met. -/
def savePasswordText (key : Option Bytes) (file : Option Bytes) (site login password : Str) :
    Except Message Bytes :=
  match key with
  | none => .error (.error "PASS" "KEY_LOCKED" (text "Storage key is not unlocked."))
  | some key =>
    if 64 < site.length ∨ 64 < login.length then
      .error (.error "PASS" "IDENTIFIER_TOO_LONG" (text "Website or login parameter is too long."))
    else if 4000 < password.length then
      .error (.error "PASS" "PASS_TOO_LONG" (text "Password length exceeds limits."))
    else if isPasswordExists J f file site login then
      .error (.error "PASS" "ALREADY_EXISTS" (text "Credential record already exists."))
    else if maxLogins ≤ Nested.size (load f J file) then
      .error (.error "PASS" "MAX_LIMIT_REACHED" (text "Vault capacity reached."))
    else
      let encrypted := encryptStoragePayload P env password key
      if encrypted = [] then
        .error (.error "PASS" "ENC_FAILED" (text "Failed to encrypt password payload."))
      else .ok (J.serialize (Nested.set site login encrypted (load f J file)))

def savePassword (key : Option Bytes) (file : Option Bytes) (site login password : Str) : Outcome :=
  match savePasswordText P env J f key file site login password with
  | .error m => refused [m] file
  | .ok new =>
    unchecked f [.error "PASS" "FILE_CREATE_FAILED" (text "Unable to open vault storage file.")] [] file new

/-- A document that did not parse to its end is searched all the same. -/
def deletePasswordText (file : Option Bytes) (site login : Str) : Option Bytes :=
  match file with
  | none => none
  | some b =>
    if !f.reads || (Nested.get? site login (J.parse b)).isNone then none
    else some (J.serialize (Nested.remove site login (J.parse b)))

def deletePassword (file : Option Bytes) (site login : Str) : Outcome :=
  match deletePasswordText J f file site login with
  | none => refused [] file
  | some new => unchecked f [] [] file new

/-! The TOTP secrets. -/

def saveTotpSecretText (key : Option Bytes) (file : Option Bytes) (name secret : Str) :
    Except (List Message) Bytes :=
  match key with
  | none => .error []
  | some key =>
    let encrypted := encryptStoragePayload P env secret key
    if encrypted = [] then .error [.error "TOTP" "ENC_FAILED" (text "Failed to encrypt secret.")]
    else .ok (T.serialize (Members.set name encrypted (load f T file)))

/-- Success is the event that is sent. -/
def saveTotpSecret (key : Option Bytes) (file : Option Bytes) (name secret : Str) : Outcome :=
  match saveTotpSecretText P env T f key file name secret with
  | .error ms => refused ms file
  | .ok new =>
    unchecked f [.error "TOTP" "FILE_WRITE_FAILED" (text "Unable to save secret.")]
      [.event "TOTP" "SAVED" []] file new

def deleteTotpSecretText (file : Option Bytes) (name : Str) : Option Bytes :=
  match file with
  | none => none
  | some b =>
    if !f.reads || (Members.get? name (T.parse b)).isNone then none
    else some (T.serialize (Members.remove name (T.parse b)))

def deleteTotpSecret (file : Option Bytes) (name : Str) : Outcome :=
  match deleteTotpSecretText T f file name with
  | none => refused [] file
  | some new => unchecked f [] [] file new

/-! The large blobs. -/

/-- `written == len` of what is emptied first. -/
def setLargeBlobArray (file : Option Bytes) (data : Bytes) : Outcome :=
  if f.writes then
    { success := (data.take f.room).length == data.length, content := some data
      file := some (data.take f.room) }
  else { success := false, content := some data, file := file }

end GoiKey.FileWrites
