import GoiKey.Lib.Members
import GoiKey.Model.Crypto
import GoiKey.Model.Device

/-!
StorageManager.cpp. A function that reports success returns the files it leaves
behind in an Option or beside a Bool, as the source has it.
-/

namespace GoiKey

variable (P : Platform) (env : Env)

/-! The PIN and its failure counter. -/

def hashPin (pin : Str) : Str := toHex (P.sha256 pin)

def isPinSet (p : PinFiles) : Bool := p.pin.isSome

def getMinPinLength (p : PinFiles) : Nat :=
  let stored := if env.opens .minPin .read then (p.minPin.getD 4).toNat else 4
  if stored < 4 then 4 else stored

/-- None for a PIN that is too short. A file that does not open is not reported. -/
def createPin (p : PinFiles) (pin : Str) : Option PinFiles :=
  if pin.length < getMinPinLength env p then none
  else if env.opens .pin .write then some { p with pin := some (hashPin P pin) }
  else some p

def getFailedPinAttempts (p : PinFiles) : Nat :=
  if env.opens .failures .read then p.failures else 0

def incrementFailedPinAttempts (p : PinFiles) : PinFiles :=
  if env.opens .failures .write then { p with failures := getFailedPinAttempts env p + 1 } else p

def resetFailedPinAttempts (p : PinFiles) : PinFiles := { p with failures := 0 }

/-- How verifyPin ends; `wiped` is followed by the reset and a restart. -/
inductive PinVerdict where
  | unreadable | accepted | wrong (failures : Nat) | wiped
  deriving DecidableEq, Repr

def verifyPin (p : PinFiles) (pin : Str) : PinVerdict × PinFiles :=
  match p.pin with
  | none => (.unreadable, p)
  | some stored =>
    if !env.opens .pin .read then (.unreadable, p)
    else if stored = hashPin P pin then (.accepted, resetFailedPinAttempts p)
    else
      let p := incrementFailedPinAttempts env p
      if 10 ≤ getFailedPinAttempts env p then (.wiped, p)
      else (.wrong (getFailedPinAttempts env p), p)

def verifyFidoPinHashInternal (p : PinFiles) (pinHash16 : Bytes) : Bool :=
  match p.pin with
  | none => false
  | some stored =>
    let stored := if env.opens .pin .read then stored else []
    if stored.length < 32 then false else fromHex (stored.take 32) 16 == pinHash16

def setForcePinChange (p : PinFiles) (force : Bool) : PinFiles :=
  if env.opens .forcePin .write then { p with forcePin := some force } else p

def setMinPinLength (p : PinFiles) (length : UInt8) : PinFiles :=
  if env.opens .minPin .write then { p with minPin := some length } else p

/-! Failed verifications. -/

def getFailedUvAttempts (u : UvState) : Nat := if env.opens .uvFail .read then u.failed else 0

def incrementFailedUvAttempts (u : UvState) : UvState :=
  if env.opens .uvFail .write then { u with failed := getFailedUvAttempts env u + 1 } else u

def resetFailedUvAttempts (u : UvState) : UvState := { u with failed := 0 }

/-! The recorded templates, a JSON object from the id's decimal to a name. -/

def readTemplates (b : BioStore) : List (UInt8 × Str) :=
  if env.opens .bioTemplates .read then b.templates else []

def getAllBioTemplateIds (b : BioStore) : List UInt8 := (readTemplates env b).map Prod.fst

def getBioTemplateCount (b : BioStore) : Nat := (getAllBioTemplateIds env b).length

/-- The first free id from 1 below `MAX_BIO_TEMPLATES`, or 0. -/
def findFreeBioTemplateSlot (b : BioStore) : UInt8 :=
  let used := getAllBioTemplateIds env b
  (((List.range 126).map (fun i => UInt8.ofNat (i + 1))).find? (fun id => id ∉ used)).getD 0

/-- A file that cannot be read is written afresh with the one name. -/
def saveBioTemplateName (b : BioStore) (id : UInt8) (name : Str) : Option BioStore :=
  if env.opens .bioTemplates .write then
    some { b with templates := Members.set id name (readTemplates env b) }
  else none

def getBioTemplateName (b : BioStore) (id : UInt8) : Str :=
  (Members.get? id (readTemplates env b)).getD []

def deleteBioTemplateRecord (b : BioStore) (id : UInt8) : Bool × BioStore :=
  if (Members.get? id (readTemplates env b)).isNone then (false, b)
  else if env.opens .bioTemplates .write then
    (true, { b with templates := Members.remove id b.templates })
  else (false, b)

/-- `finger.storeModel` on a slot. -/
def storeModel (b : BioStore) (id : UInt8) : BioStore :=
  if id ∈ b.sensor then b else { b with sensor := id :: b.sensor }

def deleteModel (b : BioStore) (id : UInt8) : BioStore :=
  if env.deleteModel = .ok then { b with sensor := b.sensor.filter (fun s => s ≠ id) } else b

/-- `finger.emptyDatabase()`; its result is never looked at. -/
def deleteAllFingerprints (b : BioStore) : BioStore :=
  if env.emptyDatabase = .ok then { b with sensor := [] } else b

/-! Resident credentials. -/

/-- The comparisons of names run over both strings in full; what they decide is
equality. -/
def rpFieldMatchesRpId (storedRpField plainRpId : Str) : Bool :=
  storedRpField == plainRpId || storedRpField == hashSHA256 P plainRpId

/-- The copy of rpFieldMatchesRpId in FIDO2Manager.cpp. -/
def rpFieldMatchesPlainRpId (storedRpField plainRpId : Str) : Bool :=
  rpFieldMatchesRpId P storedRpField plainRpId

def rpFieldMatchesHash (storedRpField hashHex : Str) : Bool :=
  storedRpField == hashHex || hashSHA256 P storedRpField == hashHex

structure StoredCredential where
  rpId : Str
  userIdHex : Str
  userName : Str
  privateKeyHex : Str
  algId : Int
  credProtect : Int := 1
  largeBlobKeyHex : Str := []
  credBlobHex : Str := []
  deriving DecidableEq, Repr

def newline : UInt8 := 0x0A

/-- The plain text of a record: its fields between line feeds. -/
def recordPayload (c : StoredCredential) : Str :=
  c.userIdHex ++ newline :: (c.userName ++ newline :: (c.privateKeyHex ++ newline ::
    (decimal c.credProtect.toNat ++ newline :: (c.largeBlobKeyHex ++ newline :: c.credBlobHex))))

def credProtectField (t : Str) : Int := if t = [] then 1 else toInt t

/-- What follows the user name. -/
def parsePayloadTail (c : StoredCredential) (rest : Str) : StoredCredential :=
  match Fields.cut newline rest with
  | none => { c with privateKeyHex := rest }
  | some (key, rest) =>
    let c := { c with privateKeyHex := key }
    match Fields.cut newline rest with
    | none => { c with credProtect := credProtectField rest }
    | some (level, rest) =>
      let c := { c with credProtect := credProtectField level }
      match Fields.cut newline rest with
      | none => { c with largeBlobKeyHex := rest }
      | some (blobKey, credBlob) => { c with largeBlobKeyHex := blobKey, credBlobHex := credBlob }

def parsePayload (rpId : Str) (algId : Int) (plain : Str) : Option StoredCredential :=
  match Fields.cut newline plain with
  | none => none
  | some (userIdHex, rest) =>
    match Fields.cut newline rest with
    | none => none
    | some (userName, rest) =>
      some (parsePayloadTail
        { rpId := rpId, userIdHex := userIdHex, userName := userName, privateKeyHex := [],
          algId := algId } rest)

/-- The records a reader gets to see. -/
def readPasskeys (k : Keystore) : List PasskeyRecord :=
  if env.opens .passkeys .read then k.passkeys else []

def savePasskeyRecord (k : Keystore) (cid : Str) (c : StoredCredential) : Option Keystore :=
  let payload := encryptStoragePayload P env (recordPayload c) (fidoHardwareKey P)
  if payload = [] then none
  else if env.opens .passkeys .write then
    some { k with passkeys := k.passkeys ++ [⟨1, c.algId, cid, c.rpId, payload⟩] }
  else none

def decryptRecord (r : PasskeyRecord) : Str := decryptStoragePayload P env r.payload (fidoHardwareKey P)

def getPasskeyRecord (k : Keystore) (cid : Str) : Option StoredCredential :=
  match (readPasskeys env k).find? (fun r => r.status == 1 && r.cid == cid) with
  | none => none
  | some r =>
    let plain := decryptRecord P env r
    if plain = [] then none else parsePayload r.rp r.algId plain

/-- The user id a record opens to. -/
def recordUserId (r : PasskeyRecord) : Option Str :=
  (Fields.cut newline (decryptRecord P env r)).map Prod.fst

/-- The id of the first record of this party and user, "" without one. -/
def findCredentialIdByRpAndUser (k : Keystore) (rpId userIdHex : Str) : Str :=
  match (readPasskeys env k).find? (fun r => r.status == 1 && rpFieldMatchesRpId P r.rp rpId &&
      (recordUserId P env r).any (fun u => userIdHex == [] || u == userIdHex)) with
  | none => []
  | some r => r.cid

def findAllCredentialsByRp (k : Keystore) (rpId : Str) : List Str :=
  ((readPasskeys env k).filter (fun r => r.status == 1 && rpFieldMatchesRpId P r.rp rpId)).map
    PasskeyRecord.cid

def getAllStoredCredentialIds (k : Keystore) : List Str :=
  ((readPasskeys env k).filter (fun r => r.status == 1)).map PasskeyRecord.cid

def getAllStoredRpIds (k : Keystore) : List Str :=
  ((readPasskeys env k).filter (fun r => r.status == 1)).foldl
    (fun rps r => if r.rp ∈ rps then rps else rps ++ [r.rp]) []

/-- Copying to /passkeys.tmp what is live and not hit, and the copy taking the
place of the file when there was a hit. -/
def rewritePasskeys (k : Keystore) (hit : PasskeyRecord → Bool) : Bool × Keystore :=
  if !env.opens .passkeys .read || !env.opens .passkeysTmp .write then (false, k)
  else if k.passkeys.any (fun r => r.status == 1 && hit r) then
    (true, { k with passkeys := k.passkeys.filter (fun r => r.status == 1 && !hit r) })
  else (false, k)

def deletePasskeyRecord (k : Keystore) (cid : Str) : Bool × Keystore :=
  rewritePasskeys env k (fun r => r.cid == cid)

def deleteFidoWebsite (k : Keystore) (rpId : Str) : Bool × Keystore :=
  rewritePasskeys env k (fun r => r.rp == rpId)

/-! Stateless credentials. -/

/-- The secret and what NVS holds afterwards: drawn at the first use, zeros
without NVS. -/
def getStatelessMasterSecret (k : Keystore) : Bytes × Keystore :=
  if !env.nvsOpen then (zeros 32, k)
  else match k.slSecret with
    | some s => (s, k)
    | none => (env.draw .secret 32, { k with slSecret := some (env.draw .secret 32) })

def rotateStatelessMasterSecret (k : Keystore) : Keystore :=
  if env.nvsOpen then { k with slSecret := some (env.draw .secret 32) } else k

def statelessAesKey (secret : Bytes) : Bytes := P.sha256 (secret ++ text "STATELESS_AES_KEY_SALT")
def statelessHmacKey (secret : Bytes) : Bytes := P.sha256 (secret ++ text "STATELESS_HMAC_KEY_SALT")

def slice (start len : Nat) (b : Bytes) : Bytes := (b.drop start).take len

def byteAt (b : Bytes) (i : Nat) : UInt8 := b.getD i 0

def lengthByte (n : Nat) : UInt8 := UInt8.ofNat (if n > 32 then 32 else n)

/-- `netAlg` in network order. -/
def algBytes (algId : Int) : Bytes := bigEndian 4 (algId % 2 ^ 32).toNat

def statelessPlaintext (rpId : Str) (userId : Bytes) (userName privateKeyHex : Str) (algId : Int) :
    Bytes :=
  let privLen := privateKeyHex.length / 2
  let paddedLen := (108 + privLen + 15) / 16 * 16
  padTo paddedLen (text "STAT" ++ algBytes algId ++ P.sha256 rpId
    ++ lengthByte userId.length :: padTo 32 (userId.take 32)
    ++ lengthByte userName.length :: padTo 32 (userName.take 32)
    ++ bigEndian 2 privLen ++ fromHex privateKeyHex privLen)

def wrapStatelessCredential (k : Keystore) (rpId : Str) (userId : Bytes)
    (userName privateKeyHex : Str) (algId : Int) : Option Bytes × Keystore :=
  let (secret, k) := getStatelessMasterSecret env k
  if !env.allocates .plaintext || !env.allocates .encrypted then (none, k)
  else
    let iv := env.draw .wrapIv 16
    let encrypted := P.cbcEncrypt (statelessAesKey P secret) iv
      (statelessPlaintext P rpId userId userName privateKeyHex algId)
    let hmac := P.hmacSha256 (statelessHmacKey P secret) (iv ++ encrypted)
    (some (iv ++ encrypted ++ hmac), k)

/-- The tag over iv and ciphertext is the one under this secret. -/
def statelessTagOk (secret credId : Bytes) : Bool :=
  let encryptedLen := credId.length - 48
  slice (16 + encryptedLen) 32 credId ==
    P.hmacSha256 (statelessHmacKey P secret) (slice 0 16 credId ++ slice 16 encryptedLen credId)

def openStateless (encryptedLen : Nat) (plaintext : Bytes) (rpId : Str) : Option StoredCredential :=
  if slice 0 4 plaintext ≠ text "STAT" then none
  else if slice 8 32 plaintext ≠ P.sha256 rpId then none
  else
    let uLen := min (byteAt plaintext 40).toNat 32
    let nLen := min (byteAt plaintext 73).toNat 32
    let pLen := fromBigEndian (slice 106 2 plaintext)
    if 108 + pLen > encryptedLen then none
    else some
      { rpId := rpId
        userIdHex := toHex (slice 41 uLen plaintext)
        userName := cstr (slice 74 nLen plaintext)
        privateKeyHex := toHex (slice 108 pLen plaintext)
        algId := toInt32 (fromBigEndian (slice 4 4 plaintext)) }

def unwrapStatelessCredential (k : Keystore) (credId : Bytes) (rpId : Str) :
    Option StoredCredential × Keystore :=
  if credId.length < 123 then (none, k)
  else
    let (secret, k) := getStatelessMasterSecret env k
    let encryptedLen := credId.length - 48
    if encryptedLen % 16 ≠ 0 then (none, k)
    else if !statelessTagOk P secret credId then (none, k)
    else if !env.allocates .plaintext then (none, k)
    else
      let plaintext := P.cbcDecrypt (statelessAesKey P secret) (slice 0 16 credId)
        (slice 16 encryptedLen credId)
      (openStateless P encryptedLen plaintext rpId, k)

end GoiKey
