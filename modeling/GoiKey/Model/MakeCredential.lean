import GoiKey.Model.Requests
import GoiKey.Model.Verification

/-! MakeCredential (0x01) of FIDO2Manager.cpp. -/

namespace GoiKey

variable (P : Platform) (env : Env)

/-- `getLeafAttestationCert` on the cached chain. -/
def leafAttestationCert : Option Bytes :=
  match P.attestation with
  | none => none
  | some a =>
    let certLen := (byteAt a.chain 1).toNat * 256 + (byteAt a.chain 2).toNat
    if a.chain.length < 3 ∨ a.chain.length < 3 + certLen then none
    else some (slice 3 certLen a.chain)

/-- The key and algorithm an attestation is signed with, and the certificate it carries. -/
structure AttestationSigner where
  algId : Int
  privateKeyHex : Str
  leafCert : Option Bytes

/-- The batch key when there is a leaf certificate, else the credential's own. -/
def attestationSigner (algId : Int) (privateKeyHex : Str) : AttestationSigner :=
  match P.attestation, leafAttestationCert P with
  | some a, some cert => ⟨-7, toHex a.privKey, some cert⟩
  | _, _ => ⟨algId, privateKeyHex, none⟩

/-- `dynamicAaguid`. -/
def dynamicAaguid : Bytes :=
  [0x4F, 0xA2, 0xB1, 0x3C, 0x7C, 0x89, 0x4E, 0x5B, 0xBC, 0x6D] ++ padTo 6 P.mac

def loadPersistedSignCount (signCount : UInt32) : UInt32 :=
  if signCount = 0xFFFFFFFF then 0 else signCount

def mldsaPublicLen (ps : Nat) : Nat := if ps = 44 then 1312 else if ps = 65 then 1952 else 2592

def generateCredentialKey (algId : Int) : Option KeyPair :=
  if algId = -7 then
    if env.allocates .publicKey then generateCredentialKeyP256 P env else none
  else if algId = -8 then
    if env.allocates .publicKey then generateEd25519KeyPair P env else none
  else if algId = -257 then
    if env.allocates .publicKey && env.allocates .exponent then generateRsa2048KeyPair P env else none
  else if isMlDsa algId then
    if env.allocates .publicKey && env.allocates .secretKey then generateMlDsaKeyPairEx P env algId
    else none
  else none

/-- The COSE key of the attested credential data. -/
def coseKey (algId : Int) (publicKey : Bytes) : Bytes :=
  if algId = -7 then
    [0xA5, 0x01, 0x02, 0x03, 0x26, 0x20, 0x01, 0x21, 0x58, 0x20] ++ padTo 32 (publicKey.drop 1)
      ++ [0x22, 0x58, 0x20] ++ padTo 32 (publicKey.drop 33)
  else if algId = -8 then
    [0xA4, 0x01, 0x01, 0x03, 0x27, 0x20, 0x06, 0x21, 0x58, 0x20] ++ padTo 32 publicKey
  else if algId = -257 then
    [0xA4, 0x01, 0x03, 0x03, 0x39, 0x01, 0x00, 0x20, 0x59, 0x01, 0x00] ++ padTo 256 publicKey
      ++ [0x21, 0x43] ++ padTo 3 (publicKey.drop 256)
  else if isMlDsa algId then
    let len := mldsaPublicLen (mldsaParameterSet algId)
    [0xA3, 0x01, 0x07, 0x03, 0x38, UInt8.ofNat (-algId - 1).toNat, 0x20, 0x59]
      ++ bigEndian 2 len ++ padTo len publicKey
  else []

/-- `!optionRK` is overruled for keys too long to wrap. -/
def residentKey (req : MakeCredentialRequest) : Bool :=
  req.optionRK || req.selectedAlgId == -257 || isMlDsa req.selectedAlgId

def createdLargeBlobKey (req : MakeCredentialRequest) : Option Bytes :=
  if req.largeBlobKeyRequested && residentKey req then some (env.draw .largeBlobKey 32) else none

def storedCredBlob (req : MakeCredentialRequest) : Str :=
  if req.credBlobRequested && residentKey req && 0 < req.credBlobRaw.length &&
      req.credBlobRaw.length ≤ 32 then toHex req.credBlobRaw else []

/-- The record of a resident credential. -/
def newRecord (req : MakeCredentialRequest) (key : KeyPair) : StoredCredential where
  rpId := req.targetRpId
  userIdHex := toHex req.userIdRaw
  userName := req.userName
  privateKeyHex := key.privateKeyHex
  algId := req.selectedAlgId
  credProtect := req.requestedCredProtect
  largeBlobKeyHex := (createdLargeBlobKey env req).elim [] toHex
  credBlobHex := storedCredBlob req

/-- The outcome of making a credential usable: its id, or the status to answer. -/
structure Stored where
  credId : Except UInt8 Bytes
  acts : List Act
  keys : Keystore

/-- The credential of the same party and user goes before the new one is written,
whether or not that then works. -/
def storeResident (k : Keystore) (req : MakeCredentialRequest) (key : KeyPair) : Stored :=
  let rawCredId := env.draw .credentialId 16
  let existing := findCredentialIdByRpAndUser P env k req.targetRpId (toHex req.userIdRaw)
  let (deleted, k) := if existing = [] then (false, k) else deletePasskeyRecord env k existing
  let acts := if deleted then [Act.deleted existing (.rpId req.targetRpId)] else []
  match savePasskeyRecord P env k (toHex rawCredId) (newRecord env req key) with
  | none => ⟨.error 0x21, acts, k⟩
  | some k =>
    ⟨.ok rawCredId,
      acts ++ [.created (toHex rawCredId) (.rpId req.targetRpId) req.selectedAlgId key.publicKey], k⟩

def storeStateless (k : Keystore) (req : MakeCredentialRequest) (key : KeyPair) : Stored :=
  match wrapStatelessCredential P env k req.targetRpId req.userIdRaw req.userName
      key.privateKeyHex req.selectedAlgId with
  | (none, k') => ⟨.error 0x01, [], k'⟩
  | (some credId, k') =>
    ⟨.ok credId,
      [.issued (getStatelessMasterSecret env k).1 credId,
        .created (toHex credId) (.rpId req.targetRpId) req.selectedAlgId key.publicKey], k'⟩

def storeCredential (k : Keystore) (req : MakeCredentialRequest) (key : KeyPair) : Stored :=
  if residentKey req then storeResident P env k req key else storeStateless P env k req key

def createFlags (req : MakeCredentialRequest) : UInt8 :=
  if req.hmacSecretRequested || req.credBlobRequested then 0x45 ||| 0x80 else 0x45

def createExtensions (req : MakeCredentialRequest) : List Item :=
  if req.hmacSecretRequested || req.credBlobRequested then
    .map ((if req.hmacSecretRequested then 1 else 0) + (if req.credBlobRequested then 1 else 0))
      :: (if req.hmacSecretRequested then [.text (text "hmac-secret"), .bool true] else [])
      ++ (if req.credBlobRequested then
          [.text (text "credBlob"), .bool (storedCredBlob req != [])] else [])
  else []

/-- `finalAuthData`. -/
def createAuthData (req : MakeCredentialRequest) (signCount : UInt32) (credId publicKey : Bytes) :
    Bytes :=
  let fixed := P.sha256 req.targetRpId ++ createFlags req
    :: bigEndian 4 (loadPersistedSignCount signCount).toNat ++ dynamicAaguid P
    ++ bigEndian 2 credId.length ++ credId ++ coseKey req.selectedAlgId publicKey
  fixed ++ encode (8192 - fixed.length) (createExtensions req)

/-- Authenticator data and attestation for a credential that is already usable. -/
def attestCredential (req : MakeCredentialRequest) (signCount : UInt32) (credId : Bytes)
    (key : KeyPair) : CborReply × List Act :=
  if !env.allocates .authData then (.status 0x01, [])
  else
    let authData := createAuthData P req signCount credId key.publicKey
    let signer := attestationSigner P req.selectedAlgId key.privateKeyHex
    let msg := authData ++ req.clientDataHash
    match generateAlgSignature P env signer.algId signer.privateKeyHex msg with
    | none => (.status 0x01, [])
    | some sig =>
      let blobKey := createdLargeBlobKey env req
      (.items (.map (if blobKey.isSome then 4 else 3)
          :: [.uint 1, .text (text "packed"), .uint 2, .bytes authData, .uint 3]
          ++ .map (if signer.leafCert.isSome then 3 else 2)
          :: [.text (text "alg"), .nint signer.algId, .text (text "sig"), .bytes sig]
          ++ (match signer.leafCert with
              | some cert => [.text (text "x5c"), .array 1, .bytes cert]
              | none => [])
          ++ (match blobKey with
              | some b => [.uint 5, .bytes b]
              | none => [])),
        (if signer.leafCert.isSome then []
          else [.signed (toHex credId) (.rpId req.targetRpId) req.selectedAlgId msg sig])
        ++ [.authData (createFlags req)])

structure MakeCredentialResult where
  reply : CborReply
  acts : List Act := []
  uv : UvState
  keys : Keystore

/-- What follows an accepted finger. -/
def register (k : Keystore) (signCount : UInt32) (req : MakeCredentialRequest) :
    CborReply × List Act × Keystore :=
  match generateCredentialKey P env req.selectedAlgId with
  | none => (.status 0x01, [], k)
  | some key =>
    let stored := storeCredential P env k req key
    match stored.credId with
    | .error code => (.status code, stored.acts, stored.keys)
    | .ok credId =>
      let (reply, acts) := attestCredential P env req signCount credId key
      (reply, stored.acts ++ acts, stored.keys)

/-- Only records are looked up here, never wrapped ids. -/
def excludes (k : Keystore) (req : MakeCredentialRequest) : Bool :=
  req.excludeCredentialIds.any fun id =>
    (getPasskeyRecord P env k (toHex id)).any fun c => rpFieldMatchesPlainRpId P c.rpId req.targetRpId

def makeCredential (d : Device) (req : MakeCredentialRequest) : MakeCredentialResult :=
  if req.targetRpId = [] ∨ req.userIdRaw = [] ∨ req.clientDataHash.length ≠ 32 then
    ⟨.status 0x0A, [], d.uv, d.keys⟩
  else if excludes P env d.keys req then ⟨.status 0x19, [], d.uv, d.keys⟩
  else match waitForFinger env d.bio env.polls d.uv with
    | (.cancelled, uv) => ⟨.status 0x2D, [], uv, d.keys⟩
    | (.timedOut, uv) => ⟨.status 0x34, [], uv, d.keys⟩
    | (.verified act _, uv) =>
      let (reply, acts, keys) := register P env d.keys d.signCount req
      ⟨reply, act :: acts, uv, keys⟩

end GoiKey
