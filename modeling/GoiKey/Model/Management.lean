import GoiKey.Model.Requests
import GoiKey.Model.Verification

/-!
The commands that change what is stored: authenticatorLargeBlobs (0x0C),
credentialManagement (0x0A, 0x41), authenticatorConfig (0x0D) and bioEnrollment
(0x09, 0x40).
-/

namespace GoiKey

variable (P : Platform) (env : Env)

/-! Large blobs. -/

/-- `MAX_LARGE_BLOB_ARRAY`. -/
def maxLargeBlobArray : Nat := 4096

/-- `emptyLargeBlobArray`. -/
def emptyLargeBlobArray : Bytes :=
  [0x80, 0x76, 0xbe, 0x8b, 0x52, 0x8d, 0x00, 0x75, 0xf7, 0xaa, 0xe9, 0x8d, 0x6f, 0xa5, 0x7a, 0x6d,
    0x3c]

structure LargeBlobsResult where
  reply : CborReply
  acts : List Act := []
  uv : UvState
  blob : LargeBlob

/-- What getLargeBlobArray hands over, "" when there is nothing to read. -/
def getLargeBlobArray (b : LargeBlob) : Bytes :=
  if env.opens .largeblob .read && env.allocates .blobRead then b.stored.getD [] else []

def largeBlobsGet (b : LargeBlob) (offset count : Nat) : CborReply :=
  if count = 0 ∨ maxFragmentLen < count then .status 0x0A
  else
    let stored := getLargeBlobArray env b
    if stored = [] ∧ !env.allocates .blobRead then .status 0x01
    else
      let stored := if stored = [] then emptyLargeBlobArray else stored
      .items [.map 1, .uint 1, .bytes (slice offset count stored)]

/-- The array is whole: its last 16 bytes have to be those of the hash of the rest. -/
def largeBlobIntact (array : Bytes) : Bool :=
  17 ≤ array.length &&
    (P.sha256 (array.take (array.length - 16))).take 16 == array.drop (array.length - 16)

/-- A fragment behind what has been received, and the array saved once complete. -/
def largeBlobsAppend (b : LargeBlob) (offset : Nat) (fragment : Bytes) : CborReply × LargeBlob :=
  match b.writing with
  | none => (.status 0x0A, b)
  | some w =>
    if offset ≠ w.received.length ∨ w.expectedTotalLen < offset + fragment.length then
      (.status 0x0A, { b with writing := none })
    else
      let received := w.received ++ fragment
      if received.length < w.expectedTotalLen then
        (.items [.map 0], { b with writing := some { w with received := received } })
      else if !largeBlobIntact P received then (.status 0x33, { b with writing := none })
      else if env.opens .largeblob .write then
        (.items [.map 0], { stored := some received, writing := none })
      else (.status 0x01, { b with writing := none })

/-- Only a fragment at offset 0 asks for a finger. -/
def largeBlobsSet (d : Device) (req : LargeBlobsRequest) (fragment : Bytes) : LargeBlobsResult :=
  if req.fragmentOffset = 0 then
    match req.length with
    | none => ⟨.status 0x0A, [], d.uv, d.blob⟩
    | some total =>
      if total = 0 ∨ maxLargeBlobArray < total then ⟨.status 0x0A, [], d.uv, d.blob⟩
      else match fidoVerifyFingerprint env d.bio d.uv env.sensor env.now with
        | (none, uv) => ⟨.status 0x34, [], uv, d.blob⟩
        | (some act, uv) =>
          if !env.allocates .blobWrite then
            ⟨.status 0x01, [act], uv, { d.blob with writing := none }⟩
          else
            let (reply, blob) := largeBlobsAppend P env
              { d.blob with writing := some ⟨total, []⟩ } 0 fragment
            ⟨reply, [act], uv, blob⟩
  else
    let (reply, blob) := largeBlobsAppend P env d.blob req.fragmentOffset fragment
    ⟨reply, [], d.uv, blob⟩

def largeBlobs (d : Device) (body : Bytes) : LargeBlobsResult :=
  match parseLargeBlobs body with
  | none => ⟨.status 0x12, [], d.uv, d.blob⟩
  | some req =>
    match req.get, req.set with
    | some count, _ => ⟨largeBlobsGet env d.blob req.fragmentOffset count, [], d.uv, d.blob⟩
    | none, some fragment => largeBlobsSet P env d req fragment
    | none, none => ⟨.status 0x0A, [], d.uv, d.blob⟩

/-! Credential management. -/

structure CredentialManagementResult where
  reply : CborReply
  acts : List Act := []
  uv : UvState
  keys : Keystore
  enumeration : Enumeration

/-- rpId and rpIdHash of one entry, and the count in the first response. -/
def rpItems (rp : Str) (total : Option Nat) : List Item :=
  .map (if total.isSome then 3 else 2)
    :: [.uint 3, .map 1, .text (text "id"), .text rp, .uint 4, .bytes (P.sha256 rp)]
    ++ (match total with
        | some n => [.uint 5, .uint n]
        | none => [])

/-- User, credential id and protection level of one entry. A record that is no
longer there leaves empty fields and level 1. -/
def credentialItems (k : Keystore) (cid : Str) (total : Option Nat) : List Item :=
  let c := getPasskeyRecord P env k cid
  .map (if total.isSome then 4 else 3)
    :: [.uint 6, .map 2, .text (text "id"),
      .bytes ((c.map StoredCredential.userIdHex).elim [] fun u => fromHex u (u.length / 2)),
      .text (text "name"), .text ((c.map StoredCredential.userName).getD []), .uint 7, .map 2,
      .text (text "id"), .bytes (fromHex cid (cid.length / 2)), .text (text "type"),
      .text (text "public-key")]
    ++ (match total with
        | some n => [.uint 9, .uint n]
        | none => [])
    ++ [.uint 0x0A, .uint ((c.map StoredCredential.credProtect).getD 1 % 2 ^ 64).toNat]

/-- The readable records whose party hashes to the one named. -/
def credentialsOfHash (k : Keystore) (rpIdHash : Bytes) : List (Str × StoredCredential) :=
  ((getAllStoredCredentialIds env k).filterMap fun cid =>
    (getPasskeyRecord P env k cid).map fun c => (cid, c)).filter fun e =>
      P.sha256 e.2.rpId == rpIdHash

def enumerateRpsBegin (d : Device) : CredentialManagementResult :=
  match getAllStoredRpIds env d.keys with
  | [] => ⟨.status 0x2E, [], d.uv, d.keys, { d.enumeration with rpList := [], rpIdx := 0 }⟩
  | rp :: rps =>
    ⟨.items (rpItems P rp (some (rps.length + 1))), [], d.uv, d.keys,
      { d.enumeration with rpList := rp :: rps, rpIdx := 1 }⟩

def enumerateRpsGetNextRp (d : Device) : CredentialManagementResult :=
  match d.enumeration.rpList[d.enumeration.rpIdx]? with
  | none => ⟨.status 0x2E, [], d.uv, d.keys, d.enumeration⟩
  | some rp =>
    ⟨.items (rpItems P rp none), [], d.uv, d.keys,
      { d.enumeration with rpIdx := d.enumeration.rpIdx + 1 }⟩

/-- A party with a credential of level 2 or 3 has the user verified first. -/
def enumerateCredentialsBegin (d : Device) (rpIdHash : Bytes) : CredentialManagementResult :=
  let found := credentialsOfHash P env d.keys rpIdHash
  let cids := found.map Prod.fst
  let listed := cids.map fun cid => Act.listed cid (.rpIdHash rpIdHash)
  match cids with
  | [] => ⟨.status 0x2E, [], d.uv, d.keys, { d.enumeration with credList := [], credIdx := 0 }⟩
  | cid :: _ =>
    let waiting := { d.enumeration with credList := cids, credIdx := 0 }
    let answer : CborReply := .items (credentialItems P env d.keys cid (some cids.length))
    if found.any (fun e => 2 ≤ e.2.credProtect) then
      match cachedOrWait env d.bio d.uv with
      | (.cancelled, uv) => ⟨.status 0x2D, listed, uv, d.keys, waiting⟩
      | (.timedOut, uv) => ⟨.status 0x34, listed, uv, d.keys, waiting⟩
      | (.verified act _, uv) =>
        ⟨answer, listed ++ [act], uv, d.keys, { waiting with credIdx := 1 }⟩
    else ⟨answer, listed, d.uv, d.keys, { waiting with credIdx := 1 }⟩

def enumerateCredentialsGetNextCredential (d : Device) : CredentialManagementResult :=
  match d.enumeration.credList[d.enumeration.credIdx]? with
  | none => ⟨.status 0x2E, [], d.uv, d.keys, d.enumeration⟩
  | some cid =>
    ⟨.items (credentialItems P env d.keys cid none), [], d.uv, d.keys,
      { d.enumeration with credIdx := d.enumeration.credIdx + 1 }⟩

/-- Nothing authorizes a deletion: the id alone has to name a record. -/
def deleteCredential (d : Device) (credId : Bytes) : CredentialManagementResult :=
  match deletePasskeyRecord env d.keys (toHex credId) with
  | (true, k) => ⟨.items [.map 0], [], d.uv, k, d.enumeration⟩
  | (false, k) => ⟨.status 0x2E, [], d.uv, k, d.enumeration⟩

/-- `1000 - allCreds.size()` in a 32-bit size_t. -/
def getCredsMetadata (k : Keystore) : CborReply :=
  let n := (getAllStoredCredentialIds env k).length
  .items [.map 2, .uint 1, .uint n, .uint 2, .uint ((1000 - (n : Int)) % 2 ^ 32).toNat]

def credentialManagement (d : Device) (body : Bytes) : CredentialManagementResult :=
  match parseCredentialManagement body with
  | none => ⟨.status 0x11, [], d.uv, d.keys, d.enumeration⟩
  | some req =>
    match req.subCommand with
    | 0x01 => ⟨getCredsMetadata env d.keys, [], d.uv, d.keys, d.enumeration⟩
    | 0x02 => enumerateRpsBegin P env d
    | 0x03 => enumerateRpsGetNextRp P d
    | 0x04 => enumerateCredentialsBegin P env d req.targetRpIdHash
    | 0x05 => enumerateCredentialsGetNextCredential P env d
    | 0x06 => deleteCredential env d req.targetCredId
    | _ => ⟨.status 0x2B, [], d.uv, d.keys, d.enumeration⟩

/-! Configuration. -/

/-- setMinPINLength keeps the low byte of what the request says. -/
def authenticatorConfig (p : PinFiles) (body : Bytes) : CborReply × PinFiles :=
  match parseConfig body with
  | none => (.status 0x11, p)
  | some req =>
    match req.subCommand with
    | 0x01 => (.items [.map 0], p)
    | 0x02 => (.items [.map 0], setForcePinChange env p true)
    | 0x03 => (.items [.map 0], setMinPinLength env p (UInt8.ofNat req.minPinLenParam))
    | _ => (.status 0x2B, p)

/-! Fingerprint enrollment. -/

structure BioEnrollmentResult where
  reply : CborReply
  acts : List Act := []
  uv : UvState
  bio : BioStore
  enroll : BioEnroll

/-- captureBioSample: cancelled, or a status with the last sample stored or not. -/
inductive Capture where
  | cancelled
  | status (code : Nat) (finished : Bool)
  deriving DecidableEq, Repr

/-- Only the last sample makes a model and stores it in the slot. -/
def captureBioSample (b : BioStore) (e : BioEnroll) : Capture × BioStore × BioEnroll :=
  if env.sampleCancelled then (.cancelled, b, e)
  else match env.sample with
    | .noFinger => (.status 0x09 false, b, e)
    | .failed => (.status 0x07 false, b, e)
    | .ok =>
      if env.sampleTz ≠ .ok then (.status 0x07 false, b, e)
      else
        let e := { e with samplesRemaining := e.samplesRemaining - min 1 e.samplesRemaining }
        if 0 < e.samplesRemaining then (.status 0x00 false, b, e)
        else if env.createModel ≠ .ok then (.status 0x0A false, b, e)
        else if env.storeModel ≠ .ok then (.status 0x0A false, b, e)
        else (.status 0x00 true, storeModel b e.templateId, e)

def fingerName (id : UInt8) : Str := text "Finger " ++ decimal id.toNat

/-- A capture and what both enrollment subcommands do with it; a name that
cannot be saved is not reported. -/
def captureStep (d : Device) (e : BioEnroll) (answer : Nat → BioEnroll → List Item) :
    BioEnrollmentResult :=
  match captureBioSample env d.bio e with
  | (.cancelled, b, e) => ⟨.status 0x2D, [], d.uv, b, { e with active := false }⟩
  | (.status code finished, b, e) =>
    let e := { e with active := e.active && code == 0 && !finished }
    let b := if finished then (saveBioTemplateName env b e.templateId (fingerName e.templateId)).getD b
      else b
    ⟨.items (answer code e), [], d.uv, b, e⟩

def enrollBegin (d : Device) : BioEnrollmentResult :=
  let freeSlot := findFreeBioTemplateSlot env d.bio
  if freeSlot = 0 then ⟨.status 0x28, [], d.uv, d.bio, d.enroll⟩
  else captureStep env d ⟨true, freeSlot, 2, 2⟩ fun code e =>
    [.map 3, .uint 4, .bytes [e.templateId], .uint 5, .uint code, .uint 6,
      .uint e.samplesRemaining.toNat]

def enrollCaptureNextSample (d : Device) (req : BioEnrollmentRequest) : BioEnrollmentResult :=
  if !d.enroll.active ∨ req.templateId ≠ some [d.enroll.templateId] then
    ⟨.status 0x2A, [], d.uv, d.bio, d.enroll⟩
  else captureStep env d d.enroll fun code e =>
    [.map 2, .uint 5, .uint code, .uint 6, .uint e.samplesRemaining.toNat]

def templateName (b : BioStore) (id : UInt8) : Str :=
  let name := getBioTemplateName env b id
  if name = [] then fingerName id else name

def enumerateEnrollments (d : Device) : BioEnrollmentResult :=
  match cachedOrWait env d.bio d.uv with
  | (.cancelled, uv) => ⟨.status 0x2D, [], uv, d.bio, d.enroll⟩
  | (.timedOut, uv) => ⟨.status 0x3F, [], uv, d.bio, d.enroll⟩
  | (.verified act _, uv) =>
    let ids := getAllBioTemplateIds env d.bio
    if ids = [] then ⟨.status 0x2E, [act], uv, d.bio, d.enroll⟩
    else
      ⟨.items (.map 1 :: .uint 7 :: .array ids.length :: ids.flatMap fun id =>
        [.map 2, .uint 1, .bytes [id], .uint 2, .text (templateName env d.bio id)]),
        [act], uv, d.bio, d.enroll⟩

def setFriendlyName (d : Device) (req : BioEnrollmentRequest) : BioEnrollmentResult :=
  match req.templateId, req.friendlyName with
  | some [id], some name =>
    if id ∉ getAllBioTemplateIds env d.bio then ⟨.status 0x22, [], d.uv, d.bio, d.enroll⟩
    else match saveBioTemplateName env d.bio id name with
      | none => ⟨.status 0x21, [], d.uv, d.bio, d.enroll⟩
      | some b => ⟨.items [.map 0], [], d.uv, b, d.enroll⟩
  | _, _ => ⟨.status 0x14, [], d.uv, d.bio, d.enroll⟩

/-- The record goes whether or not the sensor deleted its model. -/
def removeEnrollment (d : Device) (req : BioEnrollmentRequest) : BioEnrollmentResult :=
  match req.templateId with
  | some [id] =>
    if id ∉ getAllBioTemplateIds env d.bio then ⟨.status 0x22, [], d.uv, d.bio, d.enroll⟩
    else
      let b := (deleteBioTemplateRecord env (deleteModel env d.bio id) id).2
      ⟨.items [.map 0], [], d.uv, b,
        { d.enroll with active := d.enroll.active && d.enroll.templateId != id }⟩
  | _ => ⟨.status 0x14, [], d.uv, d.bio, d.enroll⟩

/-- A pinUvAuthParam has to be there; what it says is not looked at. -/
def bioEnrollment (d : Device) (body : Bytes) : BioEnrollmentResult :=
  let reply (r : CborReply) : BioEnrollmentResult := ⟨r, [], d.uv, d.bio, d.enroll⟩
  match parseBioEnrollment body with
  | none => reply (.status 0x11)
  | some req =>
    match req.subCommand with
    | none => reply (if req.getModality then .items [.map 1, .uint 1, .uint 1] else .status 0x14)
    | some 0x07 =>
      reply (.items [.map 3, .uint 2, .uint 1, .uint 3, .uint d.enroll.samplesRequired.toNat,
        .uint 8, .uint 32])
    | some sub =>
      if !isPinSet d.pins then reply (.status 0x35)
      else if req.pinUvAuthParam = [] then reply (.status 0x36)
      else match sub with
        | 0x01 => enrollBegin env d
        | 0x02 => enrollCaptureNextSample env d req
        | 0x03 => { reply (.items [.map 0]) with enroll := { d.enroll with active := false } }
        | 0x04 => enumerateEnrollments env d
        | 0x05 => setFriendlyName env d req
        | 0x06 => removeEnrollment env d req
        | _ => reply (.status 0x2B)

end GoiKey
