import GoiKey.Model.MakeCredential

/-! GetAssertion (0x02) and GetNextAssertion (0x08). -/

namespace GoiKey

variable (P : Platform) (env : Env)

/-- The allow list against wrapped ids and records, in its order. -/
def matchAllowed (rpId : Str) : List Bytes → Keystore → List Str × Keystore
  | [], k => ([], k)
  | id :: ids, k =>
    let (wrapped, k) := unwrapStatelessCredential P env k id rpId
    let found := wrapped.isSome ||
      (getPasskeyRecord P env k (toHex id)).any fun c => rpFieldMatchesPlainRpId P c.rpId rpId
    let (rest, k) := matchAllowed rpId ids k
    (if found then toHex id :: rest else rest, k)

def matchedCredentials (k : Keystore) (req : GetAssertionRequest) : List Str × Keystore :=
  if req.allowCredentialIds = [] then (findAllCredentialsByRp P env k req.targetRpId, k)
  else matchAllowed P env req.targetRpId req.allowCredentialIds k

/-- The bytes of a credential id from the hex it is listed under. -/
def binCredId (cid : Str) : Bytes := fromHex cid (cid.length / 2)

def statelessUserName (name : Str) : Str := if name = [] then text "Stateless User" else name

/-- An id is tried as a wrapped credential of the party first, then as a record.
The record's own party is not compared here. -/
def resolveCredential (k : Keystore) (rpId cid : Str) : Option StoredCredential × Keystore :=
  match unwrapStatelessCredential P env k (binCredId cid) rpId with
  | (some c, k) => (some { c with userName := statelessUserName c.userName }, k)
  | (none, k) => (getPasskeyRecord P env k cid, k)

/-- What one assertion is made over; GetAssertion takes it from its request,
GetNextAssertion from the globals. -/
structure AssertionInput where
  cid : Str
  rpId : Str
  clientHash : Bytes
  flags : UInt8
  extReq : Bool
  salt1 : Bytes
  salt2 : Bytes
  largeBlobReq : Bool
  credBlobReq : Bool
  /-- numberOfCredentials, given by GetAssertion when there are several. -/
  number : Option Nat

def assertionFlags (uv extReq : Bool) : UInt8 :=
  0x01 ||| (if uv then 0x04 else 0) ||| (if extReq then 0x80 else 0)

def assertionAuthData (a : AssertionInput) (counter : UInt32) : Bytes :=
  P.sha256 a.rpId ++ a.flags :: bigEndian 4 counter.toNat

/-- The hmac-secret outputs, keyed with the first 32 bytes of the stored key. -/
def hmacSecretOutput (c : StoredCredential) (a : AssertionInput) : Bytes :=
  let key := fromHex c.privateKeyHex 32
  let output1 := if a.salt1.length = 32 then P.hmacSha256 key a.salt1 else zeros 32
  if a.salt2.length = 32 then
    output1 ++ (if a.salt1.length = 32 then P.hmacSha256 key a.salt2 else zeros 32)
  else output1

def AssertionInput.includesCredBlob (a : AssertionInput) (c : StoredCredential) : Bool :=
  a.credBlobReq && c.credBlobHex != []

def AssertionInput.includesLargeBlobKey (a : AssertionInput) (c : StoredCredential) : Bool :=
  a.largeBlobReq && c.largeBlobKeyHex.length == 64

def AssertionInput.hasExtOutput (a : AssertionInput) (c : StoredCredential) : Bool :=
  a.extReq || a.includesCredBlob c

def userItems (c : StoredCredential) : List Item :=
  if c.userIdHex = [] then []
  else [.uint 4, .map 3, .text (text "id"), .bytes (binCredId c.userIdHex), .text (text "name"),
    .text c.userName, .text (text "displayName"), .text c.userName]

def hmacSecretItems (c : StoredCredential) (a : AssertionInput) : List Item :=
  if a.extReq then [.text (text "hmac-secret"), .bytes (hmacSecretOutput P c a)] else []

def credBlobItems (c : StoredCredential) (a : AssertionInput) : List Item :=
  if a.includesCredBlob c then [.text (text "credBlob"), .bytes (binCredId c.credBlobHex)] else []

def extensionItems (c : StoredCredential) (a : AssertionInput) : List Item :=
  if a.hasExtOutput c then
    .uint 8 :: .map (a.extReq.toNat + (a.includesCredBlob c).toNat)
      :: (hmacSecretItems P c a ++ credBlobItems c a)
  else []

def numberItems : Option Nat → List Item
  | some n => [.uint 5, .uint n]
  | none => []

def largeBlobKeyItems (c : StoredCredential) (a : AssertionInput) : List Item :=
  if a.includesLargeBlobKey c then [.uint 7, .bytes (fromHex c.largeBlobKeyHex 32)] else []

/-- The number of members is counted apart from writing them. -/
def assertionItems (c : StoredCredential) (a : AssertionInput) (authData sig : Bytes) :
    List Item :=
  let members := 3 + (c.userIdHex != []).toNat + (a.hasExtOutput c).toNat + a.number.isSome.toNat
    + (a.includesLargeBlobKey c).toNat
  [.map members, .uint 1, .map 2, .text (text "id"), .bytes (binCredId a.cid), .text (text "type"),
      .text (text "public-key"), .uint 2, .bytes authData, .uint 3, .bytes sig]
    ++ (userItems c ++ (numberItems a.number ++ (largeBlobKeyItems c a ++ extensionItems P c a)))

/-- The next value of the signature counter, which is saved before signing. -/
def nextSignCount (signCount : UInt32) : UInt32 := loadPersistedSignCount signCount + 1

def assertCredential (c : StoredCredential) (a : AssertionInput) (signCount : UInt32) :
    CborReply × List Act :=
  let authData := assertionAuthData P a (nextSignCount signCount)
  let msg := authData ++ a.clientHash
  match generateAlgSignature P env c.algId c.privateKeyHex msg with
  | none => (.status 0x01, [])
  | some sig =>
    let signed := Act.signed a.cid (.rpId a.rpId) c.algId msg sig
    if !env.allocates .localResponse then (.status 0x01, [signed])
    else (.items (assertionItems P c a authData sig), [signed, .authData a.flags])

structure AssertionResult where
  reply : CborReply
  acts : List Act := []
  uv : UvState
  keys : Keystore
  next : NextAssertion
  signCount : UInt32

/-- The globals as GetAssertion leaves them; salts of an earlier request stay
when this one has none. -/
def setUpNext (old : NextAssertion) (req : GetAssertionRequest) (creds : List Str) :
    NextAssertion where
  creds := creds
  idx := 1
  clientHash := req.clientDataHash
  rpId := req.targetRpId
  optionUV := true
  extReq := req.extensionRequested
  salt1 := if req.extensionRequested then req.hmacSalt1 else old.salt1
  salt2 := if req.extensionRequested then req.hmacSalt2 else old.salt2
  largeBlobReq := req.largeBlobKeyRequested
  credBlobReq := req.credBlobRequested

def GetAssertionRequest.input (req : GetAssertionRequest) (cid : Str) (count : Nat) :
    AssertionInput where
  cid := cid
  rpId := req.targetRpId
  clientHash := req.clientDataHash
  flags := assertionFlags true req.extensionRequested
  extReq := req.extensionRequested
  salt1 := req.hmacSalt1
  salt2 := req.hmacSalt2
  largeBlobReq := req.largeBlobKeyRequested
  credBlobReq := req.credBlobRequested
  number := if 1 < count then some count else none

/-- The list is in place before the finger is looked at. -/
def getAssertion (d : Device) (req : GetAssertionRequest) : AssertionResult :=
  if req.targetRpId = [] ∨ req.clientDataHash.length ≠ 32 then
    ⟨.status 0x0A, [], d.uv, d.keys, d.next, d.signCount⟩
  else
    let (creds, k) := matchedCredentials P env d.keys req
    let listed := creds.map fun cid => Act.listed cid (.rpId req.targetRpId)
    match creds with
    | [] => ⟨.status 0x2E, [], d.uv, k, d.next, d.signCount⟩
    | cid :: _ =>
      match resolveCredential P env k req.targetRpId cid with
      | (none, k) => ⟨.status 0x2E, listed, d.uv, k, d.next, d.signCount⟩
      | (some c, k) =>
        let next := setUpNext d.next req creds
        let acts := listed ++ [.listSetUp creds.length]
        match cachedOrWait env d.bio d.uv with
        | (.cancelled, uv) => ⟨.status 0x2D, acts, uv, k, next, d.signCount⟩
        | (.timedOut, uv) => ⟨.status 0x34, acts, uv, k, next, d.signCount⟩
        | (.verified act _, uv) =>
          let (reply, signed) :=
            assertCredential P env c (req.input cid creds.length) d.signCount
          ⟨reply, acts ++ act :: signed, uv, k, next, nextSignCount d.signCount⟩

def NextAssertion.input (n : NextAssertion) (cid : Str) : AssertionInput where
  cid := cid
  rpId := n.rpId
  clientHash := n.clientHash
  flags := assertionFlags n.optionUV n.extReq
  extReq := n.extReq
  salt1 := n.salt1
  salt2 := n.salt2
  largeBlobReq := n.largeBlobReq
  credBlobReq := n.credBlobReq
  number := none

def getNextAssertion (d : Device) : AssertionResult :=
  match d.next.creds[d.next.idx]? with
  | none => ⟨.status 0x2C, [], d.uv, d.keys, d.next, d.signCount⟩
  | some cid =>
    let next := { d.next with idx := d.next.idx + 1 }
    match resolveCredential P env d.keys next.rpId cid with
    | (none, k) => ⟨.status 0x2E, [], d.uv, k, next, d.signCount⟩
    | (some c, k) =>
      let (reply, signed) := assertCredential P env c (next.input cid) d.signCount
      ⟨reply, signed, d.uv, k, next, nextSignCount d.signCount⟩

end GoiKey
