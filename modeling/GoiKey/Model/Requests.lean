import GoiKey.Model.Cbor

/-!
The parsing front of each CTAP command of `processCborCommand`. A request holds
what the handler's locals hold after the loops: a buffer and its length are the
string read into it last, and a failed read leaves it as it was.
-/

namespace GoiKey

/-- `MAX_CREDENTIAL_ID_LEN`. -/
def maxCredentialIdLen : Nat := 224

/-- `parser.readTypeAndValue(t, v) && t == major`. -/
def readTyped (major : Nat) : Parse (Option Nat) := do
  match ← readTypeAndValue with
  | some (m, v) => return if m = major then some v else none
  | none => return none

/-- A map of unsigned keys; any other key is skipped and its round is over. -/
def keyedLoop {ρ : Type} (onEntry : Nat → ρ → Parse ρ) : Nat → ρ → Parse ρ :=
  loop fun r => do
    match ← readTyped 0 with
    | some key => onEntry key r
    | none =>
      skip
      return r

/-- A request whose root has to be a map. -/
def parseMap {ρ : Type} (onEntry : Nat → ρ → Parse ρ) (r : ρ) (body : Bytes) : Option ρ :=
  let parse : Parse (Option ρ) := do
    match ← readTyped 5 with
    | some n => return some (← keyedLoop onEntry n r)
    | none => return none
  (parse body).1

/-- A map of text keys, read into `keySize` bytes. -/
def textLoop {ρ : Type} (keySize : Nat) (onEntry : Str → ρ → Parse ρ) (noKey : Parse Unit) :
    Nat → ρ → Parse ρ :=
  loop fun r => do
    match ← readTextString keySize with
    | some key => onEntry key r
    | none =>
      noKey
      return r

def skipping {ρ : Type} (r : ρ) : Parse ρ := do
  skip
  return r

/-- A CBOR simple value taken as a flag: 21 is true, every other one false. -/
def readFlag (old : Bool) : Parse Bool := do
  match ← readTyped 7 with
  | some v => return v == 21
  | none => skipping old

/-- One credential descriptor: its "id" is kept while there is room for it. -/
def readDescriptor (room : Nat) (n : Nat) (ids : List Bytes) : Parse (List Bytes) :=
  textLoop 32 (fun key ids => do
    if key = text "id" then
      if ids.length < room then
        match ← readByteString maxCredentialIdLen with
        | some id => return ids ++ [id]
        | none => skipping ids
      else skipping ids
    else skipping ids) skip n ids

/-! MakeCredential, 0x01. -/

structure MakeCredentialRequest where
  optionRK : Bool := false
  targetRpId : Str := []
  clientDataHash : Bytes := []
  userIdRaw : Bytes := []
  userName : Str := []
  hmacSecretRequested : Bool := false
  selectedAlgId : Int
  requestedCredProtect : Nat := 1
  largeBlobKeyRequested : Bool := false
  credBlobRequested : Bool := false
  credBlobRaw : Bytes := []
  excludeCredentialIds : List Bytes := []
  deriving DecidableEq, Repr

def maxExcludeCredentials : Nat := 16

/-- What the loop over pubKeyCredParams has seen so far. -/
structure AlgorithmChoice where
  selectedAlgId : Int
  foundDefault : Bool := false
  foundPQC : Bool := false
  foundES256 : Bool := false

def isMlDsa (algId : Int) : Bool := algId == -48 || algId == -49 || algId == -50

def AlgorithmChoice.offer (c : AlgorithmChoice) (defaultCryptoAlg currentAlgId : Int) :
    AlgorithmChoice :=
  if currentAlgId = defaultCryptoAlg then
    { c with selectedAlgId := defaultCryptoAlg, foundDefault := true }
  else if c.foundDefault then c
  else if isMlDsa currentAlgId then { c with selectedAlgId := currentAlgId, foundPQC := true }
  else if !c.foundPQC && currentAlgId == -7 then
    { c with selectedAlgId := -7, foundES256 := true }
  else if !c.foundPQC && !c.foundES256 && (currentAlgId == -8 || currentAlgId == -257) then
    { c with selectedAlgId := currentAlgId }
  else c

/-- The "alg" of one parameter map; 0 when there is none. -/
def readAlgorithm (n : Nat) : Parse Int :=
  textLoop 32 (fun key alg => do
    if key = text "alg" then
      match ← readTypeAndValue with
      | some (0, v) => return toInt32 v
      | some (1, v) => return -1 - toInt32 v
      | _ => return alg
    else skipping alg) skip n 0

def readAlgorithms (defaultCryptoAlg : Int) (n : Nat) (c : AlgorithmChoice) :
    Parse AlgorithmChoice :=
  loop (fun c => do
    match ← readTyped 5 with
    | some m => return c.offer defaultCryptoAlg (← readAlgorithm m)
    | none => skipping c) n c

def readCreateExtension (key : Str) (r : MakeCredentialRequest) : Parse MakeCredentialRequest := do
  if key = text "hmac-secret" then
    return { r with hmacSecretRequested := ← readFlag r.hmacSecretRequested }
  else if key = text "credProtect" then
    match ← readTyped 0 with
    | some v =>
      if 1 ≤ v ∧ v ≤ 3 then return { r with requestedCredProtect := v } else skipping r
    | none => skipping r
  else if key = text "largeBlobKey" then
    return { r with largeBlobKeyRequested := ← readFlag r.largeBlobKeyRequested }
  else if key = text "credBlob" then
    match ← readByteString 32 with
    | some b => return { r with credBlobRaw := b, credBlobRequested := true }
    | none => skipping { r with credBlobRaw := [], credBlobRequested := true }
  else skipping r

def readCreateField (defaultCryptoAlg : Int) (key : Nat) (r : MakeCredentialRequest) :
    Parse MakeCredentialRequest := do
  match key with
  | 0x01 =>
    match ← readByteString 32 with
    | some b => return { r with clientDataHash := b }
    | none => return r
  | 0x02 =>
    match ← readTyped 5 with
    | some n =>
      textLoop 32 (fun sub r => do
        if sub = text "id" then
          match ← readTextString 128 with
          | some t => return { r with targetRpId := t }
          | none => return r
        else skipping r) (return) n r
    | none => return r
  | 0x03 =>
    match ← readTyped 5 with
    | some n =>
      textLoop 32 (fun sub r => do
        if sub = text "id" then
          match ← readByteString 64 with
          | some b => return { r with userIdRaw := b }
          | none => return r
        else if sub = text "name" then
          match ← readTextString 128 with
          | some t => return { r with userName := t }
          | none => return r
        else skipping r) (return) n r
    | none => return r
  | 0x04 =>
    match ← readTyped 4 with
    | some n =>
      let c ← readAlgorithms defaultCryptoAlg n { selectedAlgId := r.selectedAlgId }
      return { r with selectedAlgId := c.selectedAlgId }
    | none => skipping r
  | 0x05 =>
    match ← readTyped 4 with
    | some n =>
      let ids ← loop (fun ids => do
        match ← readTyped 5 with
        | some m => readDescriptor maxExcludeCredentials m ids
        | none => skipping ids) n r.excludeCredentialIds
      return { r with excludeCredentialIds := ids }
    | none => skipping r
  | 0x06 =>
    match ← readTyped 5 with
    | some n => textLoop 32 readCreateExtension skip n r
    | none => skipping r
  | 0x07 =>
    match ← readTyped 5 with
    | some n =>
      textLoop 32 (fun opt r => do
        if opt = text "rk" then return { r with optionRK := ← readFlag r.optionRK }
        else skipping r) skip n r
    | none => skipping r
  | _ => skipping r

def parseMakeCredential (defaultCryptoAlg : Int) (body : Bytes) : MakeCredentialRequest :=
  let r : MakeCredentialRequest := { selectedAlgId := defaultCryptoAlg }
  let parse : Parse MakeCredentialRequest := do
    match ← readTyped 5 with
    | some n => keyedLoop (readCreateField defaultCryptoAlg) n r
    | none => return r
  (parse body).1

/-! GetAssertion, 0x02. -/

structure GetAssertionRequest where
  targetRpId : Str := []
  clientDataHash : Bytes := []
  allowCredentialIds : List Bytes := []
  extensionRequested : Bool := false
  hmacSalt1 : Bytes := []
  hmacSalt2 : Bytes := []
  largeBlobKeyRequested : Bool := false
  credBlobRequested : Bool := false
  deriving DecidableEq, Repr

def maxAllowCredentials : Nat := 32

/-- `readTypeAndValue` with its result dropped, after the major type was peeked
at: the count it should have set is `stray` when it fails. -/
def readCount (stray : Nat) : Parse Nat := do
  match ← readTypeAndValue with
  | some (_, v) => return v
  | none => return stray

def readSalts (key : Nat) (r : GetAssertionRequest) : Parse GetAssertionRequest := do
  match key with
  | 1 =>
    match ← readByteString 32 with
    | some b => return { r with hmacSalt1 := b }
    | none => return r
  | 2 =>
    match ← readByteString 32 with
    | some b => return { r with hmacSalt2 := b }
    | none => return r
  | _ => skipping r

def readAssertExtension (stray : Nat) (key : Str) (r : GetAssertionRequest) :
    Parse GetAssertionRequest := do
  if key = text "hmac-secret" ∧ (← peekMajorType) = 5 then
    let n ← readCount stray
    keyedLoop readSalts n { r with extensionRequested := true }
  else if key = text "largeBlobKey" then
    return { r with largeBlobKeyRequested := ← readFlag r.largeBlobKeyRequested }
  else if key = text "credBlob" then
    return { r with credBlobRequested := ← readFlag r.credBlobRequested }
  else skipping r

/-- The options are parsed and then overruled: both become true whatever they say. -/
def readAssertField (stray : Nat) (key : Nat) (r : GetAssertionRequest) :
    Parse GetAssertionRequest := do
  match key with
  | 0x01 =>
    match ← readTextString 128 with
    | some t => return { r with targetRpId := t }
    | none => return r
  | 0x02 =>
    match ← readByteString 32 with
    | some b => return { r with clientDataHash := b }
    | none => return r
  | 0x03 =>
    match ← readTyped 4 with
    | some n =>
      let ids ← loop (fun ids => do
        match ← readTyped 5 with
        | some m => readDescriptor maxAllowCredentials m ids
        | none => return ids) n r.allowCredentialIds
      return { r with allowCredentialIds := ids }
    | none => return r
  | 0x04 =>
    if (← peekMajorType) = 5 then
      let n ← readCount stray
      textLoop 32 (readAssertExtension stray) skip n r
    else skipping r
  | 0x05 =>
    match ← readTyped 5 with
    | some n =>
      textLoop 32 (fun opt r => do
        if opt = text "up" ∨ opt = text "uv" then
          let _ ← readFlag true
          return r
        else skipping r) skip n r
    | none => skipping r
  | _ => skipping r

def parseGetAssertion (stray : Nat) : Bytes → Option GetAssertionRequest :=
  parseMap (readAssertField stray) {}

/-! AuthenticatorClientPIN, 0x06. -/

structure ClientPinRequest where
  subCommand : Nat := 0
  keyAgreement : Option Bytes := none
  pinAuth : Bytes := []
  newPinEnc : Bytes := []
  pinHashEnc : Bytes := []
  permissions : Nat := 0
  deriving DecidableEq, Repr

/-- The rounds of parseCoseKeyPubXY: a key that cannot be read ends them with
nothing, a coordinate of another length than 32 costs the value after it. -/
def coseKeyRounds : Nat → Option Bytes → Option Bytes → Parse (Option Bytes)
  | 0, x, y => return do return (← x) ++ (← y)
  | n + 1, x, y => do
    match ← readTypeAndValue with
    | none => return none
    | some (1, 1) =>
      match ← readByteString 32 with
      | some b => if b.length = 32 then coseKeyRounds n (some b) y else do skip; coseKeyRounds n x y
      | none => skip; coseKeyRounds n x y
    | some (1, 2) =>
      match ← readByteString 32 with
      | some b => if b.length = 32 then coseKeyRounds n x (some b) else do skip; coseKeyRounds n x y
      | none => skip; coseKeyRounds n x y
    | some _ => skip; coseKeyRounds n x y

def parseCoseKeyPubXY : Parse (Option Bytes) := do
  match ← readTyped 5 with
  | some n => coseKeyRounds n none none
  | none => return none

/-- A head of any major type; nothing read costs the value after it. -/
def readAny (old : Nat) : Parse Nat := do
  match ← readTypeAndValue with
  | some (_, v) => return v
  | none => skipping old

def readBytesOr (maxLen : Nat) (old : Bytes) : Parse Bytes := do
  match ← readByteString maxLen with
  | some b => return b
  | none => skipping old

/-- The protocol version and the rpId are read and never used. -/
def readPinField (key : Nat) (r : ClientPinRequest) : Parse ClientPinRequest := do
  match key with
  | 0x01 =>
    let _ ← readAny 0
    return r
  | 0x02 => return { r with subCommand := ← readAny r.subCommand }
  | 0x03 => return { r with keyAgreement := ← parseCoseKeyPubXY }
  | 0x04 => return { r with pinAuth := ← readBytesOr 32 r.pinAuth }
  | 0x05 => return { r with newPinEnc := ← readBytesOr 64 r.newPinEnc }
  | 0x06 => return { r with pinHashEnc := ← readBytesOr 64 r.pinHashEnc }
  | 0x09 => return { r with permissions := ← readAny r.permissions }
  | 0x0A =>
    match ← readTextString 256 with
    | some _ => return r
    | none => skipping r
  | _ => skipping r

def parseClientPin : Bytes → Option ClientPinRequest := parseMap readPinField {}

/-! AuthenticatorLargeBlobs, 0x0C. -/

structure LargeBlobsRequest where
  get : Option Nat := none
  set : Option Bytes := none
  fragmentOffset : Nat := 0
  length : Option Nat := none
  deriving DecidableEq, Repr

/-- `MAX_FRAGMENT_LEN`. -/
def maxFragmentLen : Nat := 1200

def readBlobField (key : Nat) (r : LargeBlobsRequest) : Parse LargeBlobsRequest := do
  match key with
  | 0x01 =>
    match ← readTyped 0 with
    | some v => return { r with get := some v }
    | none => skipping r
  | 0x02 =>
    match ← readByteString maxFragmentLen with
    | some b => return { r with set := some b }
    | none => skipping r
  | 0x03 =>
    match ← readTyped 0 with
    | some v => return { r with fragmentOffset := v }
    | none => skipping r
  | 0x04 =>
    match ← readTyped 0 with
    | some v => return { r with length := some v }
    | none => skipping r
  | _ => skipping r

def parseLargeBlobs : Bytes → Option LargeBlobsRequest := parseMap readBlobField {}

/-! AuthenticatorCredentialManagement, 0x0A and 0x41. -/

structure CredentialManagementRequest where
  subCommand : Nat := 0
  targetRpIdHash : Bytes := zeros 32
  targetCredId : Bytes := []
  deriving DecidableEq, Repr

/-- Reading into a buffer that keeps what lies behind the new bytes. -/
def overlay (buffer b : Bytes) : Bytes := b ++ buffer.drop b.length

def readManagementParam (key : Nat) (r : CredentialManagementRequest) :
    Parse CredentialManagementRequest := do
  match key with
  | 0x01 =>
    match ← readByteString 32 with
    | some b => return { r with targetRpIdHash := overlay r.targetRpIdHash b }
    | none => return r
  | 0x02 =>
    match ← readTyped 5 with
    | some n =>
      textLoop 16 (fun sub r => do
        if sub = text "id" then
          match ← readByteString 64 with
          | some b => return { r with targetCredId := b }
          | none => return r
        else skipping r) skip n r
    | none => skipping r
  | _ => skipping r

/-- The protocol version (0x03) and pinUvAuthParam (0x04) are read and dropped. -/
def readManagementField (key : Nat) (r : CredentialManagementRequest) :
    Parse CredentialManagementRequest := do
  match key with
  | 0x01 =>
    match ← readTypeAndValue with
    | some (_, v) => return { r with subCommand := v }
    | none => return r
  | 0x02 =>
    match ← readTyped 5 with
    | some n => keyedLoop readManagementParam n r
    | none => skipping r
  | 0x03 =>
    let _ ← readTypeAndValue
    return r
  | 0x04 =>
    let _ ← readByteString 64
    return r
  | _ => skipping r

def parseCredentialManagement : Bytes → Option CredentialManagementRequest :=
  parseMap readManagementField {}

/-! AuthenticatorConfig, 0x0D. -/

structure ConfigRequest where
  subCommand : Nat := 0
  minPinLenParam : Nat := 0
  deriving DecidableEq, Repr

def readConfigField (key : Nat) (r : ConfigRequest) : Parse ConfigRequest := do
  match key with
  | 0x01 =>
    match ← readTypeAndValue with
    | some (_, v) => return { r with subCommand := v }
    | none => return r
  | 0x02 =>
    match ← readTyped 5 with
    | some n =>
      keyedLoop (fun param r => do
        if param = 0x02 then
          match ← readTypeAndValue with
          | some (_, v) => return { r with minPinLenParam := v }
          | none => return r
        else skipping r) n r
    | none => skipping r
  | _ => skipping r

def parseConfig : Bytes → Option ConfigRequest := parseMap readConfigField {}

/-! AuthenticatorBioEnrollment, 0x09 and 0x40. -/

structure BioEnrollmentRequest where
  subCommand : Option Nat := none
  templateId : Option Bytes := none
  friendlyName : Option Str := none
  pinUvAuthParam : Bytes := []
  getModality : Bool := false
  deriving DecidableEq, Repr

def readBioParam (key : Nat) (r : BioEnrollmentRequest) : Parse BioEnrollmentRequest := do
  match key with
  | 0x01 =>
    match ← readByteString 16 with
    | some b => return { r with templateId := some b }
    | none => skipping r
  | 0x02 =>
    match ← readTextString 64 with
    | some t => return { r with friendlyName := some t }
    | none => skipping r
  | _ => skipping r

def readBioField (key : Nat) (r : BioEnrollmentRequest) : Parse BioEnrollmentRequest := do
  match key with
  | 0x02 =>
    match ← readTypeAndValue with
    | some (_, v) => return { r with subCommand := some v }
    | none => skipping r
  | 0x03 =>
    match ← readTyped 5 with
    | some n => keyedLoop readBioParam n r
    | none => skipping r
  | 0x05 => return { r with pinUvAuthParam := ← readBytesOr 32 r.pinUvAuthParam }
  | 0x06 => return { r with getModality := ← readFlag r.getModality }
  | 0x01 | 0x04 =>
    let _ ← readAny 0
    return r
  | _ => skipping r

def parseBioEnrollment : Bytes → Option BioEnrollmentRequest := parseMap readBioField {}

end GoiKey
