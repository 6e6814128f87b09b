import GoiKey.Model.Environment
import GoiKey.Model.Cbor

/-!
The state of the device between two commands, grouped by who writes it, and
what a command does besides changing it.
-/

namespace GoiKey

/-- /pin.txt, /failures.txt (0 without the file), /fido_min_pin.txt and
/fido_force_pin.txt. -/
structure PinFiles where
  pin : Option Str := none
  failures : Nat := 0
  minPin : Option UInt8 := none
  forcePin : Option Bool := none
  deriving DecidableEq, Repr

/-- /passwords.json and /totp.json: what a session can read back is under the
key of that session. -/
structure Vault where
  passwords : List (Str × List (Str × Str)) := []
  totp : List (Str × Str) := []
  deriving DecidableEq, Repr

/-- One record of /passkeys.bin. -/
structure PasskeyRecord where
  status : UInt8
  algId : Int
  cid : Str
  rp : Str
  payload : Str
  deriving DecidableEq, Repr

/-- The resident credentials and the secret that wraps the others. -/
structure Keystore where
  passkeys : List PasskeyRecord := []
  slSecret : Option Bytes := none
  deriving DecidableEq, Repr

/-- /bio_templates.json and the slots the sensor holds a model in. -/
structure BioStore where
  templates : List (UInt8 × Str) := []
  sensor : List UInt8 := []
  deriving DecidableEq, Repr

/-- /fido_uv_fail.txt, the last score and the clock at the last cached success. -/
structure UvState where
  failed : Nat := 0
  lastConfidenceScore : Nat := 0
  lastFingerprintSuccessTime : UInt32 := 0
  deriving DecidableEq, Repr

structure BlobWrite where
  expectedTotalLen : Nat
  received : Bytes
  deriving DecidableEq, Repr

/-- /largeblob.bin and the array being received. -/
structure LargeBlob where
  stored : Option Bytes := none
  writing : Option BlobWrite := none
  deriving DecidableEq, Repr

/-- The `nextAssertion` globals. -/
structure NextAssertion where
  creds : List Str := []
  idx : Nat := 0
  clientHash : Bytes := zeros 32
  rpId : Str := []
  optionUV : Bool := false
  extReq : Bool := false
  salt1 : Bytes := []
  salt2 : Bytes := []
  largeBlobReq : Bool := false
  credBlobReq : Bool := false
  deriving DecidableEq, Repr

structure Enumeration where
  rpList : List Str := []
  rpIdx : Nat := 0
  credList : List Str := []
  credIdx : Nat := 0
  deriving DecidableEq, Repr

/-- `sessionPrivateKey` and `sessionKeyValid`. -/
structure PinSession where
  privateKey : Bytes := zeros 32
  keyValid : Bool := false
  deriving DecidableEq, Repr

structure BioEnroll where
  active : Bool := false
  templateId : UInt8 := 0
  samplesRequired : UInt8 := 2
  samplesRemaining : UInt8 := 0
  deriving DecidableEq, Repr

/-- The states of `SystemState` that the firmware enters. -/
inductive CommandState where
  | ready | awaitingFingerprint | awaitingFingerprintUpdate
  deriving DecidableEq, Repr

/-- The session of the serial front end; `storageKey` is none while no key is
loaded. -/
structure SerialSession where
  authenticated : Bool := false
  storageKey : Option Bytes := none
  commandState : CommandState := .ready
  pendingWebsite : Str := []
  pendingLogin : Str := []
  pendingPasswordToTransmit : Str := []
  pendingPasswordToSave : Str := []
  deriving DecidableEq, Repr

structure Device where
  pins : PinFiles := {}
  vault : Vault := {}
  keys : Keystore := {}
  bio : BioStore := {}
  uv : UvState := {}
  blob : LargeBlob := {}
  cryptoAlg : Option Int := none
  signCount : UInt32 := 0xFFFFFFFF
  next : NextAssertion := {}
  enumeration : Enumeration := {}
  session : PinSession := {}
  enroll : BioEnroll := {}
  serial : SerialSession := {}
  defaultCryptoAlg : Int := -7
  deriving DecidableEq, Repr

/-- The party an operation works for: an rpId, the application parameter of U2F
or the hash credentialManagement names it by. -/
inductive RelyingParty where
  | rpId (s : Str)
  | appId (hash : Bytes)
  | rpIdHash (hash : Bytes)
  deriving DecidableEq, Repr

/-- What a command does that the final state does not show, in order. -/
inductive Act where
  /-- A search of the sensor that scored above the threshold. -/
  | matched (confidence : Nat) (time : UInt32)
  /-- A finger accepted with no template on record and no search made. -/
  | touched (time : UInt32)
  /-- A fingerprint that released or replaced a password of the serial session. -/
  | approved (confidence : Nat)
  /-- The cached verification stood in for a look at the sensor. -/
  | usedCache (time : UInt32)
  /-- GetAssertion wrote the list GetNextAssertion continues. -/
  | listSetUp (count : Nat)
  | created (cid : Str) (rp : RelyingParty) (algId : Int) (publicKey : Bytes)
  /-- A stateless credential id wrapped under this secret. -/
  | issued (secret : Bytes) (credId : Bytes)
  | listed (cid : Str) (rp : RelyingParty)
  | deleted (cid : Str) (rp : RelyingParty)
  /-- A signature made with the private key of this credential. -/
  | signed (cid : Str) (rp : RelyingParty) (algId : Int) (msg sig : Bytes)
  /-- Authenticator data sent out, by its flags. -/
  | authData (flags : UInt8)
  /-- A PIN compared with the stored one. -/
  | pinGuess (correct : Bool)
  | tokenIssued (token : Bytes)
  /-- A pinUvAuthParam compared with the token it should be made from. -/
  | pinUvAuthParamChecked
  | wiped
  deriving DecidableEq, Repr

/-- A CTAP response: a lone status, or status 0 and encoded items. -/
inductive CborReply where
  | status (code : UInt8)
  | items (is : List Item)
  deriving DecidableEq, Repr

/-- The bytes of the response, the encoder working on 8191 bytes. -/
def CborReply.bytes : CborReply → Bytes
  | .status code => [code]
  | .items is => 0x00 :: encode 8191 is

/-- `CommsManager::sendEvent` and `sendError`: module, event or code, and the
members of the data or the message. -/
inductive Message where
  | event (module event : String) (data : List (String × Str))
  | error (module code : String) (message : Str)
  deriving DecidableEq, Repr

inductive Reply where
  | none
  | cbor (r : CborReply)
  | u2f (b : Bytes)
  | serial (messages : List Message)
  deriving DecidableEq, Repr

structure Output where
  reply : Reply
  acts : List Act := []
  deriving DecidableEq, Repr

end GoiKey
