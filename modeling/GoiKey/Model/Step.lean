import GoiKey.Lib.Trace
import GoiKey.Model.ClientPin
import GoiKey.Model.Management
import GoiKey.Model.Serial
import GoiKey.Model.U2f

/-!
processCborCommand and one step of the device. Commands are taken one after the
other: the tasks of the two front ends are interleaved at command boundaries.
-/

namespace GoiKey

variable (P : Platform) (env : Env)

def algorithmItems (algId : Int) : List Item :=
  [.map 2, .text (text "alg"), .nint algId, .text (text "type"), .text (text "public-key")]

/-- authenticatorGetInfo, 0x04. -/
def getInfo (d : Device) : CborReply :=
  let hasBioEnrollments := 0 < getBioTemplateCount env d.bio
  let option (name : String) (b : Bool) : List Item := [.text (text name), .bool b]
  .items ([.map 12, .uint 1, .array 3, .text (text "FIDO_2_0"), .text (text "FIDO_2_1_PRE"),
      .text (text "FIDO_2_1"), .uint 2, .array 4, .text (text "hmac-secret"),
      .text (text "credProtect"), .text (text "largeBlobKey"), .text (text "credBlob"), .uint 3,
      .bytes (dynamicAaguid P), .uint 4, .map 11]
    ++ option "rk" true ++ option "up" true ++ option "uv" hasBioEnrollments
    ++ option "alwaysUv" true ++ option "credMgmt" true ++ option "bioEnroll" hasBioEnrollments
    ++ option "clientPin" (isPinSet d.pins) ++ option "largeBlobs" true
    ++ option "pinUvAuthToken" true ++ option "credentialMgmtPreview" true
    ++ option "userVerificationMgmtPreview" hasBioEnrollments
    ++ [.uint 5, .uint 8192, .uint 6, .array 1, .uint 1, .uint 7, .uint 8, .uint 8,
      .uint maxCredentialIdLen, .uint 9, .array 1, .text (text "usb"), .uint 10, .array 6]
    ++ [-7, -8, -257, -48, -49, -50].flatMap algorithmItems
    ++ [.uint 0x0B, .uint maxLargeBlobArray, .uint 0x0F, .uint 32])

/-- authenticatorReset, 0x07. -/
def authenticatorReset (d : Device) : Output × Device :=
  match waitForFinger env d.bio env.polls d.uv with
  | (.cancelled, uv) => (⟨.cbor (.status 0x2D), []⟩, { d with uv := uv })
  | (.timedOut, uv) => (⟨.cbor (.status 0x30), []⟩, { d with uv := uv })
  | (.verified act _, uv) =>
    let d := resetFido2System env { d with uv := uv }
    (⟨.cbor (.status 0x00), [act, .wiped]⟩, { d with blob := { d.blob with writing := none } })

/-! The parts of the state each command may write. -/

def runMakeCredential (d : Device) (body : Bytes) : Output × Device :=
  let r := makeCredential P env d (parseMakeCredential d.defaultCryptoAlg body)
  (⟨.cbor r.reply, r.acts⟩, { d with uv := r.uv, keys := r.keys })

def AssertionResult.run (d : Device) (r : AssertionResult) : Output × Device :=
  (⟨.cbor r.reply, r.acts⟩,
    { d with uv := r.uv, keys := r.keys, next := r.next, signCount := r.signCount })

def runGetAssertion (d : Device) (body : Bytes) : Output × Device :=
  match parseGetAssertion env.strayCount body with
  | none => (⟨.cbor (.status 0x12), []⟩, d)
  | some req => (getAssertion P env d req).run d

def runClientPin (d : Device) (body : Bytes) : Output × Device :=
  let r := clientPin P env d.pins d.session body
  (⟨.cbor r.reply, r.acts⟩, { d with pins := r.pins, session := r.session })

def runLargeBlobs (d : Device) (body : Bytes) : Output × Device :=
  let r := largeBlobs P env d body
  (⟨.cbor r.reply, r.acts⟩, { d with uv := r.uv, blob := r.blob })

def runCredentialManagement (d : Device) (body : Bytes) : Output × Device :=
  let r := credentialManagement P env d body
  (⟨.cbor r.reply, r.acts⟩, { d with uv := r.uv, keys := r.keys, enumeration := r.enumeration })

def runConfig (d : Device) (body : Bytes) : Output × Device :=
  let r := authenticatorConfig env d.pins body
  (⟨.cbor r.1, []⟩, { d with pins := r.2 })

def runBioEnrollment (d : Device) (body : Bytes) : Output × Device :=
  let r := bioEnrollment env d body
  (⟨.cbor r.reply, r.acts⟩, { d with uv := r.uv, bio := r.bio, enroll := r.enroll })

def cborCommand (d : Device) (code : UInt8) (body : Bytes) : Output × Device :=
  match code with
  | 0x01 => runMakeCredential P env d body
  | 0x02 => runGetAssertion P env d body
  | 0x04 => (⟨.cbor (getInfo P env d), []⟩, d)
  | 0x06 => runClientPin P env d body
  | 0x07 => authenticatorReset env d
  | 0x08 => (getNextAssertion P env d).run d
  | 0x09 | 0x40 => runBioEnrollment env d body
  | 0x0A | 0x41 => runCredentialManagement P env d body
  | 0x0B => (⟨.cbor (.status 0x00), []⟩, d)
  | 0x0C => runLargeBlobs P env d body
  | 0x0D => runConfig env d body
  | _ => (⟨.cbor (.status 0x11), []⟩, d)

def processCborCommand (d : Device) (data : Bytes) : Output × Device :=
  match data with
  | [] => (⟨.none, []⟩, d)
  | code :: body =>
    if env.allocates .response then cborCommand P env d code body
    else (⟨.cbor (.status 0x01), []⟩, d)

def runU2f (d : Device) (data : Bytes) : Output × Device :=
  let r := processU2fCommand P env d data
  (⟨.u2f r.reply, r.acts⟩, { d with uv := r.uv, keys := r.keys, signCount := r.signCount })

def SerialResult.run (r : SerialResult) : Output × Device := (⟨.serial r.messages, r.acts⟩, r.dev)

/-- What reaches the device: a CTAP2 or U2F message, a line of the serial
session, a turn of the fingerprint task, a power cycle. -/
inductive Event where
  | cbor (data : Bytes)
  | u2f (data : Bytes)
  | serial (command : SerialCommand)
  | fingerprintTask
  | powerCycle
  deriving DecidableEq, Repr

/-- The command byte of a CTAP2 message. -/
def Event.code : Event → Option UInt8
  | .cbor (code :: _) => some code
  | _ => none

structure Input where
  event : Event
  env : Env

def step (d : Device) (i : Input) : Output × Device :=
  match i.event with
  | .cbor data => processCborCommand P i.env d data
  | .u2f data => runU2f P i.env d data
  | .serial command => (serialCommand P i.env d command).run
  | .fingerprintTask => (updateFingerprintAsync P i.env d).run
  | .powerCycle => (⟨.none, []⟩, reboot i.env d)

abbrev Entry := Trace.Entry Device Input Output

abbrev History := List Entry

/-- The device as it leaves the factory. -/
def initial : Device := {}

/-- The history of a run from there, the newest step first. -/
def run (inputs : List Input) : History := Trace.history (step P) initial inputs

end GoiKey
