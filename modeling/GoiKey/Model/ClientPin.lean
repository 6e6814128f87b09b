import GoiKey.Model.Requests
import GoiKey.Model.Storage

/-! AuthenticatorClientPIN (0x06). -/

namespace GoiKey

variable (P : Platform) (env : Env)

structure ClientPinResult where
  reply : CborReply
  acts : List Act := []
  pins : PinFiles
  session : PinSession

/-- The PIN before the first zero of the decrypted block. -/
def decryptedPin (padded : Bytes) : Str := (padded.take 64).takeWhile (fun c => c != 0)

/-- `!sessionKeyValid || keyAgreementLen != 64 || … || !fidoEcdhSharedSecret(…)`. -/
def sharedSecret (session : PinSession) (req : ClientPinRequest) : Option Bytes :=
  if !session.keyValid then none
  else req.keyAgreement.bind (fidoEcdhSharedSecret P session.privateKey)

/-- The first 16 bytes of an HMAC under the shared secret. -/
def pinAuthOk (secret msg pinAuth : Bytes) : Bool :=
  (P.hmacSha256 secret msg).take 16 == pinAuth.take 16

def getRetries (p : PinFiles) : CborReply :=
  .items [.map 1, .uint 3, .uint ((10 - (getFailedPinAttempts env p : Int)) % 2 ^ 64).toNat]

/-- A key pair that could not be made leaves the old private key and publishes
whatever the buffer holds. -/
def getKeyAgreement (session : PinSession) : CborReply × PinSession :=
  let (priv, pub) := (generateKeypairP256 P (env.random .session)).getD
    (session.privateKey, env.draw .stray 65)
  (.items [.map 1, .uint 1, .map 5, .uint 1, .uint 2, .uint 3, .nint (-7), .nint (-1), .uint 1,
      .nint (-2), .bytes (slice 1 32 pub), .nint (-3), .bytes (slice 33 32 pub)],
    ⟨priv, true⟩)

/-- The PIN of newPinEnc written, once everything before it agreed. -/
def storeNewPin (secret : Bytes) (p : PinFiles) (req : ClientPinRequest) : CborReply × PinFiles :=
  match aesCbcZeroIvDecrypt P secret req.newPinEnc with
  | none => (.status 0x30, p)
  | some padded =>
    match createPin P env p (decryptedPin padded) with
    | none => (.status 0x37, p)
    | some p => (.items [.map 0], p)

def setPin (p : PinFiles) (session : PinSession) (req : ClientPinRequest) :
    CborReply × List Act × PinFiles :=
  if isPinSet p then (.status 0x30, [], p)
  else if req.newPinEnc.length ≠ 64 ∨ req.pinAuth.length < 16 then (.status 0x30, [], p)
  else match sharedSecret P session req with
    | none => (.status 0x30, [], p)
    | some secret =>
      if !pinAuthOk P secret req.newPinEnc req.pinAuth then (.status 0x30, [], p)
      else
        let (reply, p) := storeNewPin P env secret p req
        (reply, [], p)

/-- The decrypted pinHashEnc is the hash of the stored PIN. -/
def pinHashEncOk (secret : Bytes) (p : PinFiles) (req : ClientPinRequest) : Bool :=
  (aesCbcZeroIvDecrypt P secret req.pinHashEnc).any (verifyFidoPinHashInternal env p)

def changePin (p : PinFiles) (session : PinSession) (req : ClientPinRequest) :
    CborReply × List Act × PinFiles :=
  if !isPinSet p then (.status 0x35, [], p)
  else if 10 ≤ getFailedPinAttempts env p then (.status 0x32, [], p)
  else if req.newPinEnc.length ≠ 64 ∨ req.pinHashEnc.length ≠ 16 ∨ req.pinAuth.length < 16 then
    (.status 0x30, [], p)
  else match sharedSecret P session req with
    | none => (.status 0x30, [], p)
    | some secret =>
      if !pinAuthOk P secret (req.newPinEnc ++ req.pinHashEnc) req.pinAuth then
        (.status 0x30, [], p)
      else if !pinHashEncOk P env secret p req then
        (.status 0x31, [.pinGuess false], incrementFailedPinAttempts env p)
      else
        let (reply, p) := storeNewPin P env secret (resetFailedPinAttempts p) req
        (reply, [.pinGuess true], p)

/-- `mockToken`: random bytes that nothing is compared with later. -/
def issueToken : CborReply × List Act :=
  (.items [.map 1, .uint 2, .bytes (env.draw .token 32)], [.tokenIssued (env.draw .token 32)])

def getPinToken (p : PinFiles) : CborReply × List Act :=
  if !isPinSet p then (.status 0x35, []) else issueToken env

def getPinUvAuthTokenUsingPinWithPermissions (p : PinFiles) (req : ClientPinRequest) :
    CborReply × List Act :=
  if !isPinSet p then (.status 0x35, [])
  else if 10 ≤ getFailedPinAttempts env p then (.status 0x32, [])
  else if req.permissions = 0 then (.status 0x14, [])
  else issueToken env

def clientPinSubCommand (p : PinFiles) (session : PinSession) (req : ClientPinRequest) :
    ClientPinResult :=
  match req.subCommand with
  | 0x01 => ⟨getRetries env p, [], p, session⟩
  | 0x02 =>
    let (reply, session) := getKeyAgreement P env session
    ⟨reply, [], p, session⟩
  | 0x03 =>
    let (reply, acts, p) := setPin P env p session req
    ⟨reply, acts, p, session⟩
  | 0x04 =>
    let (reply, acts, p) := changePin P env p session req
    ⟨reply, acts, p, session⟩
  | 0x05 =>
    let (reply, acts) := getPinToken env p
    ⟨reply, acts, p, session⟩
  | 0x09 =>
    let (reply, acts) := getPinUvAuthTokenUsingPinWithPermissions env p req
    ⟨reply, acts, p, session⟩
  | _ => ⟨.status 0x2B, [], p, session⟩

def clientPin (p : PinFiles) (session : PinSession) (body : Bytes) : ClientPinResult :=
  match parseClientPin body with
  | none => ⟨.status 0x11, [], p, session⟩
  | some req => clientPinSubCommand P env p session req

end GoiKey
