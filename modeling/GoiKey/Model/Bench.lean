import GoiKey.Model.Step

/-!
A platform and surroundings to run the model on. The primitives keep their
lengths and undo each other as the linked ones do, and keep no secret.
-/

namespace GoiKey.Bench

/-- 32 bytes that depend on every byte given. -/
def hash (b : Bytes) : Bytes :=
  bigEndian 32 (b.foldl (fun h c =>
    (h * 0x9E3779B97F4A7C15F39CC0605CEDC8341082276BF3A27251F86C6A11D0C18E95 + c.toNat + 1)
      % (2 ^ 256 - 189)) b.length)

def tag (key iv plain : Bytes) : Bytes := (hash (key ++ iv ++ plain)).take 16

/-- A key of 32 bytes from the randomness it is made with. -/
def scalar (seed : Bytes) : Bytes := padTo 32 seed

def point (priv : Bytes) : Bytes := 0x04 :: (priv ++ hash priv)

def platform : Platform where
  sha256 := hash
  hmacSha256 key data := hash (key ++ 0x36 :: data)
  pbkdf2 pin salt rounds := hash (pin ++ salt ++ bigEndian 4 rounds)
  gcmEncrypt key iv plain := some (plain, tag key iv plain)
  gcmDecrypt key iv cipher t := if t = tag key iv cipher then some cipher else none
  cbcEncrypt _ _ b := b
  cbcDecrypt _ _ b := b
  ecdhX priv peer := some (List.zipWith (· ^^^ ·) priv (peer.take 32))
  ecdsaGenkey seed := some (scalar seed, point (scalar seed))
  ecdsaSign priv digest _ := some (fromBigEndian (priv.take 2), fromBigEndian (digest.take 2))
  fpgaP256Genkey _ := none
  fpgaP256Sign _ _ _ := none
  ed25519Public priv := hash (0xED :: priv)
  ed25519Sign priv _ msg := hash (0xED :: priv) ++ hash msg
  fpgaEd25519Genkey _ := none
  fpgaEd25519Sign _ _ := none
  rsaGenkey seed := some (padTo 1190 seed, padTo 256 seed)
  rsaSign der digest _ := some (padTo 224 der ++ digest)
  fpgaRsaGenkey _ := none
  fpgaRsaSign _ _ := none
  mldsaKeypair ps seed := some (padTo (mldsaSecretLen ps) seed, padTo (mldsaPublicLen ps) seed)
  mldsaSign _ sk msg _ := some (sk ++ msg)
  fpgaMldsaGenkey _ _ := none
  fpgaMldsaSign _ _ _ _ := none
  mac := [0x24, 0x6F, 0x28, 0x00, 0x00, 0x01]
  attestation := none

/-- What the signers above make under a public key: algorithm, key, message, signature. -/
def verifies (algId : Int) (pub msg sig : Bytes) : Bool :=
  if algId = -7 then
    sig == derEncodeSignature (fromBigEndian ((pub.drop 1).take 2)) (fromBigEndian ((hash msg).take 2))
  else if algId = -8 then sig == pub ++ hash msg
  else if algId = -257 then sig == pub.take 224 ++ hash msg
  else
    let ps := mldsaParameterSet algId
    sig.take (mldsaPublicLen ps) == pub && sig.drop (mldsaSecretLen ps) == msg

/-- A finger the sensor finds with this score. -/
def finger (confidence : Nat) : SensorRead := { image := .ok, confidence := confidence }

def noFinger : SensorRead := { image := .noFinger }

/-- Everything works, nobody touches the sensor, and all randomness is one byte
over and over. -/
def idleEnv (seed : UInt8) (now : UInt32) : Env where
  now := now
  polls := [{ sensor := noFinger, time := now }]
  sensor := noFinger
  sampleCancelled := false
  sample := .ok
  sampleTz := .ok
  secondTz := .ok
  createModel := .ok
  storeModel := .ok
  deleteModel := .ok
  emptyDatabase := .ok
  opens _ _ := true
  nvsOpen := true
  allocates _ := true
  random _ := List.replicate 32 seed
  hasAsym := false
  hasRsa := false
  hasPq := false
  strayCount := 0
  behindFrame := []

/-- The same with a finger on the sensor. -/
def touchedEnv (seed : UInt8) (now : UInt32) (confidence : Nat) : Env :=
  { idleEnv seed now with
    polls := [{ sensor := finger confidence, time := now }]
    sensor := finger confidence }

def cancelledEnv (seed : UInt8) (now : UInt32) : Env :=
  { idleEnv seed now with polls := [{ cancelled := true, sensor := noFinger, time := now }] }

/-! Requests. -/

def request (code : UInt8) (items : List Item) : Event := .cbor (code :: encode 8192 items)

def clientDataHash : Bytes := List.replicate 32 0xC1

/-- MakeCredential for a user id of one byte. -/
def create (rp : Str) (user : UInt8) (rk : Bool) (alg : Int) : Event :=
  request 0x01 [.map 5, .uint 1, .bytes clientDataHash, .uint 2, .map 1, .text (text "id"), .text rp,
    .uint 3, .map 1, .text (text "id"), .bytes [user], .uint 4, .array 1, .map 1,
    .text (text "alg"), .nint alg, .uint 7, .map 1, .text (text "rk"), .bool rk]

def assertion (rp : Str) (allow : List Bytes) : Event :=
  request 0x02 ([.map (if allow = [] then 2 else 3), .uint 1, .text rp, .uint 2,
      .bytes clientDataHash] ++
    (if allow = [] then [] else .uint 3 :: .array allow.length ::
      allow.flatMap fun id => [.map 1, .text (text "id"), .bytes id]))

def nextAssertion : Event := .cbor [0x08]

/-- U2F_AUTHENTICATE, which asks for a signature. -/
def authenticate (appId keyHandle : Bytes) : Event :=
  .u2f ([0x00, 0x02, 0x03, 0x00, 0x00] ++ bigEndian 2 (65 + keyHandle.length) ++ clientDataHash
    ++ appId ++ UInt8.ofNat keyHandle.length :: keyHandle)

/-- A pinUvAuthParam comes along; its bytes mean nothing. -/
def bioRequest (sub : Nat) (params : List Item) : Event :=
  request 0x09 ([.map 3, .uint 2, .uint sub, .uint 3] ++ params ++ [.uint 5, .bytes [0x00]])

def deleteRequest (id : Bytes) : Event :=
  request 0x0A [.map 2, .uint 1, .uint 0x06, .uint 2, .map 1, .uint 2, .map 1, .text (text "id"),
    .bytes id]

def site : Str := text "a.b"

/-- A PIN, and an enrollment of two samples. -/
def enrollment : List Input :=
  [⟨.serial (.createPin (text "1234")), idleEnv 1 60000⟩, ⟨bioRequest 0x01 [.map 0], idleEnv 1 60000⟩,
    ⟨bioRequest 0x02 [.map 1, .uint 1, .bytes [1]], idleEnv 1 60000⟩]

/-- A device with a PIN and one finger. -/
def enrolled : Device :=
  { pins := { pin := some (hashPin platform (text "1234")) }
    bio := { templates := [(1, text "f")], sensor := [1] } }

end GoiKey.Bench
