import GoiKey.Model.Text

/-!
What the firmware runs on: the primitives it links against and what happens
outside it while one command is processed.
-/

namespace GoiKey

structure Attestation where
  chain : Bytes
  privKey : Bytes

/-- The linked libraries, the accelerator and the constants of the board. Key
generators take their randomness as an argument; `none` is a failure. -/
structure Platform where
  sha256 : Bytes → Bytes
  /-- Key, data. -/
  hmacSha256 : Bytes → Bytes → Bytes
  /-- Password, salt, iterations. -/
  pbkdf2 : Bytes → Bytes → Nat → Bytes
  /-- Key, iv, plain text; ciphertext and tag. -/
  gcmEncrypt : Bytes → Bytes → Bytes → Option (Bytes × Bytes)
  /-- Key, iv, ciphertext, tag. -/
  gcmDecrypt : Bytes → Bytes → Bytes → Bytes → Option Bytes
  /-- Key, iv, whole blocks. -/
  cbcEncrypt : Bytes → Bytes → Bytes → Bytes
  cbcDecrypt : Bytes → Bytes → Bytes → Bytes
  /-- Scalar, peer point; the shared x coordinate. -/
  ecdhX : Bytes → Bytes → Option Bytes
  /-- `mbedtls_ecdsa_genkey`: scalar and uncompressed point. -/
  ecdsaGenkey : Bytes → Option (Bytes × Bytes)
  /-- `mbedtls_ecdsa_sign`: scalar, digest, randomness; r and s. -/
  ecdsaSign : Bytes → Bytes → Bytes → Option (Nat × Nat)
  /-- Wrapped key and point without its format byte. -/
  fpgaP256Genkey : Bytes → Option (Bytes × Bytes)
  fpgaP256Sign : Bytes → Bytes → Bytes → Option (Nat × Nat)
  ed25519Public : Bytes → Bytes
  /-- Scalar, public key, message. -/
  ed25519Sign : Bytes → Bytes → Bytes → Bytes
  fpgaEd25519Genkey : Bytes → Option (Bytes × Bytes)
  fpgaEd25519Sign : Bytes → Bytes → Option Bytes
  /-- `mbedtls_rsa_gen_key` and the DER of the key; the modulus. -/
  rsaGenkey : Bytes → Option (Bytes × Bytes)
  /-- DER key, digest, randomness. -/
  rsaSign : Bytes → Bytes → Bytes → Option Bytes
  fpgaRsaGenkey : Bytes → Option (Bytes × Bytes)
  fpgaRsaSign : Bytes → Bytes → Option Bytes
  /-- Parameter set, seed; secret key and public key. -/
  mldsaKeypair : Nat → Bytes → Option (Bytes × Bytes)
  mldsaSign : Nat → Bytes → Bytes → Bytes → Option Bytes
  fpgaMldsaGenkey : Nat → Bytes → Option (Bytes × Bytes)
  fpgaMldsaSign : Nat → Bytes → Bytes → Bytes → Option Bytes
  /-- The address in the efuses. -/
  mac : Bytes
  attestation : Option Attestation

inductive File where
  | pin | failures | passwords | passkeys | passkeysTmp | totp | cryptoAlg | uvFail | forcePin
  | minPin | largeblob | bioTemplates
  deriving DecidableEq, Repr

inductive Access where
  | read | write
  deriving DecidableEq, Repr

/-- What a buffer is allocated for. -/
inductive Block where
  | response | localResponse | publicKey | exponent | secretKey | authData | signature | signingKey
  | blobWrite | blobRead | plaintext | encrypted | cipher
  deriving DecidableEq, Repr

/-- What random bytes are drawn for; `stray` is memory that was never written. -/
inductive Draw where
  | credentialId | key | nonce | wrapIv | token | largeBlobKey | secret | signing | session
  | keyHandle | password | stray
  deriving DecidableEq, Repr

inductive SensorCode where
  | ok | noFinger | failed
  deriving DecidableEq, Repr

/-- The answers of the sensor while one verification looks at it: getImage, its
three repetitions, image2Tz, fingerSearch and the score of the match. -/
structure SensorRead where
  image : SensorCode
  retries : List SensorCode := []
  tz : SensorCode := .ok
  search : SensorCode := .ok
  confidence : Nat := 0
  deriving DecidableEq, Repr

/-- One round of a waiting loop, with the clock at its end. -/
structure Poll where
  cancelled : Bool := false
  sensor : SensorRead
  time : UInt32
  deriving DecidableEq, Repr

/-- The outside world while one command runs. Opening a file can fail whatever
the file holds; a file that opens for writing takes what is written. -/
structure Env where
  now : UInt32
  /-- The rounds a waiting loop gets before its deadline. -/
  polls : List Poll
  /-- A single look at the sensor where the source does not wait. -/
  sensor : SensorRead
  /-- The samples of an enrollment and what the sensor says to image2Tz,
  createModel, storeModel, deleteModel and emptyDatabase. -/
  sampleCancelled : Bool
  sample : SensorCode
  sampleTz : SensorCode
  secondTz : SensorCode
  createModel : SensorCode
  storeModel : SensorCode
  deleteModel : SensorCode
  emptyDatabase : SensorCode
  opens : File → Access → Bool
  nvsOpen : Bool
  allocates : Block → Bool
  random : Draw → Bytes
  hasAsym : Bool
  hasRsa : Bool
  hasPq : Bool
  /-- A loop counter that was never assigned. -/
  strayCount : Nat
  /-- What lies behind the last byte of a received frame. -/
  behindFrame : Bytes

/-- `esp_fill_random(buffer, n)` and its relatives. -/
def Env.draw (e : Env) (d : Draw) (n : Nat) : Bytes := padTo n (e.random d)

@[simp] theorem Env.draw_length (e : Env) (d : Draw) (n : Nat) : (e.draw d n).length = n :=
  padTo_length n (e.random d)

end GoiKey
