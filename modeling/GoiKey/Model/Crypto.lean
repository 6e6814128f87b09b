import GoiKey.Model.Text
import GoiKey.Lib.Fields
import GoiKey.Model.Environment

/-! The encodings of packing.c; the polynomials behind the seeds are packed already. -/

namespace GoiKey

/-- `pack_pk`: rho and the packed t1. -/
def packPk (rho t1 : Bytes) : Bytes := rho ++ t1

/-- `pack_sk`: rho, the key, tr and the packed s1, s2 and t0. -/
def packSk (rho tr key t0 s1 s2 : Bytes) : Bytes := rho ++ (key ++ (tr ++ (s1 ++ (s2 ++ t0))))

end GoiKey

/-! CryptoManager.cpp: storage payloads, credential keys and signatures. -/

namespace GoiKey

variable (P : Platform) (env : Env)

def hashSHA256 (s : Str) : Str := toHex (P.sha256 s)

/-- "" when there is no memory for the ciphertext or the encryption fails. -/
def encryptStoragePayload (plain : Str) (key : Bytes) : Str :=
  let iv := env.draw .nonce 12
  if !env.allocates .cipher then []
  else match P.gcmEncrypt key iv plain with
    | none => []
    | some (cipher, tag) => toHex iv ++ 0x3A :: (toHex cipher ++ 0x3A :: toHex tag)

/-- "" on every failure, an authentication failure included. -/
def decryptStoragePayload (payload : Str) (key : Bytes) : Str :=
  match Fields.cut 0x3A payload with
  | none => []
  | some (ivHex, rest) =>
    match Fields.cut 0x3A rest with
    | none => []
    | some (cipherHex, tagHex) =>
      if ivHex.length ≠ 24 ∨ tagHex.length ≠ 32 ∨ cipherHex.length / 2 = 0 then []
      else if !env.allocates .plaintext then []
      else match P.gcmDecrypt key (fromHex ivHex 12) (fromHex cipherHex (cipherHex.length / 2))
          (fromHex tagHex 16) with
        | none => []
        | some plain => cstr plain

/-- `getFidoHardwareKey`. -/
def fidoHardwareKey : Bytes := P.sha256 (P.mac ++ text "VAULT_APP_FIDO2_ISOLATION_SECRET")

def fidoEcdhSharedSecret (devicePriv peerXY : Bytes) : Option Bytes :=
  (P.ecdhX devicePriv peerXY).map P.sha256

def aesCbcZeroIvDecrypt (key input : Bytes) : Option Bytes :=
  if input.length = 0 ∨ input.length % 16 ≠ 0 then none
  else some (P.cbcDecrypt key (zeros 16) input)

/-! Signatures in DER: two integers in a sequence. -/

/-- The bytes of a number, the most significant first and none of them leading zeros. -/
def magnitude (v : Nat) : Bytes := ((Nat.digits 256 v).map UInt8.ofNat).reverse

/-- `mbedtls_asn1_write_mpi`: a zero takes one byte, a set top bit an extra one. -/
def derInteger (v : Nat) : Bytes :=
  let m := if v = 0 then [0] else magnitude v
  let m := if 0x80 ≤ (m.headD 0) then 0 :: m else m
  0x02 :: UInt8.ofNat m.length :: m

def derEncodeSignature (r s : Nat) : Bytes :=
  let body := derInteger r ++ derInteger s
  0x30 :: UInt8.ofNat body.length :: body

/-! Credential keys. -/

def fpgaBlobLen : Nat := 64
def fpgaRsaBlobLen : Nat := 672

/-- A private key as the records carry it, in hex, and the public key bytes the
registration publishes; for RSA the modulus followed by the exponent. -/
structure KeyPair where
  privateKeyHex : Str
  publicKey : Bytes
  deriving DecidableEq, Repr

/-- `generateKeypairP256`. -/
def generateKeypairP256 (seed : Bytes) : Option (Bytes × Bytes) := P.ecdsaGenkey seed

def generateCredentialKeyP256 : Option KeyPair :=
  let seed := env.random .key
  let software := (generateKeypairP256 P seed).map fun (priv, pub) => KeyPair.mk (toHex priv) pub
  if env.hasAsym then
    match P.fpgaP256Genkey seed with
    | some (blob, pub) => some ⟨toHex blob, 0x04 :: pub⟩
    | none => software
  else software

def generateEd25519KeyPair : Option KeyPair :=
  let seed := env.random .key
  let priv := padTo 32 seed
  let software : KeyPair := ⟨toHex priv, P.ed25519Public priv⟩
  if env.hasAsym then
    match P.fpgaEd25519Genkey seed with
    | some (blob, pub) => some ⟨toHex blob, pub⟩
    | none => some software
  else some software

def rsaExponent : Bytes := [0x01, 0x00, 0x01]

def generateRsa2048KeyPair : Option KeyPair :=
  let seed := env.random .key
  let software := (P.rsaGenkey seed).map fun (der, n) => KeyPair.mk (toHex der) (n ++ rsaExponent)
  if env.hasRsa then
    match P.fpgaRsaGenkey seed with
    | some (blob, n) => some ⟨toHex blob, n ++ rsaExponent⟩
    | none => software
  else software

/-- The parameter set behind an algorithm id, 0 for every other id. -/
def mldsaParameterSet (algId : Int) : Nat :=
  if algId = -48 then 44 else if algId = -49 then 65 else if algId = -50 then 87 else 0

def mldsaSecretLen (ps : Nat) : Nat :=
  if ps = 44 then 2560 else if ps = 65 then 4032 else if ps = 87 then 4896 else 0

/-- A wrapped key is 32 bytes longer than the secret key. -/
def fpgaMldsaBlobLen (ps : Nat) : Nat := if mldsaSecretLen ps = 0 then 0 else mldsaSecretLen ps + 32

def generateMlDsaKeyPairEx (algId : Int) : Option KeyPair :=
  let ps := mldsaParameterSet algId
  let seed := env.random .key
  let software := (P.mldsaKeypair ps seed).map fun (sk, pk) => KeyPair.mk (toHex sk) pk
  if ps = 0 then none
  else if env.hasPq then
    match P.fpgaMldsaGenkey ps seed with
    | some (blob, pk) => some ⟨toHex blob, pk⟩
    | none => software
  else software

/-! Signing. What the key bytes are is told from their length alone. -/

def signECDSA_P256 (priv digest : Bytes) : Option Bytes :=
  (P.ecdsaSign priv digest (env.random .signing)).map fun (r, s) => derEncodeSignature r s

def generateFido2Signature (privateKeyHex : Str) (hash : Bytes) : Option Bytes :=
  if privateKeyHex.length = 2 * fpgaBlobLen then
    if env.hasAsym then
      (P.fpgaP256Sign (fromHex privateKeyHex fpgaBlobLen) hash (env.random .signing)).map
        fun (r, s) => derEncodeSignature r s
    else none
  else if privateKeyHex.length ≠ 64 then none
  else signECDSA_P256 P env (fromHex privateKeyHex 32) hash

def generateAlgSignature (algId : Int) (privateKeyHex : Str) (msg : Bytes) : Option Bytes :=
  if !env.allocates .signature then none
  else if algId = -7 then generateFido2Signature P env privateKeyHex (P.sha256 msg)
  else if algId = -8 then
    if privateKeyHex.length = 2 * fpgaBlobLen then
      if env.hasAsym then P.fpgaEd25519Sign (fromHex privateKeyHex fpgaBlobLen) msg else none
    else
      let priv := fromHex privateKeyHex 32
      some (P.ed25519Sign priv (P.ed25519Public priv) msg)
  else if algId = -257 then
    if privateKeyHex.length = 2 * fpgaRsaBlobLen then
      if env.hasRsa then P.fpgaRsaSign (fromHex privateKeyHex fpgaRsaBlobLen) (P.sha256 msg)
      else none
    else
      P.rsaSign (fromHex privateKeyHex (privateKeyHex.length / 2)) (P.sha256 msg)
        (env.random .signing)
  else if algId = -48 ∨ algId = -49 ∨ algId = -50 then
    let keyLen := privateKeyHex.length / 2
    let priv := fromHex privateKeyHex keyLen
    let ps := mldsaParameterSet algId
    if !env.allocates .signingKey then none
    else if keyLen = fpgaMldsaBlobLen ps then
      if env.hasPq then P.fpgaMldsaSign ps priv msg (env.random .signing) else none
    else P.mldsaSign ps priv msg (env.random .signing)
  else none

end GoiKey
