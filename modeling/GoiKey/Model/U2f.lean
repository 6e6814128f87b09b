import GoiKey.Model.Assertion

/-! processU2fCommand. -/

namespace GoiKey

variable (P : Platform) (env : Env)

structure U2fResult where
  reply : Bytes
  acts : List Act := []
  uv : UvState
  keys : Keystore
  signCount : UInt32

def statusWord (sw : Nat) : Bytes := bigEndian 2 sw

/-- `len` bytes of the frame from an index on. Nothing keeps the index inside the
frame, so memory behind it may be read too. -/
def frameBytes (data : Bytes) (start len : Nat) : Bytes :=
  padTo len ((data ++ env.behindFrame).drop start)

/-- A record under the hex of the application parameter, without a user. -/
def u2fRecord (appId : Bytes) (privateKeyHex : Str) : StoredCredential where
  rpId := toHex appId
  userIdHex := []
  userName := []
  privateKeyHex := privateKeyHex
  algId := -7

def u2fRegister (d : Device) (challenge appId : Bytes) : U2fResult :=
  match fidoVerifyFingerprint env d.bio d.uv env.sensor env.now with
  | (none, uv) => ⟨statusWord 0x6985, [], uv, d.keys, d.signCount⟩
  | (some act, uv) =>
    match generateCredentialKeyP256 P env with
    | none => ⟨statusWord 0x6F00, [act], uv, d.keys, d.signCount⟩
    | some key =>
      if P.attestation.isNone then ⟨statusWord 0x6F00, [act], uv, d.keys, d.signCount⟩
      else
        let kh := env.draw .keyHandle 16
        match savePasskeyRecord P env d.keys (toHex kh) (u2fRecord appId key.privateKeyHex) with
        | none => ⟨statusWord 0x6F00, [act], uv, d.keys, d.signCount⟩
        | some k =>
          let pubKey := padTo 65 key.publicKey
          let created := Act.created (toHex kh) (.appId appId) (-7) key.publicKey
          let msg := 0x00 :: (appId ++ challenge ++ kh ++ pubKey)
          let signer := attestationSigner P (-7) key.privateKeyHex
          match generateAlgSignature P env (-7) signer.privateKeyHex msg with
          | none => ⟨statusWord 0x6F00, [act, created], uv, k, d.signCount⟩
          | some sig =>
            let acts := [act, created] ++
              (if signer.leafCert.isSome then []
                else [.signed (toHex kh) (.appId appId) (-7) msg sig])
            if !env.allocates .localResponse then ⟨statusWord 0x6F00, acts, uv, k, d.signCount⟩
            else
              ⟨0x05 :: (pubKey ++ 16 :: (kh ++ signer.leafCert.getD [] ++ sig ++ statusWord 0x9000)),
                acts, uv, k, d.signCount⟩

/-- The signature is made as ES256 whatever the record says. -/
def u2fAuthenticate (d : Device) (p1 : UInt8) (challenge appId keyHandle : Bytes) : U2fResult :=
  match getPasskeyRecord P env d.keys (toHex keyHandle) with
  | none => ⟨statusWord 0x6A80, [], d.uv, d.keys, d.signCount⟩
  | some c =>
    if !rpFieldMatchesHash P c.rpId (toHex appId) then
      ⟨statusWord 0x6A80, [], d.uv, d.keys, d.signCount⟩
    else if p1 = 0x07 then ⟨statusWord 0x6985, [], d.uv, d.keys, d.signCount⟩
    else match fidoVerifyFingerprint env d.bio d.uv env.sensor env.now with
      | (none, uv) => ⟨statusWord 0x6985, [], uv, d.keys, d.signCount⟩
      | (some act, uv) =>
        let ctr := nextSignCount d.signCount
        let msg := appId ++ 0x01 :: (bigEndian 4 ctr.toNat ++ challenge)
        match generateAlgSignature P env (-7) c.privateKeyHex msg with
        | none => ⟨statusWord 0x6F00, [act], uv, d.keys, ctr⟩
        | some sig =>
          ⟨0x01 :: (bigEndian 4 ctr.toNat ++ sig ++ statusWord 0x9000),
            [act, .signed (toHex keyHandle) (.appId appId) (-7) msg sig], uv, d.keys, ctr⟩

def processU2fCommand (d : Device) (data : Bytes) : U2fResult :=
  let fail (sw : Nat) : U2fResult := ⟨statusWord sw, [], d.uv, d.keys, d.signCount⟩
  let ins := byteAt data 1
  if data.length < 4 then fail 0x6700
  else if ins = 0x03 then ⟨text "U2F_V2" ++ statusWord 0x9000, [], d.uv, d.keys, d.signCount⟩
  else if data.length < 7 then fail 0x6700
  else
    let reqLen := (byteAt data 5).toNat * 256 + (byteAt data 6).toNat
    let challenge := frameBytes env data 7 32
    let appId := frameBytes env data 39 32
    if ins = 0x01 then
      if reqLen ≠ 64 then fail 0x6700 else u2fRegister P env d challenge appId
    else if ins = 0x02 then
      if reqLen < 65 then fail 0x6700
      else
        let khLen := (byteAt (frameBytes env data 71 1) 0).toNat
        u2fAuthenticate P env d (byteAt data 2) challenge appId (frameBytes env data 72 khLen)
    else fail 0x6D00

end GoiKey

/-!
processU2fCommand with the bytes of the frame it reads, in the order the source
reads them in.
-/

namespace GoiKey

namespace U2fReads

variable (P : Platform) (env : Env)

/-- The indices into the frame that have been read, the newest first. -/
abbrev Reading := StateM (List Nat)

def touch (start len : Nat) : Reading Unit := modify fun log => (List.range' start len).reverse ++ log

/-- `data[i]`. -/
def byte (data : Bytes) (i : Nat) : Reading UInt8 := do
  touch i 1
  return byteAt (frameBytes env data i 1) 0

/-- `len` bytes from `data + start`, copied or written as hex. -/
def bytes (data : Bytes) (start len : Nat) : Reading Bytes := do
  touch start len
  return frameBytes env data start len

def register (d : Device) (data : Bytes) : Reading U2fResult :=
  match fidoVerifyFingerprint env d.bio d.uv env.sensor env.now with
  | (none, uv) => return ⟨statusWord 0x6985, [], uv, d.keys, d.signCount⟩
  | (some act, uv) =>
    match generateCredentialKeyP256 P env with
    | none => return ⟨statusWord 0x6F00, [act], uv, d.keys, d.signCount⟩
    | some key =>
      if P.attestation.isNone then return ⟨statusWord 0x6F00, [act], uv, d.keys, d.signCount⟩
      else do
        let kh := env.draw .keyHandle 16
        let appId ← bytes env data 39 32
        match savePasskeyRecord P env d.keys (toHex kh) (u2fRecord appId key.privateKeyHex) with
        | none => return ⟨statusWord 0x6F00, [act], uv, d.keys, d.signCount⟩
        | some k => do
          let pubKey := padTo 65 key.publicKey
          let created := Act.created (toHex kh) (.appId appId) (-7) key.publicKey
          let appId ← bytes env data 39 32
          let challenge ← bytes env data 7 32
          let msg := 0x00 :: (appId ++ challenge ++ kh ++ pubKey)
          let signer := attestationSigner P (-7) key.privateKeyHex
          match generateAlgSignature P env (-7) signer.privateKeyHex msg with
          | none => return ⟨statusWord 0x6F00, [act, created], uv, k, d.signCount⟩
          | some sig =>
            let acts := [act, created] ++
              (if signer.leafCert.isSome then []
                else [.signed (toHex kh) (.appId appId) (-7) msg sig])
            if !env.allocates .localResponse then return ⟨statusWord 0x6F00, acts, uv, k, d.signCount⟩
            else
              return ⟨0x05 :: (pubKey ++ 16 :: (kh ++ signer.leafCert.getD [] ++ sig ++ statusWord 0x9000)),
                acts, uv, k, d.signCount⟩

def authenticate (d : Device) (p1 : UInt8) (data : Bytes) : Reading U2fResult := do
  let khLen := (← byte env data 71).toNat
  let keyHandle ← bytes env data 72 khLen
  let appId ← bytes env data 39 32
  match getPasskeyRecord P env d.keys (toHex keyHandle) with
  | none => return ⟨statusWord 0x6A80, [], d.uv, d.keys, d.signCount⟩
  | some c =>
    if !rpFieldMatchesHash P c.rpId (toHex appId) then
      return ⟨statusWord 0x6A80, [], d.uv, d.keys, d.signCount⟩
    else if p1 = 0x07 then return ⟨statusWord 0x6985, [], d.uv, d.keys, d.signCount⟩
    else match fidoVerifyFingerprint env d.bio d.uv env.sensor env.now with
      | (none, uv) => return ⟨statusWord 0x6985, [], uv, d.keys, d.signCount⟩
      | (some act, uv) => do
        let ctr := nextSignCount d.signCount
        let appId ← bytes env data 39 32
        let challenge ← bytes env data 7 32
        let msg := appId ++ 0x01 :: (bigEndian 4 ctr.toNat ++ challenge)
        match generateAlgSignature P env (-7) c.privateKeyHex msg with
        | none => return ⟨statusWord 0x6F00, [act], uv, d.keys, ctr⟩
        | some sig =>
          return ⟨0x01 :: (bigEndian 4 ctr.toNat ++ sig ++ statusWord 0x9000),
            [act, .signed (toHex keyHandle) (.appId appId) (-7) msg sig], uv, d.keys, ctr⟩

def processU2fCommand (d : Device) (data : Bytes) : Reading U2fResult :=
  let fail (sw : Nat) : U2fResult := ⟨statusWord sw, [], d.uv, d.keys, d.signCount⟩
  if data.length < 4 then return fail 0x6700
  else do
    let ins ← byte env data 1
    let p1 ← byte env data 2
    if ins = 0x03 then return ⟨text "U2F_V2" ++ statusWord 0x9000, [], d.uv, d.keys, d.signCount⟩
    else if data.length < 7 then return fail 0x6700
    else
      let reqLen := (← byte env data 5).toNat * 256 + (← byte env data 6).toNat
      if ins = 0x01 then
        if reqLen ≠ 64 then return fail 0x6700 else register P env d data
      else if ins = 0x02 then
        if reqLen < 65 then return fail 0x6700 else authenticate P env d p1 data
      else return fail 0x6D00

end U2fReads

end GoiKey
