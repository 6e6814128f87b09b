import GoiKey.Model.Cli

/-!
The lines of the serial port: the handshake, the line cipher of CryptoManager.cpp
and what cliTask makes of a line.
-/

namespace GoiKey

/-! Requests. -/

/-- A member of a request as ArduinoJson hands it out; of numbers with a fraction and
of containers only whether they count as true. -/
inductive JsonValue where
  | null
  | bool (b : Bool)
  | int (n : Int)
  | string (s : Str)
  | other (truth : Bool)
  deriving DecidableEq, Repr

namespace JsonValue

def truth : JsonValue → Bool
  | null => false
  | bool b => b
  | int n => n != 0
  | string _ => true
  | other t => t

/-- `v | w` on two members. -/
def orElse (v w : JsonValue) : JsonValue := if v.truth then v else w

/-- `v | ""` as a String. -/
def text : JsonValue → Str
  | string s => cstr s
  | _ => []

/-- `v | n` on an int. -/
def number (v : JsonValue) (n : Int) : Int :=
  match v with
  | int m => if -2 ^ 31 ≤ m ∧ m < 2 ^ 31 then m else n
  | _ => n

/-- `v | false`. -/
def flag : JsonValue → Bool
  | bool b => b
  | _ => false

end JsonValue

abbrev Request := List (Str × JsonValue)

def Request.get (req : Request) (key : String) : JsonValue := (Members.get? (text key) req).getD .null

/-- What cliTask reads of a request, in the order it asks for the commands. -/
def commandOf (req : Request) : CliCommand :=
  let cmd := (req.get "cmd").text
  let site := ((req.get "site").orElse (req.get "website")).text
  let login := (req.get "login").text
  let pass := ((req.get "pass").orElse (req.get "password")).text
  let autogen := (req.get "autogen").flag
  let pin := (req.get "pin").text
  let named (names : List String) : Bool := names.any fun name => cmd == text name
  if named ["RESTART_SYSTEM"] then .serial .restartSystem
  else if named ["DISCONNECT"] then .serial .disconnect
  else if named ["CREATE_PIN", "set_pin"] then .serial (.createPin pin)
  else if named ["VERIFY_PIN", "verify_pin"] then .serial (.verifyPin pin)
  else if named ["help"] then .help
  else if named ["SAVE_PASS", "create"] then .serial (.savePass site login pass autogen)
  else if named ["GET_PASS", "get"] then .serial (.getPass site login)
  else if named ["DELETE_PASS", "delete"] then .serial (.deletePass site login)
  else if named ["LIST_PASS", "list"] then .listPass
  else if named ["SAVE_TOTP"] then .serial (.saveTotp (req.get "name").text (req.get "secret").text)
  else if named ["GET_TOTP"] then .getTotp (UInt32.ofInt ((req.get "epoch").number 0))
  else if named ["DELETE_TOTP"] then .serial (.deleteTotp (req.get "name").text)
  else if named ["LIST_FIDO"] then .listFido
  else if named ["DELETE_FIDO"] then
    .serial (.deleteFido ((req.get "site").orElse (req.get "rpId")).text)
  else if named ["STORAGE_INFO"] then .storageInfo
  else if named ["PURGE_STORAGE"] then .serial .purgeStorage
  else if named ["RUN_DIAGNOSTICS"] then .serial .runDiagnostics
  else if named ["UPDATE_SETTINGS", "SET_CRYPTO_ALG"] then
    .serial (.setCryptoAlg ((req.get "algId").number (-7)))
  else if named ["UPDATE_PASS", "update"] then .serial (.updatePass site login pass autogen)
  else if named ["ENROLL_FINGER"] then .serial (.enrollFinger (UInt8.ofInt ((req.get "id").number 1)))
  else if named ["BACKUP_EXPORT"] then .backupExport (req.get "passphrase").text
  else if named ["BACKUP_IMPORT_BEGIN"] then
    .backupImportBegin (UInt32.ofInt ((req.get "total_len").number 0)).toNat (req.get "sha256").text
  else if named ["BACKUP_IMPORT_CHUNK"] then .backupImportChunk (req.get "data").text
  else if named ["BACKUP_IMPORT_COMMIT"] then
    .backupImportCommit (req.get "passphrase").text (req.get "overwrite").flag
  else if named ["BACKUP_IMPORT_ABORT"] then .backupImportAbort
  else if named ["FACTORY_RESET"] then .serial .factoryReset
  else if named ["UPDATE_PIN", "update_pin"] then
    .serial (.updatePin (req.get "current_pin").text (req.get "new_pin").text)
  else .serial .unknown

/-- ArduinoJson on the lines: `none` for a text that does not parse, and the texts that
sendEvent and sendError print for a reply. -/
structure LineJson where
  parse : Str → Option Request
  render : CliReply → List Str

/-! The line cipher. -/

/-- What was encrypted under a key. -/
structure Sealing where
  key : Bytes
  iv : Bytes
  plain : Bytes
  deriving DecidableEq, Repr

structure LineState where
  cli : CliState := {}
  encryptionActive : Bool := false
  aesKey : Bytes := zeros 32
  deriving DecidableEq, Repr

/-- What one turn of cliTask meets on the line: `keypair` is what
mbedtls_ecdh_gen_public makes, `nonces` what is drawn for the lines sent. -/
structure LineEnv where
  cli : CliEnv
  curveLoads : Bool
  keypair : Option (Bytes × Bytes)
  nonces : Nat → Bytes

def LineEnv.env (L : LineEnv) : Env := L.cli.env

variable (P : Platform) (Q : LineJson) (J : ArchiveJson) (hmacSha1 : Bytes → Bytes → Bytes)

/-- The parts of an ENC line that decryptMsg reads: iv, ciphertext and tag. -/
def carried (payload : Str) : Option (Bytes × Bytes × Bytes) :=
  match Fields.cut 0x3A payload with
  | none => none
  | some (_, rest) =>
    match Fields.cut 0x3A rest with
    | none => none
    | some (ivHex, dataHex) =>
      let dataLen := dataHex.length / 2
      if ivHex.length ≠ 24 ∨ dataLen < 16 then none
      else
        let full := fromHex dataHex dataLen
        some (fromHex ivHex 12, full.take (dataLen - 16), full.drop (dataLen - 16))

/-- "" on every failure. -/
def decryptMsg (env : Env) (aesKey : Bytes) (payload : Str) : Str :=
  match carried payload with
  | none => []
  | some (iv, cipher, tag) =>
    if !env.allocates .encrypted || !env.allocates .plaintext then []
    else match P.gcmDecrypt aesKey iv cipher tag with
      | none => []
      | some plain => cstr plain

/-- The shared key and the public key of the device, or the error printed. -/
def processHandshake (L : LineEnv) (clientPubHex : Str) : Except String (Bytes × Bytes) :=
  if clientPubHex.length ≠ 130 then .error "ECDH_INVALID_KEY_LENGTH"
  else if !L.curveLoads then .error "ECDH_GRP_LOAD_FAIL"
  else match L.keypair with
    | none => .error "ECDH_GEN_PUB_FAIL"
    | some (d, Q) =>
      let clientPub := fromHex clientPubHex 65
      if clientPub.head? ≠ some 0x04 then .error "ECDH_PEER_KEY_INVALID"
      else match P.ecdhX d clientPub.tail with
        | none => .error "ECDH_COMPUTE_SHARED_FAIL"
        | some shared => .ok (P.sha256 shared, Q)

/-- The pieces Terminal flushes of a printed line: it does so past 512 bytes. -/
def terminalPieces (line : Str) : List Str :=
  let line := line ++ [0x0D, 0x0A]
  (List.range ((line.length + 512) / 513)).map fun i => (line.drop (i * 513)).take 513

/-! A turn of cliTask. -/

structure LineOutput where
  /-- DH_ACK was sent. -/
  acked : Bool := false
  executed : Option CliCommand := none
  /-- What was printed, before the line cipher. -/
  printed : List Str := []
  sealed : List Sealing := []
  restarted : Bool := false
  deriving DecidableEq, Repr

/-- The texts go out in pieces, encrypted while the cipher is on; a piece that cannot be
goes out empty. -/
def sendLines (L : LineEnv) (encryptionActive : Bool) (aesKey : Bytes) (lines : List Str) : List Sealing :=
  if encryptionActive && L.env.allocates .cipher then
    (lines.flatMap terminalPieces).zipIdx.map fun piece => ⟨aesKey, L.nonces piece.2, piece.1⟩
  else []

/-- Too many wrong PINs. -/
def CliCommand.restarts (C : CliEnv) (s : CliState) : CliCommand → Bool
  | .serial c => GoiKey.restarts c (serialCommand P C.env s.dev c)
  | _ => false

def CliCommand.disconnects (c : CliCommand) : Bool := c == .serial .disconnect

/-- The command of a text that got through, DISCONNECT and a restart ending the cipher. -/
def runCommand (L : LineEnv) (s : LineState) (input : Str) : LineOutput × LineState :=
  match Q.parse input with
  | none =>
    let lines := Q.render (.messages [.error "SYS" "INVALID_JSON" []])
    ({ printed := lines, sealed := sendLines L s.encryptionActive s.aesKey lines }, s)
  | some req =>
    let c := commandOf req
    let r := cliCommand P J hmacSha1 L.cli s.cli c
    let restarted := c.restarts P L.cli s.cli
    let active := s.encryptionActive && !c.disconnects
    let lines := Q.render r.1
    ({ executed := some c, printed := lines, sealed := sendLines L active s.aesKey lines
       restarted := restarted },
      { cli := r.2
        encryptionActive := active && !restarted
        aesKey := if restarted then L.env.draw .session 32 else s.aesKey })

/-- A handshake takes the session down whether it succeeds or not. -/
def runHandshake (L : LineEnv) (s : LineState) (clientPubHex : Str) : LineOutput × LineState :=
  let cli := (cliCommand P J hmacSha1 L.cli s.cli (.serial .handshake)).2
  match processHandshake P L clientPubHex with
  | .error e => ({ printed := [text "[ERR] " ++ text e] }, { s with cli := cli })
  | .ok (key, pub) =>
    ({ acked := true, printed := [text "DH_ACK:" ++ toHex pub] },
      { cli := cli, encryptionActive := true, aesKey := key })

/-- `rawInput.trim()`. -/
def trim (s : Str) : Str := ((s.dropWhile isSpace).reverse.dropWhile isSpace).reverse

def processLine (L : LineEnv) (s : LineState) (rawInput : Str) : LineOutput × LineState :=
  let rawInput := trim rawInput
  if (text "DH_INIT:").isPrefixOf rawInput then runHandshake P J hmacSha1 L s (rawInput.drop 8)
  else if (text "ENC:").isPrefixOf rawInput then
    let input := decryptMsg P L.env s.aesKey rawInput
    if input = [] then ({}, s) else runCommand P Q J hmacSha1 L s input
  else if s.encryptionActive then ({}, s)
  else runCommand P Q J hmacSha1 L s rawInput

inductive LineEvent where
  | finger
  | line (rawInput : Str)
  deriving DecidableEq, Repr

/-- An event with what the host encrypted since the one before. -/
structure LineInput where
  event : LineEvent
  surroundings : LineEnv
  hostSealed : List Sealing := []

def lineStep (s : LineState) (i : LineInput) : LineOutput × LineState :=
  let L := i.surroundings
  match i.event with
  | .finger =>
    let r := updateFingerprintAsync P L.env s.cli.dev
    let lines := Q.render (.messages r.messages)
    ({ printed := lines, sealed := sendLines L s.encryptionActive s.aesKey lines },
      { s with cli := { s.cli with dev := r.dev } })
  | .line rawInput => processLine P Q J hmacSha1 L s rawInput

end GoiKey
