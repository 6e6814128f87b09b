import GoiKey.Model.Requests
import GoiKey.Model.Storage

/-!
/passkeys.bin byte by byte, as the loops of StorageManager.cpp write and read it.
There is memory for the strings of a record; what a short read leaves of its
buffer is what lay there before.
-/

namespace GoiKey.RecordFile

/-! Writing. -/

/-- The bytes of an integer in memory. -/
def littleEndian (n v : Nat) : Bytes := (bigEndian n v).reverse

def fromLittleEndian (b : Bytes) : Nat := fromBigEndian b.reverse

/-- A `uint16_t` length and as much of the string as it says. -/
def writeString (s : Str) : Bytes :=
  let len := s.length % 2 ^ 16
  littleEndian 2 len ++ s.take len

def writeInt (v : Int) : Bytes := littleEndian 4 (v % 2 ^ 32).toNat

def writeRecord (r : PasskeyRecord) : Bytes :=
  r.status :: (writeInt r.algId ++ writeString r.cid ++ writeString r.rp ++ writeString r.payload)

/-- The file these records make. -/
def ofRecords (records : List PasskeyRecord) : Bytes := records.flatMap writeRecord

variable (P : Platform) (env : Env)

def savePasskeyRecord (file : Bytes) (cid : Str) (c : StoredCredential) : Option Bytes :=
  let payload := encryptStoragePayload P env (recordPayload c) (fidoHardwareKey P)
  if payload = [] then none
  else if env.opens .passkeys .write then
    some (file ++ writeRecord ⟨1, c.algId, cid, c.rpId, payload⟩)
  else none

/-! Reading; the state is what lies behind the position in the file. -/

variable (stray : Bytes)

/-- `file.read(buffer, n)` into memory that held `stray`. -/
def read (n : Nat) : StateM Bytes Bytes := fun file =>
  (overlay (padTo n stray) (file.take n), file.drop n)

def readSpiffsString : StateM Bytes Str := do
  let complete := 2 ≤ (← get).length
  let len := fromLittleEndian (← read stray 2)
  if !complete then return []
  if len = 0 then return []
  return cstr (← read stray len)

def readInt : StateM Bytes Int := do return toInt32 (fromLittleEndian (← read stray 4))

/-- A record up to the length of its payload. -/
structure Header where
  status : UInt8
  algId : Int
  cid : Str
  rp : Str
  payLen : Nat

/-- The readers that seek over the algorithm end at the same place. -/
def readHeader : StateM Bytes Header := do
  let status := byteAt (← read stray 1) 0
  let algId ← readInt stray
  let cid ← readSpiffsString stray
  let rp ← readSpiffsString stray
  let payLen := fromLittleEndian (← read stray 2)
  return ⟨status, algId, cid, rp, payLen⟩

/-- The first record that is wanted, with its payload. The next record begins
behind the payload whether that is read or passed over. -/
def search (wanted : Header → Str → Bool) : Nat → Bytes → Option (Header × Str)
  | 0, _ => none
  | n + 1, file =>
    if file = [] then none
    else
      let (h, file) := readHeader stray file
      let (payload, file) := read stray h.payLen file
      if wanted h (cstr payload) then some (h, cstr payload) else search wanted n file

/-- A reading loop over a file it could open; every round takes a byte. -/
def find (file : Bytes) (wanted : Header → Str → Bool) : Option (Header × Str) :=
  if env.opens .passkeys .read then search stray wanted file.length file else none

def getPasskeyRecord (file : Bytes) (cid : Str) : Option StoredCredential :=
  match find env stray file (fun h _ => h.status == 1 && h.cid == cid) with
  | none => none
  | some (h, payload) =>
    let plain := decryptStoragePayload P env payload (fidoHardwareKey P)
    if plain = [] then none else parsePayload h.rp h.algId plain

def findCredentialIdByRpAndUser (file : Bytes) (rpId userIdHex : Str) : Str :=
  match find env stray file (fun h payload => h.status == 1 && rpFieldMatchesRpId P h.rp rpId &&
      ((Fields.cut newline (decryptStoragePayload P env payload (fidoHardwareKey P))).map
        Prod.fst).any (fun u => userIdHex == [] || u == userIdHex)) with
  | none => []
  | some (h, _) => h.cid

def readRecord : StateM Bytes PasskeyRecord := do
  let status := byteAt (← read stray 1) 0
  let algId ← readInt stray
  let cid ← readSpiffsString stray
  let rp ← readSpiffsString stray
  let payload ← readSpiffsString stray
  return ⟨status, algId, cid, rp, payload⟩

/-- Whether a live record was hit, and the copy of the others. -/
def copyRecords (hit : PasskeyRecord → Bool) : Nat → Bytes → Bool × Bytes
  | 0, _ => (false, [])
  | n + 1, file =>
    if file = [] then (false, [])
    else
      let (r, file) := readRecord stray file
      let (deleted, copy) := copyRecords hit n file
      if r.status == 1 && hit r then (true, copy)
      else if r.status == 1 then (deleted, writeRecord r ++ copy)
      else (deleted, copy)

/-- The copy takes the place of the file when there was a hit. -/
def rewrite (file : Bytes) (hit : PasskeyRecord → Bool) : Bool × Bytes :=
  if !env.opens .passkeys .read || !env.opens .passkeysTmp .write then (false, file)
  else
    let (deleted, copy) := copyRecords stray hit file.length file
    (deleted, if deleted then copy else file)

def deletePasskeyRecord (file : Bytes) (cid : Str) : Bool × Bytes :=
  rewrite env stray file (fun r => r.cid == cid)

def deleteFidoWebsite (file : Bytes) (rpId : Str) : Bool × Bytes :=
  rewrite env stray file (fun r => r.rp == rpId)

end GoiKey.RecordFile

/-!
The other loops over /passkeys.bin. Each takes the records apart in its own way:
what it does not need it seeks over.
-/

namespace GoiKey.RecordFile

variable (P : Platform) (env : Env) (stray : Bytes)

/-- `file.seek(n, SeekCur)`. -/
def seek (n : Nat) : StateM Bytes Unit := fun file => ((), file.drop n)

/-- A length of 16 bits; what it counts is left to the caller. -/
def readLength : StateM Bytes Nat := do return fromLittleEndian (← read stray 2)

def seekString : StateM Bytes Unit := do seek (← readLength stray)

/-- The string is passed over only if its length could be read. -/
def seekReadString : StateM Bytes Unit := do
  let complete := 2 ≤ (← get).length
  let len ← readLength stray
  if complete then seek len

def readStatus : StateM Bytes UInt8 := do return byteAt (← read stray 1) 0

/-- `while (file.available())`: what every round yields. -/
def rounds {α : Type} (round : StateM Bytes α) : Nat → Bytes → List α
  | 0, _ => []
  | n + 1, file =>
    if file = [] then []
    else (round file).1 :: rounds round n (round file).2

/-- The rounds over a file it could open; every round takes a byte. -/
def walk {α : Type} (round : StateM Bytes α) (file : Bytes) : List α :=
  if env.opens .passkeys .read then rounds round file.length file else []

def isPasskeyExists (file : Bytes) (cid : Str) : Bool :=
  (walk env (do
    let status ← readStatus stray
    seek 4
    let cid ← readSpiffsString stray
    seekString stray
    seekString stray
    return (status, cid)) file).any fun (status, c) => status == 1 && c == cid

def findAllCredentialsByRp (file : Bytes) (rpId : Str) : List Str :=
  (walk env (do
    let status ← readStatus stray
    seek 4
    let cid ← readSpiffsString stray
    let rp ← readSpiffsString stray
    let payLen ← readLength stray
    seek payLen
    return if status == 1 && rpFieldMatchesRpId P rp rpId then [cid] else []) file).flatten

def getAllStoredCredentialIds (file : Bytes) : List Str :=
  (walk env (do
    let status ← readStatus stray
    seek 4
    let cid ← readSpiffsString stray
    let _ ← readSpiffsString stray
    let payLen ← readLength stray
    seek payLen
    return if status == 1 then [cid] else []) file).flatten

/-- `results.push_back(rp)` unless it is there. -/
def pushNew (results : List Str) (rp : Str) : List Str :=
  if results.contains rp then results else results ++ [rp]

def getAllStoredRpIds (file : Bytes) : List Str :=
  ((walk env (do
    let status ← readStatus stray
    seek 4
    let _ ← readSpiffsString stray
    let rp ← readSpiffsString stray
    let payLen ← readLength stray
    seek payLen
    return if status == 1 then [rp] else []) file).flatten).foldl pushNew []

def maxDiscoverableCredentials : Nat := 1000

/-- The LIST event. -/
structure FidoList where
  websites : List Str
  discoverableCredentialsUsed : Nat
  discoverableCredentialsRemaining : Nat
  deriving DecidableEq, Repr

def listFidoWebsites (file : Bytes) : FidoList :=
  let rps := (walk env (do
    let status ← readStatus stray
    seek 4
    seekString stray
    let rp ← readSpiffsString stray
    seekString stray
    return if status == 1 then [rp] else []) file).flatten
  ⟨rps.foldl pushNew [], rps.length, maxDiscoverableCredentials - rps.length⟩

/-- The line of a record, if its text has two line feeds. -/
def websiteLine (cid plain : Str) : Str :=
  match Fields.cut newline plain with
  | none => []
  | some (_, rest) =>
    match Fields.cut newline rest with
    | none => []
    | some (userName, _) => userName ++ text " | CRED_ID:" ++ cid ++ [newline]

/-- It decrypts with the storage key, which records are not encrypted with. -/
def getFidoWebsiteInfo (storageKey : Option Bytes) (file : Bytes) (rpId : Str) : Str :=
  match storageKey with
  | none => []
  | some key =>
    (walk env (do
      let status ← readStatus stray
      seek 4
      let cid ← readSpiffsString stray
      let rp ← readSpiffsString stray
      let payLen ← readLength stray
      if status == 1 && rp == rpId then
        let payload := cstr (← read stray payLen)
        return websiteLine cid (decryptStoragePayload P env payload key)
      else
        seek payLen
        return []) file).flatten

/-- The passkeys_count of showStorageInfo. -/
def passkeysCount (file : Bytes) : Nat :=
  (walk env (do
    let status ← readStatus stray
    seek 4
    seekReadString stray
    seekReadString stray
    seekReadString stray
    return status) file).countP fun status => status == 1

end GoiKey.RecordFile
