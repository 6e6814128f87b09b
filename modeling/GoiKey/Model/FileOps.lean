import GoiKey.Lib.PowerLoss
import GoiKey.Model.RecordLists

/-!
The operations on the file system behind the record file: how a rewriting replaces
/passkeys.bin by its copy, and how a record is appended to it write by write. At
start-up initStorage mounts the file system and looks at neither file.
-/

namespace GoiKey.RecordFile

/-- /passkeys.bin and /passkeys.tmp. -/
structure Files where
  bin : Option Bytes
  tmp : Option Bytes
  deriving DecidableEq, Repr

inductive FileOp where
  /-- `SPIFFS.open("/passkeys.tmp", "w")`. -/
  | createTmp
  | writeTmp (b : Bytes)
  | removeBin
  /-- `SPIFFS.rename("/passkeys.tmp", "/passkeys.bin")`. -/
  | renameTmp
  | removeTmp
  deriving DecidableEq, Repr

/-- A rename fails without its source or onto a file that is there. -/
def Files.apply (f : Files) : FileOp → Files
  | .createTmp => { f with tmp := some [] }
  | .writeTmp b => { f with tmp := f.tmp.map fun t => t ++ b }
  | .removeBin => { f with bin := none }
  | .renameTmp =>
    match f.bin, f.tmp with
    | none, some t => ⟨some t, none⟩
    | _, _ => f
  | .removeTmp => { f with tmp := none }

/-- The writes of one string. -/
def stringWrites (s : Str) : List Bytes :=
  let len := s.length % 2 ^ 16
  [littleEndian 2 len, s.take len]

/-- The writes of one record. -/
def recordWrites (r : PasskeyRecord) : List Bytes :=
  [r.status] :: writeInt r.algId :: (stringWrites r.cid ++ stringWrites r.rp ++ stringWrites r.payload)

variable (env : Env) (stray : Bytes)

/-- Whether a live record was hit, and the writes that copy the others. -/
def copyWrites (hit : PasskeyRecord → Bool) : Nat → Bytes → Bool × List Bytes
  | 0, _ => (false, [])
  | n + 1, file =>
    if file = [] then (false, [])
    else
      let (r, file) := readRecord stray file
      let (deleted, writes) := copyWrites hit n file
      if r.status == 1 && hit r then (true, writes)
      else if r.status == 1 then (deleted, recordWrites r ++ writes)
      else (deleted, writes)

/-- What a rewriting does to the files, and what it returns. -/
def rewriteOps (f : Files) (hit : PasskeyRecord → Bool) : Bool × List FileOp :=
  match f.bin with
  | none => (false, [])
  | some file =>
    if !env.opens .passkeys .read || !env.opens .passkeysTmp .write then (false, [])
    else
      let (deleted, writes) := copyWrites stray hit file.length file
      (deleted, .createTmp :: writes.map .writeTmp ++
        (if deleted then [.removeBin, .renameTmp] else [.removeTmp]))

def deletePasskeyRecordOps (f : Files) (cid : Str) : Bool × List FileOp :=
  rewriteOps env stray f (fun r => r.cid == cid)

def deleteFidoWebsiteOps (f : Files) (rpId : Str) : Bool × List FileOp :=
  rewriteOps env stray f (fun r => r.rp == rpId)

/-- The writes one after another into a file system with this much room; none of
them is asked how much it wrote. -/
def appendWrites : Nat → Bytes → List Bytes → Bytes
  | _, file, [] => file
  | room, file, b :: writes => appendWrites (room - b.length) (file ++ b.take room) writes

/-- What savePasskeyRecord returns, and the file it leaves when only `room` bytes of
the record reach it. -/
def savePasskeyRecordShort (P : Platform) (room : Nat) (file : Bytes) (cid : Str) (c : StoredCredential) :
    Bool × Bytes :=
  let payload := encryptStoragePayload P env (recordPayload c) (fidoHardwareKey P)
  if payload = [] then (false, file)
  else if env.opens .passkeys .write then
    (true, appendWrites room file (recordWrites ⟨1, c.algId, cid, c.rpId, payload⟩))
  else (false, file)

end GoiKey.RecordFile
