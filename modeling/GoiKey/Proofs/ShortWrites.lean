import GoiKey.Model.FileOps
import GoiKey.Proofs.PowerCuts
import GoiKey.Proofs.TornRecords
import GoiKey.Proofs.Uniqueness
import Mathlib.Data.List.TakeDrop

/-!
A record of which only the first bytes reach the file. The records in front of it
are found as before; savePasskeyRecord does not ask how much was written, and what
is appended behind the torn record is read as the rest of it.
-/

namespace GoiKey

open RecordFile

variable {P : Platform} {d : Device} {i : Input} {cid : Str} {c : StoredCredential}

/-- The calls of savePasskeyRecord: from MakeCredential and from U2F_REGISTER. -/
inductive SaveCall (P : Platform) (d : Device) (i : Input) : Str → StoredCredential → Prop where
  | resident {req : MakeCredentialRequest} {key : KeyPair} (request : req ∈ registrationRequest d i)
    (made : generateCredentialKey P i.env req.selectedAlgId = some key) :
    SaveCall P d i (toHex (i.env.draw .credentialId 16)) (newRecord i.env req key)
  | u2f {data : Bytes} {key : KeyPair} (event : i.event = .u2f data)
    (made : generateCredentialKeyP256 P i.env = some key) :
    SaveCall P d i (toHex (i.env.draw .keyHandle 16)) (u2fRecord (u2fAppId i.env data) key.privateKeyHex)

/-- What every registration saves into the one file can be read from the other, if it
could be from the first. -/
def LaterReadable (P : Platform) (file file' : Bytes) : Prop :=
  ∀ d i cid c, SaveCall P d i cid c → ∀ g g',
    RecordFile.savePasskeyRecord P i.env file cid c = some g →
    RecordFile.savePasskeyRecord P i.env file' cid c = some g' →
    ∀ env stray, RecordFile.getPasskeyRecord P env stray g cid = some c →
      RecordFile.getPasskeyRecord P env stray g' cid = some c

/-- What is expected of an append that stops behind `room` bytes of the record: no harm
to what was saved before or is saved after. -/
structure CutSafely (P : Platform) (i : Input) (f : PasskeyFile) (room : Nat) (cid : Str)
    (c : StoredCredential) : Prop where
  earlier : ∀ env stray id c', RecordFile.getPasskeyRecord P env stray f.bytes id = some c' →
    RecordFile.getPasskeyRecord P env stray (savePasskeyRecordShort i.env P room f.bytes cid c).2 id = some c'
  later : room < (writeRecord (newPasskey P i.env cid c)).length →
    LaterReadable P f.bytes (savePasskeyRecordShort i.env P room f.bytes cid c).2

/-- What is expected of a call that comes back: true only for a whole record that can
be read. -/
structure SavedSafely (P : Platform) (i : Input) (f : PasskeyFile) (room : Nat) (cid : Str)
    (c : StoredCredential) : Prop extends CutSafely P i f room cid c where
  returned : (savePasskeyRecordShort i.env P room f.bytes cid c).1 = true →
    (savePasskeyRecordShort i.env P room f.bytes cid c).2 =
        f.bytes ++ writeRecord (newPasskey P i.env cid c) ∧
      ∃ env stray, RecordFile.getPasskeyRecord P env stray
        (savePasskeyRecordShort i.env P room f.bytes cid c).2 cid = some c

/-! The writes. -/

theorem appendWrites_eq (room : Nat) (file : Bytes) (writes : List Bytes) :
    appendWrites room file writes = file ++ writes.flatten.take room := by
  induction writes generalizing room file with
  | nil => simp [appendWrites]
  | cons b writes ih =>
    rw [appendWrites, ih, List.flatten_cons, List.take_append, List.append_assoc]

theorem savePasskeyRecordShort_eq (P : Platform) (env : Env) (room : Nat) (file : Bytes) (cid : Str)
    (c : StoredCredential) : savePasskeyRecordShort env P room file cid c =
      if savable P env c then (true, file ++ (writeRecord (newPasskey P env cid c)).take room)
      else (false, file) := by
  unfold savePasskeyRecordShort savable
  by_cases he : encryptStoragePayload P env (recordPayload c) (fidoHardwareKey P) = []
  · simp [he]
  · cases ho : env.opens .passkeys .write <;>
      simp [he, appendWrites_eq, recordWrites_flatten, newPasskey]

/-! The calls. -/

theorem u2fRecord_saveable {appId : Bytes} {key : KeyPair} {env : Env}
    (hk : generateCredentialKeyP256 P env = some key) : Saveable (u2fRecord appId key.privateKeyHex) where
  userName := List.not_mem_nil
  unnamed :=
    { userIdHex := ⟨List.not_mem_nil, List.not_mem_nil⟩
      userName := ⟨List.not_mem_nil, List.not_mem_nil⟩
      privateKeyHex := by
        obtain ⟨b, hhex⟩ := (generateCredentialKeyP256_origin hk).hex
        change newline ∉ key.privateKeyHex ∧ 0 ∉ key.privateKeyHex
        rw [hhex]
        exact notMem_toHex_separators b
      credProtect := ⟨le_refl 1, by simp [u2fRecord]⟩
      largeBlobKeyHex := ⟨List.not_mem_nil, List.not_mem_nil⟩
      credBlobHex := List.not_mem_nil }

theorem SaveCall.storable (hp : RecordsSound P) (h : SaveCall P d i cid c) :
    Storable (newPasskey P i.env cid c) := by
  cases h with
  | resident request made => exact newRecord_storable hp (registrationRequest_buffered request) made
  | u2f event made => exact u2fRecord_storable hp (by simp [u2fAppId, frameBytes]) made

theorem SaveCall.saveable (h : SaveCall P d i cid c) : Saveable c := by
  cases h with
  | resident request made => exact newRecord_saveable (registrationRequest_buffered request) made
  | u2f event made => exact u2fRecord_saveable made

/-! What is found. -/

theorem savable_iff {env : Env} : savable P env c = true ↔
    encryptStoragePayload P env (recordPayload c) (fidoHardwareKey P) ≠ [] ∧
      env.opens .passkeys .write = true := by
  simp [savable]

theorem find_fresh {records : List PasskeyRecord} {id : Str}
    (hfresh : id ∉ records.map PasskeyRecord.cid) :
    (records.find? fun r => r.status == 1 && r.cid == id) = none := by
  refine List.find?_eq_none.mpr fun r hr h => hfresh ?_
  simp only [Bool.and_eq_true, beq_iff_eq] at h
  exact List.mem_map.mpr ⟨r, hr, h.2⟩

theorem search_behind (f : PasskeyFile) (tail stray : Bytes) (wanted : Header → Str → Bool) :
    search stray wanted (f.bytes ++ tail).length (f.bytes ++ tail) =
      match f.records.find? fun r => wanted (headerOf r) r.payload with
      | some r => some (headerOf r, r.payload)
      | none => search stray wanted (f.bytes.length + tail.length - f.records.length) tail := by
  have hfuel : (f.bytes ++ tail).length =
      f.records.length + (f.bytes.length + tail.length - f.records.length) := by
    have hle := length_le_ofRecords f.records
    rw [List.length_append, PasskeyFile.bytes]
    omega
  rw [hfuel]
  exact search_append wanted f.storable tail _

/-- What is found in whole records is found there whatever comes behind them. -/
theorem getPasskeyRecord_append {f : PasskeyFile} {tail stray : Bytes} {env : Env} {id : Str}
    {c' : StoredCredential} (h : RecordFile.getPasskeyRecord P env stray f.bytes id = some c') :
    RecordFile.getPasskeyRecord P env stray (f.bytes ++ tail) id = some c' := by
  unfold RecordFile.getPasskeyRecord at h ⊢
  rw [PasskeyFile.bytes, find_ofRecords _ f.storable] at h
  rw [find, search_behind]
  cases ho : env.opens .passkeys .read with
  | false => simp [ho] at h
  | true =>
    rw [if_pos ho] at h
    rw [if_pos rfl]
    cases hfind : f.records.find? fun r => r.status == 1 && r.cid == id with
    | none => simp [headerOf, hfind] at h
    | some r => simpa [headerOf, hfind] using h

theorem getPasskeyRecord_behind_none {f : PasskeyFile} {tail stray : Bytes} {env : Env} {id : Str}
    (hfresh : id ∉ f.records.map PasskeyRecord.cid)
    (htail : ∀ n, search stray (fun h _ => h.status == 1 && h.cid == id) n tail = none) :
    RecordFile.getPasskeyRecord P env stray (f.bytes ++ tail) id = none := by
  have hnone : (f.records.find? fun r => r.status == 1 && r.cid == id) = none :=
    find_fresh hfresh
  unfold RecordFile.getPasskeyRecord
  rw [find, search_behind]
  simp only [headerOf, hnone, htail, ite_self]

theorem laterReadable_refl (file : Bytes) : LaterReadable P file file := by
  intro d i cid c hcall g g' hg hg' env stray hread
  rw [hg] at hg'
  cases hg'
  exact hread

theorem bytes_append (f : PasskeyFile) (r : PasskeyRecord) :
    f.bytes ++ writeRecord r = ofRecords (f.records ++ [r]) := by
  simp [PasskeyFile.bytes, ofRecords]

theorem savePasskeyRecord_bytes (P : Platform) (env : Env) (file : Bytes) (cid : Str) (c : StoredCredential) :
    RecordFile.savePasskeyRecord P env file cid c =
      if savable P env c then some (file ++ writeRecord (newPasskey P env cid c)) else none := by
  unfold RecordFile.savePasskeyRecord savable
  by_cases he : encryptStoragePayload P env (recordPayload c) (fidoHardwareKey P) = []
  · simp [he]
  · cases ho : env.opens .passkeys .write <;> simp [he, newPasskey]

/-! The same call once more, with another id drawn. -/

def redrawn (i : Input) (w : Bytes) : Input :=
  { i with env := { i.env with
      random := fun draw => if draw = .credentialId ∨ draw = .keyHandle then w else i.env.random draw } }

theorem redrawn_id {w : Bytes} (hw : w.length = 16) :
    (redrawn i w).env.draw .credentialId 16 = w ∧ (redrawn i w).env.draw .keyHandle 16 = w :=
  ⟨padTo_of_length hw, padTo_of_length hw⟩

theorem SaveCall.redrawn (h : SaveCall P d i cid c) {w : Bytes} (hw : w.length = 16) :
    SaveCall P d (redrawn i w) (toHex w) c := by
  obtain ⟨hcred, hhandle⟩ := redrawn_id (i := i) hw
  cases h with
  | resident request made =>
    have hcall := SaveCall.resident (i := GoiKey.redrawn i w) request made
    rwa [hcred] at hcall
  | u2f event made =>
    have hcall := SaveCall.u2f (d := d) (i := GoiKey.redrawn i w) event made
    rwa [hhandle] at hcall

theorem newPasskey_redrawn (w : Bytes) (cid' : Str) : newPasskey P (redrawn i w).env cid' c =
    { newPasskey P i.env cid c with cid := cid' } := rfl

theorem savable_redrawn (w : Bytes) : savable P (redrawn i w).env c = savable P i.env c := rfl

/-! Everything a save can do to the file. -/

theorem savePasskeyRecordShort_savable (cid : Str) (hsave : savable P i.env c = true) (f : PasskeyFile) (room : Nat) :
    savePasskeyRecordShort i.env P room f.bytes cid c =
      (true, f.bytes ++ (writeRecord (newPasskey P i.env cid c)).take room) := by
  rw [savePasskeyRecordShort_eq, hsave]
  rfl

theorem savePasskeyRecordShort_unsavable (hsave : savable P i.env c = false) (f : PasskeyFile) (room : Nat) :
    savePasskeyRecordShort i.env P room f.bytes cid c = (false, f.bytes) := by
  rw [savePasskeyRecordShort_eq, hsave]
  rfl

theorem saved_earlier (f : PasskeyFile) (room : Nat) {env : Env} {stray : Bytes} {id : Str}
    {c' : StoredCredential} (h : RecordFile.getPasskeyRecord P env stray f.bytes id = some c') :
    RecordFile.getPasskeyRecord P env stray (savePasskeyRecordShort i.env P room f.bytes cid c).2 id
      = some c' := by
  rw [savePasskeyRecordShort_eq]
  split
  · exact getPasskeyRecord_append h
  · exact h

/-- Everything opens and there is memory for everything. -/
def working (env : Env) : Env := { env with opens := fun _ _ => true, allocates := fun _ => true }

theorem working_legible {f : PasskeyFile} (hname : newline ∉ c.userName)
    (hfresh : cid ∉ f.records.map PasskeyRecord.cid) (env : Env) : Legible P (working env) f cid c := by
  refine ⟨rfl, ?_⟩
  rw [find_fresh hfresh]
  exact ⟨rfl, hname⟩

/-- The id of a call, and what the file has room for, leave an id that stands nowhere. -/
theorem fresh_id (f : PasskeyFile) (hsize : f.bytes.length < 2 ^ 32) (r : PasskeyRecord) {t : Bytes}
    (ht : t.length ≤ (writeRecord r).length) :
    ∃ w : Bytes, w.length = 16 ∧ toHex w ∉ f.records.map PasskeyRecord.cid ∧
      (∃ a u, toHex w = a :: u ∧ a ∉ u) ∧
      ¬ toHex w <:+: t ++ recordFront r.status r.algId (toHex w).length ∧
      ¬ toHex w <:+: recordBack r.rp r.payload := by
  have hrecords := length_le_ofRecords f.records
  have hrecord := writeRecord_length_le r
  have hrp := writeString_length_le r.rp
  have hpayload := writeString_length_le r.payload
  rw [PasskeyFile.bytes] at hsize
  obtain ⟨v, hid, hA, hB⟩ := familyId_fresh (f.records.map PasskeyRecord.cid)
    (t ++ recordFront r.status r.algId 32) (recordBack r.rp r.payload) (by
      simp only [List.length_map, List.length_append, recordFront_length, recordBack]
      omega)
  have hlen : (toHex (familyId v)).length = 32 := by rw [Hex.encode_length, familyId_length]
  obtain ⟨u, htext, hu⟩ := familyId_text v
  refine ⟨familyId v, familyId_length v, hid, ⟨_, u, htext, hu⟩, ?_, hB⟩
  rw [hlen]
  exact hA

/-- A proper part of a record costs the next one that is drawn an id the file does not hold. -/
theorem torn_loses_later (hp : RecordsSound P) (hcall : SaveCall P d i cid c)
    (hsave : savable P i.env c = true) (hname : newline ∉ c.userName) (f : PasskeyFile)
    (hsize : f.bytes.length < 2 ^ 32) {room : Nat} (hstarted : 0 < room)
    (hcut : room < (writeRecord (newPasskey P i.env cid c)).length) :
    ¬ LaterReadable P f.bytes (f.bytes ++ (writeRecord (newPasskey P i.env cid c)).take room) := by
  set r := newPasskey P i.env cid c with hr
  have htlen : ((writeRecord r).take room).length = room := by
    rw [List.length_take]
    omega
  obtain ⟨w, hw, hfresh, htext, hA, hB⟩ := fresh_id f hsize r (t := (writeRecord r).take room) (by omega)
  have hnext : newPasskey P (redrawn i w).env (toHex w) c = { r with cid := toHex w } :=
    newPasskey_redrawn w (toHex w)
  have hcallNext := hcall.redrawn hw
  have hsaveNext : ∀ file, RecordFile.savePasskeyRecord P (redrawn i w).env file (toHex w) c =
      some (file ++ writeRecord { r with cid := toHex w }) := by
    intro file
    rw [savePasskeyRecord_bytes, savable_redrawn, hsave, if_pos rfl, hnext]
  have hwhole : RecordFile.getPasskeyRecord P (working i.env) []
      (f.bytes ++ writeRecord { r with cid := toHex w }) (toHex w) = some c := by
    have hopens := newPasskey_opens_iff hp hcallNext.saveable (savable_iff.mp hsave).1
      (working i.env) (toHex w)
    rw [bytes_append, ← hnext]
    exact (getPasskeyRecord_saved_iff f (hcallNext.storable hp) hopens []).mpr
      (working_legible hname hfresh i.env)
  intro hlater
  have htorn := hlater d _ _ _ hcallNext _ _ (hsaveNext _) (hsaveNext _) _ _ hwhole
  have hproper : (writeRecord r).take room ≠ writeRecord r := by
    intro h
    rw [h] at htlen
    omega
  have hnonempty : (writeRecord r).take room ≠ [] := by
    intro h
    rw [h] at htlen
    exact hstarted.ne htlen
  have hnone : RecordFile.getPasskeyRecord P (working i.env) []
      (f.bytes ++ (writeRecord r).take room ++ writeRecord { r with cid := toHex w }) (toHex w) = none := by
    rw [List.append_assoc]
    exact getPasskeyRecord_behind_none hfresh fun n =>
      search_behind_torn { r with cid := toHex w } (hcall.storable hp) (List.take_prefix _ _)
        hproper hnonempty (toHex_delimited (by omega)) htext hA hB
  rw [hnone] at htorn
  cases htorn

theorem cutSafely_unsavable (hsave : savable P i.env c = false) (f : PasskeyFile) (room : Nat) :
    CutSafely P i f room cid c where
  earlier _ _ _ _ h := saved_earlier f room h
  later _ := by
    rw [savePasskeyRecordShort_unsavable hsave]
    exact laterReadable_refl f.bytes

theorem cutSafely_whole (f : PasskeyFile) {room : Nat}
    (hroom : (writeRecord (newPasskey P i.env cid c)).length ≤ room) : CutSafely P i f room cid c where
  earlier _ _ _ _ h := saved_earlier f room h
  later hcut := absurd hroom (Nat.not_le.mpr hcut)

/-- Nothing or all of the record, when power is lost while it is written. -/
theorem cutSafely_iff (hp : RecordsSound P) (hcall : SaveCall P d i cid c)
    (hsave : savable P i.env c = true) (hname : newline ∉ c.userName) (f : PasskeyFile)
    (hsize : f.bytes.length < 2 ^ 32) (room : Nat) : CutSafely P i f room cid c ↔
      room = 0 ∨ (writeRecord (newPasskey P i.env cid c)).length ≤ room := by
  constructor
  · intro h
    by_contra hcut
    have hlater := h.later (by omega)
    rw [savePasskeyRecordShort_savable _ hsave] at hlater
    exact torn_loses_later hp hcall hsave hname f hsize (by omega) (by omega) hlater
  · rintro (rfl | hroom)
    · refine ⟨fun _ _ _ _ h => saved_earlier f 0 h, fun _ => ?_⟩
      rw [savePasskeyRecordShort_savable _ hsave, List.take_zero, List.append_nil]
      exact laterReadable_refl f.bytes
    · exact cutSafely_whole f hroom

/-- True is returned for a whole record that can be read, exactly if all of it fitted. -/
theorem returned_iff (hp : RecordsSound P) (hcall : SaveCall P d i cid c)
    (hsave : savable P i.env c = true) (f : PasskeyFile) (room : Nat) :
    SavedSafely P i f room cid c ↔
      (writeRecord (newPasskey P i.env cid c)).length ≤ room ∧ ∃ env, Legible P env f cid c := by
  have hshort := savePasskeyRecordShort_savable cid hsave f room
  have hread : ∀ env stray, RecordFile.getPasskeyRecord P env stray
      (f.bytes ++ writeRecord (newPasskey P i.env cid c)) cid = some c ↔ Legible P env f cid c := by
    intro env stray
    have hopens := newPasskey_opens_iff hp hcall.saveable (savable_iff.mp hsave).1 env cid
    rw [bytes_append]
    exact getPasskeyRecord_saved_iff f (hcall.storable hp) hopens stray
  constructor
  · intro h
    have hret := h.returned
    rw [hshort] at hret
    obtain ⟨hwhole, env, stray, hfound⟩ := hret rfl
    refine ⟨(List.take_eq_self_iff _).mp (List.append_cancel_left hwhole), env, ?_⟩
    rw [← hread env stray, ← hwhole]
    exact hfound
  · rintro ⟨hroom, env, hlegible⟩
    refine ⟨cutSafely_whole f hroom, fun _ => ?_⟩
    rw [hshort, List.take_of_length_le hroom]
    exact ⟨rfl, env, [], (hread env []).mpr hlegible⟩

/-- A call that comes back has done well exactly if it gave up before it wrote, or the
whole record fitted and can be read back. Where power was lost, no byte or all of them
must have been written. -/
theorem savedSafely_iff (hp : RecordsSound P) (hcall : SaveCall P d i cid c) (f : PasskeyFile)
    (room : Nat) :
    (SavedSafely P i f room cid c ↔ (savable P i.env c = true →
      (writeRecord (newPasskey P i.env cid c)).length ≤ room ∧ ∃ env, Legible P env f cid c)) ∧
    (newline ∉ c.userName → f.bytes.length < 2 ^ 32 →
      (CutSafely P i f room cid c ↔ (savable P i.env c = true →
        room = 0 ∨ (writeRecord (newPasskey P i.env cid c)).length ≤ room))) := by
  cases hsave : savable P i.env c with
  | false =>
    have hcut : CutSafely P i f room cid c := cutSafely_unsavable hsave f room
    have hret : (savePasskeyRecordShort i.env P room f.bytes cid c).1 ≠ true := by
      rw [savePasskeyRecordShort_unsavable hsave]
      exact Bool.false_ne_true
    exact ⟨iff_of_true ⟨hcut, fun h => absurd h hret⟩ fun h => absurd h Bool.false_ne_true,
      fun _ _ => iff_of_true hcut fun h => absurd h Bool.false_ne_true⟩
  | true =>
    rw [imp_iff_right rfl, imp_iff_right rfl]
    exact ⟨returned_iff hp hcall hsave f room,
      fun hname hsize => cutSafely_iff hp hcall hsave hname f hsize room⟩

section Bench

open Bench

def noRecords : PasskeyFile := ⟨[], List.forall_mem_nil _⟩

theorem named_saveCall :
    SaveCall platform initial (named (text "n")) namedId (namedRecord (text "n")) := by
  have hsome : (registrationRequest initial (named (text "n"))).isSome = true := by decide +kernel
  have hmade : (generateCredentialKey platform (named (text "n")).env (-7)).isSome = true := by
    decide +kernel
  obtain ⟨req, hreq⟩ := Option.isSome_iff_exists.mp hsome
  obtain ⟨key, hkey⟩ := Option.isSome_iff_exists.mp hmade
  have halg : req.selectedAlgId = -7 := by
    have hget : ((registrationRequest initial (named (text "n"))).map
        fun req => req.selectedAlgId) = some (-7) := by decide +kernel
    rw [hreq] at hget
    exact Option.some.inj hget
  rw [namedRecord, hreq, hkey, Option.getD_some, Option.getD_some]
  refine .resident hreq ?_
  rw [halg]
  exact hkey

theorem named_savable :
    savable platform (named (text "n")).env (namedRecord (text "n")) = true := by decide +kernel

theorem named_name : newline ∉ (namedRecord (text "n")).userName := by decide +kernel

theorem named_record_length : (writeRecord (newPasskey platform (named (text "n")).env namedId
    (namedRecord (text "n")))).length = 250 := by decide +kernel

/-- With room for the record. -/
theorem savedSafely_named :
    SavedSafely platform (named (text "n")) noRecords 1000 namedId (namedRecord (text "n")) ∧
      CutSafely platform (named (text "n")) noRecords 1000 namedId (namedRecord (text "n")) := by
  have hroom : (writeRecord (newPasskey platform (named (text "n")).env namedId
      (namedRecord (text "n")))).length ≤ 1000 := by
    rw [named_record_length]
    decide
  obtain ⟨hsaved, hcut⟩ := savedSafely_iff recordsSound_bench named_saveCall noRecords 1000
  exact ⟨hsaved.mpr fun _ => ⟨hroom, idleEnv 2 0, rfl, rfl, named_name⟩,
    (hcut named_name (by decide)).mpr fun _ => .inr hroom⟩

/-- With room for its first 20 bytes the call returns true all the same, and another
record is lost with it. -/
theorem twentyBytes_lost :
    ¬ SavedSafely platform (named (text "n")) noRecords 20 namedId (namedRecord (text "n")) ∧
      ¬ CutSafely platform (named (text "n")) noRecords 20 namedId (namedRecord (text "n")) := by
  have hret := returned_iff recordsSound_bench named_saveCall named_savable noRecords 20
  have hcut := cutSafely_iff recordsSound_bench named_saveCall named_savable named_name noRecords
    (by decide) 20
  rw [named_record_length] at hret hcut
  exact ⟨fun h => absurd (hret.mp h).1 (by decide), fun h => absurd (hcut.mp h) (by decide)⟩

end Bench

end GoiKey
