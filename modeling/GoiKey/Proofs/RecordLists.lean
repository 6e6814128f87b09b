import GoiKey.Model.RecordLists
import GoiKey.Proofs.ShortWrites

/-!
All readers of the record file against the credentials that were saved and not
deleted. Each loop takes one record a round, whatever it seeks over.
-/

namespace GoiKey.RecordFile

variable {P : Platform} {env : Env} {stray : Bytes} {s : Str} {r : PasskeyRecord}
variable {records : List PasskeyRecord}

/-! One record a round. -/

theorem status_reads (r : PasskeyRecord) : Reads (RecordFile.readStatus stray) [r.status] r.status :=
  (readStatus_reads r).bind_pure (.pure r.status)

theorem seek_reads {b : Bytes} {n : Nat} (h : b.length = n) : Reads (seek n) b () := by
  intro rest
  rw [seek, ← h, List.drop_left]

theorem readLength_reads {n : Nat} (h : n < 2 ^ 16) : Reads (readLength stray) (littleEndian 2 n) n := by
  have hlen : fromLittleEndian (littleEndian 2 n) = n := fromLittleEndian_littleEndian h
  refine (read_reads (littleEndian_length 2 n)).bind_pure ?_
  rw [hlen]
  exact .pure n

theorem seekInt_reads (v : Int) : Reads (seek 4) (writeInt v) () := seek_reads (littleEndian_length 4 _)

theorem seekString_reads (h : Delimited s) : Reads (seekString stray) (writeString s) () := by
  rw [writeString_delimited h]
  exact (readLength_reads h.length).bind (seek_reads rfl)

theorem seekReadString_reads (h : Delimited s) : Reads (seekReadString stray) (writeString s) () := by
  rw [writeString_delimited h]
  refine .get fun rest => ?_
  have hcomplete : 2 ≤ (littleEndian 2 s.length ++ s ++ rest).length := by
    simp only [List.length_append, littleEndian_length]
    omega
  refine (readLength_reads h.length).bind ?_ rest
  rw [if_pos hcomplete]
  exact seek_reads rfl

variable {α : Type} {round : StateM Bytes α} {f : PasskeyRecord → α}

theorem rounds_ofRecords (hround : ∀ r ∈ records, Reads round (writeRecord r) (f r)) {n : Nat}
    (hn : records.length ≤ n) : rounds round n (ofRecords records) = records.map f := by
  induction records generalizing n with
  | nil => cases n <;> simp [rounds, ofRecords]
  | cons r records ih =>
    obtain ⟨n, rfl⟩ : ∃ m, n = m + 1 := ⟨n - 1, by simp at hn; omega⟩
    have hrest := ih (fun r hr => hround r (List.mem_cons_of_mem _ hr)) (n := n) (by simpa using hn)
    rw [rounds, if_neg ofRecords_cons_ne_nil, ofRecords_cons, hround r List.mem_cons_self, hrest,
      List.map_cons]

theorem walk_ofRecords (ho : env.opens .passkeys .read = true)
    (hround : ∀ r ∈ records, Reads round (writeRecord r) (f r)) :
    walk env round (ofRecords records) = records.map f := by
  rw [walk, if_pos ho, rounds_ofRecords hround (length_le_ofRecords records)]

theorem flatten_chosen {β γ : Type} (p : β → Bool) (g : β → List γ) (l : List β) :
    (l.map fun b => if p b then g b else []).flatten = (l.filter p).flatMap g := by
  induction l with
  | nil => rfl
  | cons b l ih =>
    rw [List.map_cons, List.flatten_cons, ih, List.filter_cons]
    cases p b <;> rfl

theorem flatten_singles {β γ : Type} (p : β → Bool) (g : β → γ) (l : List β) :
    (l.map fun b => if p b then [g b] else []).flatten = (l.filter p).map g := by
  rw [flatten_chosen p fun b => [g b], List.map_eq_flatMap]

/-- Pushing what is new keeps the first of each. -/
theorem foldl_pushNew (rps results : List Str) :
    rps.foldl pushNew results = results ++ (rps.filter fun rp => decide (rp ∉ results)).eraseDups := by
  induction rps generalizing results with
  | nil => simp
  | cons rp rps ih =>
    rw [List.foldl_cons, ih, pushNew, List.filter_cons]
    by_cases hmem : rp ∈ results
    · simp [hmem]
    · simp [hmem, List.eraseDups_cons, List.filter_filter, Bool.and_comm, beq_eq_decide]

theorem writeRecord_payload (h : Storable r) : writeRecord r = [r.status] ++ (writeInt r.algId ++
    (writeString r.cid ++ (writeString r.rp ++ (littleEndian 2 r.payload.length ++ r.payload)))) := by
  rw [writeRecord_eq, writeString_delimited h.payload]

/-! The readers over a file of records. -/

theorem isPasskeyExists_ofRecords (ho : env.opens .passkeys .read = true)
    (hs : ∀ r ∈ records, Storable r) (cid : Str) : isPasskeyExists env stray (ofRecords records) cid =
      records.any fun r => r.status == 1 && r.cid == cid := by
  rw [isPasskeyExists, walk_ofRecords (f := fun r => (r.status, r.cid)) ho]
  · rw [List.any_map]
    rfl
  · intro r hr
    rw [writeRecord_eq]
    refine (status_reads r).bind ?_
    refine (seekInt_reads r.algId).bind ?_
    refine (readSpiffsString_reads (hs r hr).cid).bind ?_
    refine (seekString_reads (hs r hr).rp).bind ?_
    exact (seekString_reads (hs r hr).payload).bind_pure (.pure _)

theorem findAllCredentialsByRp_ofRecords (ho : env.opens .passkeys .read = true)
    (hs : ∀ r ∈ records, Storable r) (rpId : Str) :
    findAllCredentialsByRp P env stray (ofRecords records) rpId =
      (records.filter fun r => r.status == 1 && rpFieldMatchesRpId P r.rp rpId).map (fun r => r.cid) := by
  rw [findAllCredentialsByRp, walk_ofRecords
    (f := fun r => if r.status == 1 && rpFieldMatchesRpId P r.rp rpId then [r.cid] else []) ho]
  · exact flatten_singles _ _ records
  · intro r hr
    rw [writeRecord_payload (hs r hr)]
    refine (status_reads r).bind ?_
    refine (seekInt_reads r.algId).bind ?_
    refine (readSpiffsString_reads (hs r hr).cid).bind ?_
    refine (readSpiffsString_reads (hs r hr).rp).bind ?_
    refine (readLength_reads (hs r hr).payload.length).bind ?_
    exact (seek_reads rfl).bind_pure (.pure _)

theorem getAllStoredCredentialIds_ofRecords (ho : env.opens .passkeys .read = true)
    (hs : ∀ r ∈ records, Storable r) : getAllStoredCredentialIds env stray (ofRecords records) =
      (records.filter fun r => r.status == 1).map (fun r => r.cid) := by
  rw [getAllStoredCredentialIds, walk_ofRecords (f := fun r => if r.status == 1 then [r.cid] else []) ho]
  · exact flatten_singles _ _ records
  · intro r hr
    rw [writeRecord_payload (hs r hr)]
    refine (status_reads r).bind ?_
    refine (seekInt_reads r.algId).bind ?_
    refine (readSpiffsString_reads (hs r hr).cid).bind ?_
    refine (readSpiffsString_reads (hs r hr).rp).bind ?_
    refine (readLength_reads (hs r hr).payload.length).bind ?_
    exact (seek_reads rfl).bind_pure (.pure _)

theorem getAllStoredRpIds_ofRecords (ho : env.opens .passkeys .read = true)
    (hs : ∀ r ∈ records, Storable r) : getAllStoredRpIds env stray (ofRecords records) =
      ((records.filter fun r => r.status == 1).map (fun r => r.rp)).foldl pushNew [] := by
  rw [getAllStoredRpIds, walk_ofRecords (f := fun r => if r.status == 1 then [r.rp] else []) ho]
  · rw [flatten_singles]
  · intro r hr
    rw [writeRecord_payload (hs r hr)]
    refine (status_reads r).bind ?_
    refine (seekInt_reads r.algId).bind ?_
    refine (readSpiffsString_reads (hs r hr).cid).bind ?_
    refine (readSpiffsString_reads (hs r hr).rp).bind ?_
    refine (readLength_reads (hs r hr).payload.length).bind ?_
    exact (seek_reads rfl).bind_pure (.pure _)

theorem listFidoWebsites_ofRecords (ho : env.opens .passkeys .read = true)
    (hs : ∀ r ∈ records, Storable r) : listFidoWebsites env stray (ofRecords records) =
      ⟨((records.filter fun r => r.status == 1).map (fun r => r.rp)).foldl pushNew [],
        (records.filter fun r => r.status == 1).length,
        maxDiscoverableCredentials - (records.filter fun r => r.status == 1).length⟩ := by
  rw [listFidoWebsites, walk_ofRecords (f := fun r => if r.status == 1 then [r.rp] else []) ho]
  · simp only [flatten_singles, List.length_map]
  · intro r hr
    rw [writeRecord_eq]
    refine (status_reads r).bind ?_
    refine (seekInt_reads r.algId).bind ?_
    refine (seekString_reads (hs r hr).cid).bind ?_
    refine (readSpiffsString_reads (hs r hr).rp).bind ?_
    exact (seekString_reads (hs r hr).payload).bind_pure (.pure _)

theorem passkeysCount_ofRecords (ho : env.opens .passkeys .read = true)
    (hs : ∀ r ∈ records, Storable r) : passkeysCount env stray (ofRecords records) =
      (records.filter fun r => r.status == 1).length := by
  rw [passkeysCount, walk_ofRecords (f := fun r => r.status) ho]
  · rw [List.countP_map, List.countP_eq_length_filter]
    rfl
  · intro r hr
    rw [writeRecord_eq]
    refine (status_reads r).bind ?_
    refine (seekInt_reads r.algId).bind ?_
    refine (seekReadString_reads (hs r hr).cid).bind ?_
    refine (seekReadString_reads (hs r hr).rp).bind ?_
    exact (seekReadString_reads (hs r hr).payload).bind_pure (.pure _)

/-- The line of a record of the site. -/
def lineOf (P : Platform) (env : Env) (key : Bytes) (r : PasskeyRecord) : Str :=
  websiteLine r.cid (decryptStoragePayload P env r.payload key)

theorem getFidoWebsiteInfo_ofRecords (ho : env.opens .passkeys .read = true)
    (hs : ∀ r ∈ records, Storable r) (key : Bytes) (site : Str) :
    getFidoWebsiteInfo P env stray (some key) (ofRecords records) site =
      (records.filter fun r => r.status == 1 && r.rp == site).flatMap (lineOf P env key) := by
  rw [getFidoWebsiteInfo, walk_ofRecords
    (f := fun r => if r.status == 1 && r.rp == site then lineOf P env key r else []) ho]
  · exact flatten_chosen _ _ records
  · intro r hr
    rw [writeRecord_payload (hs r hr)]
    refine (status_reads r).bind ?_
    refine (seekInt_reads r.algId).bind ?_
    refine (readSpiffsString_reads (hs r hr).cid).bind ?_
    refine (readSpiffsString_reads (hs r hr).rp).bind ?_
    refine (readLength_reads (hs r hr).payload.length).bind ?_
    cases r.status == 1 && r.rp == site with
    | true =>
      refine (read_reads rfl).bind_pure ?_
      rw [cstr_of_notMem (hs r hr).payload.notMem]
      exact .pure _
    | false => exact (seek_reads rfl).bind_pure (.pure _)

end GoiKey.RecordFile

namespace GoiKey

open RecordFile

/-! What was saved and not deleted. -/

/-- A credential whose record was written. -/
structure SavedPasskey (P : Platform) where
  device : Device
  input : Input
  cid : Str
  credential : StoredCredential
  call : SaveCall P device input cid credential
  written : savable P input.env credential = true

variable {P : Platform} {env : Env} {stray file key : Bytes} {saved : List (SavedPasskey P)}

def SavedPasskey.record (s : SavedPasskey P) : PasskeyRecord := newPasskey P s.input.env s.cid s.credential

/-- The files that calls which succeed make out of an empty one, with what they saved
and did not delete. -/
inductive PasskeyStore (P : Platform) : Bytes → List (SavedPasskey P) → Prop where
  | empty : PasskeyStore P [] []
  | save {file file' : Bytes} {saved : List (SavedPasskey P)} (stored : PasskeyStore P file saved)
    (s : SavedPasskey P)
    (call : RecordFile.savePasskeyRecord P s.input.env file s.cid s.credential = some file') :
    PasskeyStore P file' (saved ++ [s])
  | deletePasskeyRecord {env : Env} {stray file : Bytes} {saved : List (SavedPasskey P)}
    (stored : PasskeyStore P file saved) (cid : Str)
    (call : (RecordFile.deletePasskeyRecord env stray file cid).1 = true) :
    PasskeyStore P (RecordFile.deletePasskeyRecord env stray file cid).2 (saved.filter fun s => s.cid != cid)
  | deleteFidoWebsite {env : Env} {stray file : Bytes} {saved : List (SavedPasskey P)}
    (stored : PasskeyStore P file saved) (rpId : Str)
    (call : (RecordFile.deleteFidoWebsite env stray file rpId).1 = true) :
    PasskeyStore P (RecordFile.deleteFidoWebsite env stray file rpId).2
      (saved.filter fun s => s.credential.rpId != rpId)

/-- The line of a saved credential. -/
def SavedPasskey.line (s : SavedPasskey P) : Str :=
  s.credential.userName ++ text " | CRED_ID:" ++ s.cid ++ [newline]

/-- All readers present these credentials, with the storage key loaded. -/
structure ReadersAgree (P : Platform) (env : Env) (stray key file : Bytes) (saved : List (SavedPasskey P)) :
    Prop where
  isPasskeyExists : ∀ cid, RecordFile.isPasskeyExists env stray file cid = saved.any fun s => s.cid == cid
  getPasskeyRecord : ∀ cid, RecordFile.getPasskeyRecord P env stray file cid =
    (saved.find? fun s => s.cid == cid).map fun s => s.credential
  findCredentialIdByRpAndUser : ∀ rpId userIdHex,
    RecordFile.findCredentialIdByRpAndUser P env stray file rpId userIdHex =
      ((saved.find? fun s => rpFieldMatchesRpId P s.credential.rpId rpId &&
        (userIdHex == [] || s.credential.userIdHex == userIdHex)).map fun s => s.cid).getD []
  findAllCredentialsByRp : ∀ rpId, RecordFile.findAllCredentialsByRp P env stray file rpId =
    (saved.filter fun s => rpFieldMatchesRpId P s.credential.rpId rpId).map fun s => s.cid
  getAllStoredCredentialIds : RecordFile.getAllStoredCredentialIds env stray file =
    saved.map fun s => s.cid
  getAllStoredRpIds : RecordFile.getAllStoredRpIds env stray file =
    (saved.map fun s => s.credential.rpId).eraseDups
  listFidoWebsites : RecordFile.listFidoWebsites env stray file =
    ⟨(saved.map fun s => s.credential.rpId).eraseDups, saved.length,
      maxDiscoverableCredentials - saved.length⟩
  getFidoWebsiteInfo : ∀ site, RecordFile.getFidoWebsiteInfo P env stray (some key) file site =
    (saved.filter fun s => s.credential.rpId == site).flatMap fun s => s.line
  passkeysCount : RecordFile.passkeysCount env stray file = saved.length

/-! The file of the saved credentials. -/

theorem rewrite_hit {records : List PasskeyRecord} (hs : ∀ r ∈ records, Storable r)
    (hit : PasskeyRecord → Bool) (h : (rewrite env stray (ofRecords records) hit).1 = true) :
    (rewrite env stray (ofRecords records) hit).2 =
      ofRecords (records.filter fun r => r.status == 1 && !hit r) := by
  unfold rewrite at h ⊢
  rw [copyRecords_ofRecords hit hs (length_le_ofRecords records)] at h ⊢
  by_cases ho : (!env.opens .passkeys .read || !env.opens .passkeysTmp .write) = true
  · rw [if_pos ho] at h
    cases h
  · rw [if_neg ho] at h ⊢
    exact if_pos h

theorem record_storable (hp : RecordsSound P) : ∀ r ∈ saved.map SavedPasskey.record, Storable r := by
  intro r hr
  obtain ⟨s, -, rfl⟩ := List.mem_map.mp hr
  exact s.call.storable hp

theorem filter_records (hit : PasskeyRecord → Bool) (keep : SavedPasskey P → Bool)
    (h : ∀ s : SavedPasskey P, (s.record.status == 1 && hit s.record) = keep s) :
    (saved.map SavedPasskey.record).filter (fun r => r.status == 1 && hit r) =
      (saved.filter keep).map SavedPasskey.record := by
  rw [List.filter_map]
  congr 1
  exact List.filter_congr fun s _ => h s

theorem stored_file (hp : RecordsSound P) (h : PasskeyStore P file saved) :
    file = ofRecords (saved.map SavedPasskey.record) := by
  induction h with
  | empty => rfl
  | save stored s call ih =>
    rw [savePasskeyRecord_bytes, if_pos s.written, ih] at call
    cases call
    simp [ofRecords, SavedPasskey.record]
  | deletePasskeyRecord stored cid call ih =>
    rw [ih] at call ⊢
    rw [RecordFile.deletePasskeyRecord, rewrite_hit (record_storable hp) _ call]
    congr 1
    exact filter_records _ _ fun s => rfl
  | deleteFidoWebsite stored rpId call ih =>
    rw [ih] at call ⊢
    rw [RecordFile.deleteFidoWebsite, rewrite_hit (record_storable hp) _ call]
    congr 1
    exact filter_records _ _ fun s => rfl

/-! What the readers of payloads make of a record. -/

theorem decryptRecord_record (hp : RecordsSound P) (s : SavedPasskey P)
    (ha : env.allocates .plaintext = true) :
    decryptRecord P env s.record = recordPayload s.credential :=
  decryptRecord_saved hp s.call.saveable (savable_iff.mp s.written).1 s.cid ha

theorem recordUserId_record (hp : RecordsSound P) (s : SavedPasskey P)
    (ha : env.allocates .plaintext = true) :
    recordUserId P env s.record = some s.credential.userIdHex := by
  rw [recordUserId, decryptRecord_record hp s ha, recordPayload,
    Fields.cut_append s.call.saveable.unnamed.userIdHex.1]
  rfl

/-- The line that the storage key opens when it is the key of the records. -/
theorem websiteLine_payload (s : SavedPasskey P) :
    ∃ first, websiteLine s.cid (recordPayload s.credential) =
        first ++ text " | CRED_ID:" ++ s.cid ++ [newline] ∧
      first <+: s.credential.userName ∧ newline ∉ first := by
  obtain ⟨first, rest, hcut, hfirst, hfree⟩ := Fields.cut_first newline s.credential.userName
    (s.credential.privateKeyHex ++ newline :: (decimal s.credential.credProtect.toNat ++ newline ::
      (s.credential.largeBlobKeyHex ++ newline :: s.credential.credBlobHex)))
  refine ⟨first, ?_, hfirst, hfree⟩
  unfold websiteLine recordPayload
  rw [Fields.cut_append s.call.saveable.unnamed.userIdHex.1]
  simp only [hcut]

theorem websiteLine_whole (s : SavedPasskey P) (hname : newline ∉ s.credential.userName) :
    websiteLine s.cid (recordPayload s.credential) = s.line := by
  unfold websiteLine recordPayload
  rw [Fields.cut_append s.call.saveable.unnamed.userIdHex.1]
  simp only
  rw [Fields.cut_append hname]
  rfl

/-- Payloads of one key do not open under another one. -/
def Separates (P : Platform) (key : Bytes) : Prop :=
  key ≠ fidoHardwareKey P → ∀ iv plain cipher tag,
    P.gcmEncrypt (fidoHardwareKey P) iv plain = some (cipher, tag) → P.gcmDecrypt key iv cipher tag = none

theorem lineOf_other (hp : RecordsSound P) (hk : Separates P key) (hne : key ≠ fidoHardwareKey P)
    (ha : env.allocates .plaintext = true) (s : SavedPasskey P) : lineOf P env key s.record = [] := by
  obtain ⟨cipher, tag, henc, hopens⟩ := decrypt_encrypted hp (recordPayload_ne_nil s.credential)
    (savable_iff.mp s.written).1 ha
  have hclosed : decryptStoragePayload P env s.record.payload key = [] := by
    have hrefused := hopens key
    rw [hk hne _ _ _ _ henc] at hrefused
    exact hrefused
  rw [lineOf, hclosed]
  rfl

theorem lineOf_same (hp : RecordsSound P) (ha : env.allocates .plaintext = true) (s : SavedPasskey P) :
    lineOf P env (fidoHardwareKey P) s.record = websiteLine s.cid (recordPayload s.credential) := by
  rw [← decryptRecord_record hp s ha]
  rfl

/-! The readers. -/

/-- The seven readers that need neither the user name nor the storage key. -/
theorem readers_walk (hp : RecordsSound P) (h : PasskeyStore P file saved)
    (ho : env.opens .passkeys .read = true) (ha : env.allocates .plaintext = true)
    (hget : ∀ cid, RecordFile.getPasskeyRecord P env stray file cid =
      (saved.find? fun s => s.cid == cid).map fun s => s.credential)
    (hinfo : ∀ site, RecordFile.getFidoWebsiteInfo P env stray (some key) file site =
      (saved.filter fun s => s.credential.rpId == site).flatMap fun s => s.line) :
    ReadersAgree P env stray key file saved := by
  have hs : ∀ r ∈ saved.map SavedPasskey.record, Storable r := record_storable hp
  have hlive : (saved.map SavedPasskey.record).filter (fun r => r.status == 1) =
      saved.map SavedPasskey.record := by
    refine List.filter_eq_self.mpr fun r hr => ?_
    obtain ⟨s, -, rfl⟩ := List.mem_map.mp hr
    rfl
  rw [stored_file hp h] at hget hinfo ⊢
  constructor
  · intro cid
    rw [isPasskeyExists_ofRecords ho hs, List.any_map]
    rfl
  · exact hget
  · intro rpId userIdHex
    have hfile : RecordFile.findCredentialIdByRpAndUser P env stray
        (ofRecords (saved.map SavedPasskey.record)) rpId userIdHex =
          GoiKey.findCredentialIdByRpAndUser P env ⟨saved.map SavedPasskey.record, none⟩ rpId userIdHex :=
      findCredentialIdByRpAndUser_ofRecords ⟨saved.map SavedPasskey.record, none⟩ hs rpId userIdHex
    rw [hfile, GoiKey.findCredentialIdByRpAndUser, readPasskeys, if_pos ho, List.find?_map]
    have hwanted : ((fun r : PasskeyRecord => r.status == 1 && rpFieldMatchesRpId P r.rp rpId &&
        (recordUserId P env r).any fun u => userIdHex == [] || u == userIdHex) ∘ SavedPasskey.record) =
          fun s : SavedPasskey P => rpFieldMatchesRpId P s.credential.rpId rpId &&
            (userIdHex == [] || s.credential.userIdHex == userIdHex) := by
      funext s
      simp only [Function.comp_apply, recordUserId_record hp s ha]
      rfl
    rw [hwanted]
    cases saved.find? _ <;> rfl
  · intro rpId
    rw [findAllCredentialsByRp_ofRecords ho hs,
      filter_records _ (fun s => rpFieldMatchesRpId P s.credential.rpId rpId) fun s => rfl, List.map_map]
    rfl
  · rw [getAllStoredCredentialIds_ofRecords ho hs, hlive, List.map_map]
    rfl
  · rw [getAllStoredRpIds_ofRecords ho hs, hlive, List.map_map, foldl_pushNew]
    simp
    rfl
  · rw [listFidoWebsites_ofRecords ho hs, hlive, List.map_map, foldl_pushNew]
    simp
    rfl
  · exact hinfo
  · rw [passkeysCount_ofRecords ho hs, hlive, List.length_map]

theorem length_flatMap_le {β γ : Type} {f g : β → List γ} {l : List β}
    (hle : ∀ b ∈ l, (f b).length ≤ (g b).length) : (l.flatMap f).length ≤ (l.flatMap g).length := by
  induction l with
  | nil => exact Nat.le_refl _
  | cons b l ih =>
    have hb := hle b List.mem_cons_self
    have hrest := ih fun b hb => hle b (List.mem_cons_of_mem _ hb)
    simp only [List.flatMap_cons, List.length_append]
    omega

/-- Texts that only lose symbols, and lose none together. -/
theorem flatMap_eq_of_length_le {β γ : Type} {f g : β → List γ} {l : List β}
    (hle : ∀ b ∈ l, (f b).length ≤ (g b).length) (h : l.flatMap f = l.flatMap g) :
    ∀ b ∈ l, f b = g b := by
  induction l with
  | nil => exact List.forall_mem_nil _
  | cons b l ih =>
    have hb := hle b List.mem_cons_self
    have hle' : ∀ b ∈ l, (f b).length ≤ (g b).length := fun b hb => hle b (List.mem_cons_of_mem _ hb)
    have hrest := length_flatMap_le hle'
    rw [List.flatMap_cons, List.flatMap_cons] at h
    have hlen := congrArg List.length h
    simp only [List.length_append] at hlen
    obtain ⟨hfirst, htail⟩ := List.append_inj h (by omega)
    exact List.forall_mem_cons.mpr ⟨hfirst, ih hle' htail⟩

theorem getFidoWebsiteInfo_saved (hp : RecordsSound P) (h : PasskeyStore P file saved)
    (ho : env.opens .passkeys .read = true) (stray key : Bytes) (site : Str) :
    RecordFile.getFidoWebsiteInfo P env stray (some key) file site =
      (saved.filter fun s => s.credential.rpId == site).flatMap fun s => lineOf P env key s.record := by
  rw [stored_file hp h, getFidoWebsiteInfo_ofRecords ho (record_storable hp),
    filter_records _ (fun s => s.credential.rpId == site) fun s => rfl, List.flatMap_map]

/-- A site whose lines are as they should be has names of one line, and the storage
key is that of the records. -/
theorem readers_agree_needs (hp : RecordsSound P) (hk : Separates P key) (h : PasskeyStore P file saved)
    (ho : env.opens .passkeys .read = true) (ha : env.allocates .plaintext = true)
    (hagree : ReadersAgree P env stray key file saved) (s : SavedPasskey P) (hmem : s ∈ saved) :
    key = fidoHardwareKey P ∧ newline ∉ s.credential.userName := by
  have hinfo := hagree.getFidoWebsiteInfo s.credential.rpId
  rw [getFidoWebsiteInfo_saved hp h ho] at hinfo
  have hsite : s ∈ saved.filter fun s' => s'.credential.rpId == s.credential.rpId :=
    List.mem_filter.mpr ⟨hmem, beq_self_eq_true _⟩
  have hkey : key = fidoHardwareKey P := by
    by_contra hne
    have hlines : ∀ s : SavedPasskey P, lineOf P env key s.record = [] := lineOf_other hp hk hne ha
    simp only [hlines] at hinfo
    have hnil := List.flatMap_eq_nil_iff.mp (hinfo.symm.trans (List.flatMap_eq_nil_iff.mpr fun _ _ => rfl))
    have hline := hnil s hsite
    simp [SavedPasskey.line] at hline
  refine ⟨hkey, ?_⟩
  rw [hkey] at hinfo
  simp only [lineOf_same hp ha] at hinfo
  have hline := flatMap_eq_of_length_le (fun s _ => ?_) hinfo s hsite
  · obtain ⟨first, hfirst, -, hfree⟩ := websiteLine_payload s
    rw [hfirst, SavedPasskey.line] at hline
    have hname : first = s.credential.userName := by
      simpa only [List.append_cancel_right_eq] using hline
    rw [← hname]
    exact hfree
  · obtain ⟨first, hfirst, hprefix, -⟩ := websiteLine_payload s
    have hle := hprefix.length_le
    rw [hfirst, SavedPasskey.line]
    simp only [List.length_append]
    omega

theorem getPasskeyRecord_saved (hp : RecordsSound P) (h : PasskeyStore P file saved)
    (ho : env.opens .passkeys .read = true) (ha : env.allocates .plaintext = true) (stray : Bytes)
    (hname : ∀ s ∈ saved, newline ∉ s.credential.userName) (cid : Str) :
    RecordFile.getPasskeyRecord P env stray file cid =
      (saved.find? fun s => s.cid == cid).map fun s => s.credential := by
  have hfile : RecordFile.getPasskeyRecord P env stray (ofRecords (saved.map SavedPasskey.record)) cid =
      getPasskeyRecord P env ⟨saved.map SavedPasskey.record, none⟩ cid :=
    getPasskeyRecord_ofRecords ⟨saved.map SavedPasskey.record, none⟩ (record_storable hp) cid
  rw [stored_file hp h, hfile, getPasskeyRecord_opened ho, List.find?_map]
  have hwanted : ((fun r : PasskeyRecord => r.status == 1 && r.cid == cid) ∘ SavedPasskey.record) =
      fun s : SavedPasskey P => s.cid == cid := rfl
  rw [hwanted]
  cases hfind : saved.find? fun s => s.cid == cid with
  | none => rfl
  | some s =>
    exact (newPasskey_opens_iff hp s.call.saveable (savable_iff.mp s.written).1 env s.cid).mpr
      ⟨ha, hname s (List.mem_of_find?_eq_some hfind)⟩

/-- All readers agree exactly if the storage key is that of the records and no user
name has a line feed; over an empty file they always do. -/
theorem readers_agree_iff (hp : RecordsSound P) (hk : Separates P key) (h : PasskeyStore P file saved)
    (ho : env.opens .passkeys .read = true) (ha : env.allocates .plaintext = true) (stray : Bytes) :
    ReadersAgree P env stray key file saved ↔
      ∀ s ∈ saved, key = fidoHardwareKey P ∧ newline ∉ s.credential.userName := by
  constructor
  · exact readers_agree_needs hp hk h ho ha
  · intro hall
    refine readers_walk hp h ho ha (getPasskeyRecord_saved hp h ho ha stray fun s hs => (hall s hs).2) ?_
    intro site
    rw [getFidoWebsiteInfo_saved hp h ho]
    refine List.flatMap_congr fun s hs => ?_
    obtain ⟨hkey, hname⟩ := hall s (List.mem_of_mem_filter hs)
    rw [hkey, lineOf_same hp ha]
    exact websiteLine_whole s hname

section Bench

open Bench

/-- A cipher whose tag is the front of its key. -/
def sealedPlatform : Platform :=
  { platform with
    gcmEncrypt := fun key _ plain => some (plain, padTo 16 key)
    gcmDecrypt := fun key _ cipher t => if t = padTo 16 key then some cipher else none }

theorem recordsSound_sealed : RecordsSound sealedPlatform where
  gcm := by
    intro key iv plain cipher tag h
    cases h
    exact if_pos rfl
  cbc := storageSound_bench.cbc
  sha256_length := storageSound_bench.sha256_length
  hmac_length := storageSound_bench.hmac_length
  gcm_length := by
    intro key iv plain cipher tag h
    cases h
    exact ⟨rfl, padTo_length 16 key⟩
  key_length := by
    intro algId key h
    cases h with
    | p256 made => exact recordsSound_bench.key_length _ _ (.p256 made)
    | fpgaP256 made => cases made
    | ed25519 length => exact recordsSound_bench.key_length _ _ (.ed25519 length)
    | fpgaEd25519 made => cases made
    | rsa made => exact recordsSound_bench.key_length _ _ (.rsa made)
    | fpgaRsa made => cases made
    | mldsa alg made => exact recordsSound_bench.key_length _ _ (.mldsa alg made)
    | fpgaMldsa alg made => cases made

/-- The key of the session with the PIN 1234. -/
def pinKey : Bytes := deriveStorageKey platform (text "1234")

theorem separates_sealed : Separates sealedPlatform pinKey := by
  intro _ iv plain cipher tag h
  have hkeys : padTo 16 (fidoHardwareKey sealedPlatform) ≠ padTo 16 pinKey := by decide +kernel
  have htag : padTo 16 (fidoHardwareKey sealedPlatform) = tag := congrArg Prod.snd (Option.some.inj h)
  change (if tag = padTo 16 pinKey then some cipher else none) = none
  rw [if_neg]
  rw [← htag]
  exact hkeys

theorem readers_agree_empty : ReadersAgree sealedPlatform (idleEnv 2 0) [] pinKey [] [] :=
  (readers_agree_iff recordsSound_sealed separates_sealed .empty rfl rfl []).mpr (List.forall_mem_nil _)

def namedPasskey : SavedPasskey platform where
  device := initial
  input := named (text "n")
  cid := namedId
  credential := namedRecord (text "n")
  call := named_saveCall
  written := named_savable

/-- With one credential saved, the site's information is empty. -/
theorem websiteInfo_empty :
    PasskeyStore platform (namedFile (text "n")) [namedPasskey] ∧
      ¬ ReadersAgree platform (idleEnv 2 0) [] pinKey (namedFile (text "n")) [namedPasskey] := by
  have hsaved : RecordFile.savePasskeyRecord platform (named (text "n")).env [] namedId
      (namedRecord (text "n")) = some (namedFile (text "n")) := by decide +kernel
  refine ⟨.save .empty namedPasskey hsaved, fun h => ?_⟩
  have hinfo : RecordFile.getFidoWebsiteInfo platform (idleEnv 2 0) [] (some pinKey)
      (namedFile (text "n")) site = [] := by decide +kernel
  have hline : ([namedPasskey].filter fun s => s.credential.rpId == site).flatMap (fun s => s.line) ≠ [] := by
    decide +kernel
  exact hline ((h.getFidoWebsiteInfo site).symm.trans hinfo)

end Bench

end GoiKey
