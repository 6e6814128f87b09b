import GoiKey.Proofs.Parsing
import GoiKey.Proofs.RecordFile
import GoiKey.Proofs.Records
import GoiKey.Proofs.SigningKeys

/-!
The tuple a resident registration saves, read back from the file: the text of its
payload is cut at the first line feeds, wherever they come from.
-/

namespace GoiKey

open RecordFile

variable {P : Platform} {env env' : Env} {stray : Bytes} {d : Device} {i : Input}
variable {req : MakeCredentialRequest} {key : KeyPair} {c c' : StoredCredential}

/-- What is known of the linked cipher and key generators: no text grows when it is
encrypted, a tag has 16 bytes, and the longest private key is a wrapped ML-DSA-87 one. -/
structure RecordsSound (P : Platform) : Prop extends StorageSound P where
  gcm_length : ∀ key iv plain cipher tag, P.gcmEncrypt key iv plain = some (cipher, tag) →
    cipher.length = plain.length ∧ tag.length = 16
  key_length : ∀ algId key, KeyOrigin P algId key → key.privateKeyHex.length ≤ 2 * 4928

/-! The text of a record. -/

/-- No field holds a separator, up to the one that runs to the end. -/
structure Separable (c : StoredCredential) : Prop extends Writable c where
  credProtect : 1 ≤ c.credProtect ∧ c.credProtect ≤ 3
  largeBlobKeyHex : newline ∉ c.largeBlobKeyHex ∧ 0 ∉ c.largeBlobKeyHex
  credBlobHex : 0 ∉ c.credBlobHex

theorem decimal_level {n : Int} (h : 1 ≤ n ∧ n ≤ 3) : newline ∉ decimal n.toNat ∧
    0 ∉ decimal n.toNat ∧ credProtectField (decimal n.toNat) = n ∧ (decimal n.toNat).length = 1 := by
  obtain ⟨hlow, hhigh⟩ := h
  have hn : n = 1 ∨ n = 2 ∨ n = 3 := by omega
  rcases hn with rfl | rfl | rfl <;> simp [decimal] <;> decide

theorem parsePayload_separable (h : Separable c) :
    parsePayload c.rpId c.algId (recordPayload c) = some c := by
  obtain ⟨hfeed, -, hlevel, -⟩ := decimal_level h.credProtect
  unfold parsePayload recordPayload
  rw [Fields.cut_append h.userIdHex.1]
  simp only
  rw [Fields.cut_append h.userName.1]
  simp only
  unfold parsePayloadTail
  rw [Fields.cut_append h.privateKeyHex.1]
  simp only
  rw [Fields.cut_append hfeed]
  simp only
  rw [Fields.cut_append h.largeBlobKeyHex.1]
  simp only [hlevel]

theorem parsePayloadTail_userName (c : StoredCredential) (rest : Str) :
    (parsePayloadTail c rest).userName = c.userName := by
  unfold parsePayloadTail
  repeat' split
  all_goals rfl

/-- No text opens to a user name with a line feed in it. -/
theorem parsePayload_userName {rpId plain : Str} {algId : Int}
    (h : parsePayload rpId algId plain = some c) : newline ∉ c.userName := by
  unfold parsePayload at h
  split at h
  · cases h
  · split at h
    · cases h
    next name rest hcut =>
      cases h
      rw [parsePayloadTail_userName]
      exact (Fields.cut_some hcut).2

/-! The payload of a saved record. -/

/-- With memory for it, a payload opens to what any key makes of its cipher text. -/
theorem decrypt_encrypted (hp : RecordsSound P) {plain key : Bytes} (hplain : plain ≠ [])
    (h : encryptStoragePayload P env plain key ≠ []) (ha : env'.allocates .plaintext = true) :
    ∃ cipher tag, P.gcmEncrypt key (env.draw .nonce 12) plain = some (cipher, tag) ∧
      ∀ key', decryptStoragePayload P env' (encryptStoragePayload P env plain key) key' =
        (P.gcmDecrypt key' (env.draw .nonce 12) cipher tag).elim [] cstr := by
  obtain ⟨cipher, tag, henc, hpayload⟩ := encryptStoragePayload_some h
  obtain ⟨hcipher, htag⟩ := hp.gcm_length _ _ _ _ _ henc
  have hparts : ¬ (tag.length ≠ 16 ∨ cipher = []) := by
    rw [not_or, not_ne_iff]
    refine ⟨htag, fun hnil => hplain (List.eq_nil_of_length_eq_zero ?_)⟩
    rw [← hcipher, hnil]
    rfl
  refine ⟨cipher, tag, henc, fun key' => ?_⟩
  rw [hpayload, decryptStoragePayload_parts, if_pos ha, storedParts_toHex (Env.draw_length _ _ _),
    if_neg hparts]
  rfl

/-- Its own key makes of it the text it was made from. -/
theorem decrypt_encrypt_eq (hp : RecordsSound P) {plain key : Bytes} (hplain : plain ≠ [])
    (h : encryptStoragePayload P env plain key ≠ []) (ha : env'.allocates .plaintext = true) :
    decryptStoragePayload P env' (encryptStoragePayload P env plain key) key = cstr plain := by
  obtain ⟨cipher, tag, henc, hopens⟩ := decrypt_encrypted hp hplain h ha
  rw [hopens key, hp.gcm _ _ _ _ _ henc]
  rfl

theorem recordPayload_ne_nil (c : StoredCredential) : recordPayload c ≠ [] := by
  simp [recordPayload]

theorem encryptStoragePayload_delimited (hp : RecordsSound P) {plain key : Bytes}
    (hlen : plain.length ≤ 2 ^ 14) : Delimited (encryptStoragePayload P env plain key) := by
  by_cases hnil : encryptStoragePayload P env plain key = []
  · rw [hnil]
    exact ⟨by decide, List.not_mem_nil⟩
  obtain ⟨cipher, tag, henc, hpayload⟩ := encryptStoragePayload_some hnil
  obtain ⟨hcipher, htag⟩ := hp.gcm_length _ _ _ _ _ henc
  have hnul : ¬ Hex.IsDigit 0 := by unfold Hex.IsDigit; decide
  rw [hpayload]
  constructor
  · simp only [List.length_append, List.length_cons, Hex.encode_length, Env.draw_length, hcipher, htag]
    omega
  · simp only [List.mem_append, List.mem_cons, not_or]
    exact ⟨notMem_toHex hnul _, by decide, notMem_toHex hnul _, by decide, notMem_toHex hnul _⟩

/-! The record of a MakeCredential request. -/

theorem createdLargeBlobKey_hex (env : Env) (req : MakeCredentialRequest) :
    ∃ b : Bytes, (createdLargeBlobKey env req).elim [] toHex = toHex b ∧ b.length ≤ 32 := by
  unfold createdLargeBlobKey
  split
  · exact ⟨_, rfl, (Env.draw_length _ _ _).le⟩
  · exact ⟨[], rfl, Nat.zero_le _⟩

theorem storedCredBlob_hex (req : MakeCredentialRequest) :
    ∃ b : Bytes, storedCredBlob req = toHex b ∧ b.length ≤ 32 := by
  unfold storedCredBlob
  split
  next h =>
    simp only [Bool.and_eq_true, decide_eq_true_eq] at h
    exact ⟨_, rfl, h.2⟩
  · exact ⟨[], rfl, Nat.zero_le _⟩

/-- No field but the user name holds a line feed. -/
structure Saveable (c : StoredCredential) : Prop where
  unnamed : Separable { c with userName := [] }
  userName : 0 ∉ c.userName

theorem Saveable.separable (h : Saveable c) (hname : newline ∉ c.userName) : Separable c where
  userIdHex := h.unnamed.userIdHex
  userName := ⟨hname, h.userName⟩
  privateKeyHex := h.unnamed.privateKeyHex
  credProtect := h.unnamed.credProtect
  largeBlobKeyHex := h.unnamed.largeBlobKeyHex
  credBlobHex := h.unnamed.credBlobHex

theorem cstr_saveable (h : Saveable c) : cstr (recordPayload c) = recordPayload c := by
  obtain ⟨-, hnul, -, -⟩ := decimal_level h.unnamed.credProtect
  have hn : (0 : UInt8) ≠ newline := by decide
  refine cstr_of_notMem ?_
  simp only [recordPayload, List.mem_append, List.mem_cons, not_or]
  exact ⟨h.unnamed.userIdHex.2, hn, h.userName, hn, h.unnamed.privateKeyHex.2, hn, hnul, hn,
    h.unnamed.largeBlobKeyHex.2, hn, h.unnamed.credBlobHex⟩

theorem newRecord_saveable (hb : Buffered req)
    (hk : generateCredentialKey P env req.selectedAlgId = some key) : Saveable (newRecord env req key) where
  userName := hb.userName.notMem
  unnamed :=
    { userIdHex := notMem_toHex_separators _
      userName := ⟨List.not_mem_nil, List.not_mem_nil⟩
      privateKeyHex := by
        obtain ⟨b, hhex⟩ := (madeKey_origin (.inl hk)).hex
        change newline ∉ key.privateKeyHex ∧ 0 ∉ key.privateKeyHex
        rw [hhex]
        exact notMem_toHex_separators b
      credProtect := by
        obtain ⟨hlow, hhigh⟩ := hb.requestedCredProtect
        exact ⟨Int.ofNat_le.mpr hlow, Int.ofNat_le.mpr hhigh⟩
      largeBlobKeyHex := by
        obtain ⟨b, hhex, -⟩ := createdLargeBlobKey_hex env req
        change newline ∉ (createdLargeBlobKey env req).elim [] toHex ∧
          _ ∉ (createdLargeBlobKey env req).elim [] toHex
        rw [hhex]
        exact notMem_toHex_separators b
      credBlobHex := by
        obtain ⟨b, hhex, -⟩ := storedCredBlob_hex req
        change 0 ∉ storedCredBlob req
        rw [hhex]
        exact (notMem_toHex_separators b).2 }

theorem newRecord_length (hp : RecordsSound P) (hb : Buffered req)
    (hk : generateCredentialKey P env req.selectedAlgId = some key) :
    (recordPayload (newRecord env req key)).length ≤ 2 ^ 14 := by
  have huser := hb.userIdRaw
  have hname := hb.userName.length
  have hkey := hp.key_length _ _ (madeKey_origin (.inl hk))
  obtain ⟨hlow, hhigh⟩ := hb.requestedCredProtect
  have hlevel : (decimal (newRecord env req key).credProtect.toNat).length = 1 :=
    (decimal_level ⟨Int.ofNat_le.mpr hlow, Int.ofNat_le.mpr hhigh⟩).2.2.2
  obtain ⟨blobKey, hblobKey, hblobKeyLen⟩ := createdLargeBlobKey_hex env req
  obtain ⟨blob, hblob, hblobLen⟩ := storedCredBlob_hex req
  simp only [recordPayload, List.length_append, List.length_cons, hlevel]
  simp only [newRecord, hblobKey, hblob, Hex.encode_length]
  omega

theorem KeyOrigin.algId {algId : Int} (h : KeyOrigin P algId key) :
    toInt32 (algId % 2 ^ 32).toNat = algId := by
  have hpq : isMlDsa algId = true → toInt32 (algId % 2 ^ 32).toNat = algId := by
    intro ha
    simp only [isMlDsa, Bool.or_eq_true, beq_iff_eq] at ha
    rcases ha with (rfl | rfl) | rfl <;> decide
  cases h with
  | p256 made => decide
  | fpgaP256 made => decide
  | ed25519 length => decide
  | fpgaEd25519 made => decide
  | rsa made => decide
  | fpgaRsa made => decide
  | mldsa alg made => exact hpq alg
  | fpgaMldsa alg made => exact hpq alg

theorem toHex_delimited {b : Bytes} (h : b.length ≤ 2 ^ 14) : Delimited (toHex b) :=
  ⟨by rw [Hex.encode_length]; omega, (notMem_toHex_separators b).2⟩

/-- A record loses nothing in the file when its fields are of these sizes. -/
theorem newPasskey_storable (hp : RecordsSound P) {id : Bytes} (hid : id.length ≤ 2 ^ 14)
    (ha : toInt32 (c.algId % 2 ^ 32).toNat = c.algId) (hrp : Delimited c.rpId)
    (hlen : (recordPayload c).length ≤ 2 ^ 14) : Storable (newPasskey P env (toHex id) c) where
  algId := ha
  cid := toHex_delimited hid
  rp := hrp
  payload := encryptStoragePayload_delimited hp hlen

theorem newRecord_storable (hp : RecordsSound P) (hb : Buffered req)
    (hk : generateCredentialKey P env req.selectedAlgId = some key) :
    Storable (newPasskey P env (toHex (env.draw .credentialId 16)) (newRecord env req key)) :=
  newPasskey_storable hp (by rw [Env.draw_length]; omega) (madeKey_origin (.inl hk)).algId
    ⟨hb.targetRpId.length.trans (by decide), hb.targetRpId.notMem⟩ (newRecord_length hp hb hk)

theorem u2fRecord_storable (hp : RecordsSound P) {appId : Bytes} (happ : appId.length ≤ 2 ^ 14)
    (hk : generateCredentialKeyP256 P env = some key) :
    Storable (newPasskey P env (toHex (env.draw .keyHandle 16)) (u2fRecord appId key.privateKeyHex)) := by
  have hkey := hp.key_length _ _ (generateCredentialKeyP256_origin hk)
  have hlevel : (decimal (u2fRecord appId key.privateKeyHex).credProtect.toNat).length = 1 :=
    (decimal_level (n := 1) (by decide)).2.2.2
  have halg : toInt32 ((-7 : Int) % 2 ^ 32).toNat = -7 := by decide
  refine newPasskey_storable hp (by rw [Env.draw_length]; omega) halg (toHex_delimited happ) ?_
  simp only [recordPayload, List.length_append, List.length_cons, hlevel]
  simp only [u2fRecord, List.length_nil]
  omega

/-! Reading it back. -/

/-- The record under this id reads as this tuple, and every other as before. -/
def ReadsBack (P : Platform) (env : Env) (stray file file' : Bytes) (cid : Str)
    (c : StoredCredential) : Prop :=
  RecordFile.getPasskeyRecord P env stray file' cid = some c ∧
    ∀ id, id ≠ cid → RecordFile.getPasskeyRecord P env stray file' id =
      RecordFile.getPasskeyRecord P env stray file id

/-- The file opens and there is memory for the text, whose user name has no line
feed. An id that is in use already stands for what its first record holds. -/
def Legible (P : Platform) (env : Env) (f : PasskeyFile) (cid : Str) (c : StoredCredential) : Prop :=
  env.opens .passkeys .read = true ∧
    match f.records.find? fun r => r.status == 1 && r.cid == cid with
    | none => env.allocates .plaintext = true ∧ newline ∉ c.userName
    | some r => parsePayload r.rp r.algId (decryptRecord P env r) = some c

theorem getPasskeyRecord_opened {k : Keystore} {cid : Str} (ho : env.opens .passkeys .read = true) :
    getPasskeyRecord P env k cid = (k.passkeys.find? fun r => r.status == 1 && r.cid == cid).bind
      fun r => parsePayload r.rp r.algId (decryptRecord P env r) := by
  unfold getPasskeyRecord readPasskeys
  rw [if_pos ho]
  cases k.passkeys.find? fun r => r.status == 1 && r.cid == cid with
  | none => rfl
  | some r =>
    simp only [Option.bind_some]
    split
    next hnil => rw [hnil]; rfl
    · rfl

theorem getPasskeyRecord_unopened {k : Keystore} {cid : Str} (ho : env.opens .passkeys .read = false) :
    getPasskeyRecord P env k cid = none := by
  unfold getPasskeyRecord readPasskeys
  rw [ho]
  rfl

/-- The text of a record, with memory to open it. -/
theorem decryptRecord_saved (hp : RecordsSound P) (hc : Saveable c)
    (hs : encryptStoragePayload P env (recordPayload c) (fidoHardwareKey P) ≠ []) (cid : Str)
    (ha : env'.allocates .plaintext = true) :
    decryptRecord P env' (newPasskey P env cid c) = recordPayload c := by
  rw [decryptRecord, newPasskey, decrypt_encrypt_eq hp (recordPayload_ne_nil c) hs ha, cstr_saveable hc]

theorem newPasskey_opens_iff (hp : RecordsSound P) (hc : Saveable c)
    (hs : encryptStoragePayload P env (recordPayload c) (fidoHardwareKey P) ≠ []) (env' : Env) (cid : Str) :
    parsePayload c.rpId c.algId (decryptRecord P env' (newPasskey P env cid c)) = some c ↔
      env'.allocates .plaintext = true ∧ newline ∉ c.userName := by
  constructor
  · intro h
    refine ⟨?_, parsePayload_userName h⟩
    by_contra ha
    rw [decryptRecord, decryptStoragePayload_refused (by simpa using ha)] at h
    cases h
  · rintro ⟨ha, hname⟩
    rw [decryptRecord_saved hp hc hs cid ha]
    exact parsePayload_separable (hc.separable hname)

/-- What saving does to a file of records. -/
theorem savePasskeyRecord_file {f : PasskeyFile} {cid : Str} {file' : Bytes}
    (h : RecordFile.savePasskeyRecord P env f.bytes cid c = some file') :
    encryptStoragePayload P env (recordPayload c) (fidoHardwareKey P) ≠ [] ∧
      file' = ofRecords (f.records ++ [newPasskey P env cid c]) := by
  unfold RecordFile.savePasskeyRecord at h
  simp only at h
  split at h
  · cases h
  next hs =>
    split at h
    · cases h
      exact ⟨hs, by simp [ofRecords, PasskeyFile.bytes, newPasskey]⟩
    · cases h

theorem appended_storable {f : PasskeyFile} {r : PasskeyRecord} (hr : Storable r) :
    ∀ r' ∈ f.records ++ [r], Storable r' := by
  intro r' hmem
  rcases List.mem_append.mp hmem with hold | hnew
  · exact f.storable r' hold
  · rw [List.mem_singleton.mp hnew]
    exact hr

/-- A new record is found under its id exactly if it is legible. -/
theorem getPasskeyRecord_saved_iff (f : PasskeyFile) {cid : Str} (hs : Storable (newPasskey P env cid c))
    (hopens : parsePayload c.rpId c.algId (decryptRecord P env' (newPasskey P env cid c)) = some c ↔
      env'.allocates .plaintext = true ∧ newline ∉ c.userName) (stray : Bytes) :
    RecordFile.getPasskeyRecord P env' stray (ofRecords (f.records ++ [newPasskey P env cid c])) cid = some c
      ↔ Legible P env' f cid c := by
  have hafter : RecordFile.getPasskeyRecord P env' stray
      (ofRecords (f.records ++ [newPasskey P env cid c])) cid =
        getPasskeyRecord P env' ⟨f.records ++ [newPasskey P env cid c], none⟩ cid :=
    getPasskeyRecord_ofRecords ⟨f.records ++ [newPasskey P env cid c], none⟩ (appended_storable hs) cid
  rw [hafter]
  unfold Legible
  cases ho : env'.opens .passkeys .read with
  | false => simp [getPasskeyRecord_unopened ho]
  | true =>
    rw [getPasskeyRecord_opened ho, List.find?_append]
    cases f.records.find? fun r => r.status == 1 && r.cid == cid with
    | some r => simp
    | none => simpa [newPasskey] using hopens

/-- A saved tuple is read back, and no other changed, exactly if its user name
has no line feed and reading works, its id being new. -/
theorem savedRecord_reads_back_iff (hp : RecordsSound P) (f : PasskeyFile) {file' : Bytes}
    (hreq : req ∈ registrationRequest d i)
    (hk : generateCredentialKey P i.env req.selectedAlgId = some key)
    (hsaved : RecordFile.savePasskeyRecord P i.env f.bytes (toHex (i.env.draw .credentialId 16))
      (newRecord i.env req key) = some file') (env : Env) (stray : Bytes) :
    ReadsBack P env stray f.bytes file' (toHex (i.env.draw .credentialId 16)) (newRecord i.env req key)
      ↔ Legible P env f (toHex (i.env.draw .credentialId 16)) (newRecord i.env req key) := by
  set cid := toHex (i.env.draw .credentialId 16)
  set c := newRecord i.env req key
  have hb := registrationRequest_buffered hreq
  obtain ⟨hs, rfl⟩ := savePasskeyRecord_file hsaved
  have hstorable : Storable (newPasskey P i.env cid c) := newRecord_storable hp hb hk
  have hothers : ∀ id, id ≠ cid → RecordFile.getPasskeyRecord P env stray
      (ofRecords (f.records ++ [newPasskey P i.env cid c])) id =
        RecordFile.getPasskeyRecord P env stray f.bytes id := by
    intro id hid
    have hnew : (newPasskey P i.env cid c).cid ≠ id := fun h => hid h.symm
    have hbefore : RecordFile.getPasskeyRecord P env stray f.bytes id =
        getPasskeyRecord P env ⟨f.records, none⟩ id :=
      getPasskeyRecord_ofRecords ⟨f.records, none⟩ f.storable id
    have hafter : RecordFile.getPasskeyRecord P env stray
        (ofRecords (f.records ++ [newPasskey P i.env cid c])) id =
          getPasskeyRecord P env ⟨f.records ++ [newPasskey P i.env cid c], none⟩ id :=
      getPasskeyRecord_ofRecords ⟨f.records ++ [newPasskey P i.env cid c], none⟩
        (appended_storable hstorable) id
    rw [hbefore, hafter]
    cases ho : env.opens .passkeys .read with
    | false => rw [getPasskeyRecord_unopened ho, getPasskeyRecord_unopened ho]
    | true => simp [getPasskeyRecord_opened ho, List.find?_append, hnew]
  unfold ReadsBack
  rw [and_iff_left hothers]
  exact getPasskeyRecord_saved_iff f hstorable (newPasskey_opens_iff hp (newRecord_saveable hb hk) hs env cid) stray

section Bench

open Bench

theorem recordsSound_bench : RecordsSound platform where
  toStorageSound := storageSound_bench
  gcm_length := by
    intro key iv plain cipher tag h
    cases h
    exact ⟨rfl, by simp [Bench.tag, Bench.hash]⟩
  key_length := by
    intro algId key h
    cases h with
    | p256 made => cases made; simp [scalar]
    | fpgaP256 made => cases made
    | ed25519 length => simp [length]
    | fpgaEd25519 made => cases made
    | rsa made => cases made; simp
    | fpgaRsa made => cases made
    | mldsa alg made =>
      cases made
      rcases isMlDsa_iff.mp alg with rfl | rfl | rfl <;> simp [mldsaParameterSet, mldsaSecretLen]
    | fpgaMldsa alg made => cases made

/-- MakeCredential for a user of this name. -/
def createNamed (rp name : Str) : Event :=
  request 0x01 [.map 5, .uint 1, .bytes clientDataHash, .uint 2, .map 1, .text (text "id"), .text rp,
    .uint 3, .map 2, .text (text "id"), .bytes [1], .text (text "name"), .text name, .uint 4, .array 1,
    .map 1, .text (text "alg"), .nint (-7), .uint 7, .map 1, .text (text "rk"), .bool true]

def named (name : Str) : Input := ⟨createNamed site name, touchedEnv 1 60000 90⟩

def namedId : Str := toHex ((touchedEnv 1 60000 90).draw .credentialId 16)

/-- The tuple that is saved for a user of this name. -/
def namedRecord (name : Str) : StoredCredential :=
  newRecord (named name).env ((registrationRequest initial (named name)).getD { selectedAlgId := 0 })
    ((generateCredentialKey platform (named name).env (-7)).getD ⟨[], []⟩)

/-- The file with only that tuple in it. -/
def namedFile (name : Str) : Bytes :=
  (RecordFile.savePasskeyRecord platform (named name).env [] namedId (namedRecord name)).getD []

theorem savedRecord_reads_back_named :
    ReadsBack platform (idleEnv 2 0) [] [] (namedFile (text "n")) namedId (namedRecord (text "n")) :=
  (savedRecord_reads_back_iff (d := initial) (i := named (text "n")) recordsSound_bench
    ⟨[], List.forall_mem_nil _⟩ rfl (by decide +kernel) (by decide +kernel) _ _).mpr
    ⟨rfl, rfl, by decide +kernel⟩

/-- A name of two lines comes back as its first line, and its second as the key. -/
theorem twoLineName_lost : ¬ ReadsBack platform (idleEnv 2 0) [] [] (namedFile (text "n\nm"))
    namedId (namedRecord (text "n\nm")) := by
  intro h
  have hread : RecordFile.getPasskeyRecord platform (idleEnv 2 0) [] (namedFile (text "n\nm")) namedId
      ≠ some (namedRecord (text "n\nm")) := by decide +kernel
  exact hread h.1

end Bench

end GoiKey
