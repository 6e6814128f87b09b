import GoiKey.Proofs.Enumeration
import GoiKey.Proofs.Listing
import GoiKey.Proofs.SavedRecords

/-! How long the strings are that a run stores, and a response may have to hold. -/

namespace GoiKey

variable {P : Platform} {env : Env} {d : Device} {i : Input} {past : History} {c : StoredCredential}
variable {r : PasskeyRecord} {cid : Str} {k k' : Keystore}

/-- A record as a registration writes it. -/
structure RecordSized (P : Platform) (r : PasskeyRecord) : Prop where
  cid : r.cid.length = 32
  rp : r.rp.length < 128
  written : ∃ env c, r.payload = encryptStoragePayload P env (recordPayload c) (fidoHardwareKey P) ∧
    (newline ∉ c.userIdHex ∧ 0 ∉ c.userIdHex) ∧ c.userIdHex.length ≤ 128 ∧
    0 ∉ c.userName ∧ c.userName.length < 128

/-- The user of a credential that is used. -/
structure UserSized (c : StoredCredential) : Prop where
  userIdHex : c.userIdHex.length ≤ 128
  userName : c.userName.length < 128

/-- The ids and parties that lists go on with. -/
structure ListsSized (d : Device) : Prop where
  next : ∀ cid ∈ d.next.creds, cid.length ≤ 2 * maxCredentialIdLen
  creds : ∀ cid ∈ d.enumeration.credList, cid.length ≤ 2 * maxCredentialIdLen
  rps : ∀ rp ∈ d.enumeration.rpList, rp.length < 128

structure StoredSized (P : Platform) (d : Device) : Prop extends ListsSized d where
  records : ∀ r ∈ d.keys.passkeys, RecordSized P r

/-! Records. -/

theorem Writes.sized (h : Writes P d i r) : RecordSized P r := by
  cases h with
  | @resident req key request made =>
    have hb := registrationRequest_buffered request
    have huser := hb.userIdRaw
    refine ⟨toHex_draw_length _ _, hb.targetRpId.length, i.env, newRecord i.env req key, rfl,
      notMem_toHex_separators _, ?_, hb.userName.notMem, hb.userName.length⟩
    change (toHex req.userIdRaw).length ≤ 128
    rw [Hex.encode_length]
    omega
  | @u2f data key event made =>
    have hrp : (toHex (u2fAppId i.env data)).length < 128 := by simp [u2fAppId, frameBytes]
    exact ⟨toHex_draw_length _ _, hrp, i.env, _, rfl, ⟨List.not_mem_nil, List.not_mem_nil⟩, Nat.zero_le _,
      List.not_mem_nil, Nat.zero_lt_succ _⟩

theorem step_records_sized (h : ∀ r ∈ d.keys.passkeys, RecordSized P r) :
    ∀ r ∈ (step P d i).2.keys.passkeys, RecordSized P r := by
  intro r hr
  have hafter := step_recordsAfter P d i
  generalize (step P d i).2.keys.passkeys = records at hafter hr
  cases hafter with
  | fewer kept => exact h r (kept.subset hr)
  | added kept writes =>
    rcases List.mem_append.mp hr with hr | hr
    · exact h r (kept.subset hr)
    · rw [List.mem_singleton.mp hr]
      exact writes.sized

/-- What a text before a line feed is read as is no longer than it, whatever lines are in it. -/
theorem parsePayload_sized {rpId : Str} {algId : Int} {rest : Str} {c₀ : StoredCredential}
    (hid : newline ∉ c₀.userIdHex)
    (h : parsePayload rpId algId (c₀.userIdHex ++ newline :: (c₀.userName ++ newline :: rest)) = some c) :
    c.userIdHex = c₀.userIdHex ∧ c.userName.length ≤ c₀.userName.length := by
  obtain ⟨first, behind, hcut, hfirst, -⟩ := Fields.cut_first newline c₀.userName rest
  rw [parsePayload, Fields.cut_append hid] at h
  simp only [hcut, Option.some.injEq] at h
  subst h
  unfold parsePayloadTail
  repeat' split
  all_goals exact ⟨rfl, hfirst.length_le⟩

theorem RecordSized.opened (hp : StorageSound P) (h : RecordSized P r) {rpId : Str} {algId : Int}
    (ho : parsePayload rpId algId (decryptRecord P env r) = some c) : UserSized c := by
  obtain ⟨env₀, c₀, hpayload, hid, hidlen, hname, hnamelen⟩ := h.written
  rw [decryptRecord, hpayload] at ho
  have hdecrypted : decryptStoragePayload P env (encryptStoragePayload P env₀ (recordPayload c₀)
      (fidoHardwareKey P)) (fidoHardwareKey P) = [] ∨ decryptStoragePayload P env
        (encryptStoragePayload P env₀ (recordPayload c₀) (fidoHardwareKey P)) (fidoHardwareKey P) =
          cstr (recordPayload c₀) := decrypt_encrypt hp
  rcases hdecrypted with hempty | hplain
  · rw [hempty] at ho
    cases ho
  · have hn : newline ≠ 0 := by decide
    rw [hplain, recordPayload, cstr_append hid.2, cstr_cons hn, cstr_append hname, cstr_cons hn] at ho
    obtain ⟨huser, hlen⟩ := parsePayload_sized hid.1 ho
    exact ⟨by rw [huser]; exact hidlen, by omega⟩

/-! Credentials. -/

theorem Unwrapped.sized {id : Bytes} {rpId : Str} (h : Unwrapped P env k id rpId c) :
    c.userIdHex.length ≤ 64 ∧ c.userName.length ≤ 32 := by
  have hopen := h.opened
  unfold openStateless at hopen
  split at hopen
  · cases hopen
  split at hopen
  · cases hopen
  simp only at hopen
  split at hopen
  · cases hopen
  · cases hopen
    have hcut : ∀ (b : Bytes) (start n : Nat), (slice start (min n 32) b).length ≤ 32 := by
      intro b start n
      simp only [slice, List.length_take]
      omega
    constructor
    · change (toHex _).length ≤ 64
      rw [Hex.encode_length]
      exact Nat.mul_le_mul_left 2 (hcut _ _ _)
    · exact (List.takeWhile_prefix _).length_le.trans (hcut _ _ _)

theorem Resolved.sized (hp : StorageSound P) (hs : ∀ r ∈ k.passkeys, RecordSized P r) {rpId : Str}
    (h : Resolved P env k rpId cid c) : UserSized c := by
  cases h with
  | wrapped hu =>
    obtain ⟨hid, hname⟩ := hu.sized
    refine ⟨hid.trans (by decide), ?_⟩
    change (statelessUserName _).length < 128
    unfold statelessUserName
    split
    · decide
    · omega
  | record found =>
    obtain ⟨r, hr, -, ho⟩ := getPasskeyRecord_some found
    exact (hs r hr).opened hp ho

theorem getPasskeyRecord_sized (hp : StorageSound P) (hs : ∀ r ∈ k.passkeys, RecordSized P r)
    (h : getPasskeyRecord P env k cid = some c) : UserSized c := by
  obtain ⟨r, hr, -, ho⟩ := getPasskeyRecord_some h
  exact (hs r hr).opened hp ho

theorem Matched.sized {rpId : Str} {ids : List Bytes} (hs : ∀ r ∈ k.passkeys, RecordSized P r)
    (hids : ShortIds ids) (h : Matched P env k rpId ids cid) : cid.length ≤ 2 * maxCredentialIdLen := by
  cases h with
  | wrapped mem unwrapped =>
    have := hids _ mem
    rw [Hex.encode_length]
    omega
  | allowed mem record party =>
    have := hids _ mem
    rw [Hex.encode_length]
    omega
  | found mem party =>
    rw [(hs _ mem).cid]
    decide

/-! Lists. -/

theorem storedRps_sized (env : Env) (hs : ∀ r ∈ k.passkeys, RecordSized P r) :
    ∀ rp ∈ getAllStoredRpIds env k, rp.length < 128 := by
  have general : ∀ (records : List PasskeyRecord) (rps : List Str), (∀ r ∈ records, r.rp.length < 128) →
      (∀ rp ∈ rps, rp.length < 128) → ∀ rp ∈ records.foldl
        (fun rps r => if r.rp ∈ rps then rps else rps ++ [r.rp]) rps, rp.length < 128 := by
    intro records
    induction records with
    | nil => exact fun _ _ h => h
    | cons r records ih =>
      intro rps hr h
      refine ih _ (fun r' h' => hr r' (List.mem_cons_of_mem _ h')) ?_
      intro rp hrp
      simp only at hrp
      split at hrp
      · exact h rp hrp
      · rcases List.mem_append.mp hrp with hrp | hrp
        · exact h rp hrp
        · rw [List.mem_singleton.mp hrp]
          exact hr r List.mem_cons_self
  refine general _ [] (fun r hr => ?_) (fun rp h => absurd h List.not_mem_nil)
  have hmem := (List.mem_filter.mp hr).1
  unfold readPasskeys at hmem
  split at hmem
  · exact (hs r hmem).rp
  · cases hmem

theorem storedIds_sized (hs : ∀ r ∈ k.passkeys, RecordSized P r) :
    ∀ cid ∈ getAllStoredCredentialIds env k, cid.length ≤ 2 * maxCredentialIdLen := by
  intro cid hcid
  obtain ⟨r, hr, rfl⟩ := List.mem_map.mp hcid
  have hmem := (List.mem_filter.mp hr).1
  unfold readPasskeys at hmem
  split at hmem
  · rw [(hs r hmem).cid]
    decide
  · cases hmem

theorem credentialsOfHash_sized (env : Env) (hs : ∀ r ∈ k.passkeys, RecordSized P r) (h : Bytes) :
    ∀ cid ∈ (credentialsOfHash P env k h).map Prod.fst, cid.length ≤ 2 * maxCredentialIdLen := by
  intro cid hcid
  obtain ⟨e, he, rfl⟩ := List.mem_map.mp hcid
  obtain ⟨cid, hmem, hopen⟩ := List.mem_filterMap.mp (List.mem_filter.mp he).1
  obtain ⟨c, -, rfl⟩ := Option.map_eq_some_iff.mp hopen
  exact storedIds_sized hs cid hmem

theorem enumerateCredentialsBegin_sized (env : Env) (hd : StoredSized P d) (h : Bytes) :
    (∀ cid ∈ (enumerateCredentialsBegin P env d h).enumeration.credList,
      cid.length ≤ 2 * maxCredentialIdLen) ∧
      (enumerateCredentialsBegin P env d h).enumeration.rpList = d.enumeration.rpList := by
  have hfound := credentialsOfHash_sized env hd.records h
  unfold enumerateCredentialsBegin
  simp only
  generalize (credentialsOfHash P env d.keys h).map Prod.fst = cids at hfound
  cases cids with
  | nil => exact ⟨fun _ h => absurd h List.not_mem_nil, rfl⟩
  | cons cid rest =>
    simp only
    repeat' split
    all_goals exact ⟨hfound, rfl⟩

theorem credentialManagement_sized (hd : StoredSized P d) {body : Bytes} :
    (∀ cid ∈ (credentialManagement P env d body).enumeration.credList,
      cid.length ≤ 2 * maxCredentialIdLen) ∧
      ∀ rp ∈ (credentialManagement P env d body).enumeration.rpList, rp.length < 128 := by
  have hrps := storedRps_sized env hd.records
  unfold credentialManagement
  cases parseCredentialManagement body with
  | none => exact ⟨hd.creds, hd.rps⟩
  | some req =>
    simp only
    split
    · exact ⟨hd.creds, hd.rps⟩
    · unfold enumerateRpsBegin
      split
      · exact ⟨hd.creds, fun _ h => absurd h List.not_mem_nil⟩
      next rp rps he =>
        rw [he] at hrps
        exact ⟨hd.creds, hrps⟩
    · unfold enumerateRpsGetNextRp
      split <;> exact ⟨hd.creds, hd.rps⟩
    · obtain ⟨hcreds, hrp⟩ := enumerateCredentialsBegin_sized env hd req.targetRpIdHash
      exact ⟨hcreds, by rw [hrp]; exact hd.rps⟩
    · unfold enumerateCredentialsGetNextCredential
      split <;> exact ⟨hd.creds, hd.rps⟩
    · unfold deleteCredential
      split <;> exact ⟨hd.creds, hd.rps⟩
    · exact ⟨hd.creds, hd.rps⟩

theorem step_enumeration_sized (hd : StoredSized P d) :
    (∀ cid ∈ (step P d i).2.enumeration.credList, cid.length ≤ 2 * maxCredentialIdLen) ∧
      ∀ rp ∈ (step P d i).2.enumeration.rpList, rp.length < 128 := by
  by_cases hc : i.event.code = some 0x0A ∨ i.event.code = some 0x41
  · have management : ∀ code, (code = 0x0A ∨ code = 0x41) → i.event.code = some code →
        (∀ cid ∈ (step P d i).2.enumeration.credList, cid.length ≤ 2 * maxCredentialIdLen) ∧
          ∀ rp ∈ (step P d i).2.enumeration.rpList, rp.length < 128 := by
      intro code hcode hc
      obtain ⟨body, he, ⟨refusal, hs⟩ | ⟨-, hs⟩⟩ := step_code (P := P) (d := d) hc <;> rw [hs]
      · exact ⟨hd.creds, hd.rps⟩
      · rcases hcode with rfl | rfl
        · exact credentialManagement_sized hd
        · exact credentialManagement_sized hd
    exact hc.elim (management _ (.inl rfl)) (management _ (.inr rfl))
  · rcases step_enumeration (P := P) (d := d) hc with h | h <;> rw [h]
    · exact ⟨hd.creds, hd.rps⟩
    · exact ⟨fun _ h => absurd h List.not_mem_nil, fun _ h => absurd h List.not_mem_nil⟩

theorem assertionRequest_ids {req : GetAssertionRequest} (h : req ∈ assertionRequest i) :
    ShortIds req.allowCredentialIds := by
  unfold assertionRequest at h
  split at h
  · split at h
    · exact parseGetAssertion_ids h
    · cases h
  · cases h

/-- Whatever the step, what is stored keeps the sizes it is written with. -/
theorem storedSized_step (hd : StoredSized P d) : StoredSized P (step P d i).2 where
  records := step_records_sized hd.records
  next := by
    intro cid hcid
    rcases step_creds P d i hcid with ⟨hold, -⟩ | ⟨req, hreq, -, hm⟩
    · exact hd.next cid hold
    · exact hm.sized hd.records (assertionRequest_ids hreq)
  creds := (step_enumeration_sized hd).1
  rps := (step_enumeration_sized hd).2

theorem storedSized_initial : StoredSized P initial where
  records := fun _ h => absurd h List.not_mem_nil
  next := fun _ h => absurd h List.not_mem_nil
  creds := fun _ h => absurd h List.not_mem_nil
  rps := fun _ h => absurd h List.not_mem_nil

end GoiKey
