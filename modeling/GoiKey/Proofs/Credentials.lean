import GoiKey.Proofs.Acts
import GoiKey.Proofs.Parsing

/-!
Where credentials come from: the records and wrapped ids that registrations
leave behind, and what every other step does with them.
-/

namespace GoiKey

variable {P : Platform} {env : Env} {d : Device} {i : Input} {k k' : Keystore} {acts acts' : List Act}
variable {r : PasskeyRecord} {c : StoredCredential} {rp : RelyingParty} {key : KeyPair}

/-- How a record names the party of a registration. -/
def RelyingParty.field : RelyingParty → Str
  | .rpId s => s
  | .appId hash | .rpIdHash hash => toHex hash

/-- A key pair made for credentials of this algorithm. -/
def MadeKey (P : Platform) (env : Env) (algId : Int) (key : KeyPair) : Prop :=
  generateCredentialKey P env algId = some key ∨
    (algId = -7 ∧ generateCredentialKeyP256 P env = some key)

/-- The request of a MakeCredential message. -/
def registrationRequest (d : Device) (i : Input) : Option MakeCredentialRequest :=
  match i.event with
  | .cbor (0x01 :: body) => some (parseMakeCredential d.defaultCryptoAlg body)
  | _ => none

/-- A credential as it is written. -/
def newPasskey (P : Platform) (env : Env) (cid : Str) (c : StoredCredential) : PasskeyRecord :=
  ⟨1, c.algId, cid, c.rpId, encryptStoragePayload P env (recordPayload c) (fidoHardwareKey P)⟩

/-- A record that a registration of this step wrote, the credential in it and its key. -/
structure Registered (P : Platform) (d : Device) (i : Input) (acts : List Act) (r : PasskeyRecord)
    (c : StoredCredential) (rp : RelyingParty) (key : KeyPair) : Prop where
  record : r = newPasskey P i.env r.cid c
  cid : ∃ id : Bytes, id.length = 16 ∧ r.cid = toHex id
  created : .created r.cid rp c.algId key.publicKey ∈ acts
  made : MadeKey P i.env c.algId key
  keyHex : c.privateKeyHex = key.privateKeyHex
  party : c.rpId = rp.field
  user : ∃ id : Bytes, c.userIdHex = toHex id
  name : c.userName = [] ∨ ∃ req ∈ registrationRequest d i, residentKey req = true ∧
    c.userName = req.userName

theorem Registered.mono (h : Registered P d i acts r c rp key) (hs : acts ⊆ acts') :
    Registered P d i acts' r c rp key :=
  { h with created := hs h.created }

/-- The records of a step: those it found, and those it registered. -/
def RecordsFrom (P : Platform) (d : Device) (i : Input) (acts : List Act) (k' : Keystore) : Prop :=
  ∀ r ∈ k'.passkeys, r ∈ d.keys.passkeys ∨ ∃ c rp key, Registered P d i acts r c rp key

theorem recordsFrom_subset (h : k'.passkeys ⊆ d.keys.passkeys) : RecordsFrom P d i acts k' :=
  fun _ hr => .inl (h hr)

theorem RecordsFrom.mono (h : RecordsFrom P d i acts k') (hs : acts ⊆ acts') :
    RecordsFrom P d i acts' k' := by
  intro r hr
  rcases h r hr with hold | ⟨c, rp, key, hnew⟩
  · exact .inl hold
  · exact .inr ⟨c, rp, key, hnew.mono hs⟩

/-! The operations of the keystore. -/

/-- Records may be gone, and nothing else has changed. -/
structure Trimmed (k k' : Keystore) : Prop where
  passkeys : k'.passkeys ⊆ k.passkeys
  secret : k'.slSecret = k.slSecret

theorem Trimmed.refl : Trimmed k k := ⟨List.Subset.refl _, rfl⟩

theorem rewritePasskeys_trimmed (env : Env) (k : Keystore) (hit : PasskeyRecord → Bool) :
    Trimmed k (rewritePasskeys env k hit).2 := by
  unfold rewritePasskeys
  split
  · exact .refl
  · split
    · exact ⟨List.filter_subset_self _, rfl⟩
    · exact .refl

theorem rewritePasskeys_eq {hit : PasskeyRecord → Bool} {b : Bool}
    (h : rewritePasskeys env k hit = (b, k')) : Trimmed k k' := by
  have hkeys := rewritePasskeys_trimmed env k hit
  rwa [h] at hkeys

theorem rewritePasskeys_failed {hit : PasskeyRecord → Bool} (h : (rewritePasskeys env k hit).1 = false) :
    (rewritePasskeys env k hit).2 = k := by
  unfold rewritePasskeys at h ⊢
  split at h
  next hn => rw [if_pos hn]
  next hn =>
    split at h
    · cases h
    next ha => rw [if_neg hn, if_neg ha]

theorem savePasskeyRecord_some {cid : Str} (h : savePasskeyRecord P env k cid c = some k') :
    k' = { k with passkeys := k.passkeys ++ [newPasskey P env cid c] } := by
  unfold savePasskeyRecord at h
  simp only at h
  split at h
  · cases h
  · split at h
    · exact (Option.some.inj h).symm
    · cases h

/-- Saving the record of a new credential. -/
theorem savePasskeyRecord_records {cid : Str} (rp : RelyingParty) (key : KeyPair)
    (h : savePasskeyRecord P i.env k cid c = some k')
    (hk : k.passkeys ⊆ d.keys.passkeys)
    (hnew : Registered P d i acts (newPasskey P i.env cid c) c rp key) :
    RecordsFrom P d i acts k' := by
  intro r hr
  rw [savePasskeyRecord_some h] at hr
  rcases List.mem_append.mp hr with hold | hlast
  · exact .inl (hk hold)
  · rw [List.mem_singleton.mp hlast]
    exact .inr ⟨c, rp, key, hnew⟩

/-- What becomes of the credential that a new one replaces. -/
inductive Replaced (P : Platform) (env : Env) (k : Keystore) (req : MakeCredentialRequest) :
    List Act → Keystore → Prop where
  | nothing : Replaced P env k req [] k
  | deleted {cid : Str} {k' : Keystore}
    (found : findCredentialIdByRpAndUser P env k req.targetRpId (toHex req.userIdRaw) = cid)
    (some : cid ≠ []) (gone : deletePasskeyRecord env k cid = (true, k')) :
    Replaced P env k req [.deleted cid (.rpId req.targetRpId)] k'

theorem Replaced.trimmed {req : MakeCredentialRequest} (h : Replaced P env k req acts k') :
    Trimmed k k' := by
  cases h with
  | nothing => exact .refl
  | deleted found some gone => exact rewritePasskeys_eq gone

theorem storeResident_cases {req : MakeCredentialRequest} {Q : Stored → Prop}
    (failed : ∀ old k', Replaced P env k req old k' → Q ⟨.error 0x21, old, k'⟩)
    (stored : ∀ old k' k'', Replaced P env k req old k' →
      savePasskeyRecord P env k' (toHex (env.draw .credentialId 16)) (newRecord env req key)
        = some k'' →
      Q ⟨.ok (env.draw .credentialId 16), old ++ [.created (toHex (env.draw .credentialId 16))
        (.rpId req.targetRpId) req.selectedAlgId key.publicKey], k''⟩) :
    Q (storeResident P env k req key) := by
  let existing := findCredentialIdByRpAndUser P env k req.targetRpId (toHex req.userIdRaw)
  let gone := if existing = [] then (false, k) else deletePasskeyRecord env k existing
  have hr : Replaced P env k req
      (if gone.1 then [.deleted existing (.rpId req.targetRpId)] else []) gone.2 := by
    by_cases he : existing = []
    · simp only [gone, he, if_true, Bool.false_eq_true, if_false]
      exact .nothing
    · have hg : gone = deletePasskeyRecord env k existing := if_neg he
      cases hd : gone.1 with
      | true =>
        rw [if_pos rfl]
        exact .deleted rfl he (hg.symm.trans (Prod.ext hd rfl))
      | false =>
        have hsame : gone.2 = k := by
          rw [hg] at hd ⊢
          exact rewritePasskeys_failed hd
        rw [hsame, if_neg Bool.false_ne_true]
        exact .nothing
  cases hs : savePasskeyRecord P env gone.2 (toHex (env.draw .credentialId 16))
      (newRecord env req key) with
  | none =>
    have hfailed := failed _ _ hr
    simpa only [storeResident, existing, gone, hs] using hfailed
  | some k'' =>
    have hstored := stored _ _ _ hr hs
    simpa only [storeResident, existing, gone, hs] using hstored

theorem registrationRequest_buffered {req : MakeCredentialRequest} (hreq : req ∈ registrationRequest d i) :
    Buffered req := by
  unfold registrationRequest at hreq
  split at hreq
  · cases hreq
    exact parseMakeCredential_buffered _ _
  · cases hreq

theorem storeResident_records {req : MakeCredentialRequest} (hreq : req ∈ registrationRequest d i)
    (hres : residentKey req = true) (hm : MadeKey P i.env req.selectedAlgId key) :
    RecordsFrom P d i (storeResident P i.env d.keys req key).acts
      (storeResident P i.env d.keys req key).keys := by
  refine storeResident_cases (Q := fun s => RecordsFrom P d i s.acts s.keys) ?_ ?_
  · intro old k' hr
    exact recordsFrom_subset hr.trimmed.passkeys
  · intro old k' k'' hr hs
    refine savePasskeyRecord_records (.rpId req.targetRpId) key hs
      hr.trimmed.passkeys ?_
    exact {
      record := rfl
      cid := ⟨_, Env.draw_length _ _ _, rfl⟩
      created := List.mem_append_right old (List.mem_singleton_self _)
      made := hm
      keyHex := rfl
      party := rfl
      user := ⟨_, rfl⟩
      name := .inr ⟨req, hreq, hres, rfl⟩ }

theorem storeStateless_keys {req : MakeCredentialRequest} :
    Ensured env k (storeStateless P env k req key).keys := by
  have hw : Ensured env k (wrapStatelessCredential P env k req.targetRpId req.userIdRaw
      req.userName key.privateKeyHex req.selectedAlgId).2 := by
    unfold wrapStatelessCredential
    simp only
    split <;> exact .inr rfl
  unfold storeStateless
  split
  next k' he =>
    rw [he] at hw
    exact hw
  next id k' he =>
    rw [he] at hw
    exact hw

/-! Opening a credential. -/

/-- A wrapped id that opens: it is long enough, tagged under the secret in use,
and holds a credential of the party. -/
structure Unwrapped (P : Platform) (env : Env) (k : Keystore) (credId : Bytes) (rpId : Str)
    (c : StoredCredential) : Prop where
  long : 123 ≤ credId.length
  tagged : statelessTagOk P (getStatelessMasterSecret env k).1 credId = true
  opened : openStateless P (credId.length - 48)
    (P.cbcDecrypt (statelessAesKey P (getStatelessMasterSecret env k).1) (slice 0 16 credId)
      (slice 16 (credId.length - 48) credId)) rpId = some c

theorem unwrapStatelessCredential_some {credId : Bytes} {rpId : Str}
    (h : (unwrapStatelessCredential P env k credId rpId).1 = some c) :
    Unwrapped P env k credId rpId c := by
  unfold unwrapStatelessCredential at h
  split at h
  · cases h
  next hlen =>
    simp only at h
    split at h
    · cases h
    split at h
    · cases h
    next htag =>
      split at h
      · cases h
      · exact ⟨Nat.not_lt.mp hlen, by simpa using htag, h⟩

/-- What an id of an assertion opens to. -/
inductive Resolved (P : Platform) (env : Env) (k : Keystore) (rpId cid : Str) :
    StoredCredential → Prop where
  | wrapped {c : StoredCredential} (unwrapped : Unwrapped P env k (binCredId cid) rpId c) :
    Resolved P env k rpId cid { c with userName := statelessUserName c.userName }
  | record {c : StoredCredential} (found : getPasskeyRecord P env k cid = some c) :
    Resolved P env k rpId cid c

theorem resolveCredential_some {rpId cid : Str}
    (h : resolveCredential P env k rpId cid = (some c, k')) : Resolved P env k rpId cid c := by
  have hens := unwrapStatelessCredential_ensured P env k (binCredId cid) rpId
  unfold resolveCredential at h
  split at h
  next c' k'' hu =>
    cases h
    exact .wrapped (unwrapStatelessCredential_some (by rw [hu]))
  next k'' hu =>
    rw [hu] at hens
    rw [Prod.mk.injEq, getPasskeyRecord_ensured hens] at h
    exact .record h.1

/-- The record behind an id, and what it opens to. -/
theorem getPasskeyRecord_some {cid : Str} (h : getPasskeyRecord P env k cid = some c) :
    ∃ r ∈ k.passkeys, r.cid = cid ∧ parsePayload r.rp r.algId (decryptRecord P env r) = some c := by
  unfold getPasskeyRecord at h
  split at h
  · cases h
  next r hfind =>
    simp only at h
    split at h
    · cases h
    · have hr := List.find?_some hfind
      simp only [Bool.and_eq_true, beq_iff_eq] at hr
      have hmem := List.mem_of_find?_eq_some hfind
      unfold readPasskeys at hmem
      split at hmem
      · exact ⟨r, hmem, hr.2, h⟩
      · cases hmem

theorem binCredId_toHex (id : Bytes) : binCredId (toHex id) = id := by
  have hlen : (toHex id).length / 2 = id.length := by simp
  rw [binCredId, hlen, fromHex_toHex]

theorem binCredId_length (cid : Str) : (binCredId cid).length = cid.length / 2 := padTo_length _ _

/-! One step. -/

/-- The secret after a step: the one before it, or one that was drawn where there
was none or for a reset. -/
def SecretFrom (d : Device) (i : Input) (k' : Keystore) : Prop :=
  k'.slSecret = d.keys.slSecret ∨ (k'.slSecret = some (i.env.draw .secret 32) ∧
    (d.keys.slSecret = none ∨ i.event.code = some 0x07))

theorem Ensured.secretFrom (h : Ensured i.env d.keys k') : SecretFrom d i k' := by
  rcases h with rfl | rfl
  · exact .inl rfl
  · unfold getStatelessMasterSecret
    split
    · exact .inl rfl
    · split
      · exact .inl rfl
      next hn => exact .inr ⟨rfl, .inl hn⟩

/-- What a step leaves in the keystore. -/
structure KeysWritten (P : Platform) (d : Device) (i : Input) (acts : List Act) (k' : Keystore) :
    Prop where
  records : RecordsFrom P d i acts k'
  secret : SecretFrom d i k'

theorem Ensured.written (h : Ensured i.env d.keys k') : KeysWritten P d i acts k' :=
  ⟨recordsFrom_subset (by rw [h.passkeys]; exact List.Subset.refl _), h.secretFrom⟩

theorem Trimmed.written (h : Trimmed d.keys k') : KeysWritten P d i acts k' :=
  ⟨recordsFrom_subset h.passkeys, .inl h.secret⟩

theorem storeCredential_written {req : MakeCredentialRequest} (hreq : req ∈ registrationRequest d i)
    (hm : MadeKey P i.env req.selectedAlgId key) :
    KeysWritten P d i (storeCredential P i.env d.keys req key).acts
      (storeCredential P i.env d.keys req key).keys := by
  unfold storeCredential
  split
  next hres =>
    refine ⟨storeResident_records hreq hres hm, .inl ?_⟩
    refine storeResident_cases (Q := fun s => s.keys.slSecret = d.keys.slSecret) ?_ ?_
    · intro old k' hr
      exact hr.trimmed.secret
    · intro old k' k'' hr hs
      rw [savePasskeyRecord_some hs]
      exact hr.trimmed.secret
  · exact storeStateless_keys.written

theorem KeysWritten.mono (h : KeysWritten P d i acts k') (hs : acts ⊆ acts') :
    KeysWritten P d i acts' k' :=
  ⟨h.records.mono hs, h.secret⟩

theorem makeCredential_written {req : MakeCredentialRequest} (hreq : req ∈ registrationRequest d i) :
    KeysWritten P d i (makeCredential P i.env d req).acts (makeCredential P i.env d req).keys := by
  refine makeCredential_cases (Q := fun r => KeysWritten P d i r.acts r.keys) ?_ ?_
  · intro code uv _
    exact Trimmed.refl.written
  · intro act time uv p _ _ _ _
    refine register_cases (Q := fun r => KeysWritten P d i (act :: r.2.1) r.2.2) ?_ ?_ ?_
    · exact Trimmed.refl.written
    · intro key code hk _
      exact (storeCredential_written hreq (.inl hk)).mono (by simp)
    · intro key credId hk _
      exact (storeCredential_written hreq (.inl hk)).mono (by simp)

theorem getAssertion_ensured {req : GetAssertionRequest} :
    Ensured env d.keys (getAssertion P env d req).keys :=
  getAssertion_cases (Q := fun r => Ensured env d.keys r.keys)
    (fun _ _ _ hk _ => hk) (fun _ _ _ _ _ _ _ _ hk _ _ _ _ => hk)
    (fun _ _ _ _ _ _ _ _ _ hk _ _ _ _ => hk)

theorem getNextAssertion_ensured : Ensured env d.keys (getNextAssertion P env d).keys :=
  getNextAssertion_cases (Q := fun r => Ensured env d.keys r.keys)
    .refl (fun _ hk _ => hk) (fun _ _ _ hk _ _ => hk)

theorem credentialManagement_trimmed {body : Bytes} :
    Trimmed d.keys (credentialManagement P env d body).keys := by
  refine credentialManagement_cases (Q := fun r => Trimmed d.keys r.keys) ?_ ?_ ?_
  · intro reply enumeration
    exact .refl
  · intro req _ _
    exact enumerateCredentialsBegin_cases (Q := fun r => Trimmed d.keys r.keys)
      (fun _ _ => .refl) (fun _ _ _ _ _ => .refl)
  · intro req k _ _ hdel
    exact rewritePasskeys_eq hdel

theorem processU2fCommand_written {data : Bytes} :
    KeysWritten P d i (processU2fCommand P i.env d data).acts
      (processU2fCommand P i.env d data).keys := by
  refine processU2fCommand_cases (Q := fun r => KeysWritten P d i r.acts r.keys) ?_ ?_ ?_
  · intro reply
    exact Trimmed.refl.written
  · intro challenge
    refine u2fRegister_cases (Q := fun r => KeysWritten P d i r.acts r.keys) ?_ ?_
    · intro reply acts uv _ _
      exact Trimmed.refl.written
    · intro reply key k' act uv signed hk hs _ _ _
      refine ⟨savePasskeyRecord_records (.appId (u2fAppId i.env data)) key hs
        (List.Subset.refl _) ?_, .inl ?_⟩
      · exact {
          record := rfl
          cid := ⟨_, Env.draw_length _ _ _, rfl⟩
          created := by simp [u2fRecord, newPasskey]
          made := .inr ⟨rfl, hk⟩
          keyHex := rfl
          party := rfl
          user := ⟨[], rfl⟩
          name := .inl rfl }
      · rw [savePasskeyRecord_some hs]
  · intro hins challenge
    exact u2fAuthenticate_cases (Q := fun r => KeysWritten P d i r.acts r.keys)
      (fun _ _ _ _ _ _ => Trimmed.refl.written)
      (fun _ _ _ _ _ _ _ _ _ _ _ _ => Trimmed.refl.written)

theorem checkPin_trimmed {pin : Str} {accepted : Device → SerialResult}
    (ha : ∀ d : Device, (accepted d).dev.keys = d.keys) :
    Trimmed d.keys (checkPin P env d pin accepted).dev.keys := by
  refine checkPin_cases (Q := fun r => Trimmed d.keys r.dev.keys) ?_ ?_ ?_ ?_
  · exact .refl
  · intro _ _ r
    have hkeys : r.dev.keys = d.keys := ha _
    rw [hkeys]
    exact .refl
  · intro stored n _ _ _ _
    exact .refl
  · intro stored _ _ _
    exact ⟨List.nil_subset _, rfl⟩

theorem replacePin_keys (newPin : Str) (d : Device) :
    (replacePin P env newPin d).dev.keys = d.keys := by
  unfold replacePin
  split <;> rfl

theorem serialCommand_trimmed {c : SerialCommand} :
    Trimmed d.keys (serialCommand P env d c).dev.keys := by
  refine serialCommand_cases (Q := fun r => Trimmed d.keys r.dev.keys) ?_ ?_ ?_ ?_ ?_ ?_ ?_ ?_
  · intro ms v s alg dflt
    exact .refl
  · intro ms pin p _ _ _
    exact .refl
  · intro pin _ _
    exact checkPin_trimmed fun _ => rfl
  · intro currentPin newPin _ _
    exact checkPin_trimmed (replacePin_keys newPin)
  · intro ms site k' _ hdel
    exact rewritePasskeys_eq hdel
  · intro ms _
    exact ⟨List.nil_subset _, rfl⟩
  · intro ms id _ _
    exact .refl
  · intro ms _ _
    exact ⟨List.nil_subset _, rfl⟩

theorem authenticatorReset_written (hc : i.event.code = some 0x07) :
    KeysWritten P d i acts (authenticatorReset i.env d).2.keys := by
  unfold authenticatorReset
  split
  · exact Trimmed.refl.written
  · exact Trimmed.refl.written
  · refine ⟨recordsFrom_subset ?_, ?_⟩
    · simp [resetFido2System, removeFiles, rotateStatelessMasterSecret]
      split <;> simp
    · simp only [resetFido2System, removeFiles, rotateStatelessMasterSecret]
      split
      · exact .inr ⟨rfl, .inr hc⟩
      · exact .inl rfl

theorem step_keys (P : Platform) (d : Device) (i : Input) :
    KeysWritten P d i (step P d i).1.acts (step P d i).2.keys := by
  refine step_cases (Q := fun r => KeysWritten P d i r.1.acts r.2.keys)
    ?_ ?_ ?_ ?_ ?_ ?_ ?_ ?_ ?_ ?_ ?_ ?_ ?_ ?_
  · intro reply
    exact Trimmed.refl.written
  · intro body he
    exact makeCredential_written (by simp [registrationRequest, he])
  · intro body req _ _ _
    exact getAssertion_ensured.written
  · intro body _
    exact getNextAssertion_ensured.written
  · intro body _
    exact Trimmed.refl.written
  · intro body he
    exact authenticatorReset_written (by rw [he]; rfl)
  · intro code body _ _
    exact Trimmed.refl.written
  · intro code body _ _
    exact credentialManagement_trimmed.written
  · intro body _
    exact Trimmed.refl.written
  · intro body _
    exact Trimmed.refl.written
  · intro data _
    exact processU2fCommand_written
  · intro c _
    exact serialCommand_trimmed.written
  · intro _
    exact updateFingerprintAsync_cases (Q := fun r => KeysWritten P d i r.acts r.dev.keys)
      (fun _ _ _ => Trimmed.refl.written) (fun _ _ _ _ _ _ _ _ => Trimmed.refl.written)
  · intro _
    exact Trimmed.refl.written

end GoiKey
