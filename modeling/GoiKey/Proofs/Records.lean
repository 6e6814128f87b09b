import GoiKey.Proofs.Credentials

/-! The record file after a step: some records may be gone, and a registration adds one. -/

namespace GoiKey

variable {P : Platform} {env : Env} {d : Device} {i : Input} {k k' : Keystore}
variable {records : List PasskeyRecord} {r : PasskeyRecord}

/-- The record a registration of this step writes. -/
inductive Writes (P : Platform) (d : Device) (i : Input) : PasskeyRecord → Prop where
  | resident {req : MakeCredentialRequest} {key : KeyPair} (request : req ∈ registrationRequest d i)
    (made : generateCredentialKey P i.env req.selectedAlgId = some key) :
    Writes P d i (newPasskey P i.env (toHex (i.env.draw .credentialId 16)) (newRecord i.env req key))
  | u2f {data : Bytes} {key : KeyPair} (event : i.event = .u2f data)
    (made : generateCredentialKeyP256 P i.env = some key) :
    Writes P d i (newPasskey P i.env (toHex (i.env.draw .keyHandle 16))
      (u2fRecord (u2fAppId i.env data) key.privateKeyHex))

/-- The records after a step, in their order. -/
inductive RecordsAfter (P : Platform) (d : Device) (i : Input) : List PasskeyRecord → Prop where
  | fewer {records : List PasskeyRecord} (kept : records.Sublist d.keys.passkeys) :
    RecordsAfter P d i records
  | added {before : List PasskeyRecord} {r : PasskeyRecord}
    (kept : before.Sublist d.keys.passkeys) (writes : Writes P d i r) :
    RecordsAfter P d i (before ++ [r])

theorem rewritePasskeys_sublist (env : Env) (k : Keystore) (hit : PasskeyRecord → Bool) :
    (rewritePasskeys env k hit).2.passkeys.Sublist k.passkeys := by
  unfold rewritePasskeys
  split
  · exact List.Sublist.refl _
  · split
    · exact List.filter_sublist
    · exact List.Sublist.refl _

theorem Replaced.sublist {req : MakeCredentialRequest} {acts : List Act}
    (h : Replaced P env k req acts k') : k'.passkeys.Sublist k.passkeys := by
  cases h with
  | nothing => exact List.Sublist.refl _
  | deleted found some gone =>
    have hs := rewritePasskeys_sublist env k fun r => r.cid == findCredentialIdByRpAndUser P env k
      req.targetRpId (toHex req.userIdRaw)
    rw [found] at hs
    rw [deletePasskeyRecord] at gone
    rwa [gone] at hs

theorem RecordsAfter.unchanged (h : records = d.keys.passkeys) : RecordsAfter P d i records :=
  .fewer (h ▸ List.Sublist.refl _)

theorem storeCredential_recordsAfter {req : MakeCredentialRequest} {key : KeyPair}
    (hreq : req ∈ registrationRequest d i)
    (hm : generateCredentialKey P i.env req.selectedAlgId = some key) :
    RecordsAfter P d i (storeCredential P i.env d.keys req key).keys.passkeys := by
  unfold storeCredential
  split
  · refine storeResident_cases (Q := fun s => RecordsAfter P d i s.keys.passkeys) ?_ ?_
    · intro old k' hr
      exact .fewer hr.sublist
    · intro old k' k'' hr hs
      rw [savePasskeyRecord_some hs]
      exact .added hr.sublist (.resident hreq hm)
  · exact .unchanged storeStateless_keys.passkeys

theorem makeCredential_recordsAfter {req : MakeCredentialRequest}
    (hreq : req ∈ registrationRequest d i) :
    RecordsAfter P d i (makeCredential P i.env d req).keys.passkeys := by
  refine makeCredential_cases (Q := fun r => RecordsAfter P d i r.keys.passkeys) ?_ ?_
  · intro code uv _
    exact .unchanged rfl
  · intro act time uv p _ _ _ _
    refine register_cases (Q := fun r => RecordsAfter P d i r.2.2.passkeys) ?_ ?_ ?_
    · exact .unchanged rfl
    · intro key code hk _
      exact storeCredential_recordsAfter hreq hk
    · intro key credId hk _
      exact storeCredential_recordsAfter hreq hk

theorem credentialManagement_recordsAfter {body : Bytes} :
    RecordsAfter P d i (credentialManagement P i.env d body).keys.passkeys := by
  refine credentialManagement_cases (Q := fun r => RecordsAfter P d i r.keys.passkeys) ?_ ?_ ?_
  · intro reply enumeration
    exact .unchanged rfl
  · intro req _ _
    exact enumerateCredentialsBegin_cases (Q := fun r => RecordsAfter P d i r.keys.passkeys)
      (fun _ _ => .unchanged rfl) (fun _ _ _ _ _ => .unchanged rfl)
  · intro req k _ _ hdel
    have hs := rewritePasskeys_sublist i.env d.keys fun r => r.cid == toHex req.targetCredId
    rw [deletePasskeyRecord] at hdel
    rw [hdel] at hs
    exact .fewer hs

theorem processU2fCommand_recordsAfter {data : Bytes} (he : i.event = .u2f data) :
    RecordsAfter P d i (processU2fCommand P i.env d data).keys.passkeys := by
  refine processU2fCommand_cases (Q := fun r => RecordsAfter P d i r.keys.passkeys) ?_ ?_ ?_
  · intro reply
    exact .unchanged rfl
  · intro challenge
    refine u2fRegister_cases (Q := fun r => RecordsAfter P d i r.keys.passkeys) ?_ ?_
    · intro reply acts uv _ _
      exact .unchanged rfl
    · intro reply key k' act uv signed hk hs _ _ _
      rw [savePasskeyRecord_some hs]
      exact .added (List.Sublist.refl _) (.u2f he hk)
  · intro hins challenge
    exact u2fAuthenticate_cases (Q := fun r => RecordsAfter P d i r.keys.passkeys)
      (fun _ _ _ _ _ _ => .unchanged rfl) (fun _ _ _ _ _ _ _ _ _ _ _ _ => .unchanged rfl)

theorem checkPin_sublist {pin : Str} {accepted : Device → SerialResult}
    (ha : ∀ d : Device, (accepted d).dev.keys = d.keys) :
    (checkPin P env d pin accepted).dev.keys.passkeys.Sublist d.keys.passkeys := by
  refine checkPin_cases (Q := fun r => r.dev.keys.passkeys.Sublist d.keys.passkeys) ?_ ?_ ?_ ?_
  · exact List.Sublist.refl _
  · intro _ _ r
    have hkeys : r.dev.keys = d.keys := ha _
    rw [hkeys]
  · intro stored n _ _ _ _
    exact List.Sublist.refl _
  · intro stored _ _ _
    exact List.nil_sublist _

theorem serialCommand_sublist {c : SerialCommand} :
    (serialCommand P env d c).dev.keys.passkeys.Sublist d.keys.passkeys := by
  refine serialCommand_cases (Q := fun r => r.dev.keys.passkeys.Sublist d.keys.passkeys)
    ?_ ?_ ?_ ?_ ?_ ?_ ?_ ?_
  · intro ms v s alg dflt
    exact List.Sublist.refl _
  · intro ms pin p _ _ _
    exact List.Sublist.refl _
  · intro pin _ _
    exact checkPin_sublist fun _ => rfl
  · intro currentPin newPin _ _
    exact checkPin_sublist (replacePin_keys newPin)
  · intro ms site k' _ hdel
    have hs := rewritePasskeys_sublist env d.keys fun r => r.rp == site
    rw [deleteFidoWebsite] at hdel
    rwa [hdel] at hs
  · intro ms _
    exact List.nil_sublist _
  · intro ms id _ _
    exact List.Sublist.refl _
  · intro ms _ _
    exact List.nil_sublist _

theorem authenticatorReset_sublist :
    (authenticatorReset env d).2.keys.passkeys.Sublist d.keys.passkeys := by
  unfold authenticatorReset
  split
  · exact List.Sublist.refl _
  · exact List.Sublist.refl _
  · simp only [resetFido2System, removeFiles, rotateStatelessMasterSecret]
    split <;> exact List.nil_sublist _

theorem step_recordsAfter (P : Platform) (d : Device) (i : Input) :
    RecordsAfter P d i (step P d i).2.keys.passkeys := by
  refine step_cases (Q := fun r => RecordsAfter P d i r.2.keys.passkeys)
    ?_ ?_ ?_ ?_ ?_ ?_ ?_ ?_ ?_ ?_ ?_ ?_ ?_ ?_
  · intro reply
    exact .unchanged rfl
  · intro body he
    exact makeCredential_recordsAfter (by simp [registrationRequest, he])
  · intro body req _ _ _
    exact .unchanged getAssertion_ensured.passkeys
  · intro body _
    exact .unchanged getNextAssertion_ensured.passkeys
  · intro body _
    exact .unchanged rfl
  · intro body he
    exact .fewer authenticatorReset_sublist
  · intro code body _ _
    exact .unchanged rfl
  · intro code body _ _
    exact credentialManagement_recordsAfter
  · intro body _
    exact .unchanged rfl
  · intro body _
    exact .unchanged rfl
  · intro data he
    exact processU2fCommand_recordsAfter he
  · intro c _
    exact .fewer serialCommand_sublist
  · intro _
    exact updateFingerprintAsync_cases (Q := fun r => RecordsAfter P d i r.dev.keys.passkeys)
      (fun _ _ _ => .unchanged rfl) (fun _ _ _ _ _ _ _ _ => .unchanged rfl)
  · intro _
    exact .unchanged rfl

end GoiKey
