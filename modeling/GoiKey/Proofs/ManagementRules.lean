import GoiKey.Proofs.Fingers

/-! Case rules of the management commands and of U2F. -/

namespace GoiKey

variable {P : Platform} {env : Env} {d : Device}

theorem clientPin_cases {body : Bytes} {Q : ClientPinResult → Prop}
    (quiet : ∀ reply session, Q ⟨reply, [], d.pins, session⟩)
    (retries : ∀ req, parseClientPin body = some req → req.subCommand = 0x01 →
      Q ⟨getRetries env d.pins, [], d.pins, d.session⟩)
    (setPin : ∀ req, parseClientPin body = some req → req.subCommand = 0x03 →
      Q ⟨(setPin P env d.pins d.session req).1, (setPin P env d.pins d.session req).2.1,
        (setPin P env d.pins d.session req).2.2, d.session⟩)
    (changePin : ∀ req, parseClientPin body = some req → req.subCommand = 0x04 →
      Q ⟨(changePin P env d.pins d.session req).1, (changePin P env d.pins d.session req).2.1,
        (changePin P env d.pins d.session req).2.2, d.session⟩)
    (token : Q ⟨(issueToken env).1, (issueToken env).2, d.pins, d.session⟩) :
    Q (clientPin P env d.pins d.session body) := by
  unfold clientPin
  cases hp : parseClientPin body with
  | none => exact quiet _ _
  | some req =>
    simp only
    unfold clientPinSubCommand
    split
    next hs => exact retries req hp hs
    · exact quiet _ _
    next hs => exact setPin req hp hs
    next hs => exact changePin req hp hs
    · simp only [getPinToken]
      by_cases hset : isPinSet d.pins = true
      · simpa [hset] using token
      · simpa [hset] using quiet _ d.session
    · simp only [getPinUvAuthTokenUsingPinWithPermissions]
      by_cases hset : isPinSet d.pins = true
      · by_cases hten : 10 ≤ getFailedPinAttempts env d.pins
        · simpa [hset, hten] using quiet _ d.session
        · by_cases hperm : req.permissions = 0
          · simpa [hset, hten, hperm] using quiet _ d.session
          · simpa [hset, hten, hperm] using token
      · simpa [hset] using quiet _ d.session
    · exact quiet _ _

theorem setPin_acts {p : PinFiles} {session : PinSession} {req : ClientPinRequest} :
    (setPin P env p session req).2.1 = [] := by
  unfold setPin
  repeat' split
  all_goals rfl

theorem credentialManagement_cases {body : Bytes} {Q : CredentialManagementResult → Prop}
    (quiet : ∀ reply enumeration, Q ⟨reply, [], d.uv, d.keys, enumeration⟩)
    (begin : ∀ req, parseCredentialManagement body = some req → req.subCommand = 0x04 →
      Q (enumerateCredentialsBegin P env d req.targetRpIdHash))
    (delete : ∀ req k, parseCredentialManagement body = some req → req.subCommand = 0x06 →
      deletePasskeyRecord env d.keys (toHex req.targetCredId) = (true, k) →
      Q ⟨.items [.map 0], [], d.uv, k, d.enumeration⟩) :
    Q (credentialManagement P env d body) := by
  unfold credentialManagement
  cases hp : parseCredentialManagement body with
  | none => exact quiet _ _
  | some req =>
    simp only
    split
    · exact quiet _ _
    · unfold enumerateRpsBegin
      split <;> exact quiet _ _
    · unfold enumerateRpsGetNextRp
      split <;> exact quiet _ _
    next hs => exact begin req hp hs
    · unfold enumerateCredentialsGetNextCredential
      split <;> exact quiet _ _
    next hs =>
      unfold deleteCredential
      split
      next k hk => exact delete req k hp hs hk
      next k hk =>
        have hsame : k = d.keys := by
          unfold deletePasskeyRecord rewritePasskeys at hk
          repeat' split at hk
          all_goals simp_all
        rw [hsame]
        exact quiet _ _
    · exact quiet _ _

/-- The beginning of an enumeration lists, and looks for a finger when one of
the listed credentials asks for it. -/
theorem enumerateCredentialsBegin_cases {h : Bytes} {Q : CredentialManagementResult → Prop}
    (unasked : ∀ reply enumeration,
      Q ⟨reply, ((credentialsOfHash P env d.keys h).map Prod.fst).map fun cid =>
        .listed cid (.rpIdHash h), d.uv, d.keys, enumeration⟩)
    (asked : ∀ reply enumeration r uv, Waited env d.bio d.uv r uv →
      Q ⟨reply, ((credentialsOfHash P env d.keys h).map Prod.fst).map (fun cid =>
        .listed cid (.rpIdHash h)) ++ r.acts, uv, d.keys, enumeration⟩) :
    Q (enumerateCredentialsBegin P env d h) := by
  unfold enumerateCredentialsBegin
  simp only
  have hw := cachedOrWait_waited env d.bio d.uv
  rcases hc : (credentialsOfHash P env d.keys h).map Prod.fst with _ | ⟨cid, cids⟩
  · rw [hc] at unasked
    exact unasked _ _
  · rw [hc] at unasked asked
    simp only
    split
    · rcases hr : cachedOrWait env d.bio d.uv with ⟨r, uv⟩
      rw [hr] at hw
      cases r with
      | cancelled => simpa [WaitResult.acts] using asked (.status 0x2D) _ .cancelled uv hw
      | timedOut => simpa [WaitResult.acts] using asked (.status 0x34) _ .timedOut uv hw
      | verified act time => exact asked _ _ (.verified act time) uv hw
    · exact unasked _ _

theorem bioEnrollment_cases {body : Bytes} {Q : BioEnrollmentResult → Prop}
    (quiet : ∀ reply enroll, Q ⟨reply, [], d.uv, d.bio, enroll⟩)
    (begin : ∀ req answer, parseBioEnrollment body = some req → req.subCommand = some 0x01 →
      findFreeBioTemplateSlot env d.bio ≠ 0 →
      Q (captureStep env d ⟨true, findFreeBioTemplateSlot env d.bio, 2, 2⟩ answer))
    (next : ∀ req answer, parseBioEnrollment body = some req → req.subCommand = some 0x02 →
      d.enroll.active = true → Q (captureStep env d d.enroll answer))
    (enumerate : Q (enumerateEnrollments env d))
    (rename : ∀ req id name b, parseBioEnrollment body = some req → req.subCommand = some 0x05 →
      req.templateId = some [id] → req.friendlyName = some name →
      id ∈ getAllBioTemplateIds env d.bio → saveBioTemplateName env d.bio id name = some b →
      Q ⟨.items [.map 0], [], d.uv, b, d.enroll⟩)
    (remove : ∀ req id enroll, parseBioEnrollment body = some req → req.subCommand = some 0x06 →
      req.templateId = some [id] → id ∈ getAllBioTemplateIds env d.bio →
      Q ⟨.items [.map 0], [], d.uv,
        (deleteBioTemplateRecord env (deleteModel env d.bio id) id).2, enroll⟩) :
    Q (bioEnrollment env d body) := by
  unfold bioEnrollment
  cases hp : parseBioEnrollment body with
  | none => exact quiet _ _
  | some req =>
    simp only
    split
    · exact quiet _ _
    · exact quiet _ _
    next sub hs =>
      split
      · exact quiet _ _
      split
      · exact quiet _ _
      split
      · unfold enrollBegin
        simp only
        split
        · exact quiet _ _
        next hslot => exact begin req _ hp hs hslot
      · unfold enrollCaptureNextSample
        split
        · exact quiet _ _
        next hact =>
          refine next req _ hp hs ?_
          simp only [not_or, Bool.not_eq_true', Bool.not_eq_false] at hact
          exact hact.1
      · exact quiet _ _
      · exact enumerate
      · unfold setFriendlyName
        split
        next id name hid hname =>
          split
          · exact quiet _ _
          next hmem =>
            split
            · exact quiet _ _
            next b hb => exact rename req id name b hp hs hid hname (by simpa using hmem) hb
        · exact quiet _ _
      · unfold removeEnrollment
        split
        next id hid =>
          split
          · exact quiet _ _
          next hmem => exact remove req id _ hp hs hid (by simpa using hmem)
        · exact quiet _ _
      · exact quiet _ _

theorem enumerateEnrollments_cases {Q : BioEnrollmentResult → Prop}
    (all : ∀ reply r uv, Waited env d.bio d.uv r uv → Q ⟨reply, r.acts, uv, d.bio, d.enroll⟩) :
    Q (enumerateEnrollments env d) := by
  unfold enumerateEnrollments
  have hw := cachedOrWait_waited env d.bio d.uv
  rcases hr : cachedOrWait env d.bio d.uv with ⟨r, uv⟩
  rw [hr] at hw
  cases r with
  | cancelled => exact all _ .cancelled uv hw
  | timedOut => exact all _ .timedOut uv hw
  | verified act time =>
    simp only
    split <;> exact all _ (.verified act time) uv hw

/-- A capture stores a model with the last sample, and nothing before. -/
theorem captureStep_cases {e : BioEnroll} {answer : Nat → BioEnroll → List Item}
    {Q : BioEnrollmentResult → Prop}
    (pending : ∀ reply enroll, enroll.templateId = e.templateId →
      Q ⟨reply, [], d.uv, d.bio, enroll⟩)
    (finished : ∀ reply enroll, ¬ 0 < e.samplesRemaining - min 1 e.samplesRemaining →
      env.storeModel = .ok →
      let b := storeModel d.bio e.templateId
      Q ⟨reply, [], d.uv,
        (saveBioTemplateName env b e.templateId (fingerName e.templateId)).getD b, enroll⟩) :
    Q (captureStep env d e answer) := by
  unfold captureStep captureBioSample
  by_cases hcancel : env.sampleCancelled = true
  · simp only [hcancel, if_true]
    exact pending _ _ rfl
  · simp only [hcancel, if_false, Bool.false_eq_true]
    cases hsample : env.sample with
    | noFinger => exact pending _ _ rfl
    | failed => exact pending _ _ rfl
    | ok =>
      simp only
      by_cases htz : env.sampleTz = .ok
      · simp only [htz, ne_eq, not_true_eq_false, if_false]
        by_cases hmore : 0 < e.samplesRemaining - min 1 e.samplesRemaining
        · simp only [if_pos hmore]
          exact pending _ _ rfl
        · simp only [if_neg hmore]
          by_cases hcreate : env.createModel = .ok
          · by_cases hstore : env.storeModel = .ok
            · simp only [hcreate, hstore, not_true_eq_false, if_false, if_true]
              exact finished _ _ hmore hstore
            · simp only [hcreate, hstore, not_true_eq_false, not_false_eq_true, if_false, if_true]
              exact pending _ _ rfl
          · simp only [hcreate, not_false_eq_true, if_true]
            exact pending _ _ rfl
      · simp only [htz, ne_eq, not_false_eq_true, if_true]
        exact pending _ _ rfl

theorem captureStep_acts {e : BioEnroll} {answer : Nat → BioEnroll → List Item} :
    (captureStep env d e answer).acts = [] ∧ (captureStep env d e answer).uv = d.uv := by
  unfold captureStep
  split <;> exact ⟨rfl, rfl⟩

/-- A first fragment is taken after an accepted finger and starts a new array;
a later one continues the array being received. -/
theorem largeBlobs_cases {body : Bytes} {Q : LargeBlobsResult → Prop}
    (quiet : ∀ reply uv, uv.lastFingerprintSuccessTime = d.uv.lastFingerprintSuccessTime →
      Q ⟨reply, [], uv, d.blob⟩)
    (noMemory : ∀ act uv, Accepted env d.bio env.sensor act env.now →
      uv.lastFingerprintSuccessTime = d.uv.lastFingerprintSuccessTime →
      Q ⟨.status 0x01, [act], uv, { d.blob with writing := none }⟩)
    (first : ∀ req fragment total act uv, parseLargeBlobs body = some req →
      req.set = some fragment → req.fragmentOffset = 0 →
      Accepted env d.bio env.sensor act env.now →
      uv.lastFingerprintSuccessTime = d.uv.lastFingerprintSuccessTime →
      let r := largeBlobsAppend P env { d.blob with writing := some ⟨total, []⟩ } 0 fragment
      Q ⟨r.1, [act], uv, r.2⟩)
    (later : ∀ req fragment, parseLargeBlobs body = some req → req.set = some fragment →
      req.fragmentOffset ≠ 0 →
      let r := largeBlobsAppend P env d.blob req.fragmentOffset fragment
      Q ⟨r.1, [], d.uv, r.2⟩) :
    Q (largeBlobs P env d body) := by
  unfold largeBlobs
  cases hp : parseLargeBlobs body with
  | none => exact quiet _ _ rfl
  | some req =>
    simp only
    split
    · exact quiet _ _ rfl
    next fragment _ hset =>
      unfold largeBlobsSet
      split
      next hoff =>
        split
        · exact quiet _ _ rfl
        next total _ =>
          split
          · exact quiet _ _ rfl
          · have hlast := fidoVerifyFingerprint_last env d.bio d.uv env.sensor env.now
            have hacc := @fidoVerifyFingerprint_accepted env d.bio d.uv env.sensor env.now
            rcases hv : fidoVerifyFingerprint env d.bio d.uv env.sensor env.now with ⟨act, uv⟩
            rw [hv] at hlast hacc
            cases act with
            | none => exact quiet _ uv hlast
            | some act =>
              simp only
              split
              · exact noMemory act uv (hacc rfl) hlast
              · exact first req fragment total act uv hp hset hoff (hacc rfl) hlast
      next hoff => exact later req fragment hp hset hoff
    · exact quiet _ _ rfl

/-- The application parameter and the key handle of a frame. -/
def u2fAppId (env : Env) (data : Bytes) : Bytes := frameBytes env data 39 32

def u2fKeyHandle (env : Env) (data : Bytes) : Bytes :=
  frameBytes env data 72 (byteAt (frameBytes env data 71 1) 0).toNat

theorem processU2fCommand_cases {data : Bytes} {Q : U2fResult → Prop}
    (quiet : ∀ reply, Q ⟨reply, [], d.uv, d.keys, d.signCount⟩)
    (register : ∀ challenge, Q (u2fRegister P env d challenge (u2fAppId env data)))
    (authenticate : byteAt data 1 = 0x02 → ∀ challenge,
      Q (u2fAuthenticate P env d (byteAt data 2) challenge (u2fAppId env data)
        (u2fKeyHandle env data))) :
    Q (processU2fCommand P env d data) := by
  unfold processU2fCommand
  simp only
  split
  · exact quiet _
  split
  · exact quiet _
  split
  · exact quiet _
  split
  · split
    · exact quiet _
    · exact register _
  split
  next hins =>
    split
    · exact quiet _
    · exact authenticate hins _
  · exact quiet _

theorem u2fRegister_cases {challenge appId : Bytes} {Q : U2fResult → Prop}
    (refused : ∀ reply acts uv, (acts = [] ∨ ∃ act, acts = [act] ∧
        Accepted env d.bio env.sensor act env.now) →
      uv.lastFingerprintSuccessTime = d.uv.lastFingerprintSuccessTime →
      Q ⟨reply, acts, uv, d.keys, d.signCount⟩)
    (saved : ∀ reply key k act uv signed, generateCredentialKeyP256 P env = some key →
      savePasskeyRecord P env d.keys (toHex (env.draw .keyHandle 16))
        (u2fRecord appId key.privateKeyHex) = some k →
      Accepted env d.bio env.sensor act env.now →
      uv.lastFingerprintSuccessTime = d.uv.lastFingerprintSuccessTime →
      (∀ a ∈ signed, ∃ msg sig,
        a = .signed (toHex (env.draw .keyHandle 16)) (.appId appId) (-7) msg sig ∧
        generateAlgSignature P env (-7) key.privateKeyHex msg = some sig) →
      Q ⟨reply, [act, .created (toHex (env.draw .keyHandle 16)) (.appId appId) (-7)
        key.publicKey] ++ signed, uv, k, d.signCount⟩) :
    Q (u2fRegister P env d challenge appId) := by
  unfold u2fRegister
  have hlast := fidoVerifyFingerprint_last env d.bio d.uv env.sensor env.now
  have hacc := @fidoVerifyFingerprint_accepted env d.bio d.uv env.sensor env.now
  rcases hv : fidoVerifyFingerprint env d.bio d.uv env.sensor env.now with ⟨act, uv⟩
  rw [hv] at hlast hacc
  cases act with
  | none => exact refused _ _ uv (.inl rfl) hlast
  | some act =>
    have hacc := hacc rfl
    simp only
    cases hk : generateCredentialKeyP256 P env with
    | none => exact refused _ _ uv (.inr ⟨act, rfl, hacc⟩) hlast
    | some key =>
      simp only
      split
      · exact refused _ _ uv (.inr ⟨act, rfl, hacc⟩) hlast
      · split
        · exact refused _ _ uv (.inr ⟨act, rfl, hacc⟩) hlast
        next k hsave =>
          split
          · exact saved _ key k act uv [] hk hsave hacc hlast (by simp)
          next sig hsig =>
            have hown : ∀ a ∈ (if (attestationSigner P (-7) key.privateKeyHex).leafCert.isSome
                then [] else [Act.signed (toHex (env.draw .keyHandle 16)) (.appId appId) (-7)
                  (0x00 :: (appId ++ challenge ++ env.draw .keyHandle 16 ++ padTo 65 key.publicKey))
                  sig]), ∃ msg sig,
                a = .signed (toHex (env.draw .keyHandle 16)) (.appId appId) (-7) msg sig ∧
                generateAlgSignature P env (-7) key.privateKeyHex msg = some sig := by
              intro a ha
              split at ha
              · simp at ha
              next hleaf =>
                simp only [List.mem_singleton] at ha
                refine ⟨_, sig, ha, ?_⟩
                have hself : (attestationSigner P (-7) key.privateKeyHex).privateKeyHex
                    = key.privateKeyHex := by
                  unfold attestationSigner at hleaf ⊢
                  split
                  next ha hl => simp [ha, hl] at hleaf
                  · rfl
                rw [hself] at hsig
                exact hsig
            split
            · exact saved _ key k act uv _ hk hsave hacc hlast hown
            · exact saved _ key k act uv _ hk hsave hacc hlast hown

theorem u2fAuthenticate_cases {p1 : UInt8} {challenge appId keyHandle : Bytes}
    {Q : U2fResult → Prop}
    (refused : ∀ reply acts uv n, (acts = [] ∨ ∃ act, acts = [act] ∧
        Accepted env d.bio env.sensor act env.now) →
      uv.lastFingerprintSuccessTime = d.uv.lastFingerprintSuccessTime →
      Q ⟨reply, acts, uv, d.keys, n⟩)
    (signed : ∀ reply c act uv msg sig, getPasskeyRecord P env d.keys (toHex keyHandle) = some c →
      rpFieldMatchesHash P c.rpId (toHex appId) = true → p1 ≠ 0x07 →
      Accepted env d.bio env.sensor act env.now →
      uv.lastFingerprintSuccessTime = d.uv.lastFingerprintSuccessTime →
      generateAlgSignature P env (-7) c.privateKeyHex msg = some sig →
      Q ⟨reply, [act, .signed (toHex keyHandle) (.appId appId) (-7) msg sig], uv, d.keys,
        nextSignCount d.signCount⟩) :
    Q (u2fAuthenticate P env d p1 challenge appId keyHandle) := by
  unfold u2fAuthenticate
  cases hg : getPasskeyRecord P env d.keys (toHex keyHandle) with
  | none => exact refused _ _ _ _ (.inl rfl) rfl
  | some c =>
    simp only
    split
    · exact refused _ _ _ _ (.inl rfl) rfl
    next hm =>
      split
      · exact refused _ _ _ _ (.inl rfl) rfl
      next hp1 =>
        have hlast := fidoVerifyFingerprint_last env d.bio d.uv env.sensor env.now
        have hacc := @fidoVerifyFingerprint_accepted env d.bio d.uv env.sensor env.now
        rcases hv : fidoVerifyFingerprint env d.bio d.uv env.sensor env.now with ⟨act, uv⟩
        rw [hv] at hlast hacc
        cases act with
        | none => exact refused _ _ uv _ (.inl rfl) hlast
        | some act =>
          simp only
          split
          · exact refused _ _ uv _ (.inr ⟨act, rfl, hacc rfl⟩) hlast
          next sig hsig =>
            exact signed _ c act uv _ sig hg (by simpa using hm) hp1 (hacc rfl) hlast hsig

end GoiKey
