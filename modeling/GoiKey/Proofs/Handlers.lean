import GoiKey.Proofs.Fingers

/-!
Case rules of the credential commands: how each of them can end, with the parts
of the state it has written by then.
-/

namespace GoiKey

variable {P : Platform} {env : Env} {d : Device} {k k' k'' : Keystore}

/-! Looking a wrapped id up may create the secret, and nothing else. -/

def Ensured (env : Env) (k k' : Keystore) : Prop :=
  k' = k ∨ k' = (getStatelessMasterSecret env k).2

theorem getStatelessMasterSecret_idem :
    getStatelessMasterSecret env (getStatelessMasterSecret env k).2 = getStatelessMasterSecret env k := by
  cases hn : env.nvsOpen <;> cases hs : k.slSecret <;> simp [getStatelessMasterSecret, hn, hs]

theorem getStatelessMasterSecret_ensured (h : Ensured env k k') :
    getStatelessMasterSecret env k' = getStatelessMasterSecret env k := by
  rcases h with rfl | rfl
  · rfl
  · exact getStatelessMasterSecret_idem

theorem Ensured.refl : Ensured env k k := .inl rfl

theorem Ensured.trans (h : Ensured env k k') (h' : Ensured env k' k'') : Ensured env k k'' := by
  rcases h' with rfl | rfl
  · exact h
  · exact .inr (by rw [getStatelessMasterSecret_ensured h])

@[simp] theorem getStatelessMasterSecret_passkeys :
    (getStatelessMasterSecret env k).2.passkeys = k.passkeys := by
  unfold getStatelessMasterSecret
  split
  · rfl
  · split <;> rfl

theorem Ensured.passkeys (h : Ensured env k k') : k'.passkeys = k.passkeys := by
  rcases h with rfl | rfl
  · rfl
  · simp

theorem unwrapStatelessCredential_ensured (P : Platform) (env : Env) (k : Keystore)
    (credId : Bytes) (rpId : Str) :
    Ensured env k (unwrapStatelessCredential P env k credId rpId).2 := by
  unfold unwrapStatelessCredential
  split
  · exact .inl rfl
  · simp only
    repeat' split
    all_goals exact .inr rfl

theorem getPasskeyRecord_ensured (h : Ensured env k k') (cid : Str) :
    getPasskeyRecord P env k' cid = getPasskeyRecord P env k cid := by
  simp [getPasskeyRecord, readPasskeys, h.passkeys]

theorem matchAllowed_ensured (P : Platform) (env : Env) (k : Keystore) (rpId : Str) (ids : List Bytes) :
    Ensured env k (matchAllowed P env rpId ids k).2 := by
  induction ids generalizing k with
  | nil => exact .inl rfl
  | cons id ids ih =>
    have hu := unwrapStatelessCredential_ensured P env k id rpId
    exact hu.trans (ih _)

theorem matchedCredentials_ensured (P : Platform) (env : Env) (k : Keystore)
    (req : GetAssertionRequest) :
    Ensured env k (matchedCredentials P env k req).2 := by
  unfold matchedCredentials
  split
  · exact .inl rfl
  · exact matchAllowed_ensured P env k _ _

theorem resolveCredential_ensured (P : Platform) (env : Env) (k : Keystore) (rpId cid : Str) :
    Ensured env k (resolveCredential P env k rpId cid).2 := by
  have hu := unwrapStatelessCredential_ensured P env k (binCredId cid) rpId
  unfold resolveCredential
  split
  next c k' he =>
    rw [he] at hu
    exact hu
  next k' he =>
    rw [he] at hu
    exact hu

/-! Signing one assertion. -/

/-- The acts of one assertion: nothing, or a signature, and with a response the
flags it carries. -/
theorem assertCredential_acts {c : StoredCredential} {a : AssertionInput} {n : UInt32} {act : Act}
    (h : act ∈ (assertCredential P env c a n).2) :
    act = .authData a.flags ∨
      ∃ msg sig, act = .signed a.cid (.rpId a.rpId) c.algId msg sig ∧
        generateAlgSignature P env c.algId c.privateKeyHex msg = some sig := by
  unfold assertCredential at h
  simp only at h
  split at h
  · simp at h
  next sig hs =>
    split at h
    · simp only [List.mem_singleton] at h
      exact .inr ⟨_, sig, h, hs⟩
    · simp only [List.mem_cons, List.not_mem_nil, or_false] at h
      rcases h with h | h
      · exact .inr ⟨_, sig, h, hs⟩
      · exact .inl h

/-! GetAssertion. -/

def listedActs (creds : List Str) (rpId : Str) : List Act :=
  creds.map fun cid => .listed cid (.rpId rpId)

/-- The request names a party and carries a whole hash. -/
def GetAssertionRequest.Complete (req : GetAssertionRequest) : Prop :=
  req.targetRpId ≠ [] ∧ req.clientDataHash.length = 32

instance (req : GetAssertionRequest) : Decidable req.Complete :=
  inferInstanceAs (Decidable (_ ∧ _))

theorem getAssertion_cases {req : GetAssertionRequest} {Q : AssertionResult → Prop}
    (refused : ∀ code k creds, Ensured env d.keys k →
      (∀ cid ∈ creds, cid ∈ (matchedCredentials P env d.keys req).1) →
      Q ⟨.status code, listedActs creds req.targetRpId, d.uv, k, d.next, d.signCount⟩)
    (unverified : ∀ code k k' cid rest c uv, req.Complete → Ensured env d.keys k →
      matchedCredentials P env d.keys req = (cid :: rest, k') →
      resolveCredential P env k' req.targetRpId cid = (some c, k) →
      (cachedOrWait env d.bio d.uv).1.acts = [] → (cachedOrWait env d.bio d.uv).2 = uv →
      Q ⟨.status code, listedActs (cid :: rest) req.targetRpId ++ [.listSetUp (rest.length + 1)],
        uv, k, setUpNext d.next req (cid :: rest), d.signCount⟩)
    (verified : ∀ k k' cid rest c act time uv, req.Complete → Ensured env d.keys k →
      Ensured env d.keys k' → matchedCredentials P env d.keys req = (cid :: rest, k') →
      resolveCredential P env k' req.targetRpId cid = (some c, k) →
      cachedOrWait env d.bio d.uv = (.verified act time, uv) →
      Q ⟨(assertCredential P env c (req.input cid (rest.length + 1)) d.signCount).1,
        listedActs (cid :: rest) req.targetRpId ++ [.listSetUp (rest.length + 1)] ++
          act :: (assertCredential P env c (req.input cid (rest.length + 1)) d.signCount).2,
        uv, k, setUpNext d.next req (cid :: rest), nextSignCount d.signCount⟩) :
    Q (getAssertion P env d req) := by
  unfold getAssertion
  split
  · exact refused _ d.keys [] .refl (by simp)
  next hvalid =>
    have hvalid : req.Complete := by simpa [GetAssertionRequest.Complete] using hvalid
    have hm := matchedCredentials_ensured P env d.keys req
    rcases hc : matchedCredentials P env d.keys req with ⟨creds, k'⟩
    rw [hc] at hm
    simp only
    cases creds with
    | nil => exact refused _ k' [] hm (by simp)
    | cons cid rest =>
      have hr := resolveCredential_ensured P env k' req.targetRpId cid
      rcases hres : resolveCredential P env k' req.targetRpId cid with ⟨c, k⟩
      rw [hres] at hr
      have hk := hm.trans hr
      simp only [hres]
      cases c with
      | none => exact refused _ k (cid :: rest) hk (by rw [hc]; simp)
      | some c =>
        rcases hw : cachedOrWait env d.bio d.uv with ⟨r, uv⟩
        cases r with
        | cancelled => exact unverified _ k k' cid rest c uv hvalid hk hc hres (by rw [hw]; rfl) (by rw [hw])
        | timedOut => exact unverified _ k k' cid rest c uv hvalid hk hc hres (by rw [hw]; rfl) (by rw [hw])
        | verified act time => exact verified k k' cid rest c act time uv hvalid hk hm hc hres hw

theorem getNextAssertion_cases {Q : AssertionResult → Prop}
    (refused : Q ⟨.status 0x2C, [], d.uv, d.keys, d.next, d.signCount⟩)
    (unknown : ∀ k, Ensured env d.keys k → d.next.idx < d.next.creds.length →
      Q ⟨.status 0x2E, [], d.uv, k, { d.next with idx := d.next.idx + 1 }, d.signCount⟩)
    (signed : ∀ k cid c, Ensured env d.keys k → d.next.creds[d.next.idx]? = some cid →
      resolveCredential P env d.keys d.next.rpId cid = (some c, k) →
      Q ⟨(assertCredential P env c (d.next.input cid) d.signCount).1,
        (assertCredential P env c (d.next.input cid) d.signCount).2, d.uv, k,
        { d.next with idx := d.next.idx + 1 }, nextSignCount d.signCount⟩) :
    Q (getNextAssertion P env d) := by
  unfold getNextAssertion
  cases hi : d.next.creds[d.next.idx]? with
  | none => exact refused
  | some cid =>
    have hr := resolveCredential_ensured P env d.keys d.next.rpId cid
    rcases hres : resolveCredential P env d.keys d.next.rpId cid with ⟨c, k⟩
    rw [hres] at hr
    simp only [hres]
    cases c with
    | none => exact unknown k hr (List.getElem?_eq_some_iff.mp hi).1
    | some c => exact signed k cid c hr hi hres

/-! MakeCredential. -/

theorem makeCredential_cases {req : MakeCredentialRequest} {Q : MakeCredentialResult → Prop}
    (refused : ∀ code uv, uv.lastFingerprintSuccessTime = d.uv.lastFingerprintSuccessTime →
      Q ⟨.status code, [], uv, d.keys⟩)
    (accepted : ∀ act time uv p, p ∈ env.polls → p.time = time →
      Accepted env d.bio p.sensor act time →
      uv.lastFingerprintSuccessTime = d.uv.lastFingerprintSuccessTime →
      Q ⟨(register P env d.keys d.signCount req).1,
        act :: (register P env d.keys d.signCount req).2.1, uv,
        (register P env d.keys d.signCount req).2.2⟩) :
    Q (makeCredential P env d req) := by
  unfold makeCredential
  split
  · exact refused _ d.uv rfl
  split
  · exact refused _ d.uv rfl
  · have hlast := waitForFinger_last env d.bio env.polls d.uv
    have hacc := @waitForFinger_accepted env d.bio d.uv env.polls
    rcases hw : waitForFinger env d.bio env.polls d.uv with ⟨r, uv⟩
    rw [hw] at hlast hacc
    cases r with
    | cancelled => exact refused _ uv hlast
    | timedOut => exact refused _ uv hlast
    | verified act time =>
      obtain ⟨p, hp, ht, ha⟩ := hacc rfl
      exact accepted act time uv p hp ht ha hlast

theorem register_cases {n : UInt32} {req : MakeCredentialRequest}
    {Q : CborReply × List Act × Keystore → Prop}
    (noKey : Q (.status 0x01, [], k))
    (notStored : ∀ key code, generateCredentialKey P env req.selectedAlgId = some key →
      (storeCredential P env k req key).credId = .error code →
      Q (.status code, (storeCredential P env k req key).acts, (storeCredential P env k req key).keys))
    (stored : ∀ key credId, generateCredentialKey P env req.selectedAlgId = some key →
      (storeCredential P env k req key).credId = .ok credId →
      Q ((attestCredential P env req n credId key).1,
        (storeCredential P env k req key).acts ++ (attestCredential P env req n credId key).2,
        (storeCredential P env k req key).keys)) :
    Q (register P env k n req) := by
  unfold register
  cases hk : generateCredentialKey P env req.selectedAlgId with
  | none => exact noKey
  | some key =>
    simp only
    cases hs : (storeCredential P env k req key).credId with
    | error code => exact notStored key code hk hs
    | ok credId => exact stored key credId hk hs

/-! The statuses that a registration can end with. -/

theorem storeCredential_error {req : MakeCredentialRequest} {key : KeyPair} {code : UInt8}
    (h : (storeCredential P env k req key).credId = .error code) : code = 0x01 ∨ code = 0x21 := by
  unfold storeCredential at h
  split at h
  · simp only [storeResident] at h
    split at h
    next =>
      cases h
      exact .inr rfl
    next => cases h
  · simp only [storeStateless] at h
    split at h
    next =>
      cases h
      exact .inl rfl
    next => cases h

theorem attestCredential_status {req : MakeCredentialRequest} {n : UInt32} {credId : Bytes} {key : KeyPair}
    {code : UInt8} (h : (attestCredential P env req n credId key).1 = .status code) : code = 0x01 := by
  unfold attestCredential at h
  split at h
  · cases h
    rfl
  · dsimp only at h
    split at h
    · cases h
      rfl
    · cases h

theorem register_status {n : UInt32} {req : MakeCredentialRequest} {code : UInt8} :
    (register P env k n req).1 = .status code → code = 0x01 ∨ code = 0x21 := by
  refine register_cases (Q := fun r => r.1 = .status code → code = 0x01 ∨ code = 0x21) ?_ ?_ ?_
  · intro h
    cases h
    exact .inl rfl
  · intro key error _ hstore h
    cases h
    exact storeCredential_error hstore
  · intro key credId _ _ h
    exact .inl (attestCredential_status h)

theorem attestCredential_acts {n : UInt32} {req : MakeCredentialRequest} {credId : Bytes}
    {key : KeyPair} {act : Act} (h : act ∈ (attestCredential P env req n credId key).2) :
    act = .authData (createFlags req) ∨
      ∃ msg sig, act = .signed (toHex credId) (.rpId req.targetRpId) req.selectedAlgId msg sig ∧
        generateAlgSignature P env req.selectedAlgId key.privateKeyHex msg = some sig := by
  unfold attestCredential at h
  split at h
  · simp at h
  · simp only at h
    split at h
    · simp at h
    next sig hs =>
      simp only [List.mem_append, List.mem_singleton] at h
      rcases h with h | h
      · split at h
        · simp at h
        next hc =>
          simp only [List.mem_singleton] at h
          refine .inr ⟨_, sig, h, ?_⟩
          have hself : attestationSigner P req.selectedAlgId key.privateKeyHex
              = ⟨req.selectedAlgId, key.privateKeyHex, none⟩ := by
            unfold attestationSigner at hc ⊢
            split
            next ha hl => simp [ha, hl] at hc
            · rfl
          rw [hself] at hs
          exact hs
      · exact .inl h

end GoiKey
