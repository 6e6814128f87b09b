import GoiKey.Proofs.Credentials

/-! What it takes for a step to create a credential, and to sign with one. -/

namespace GoiKey

variable {P : Platform} {env : Env} {d : Device} {i : Input} {k k' : Keystore} {acts acts' : List Act}
variable {cid : Str} {rp : RelyingParty} {algId : Int} {pub msg sig secret id : Bytes}

/-! Creating. -/

def Act.wrappedId : Act → Option Bytes
  | .issued _ id => some id
  | _ => none

/-- A credential id as a registration wraps it. -/
structure Issued (P : Platform) (env : Env) (k : Keystore) (acts : List Act) (secret id : Bytes)
    (req : MakeCredentialRequest) (key : KeyPair) : Prop where
  made : MadeKey P env req.selectedAlgId key
  wrappable : residentKey req = false
  secret : secret = (getStatelessMasterSecret env k).1
  wrapped : (wrapStatelessCredential P env k req.targetRpId req.userIdRaw req.userName
    key.privateKeyHex req.selectedAlgId).1 = some id
  created : .created (toHex id) (.rpId req.targetRpId) req.selectedAlgId key.publicKey ∈ acts

theorem storeCredential_issued {req : MakeCredentialRequest} {key : KeyPair}
    (hm : MadeKey P env req.selectedAlgId key)
    (h : .issued secret id ∈ (storeCredential P env k req key).acts) :
    Issued P env k (storeCredential P env k req key).acts secret id req key ∧
      (storeCredential P env k req key).keys = (getStatelessMasterSecret env k).2 := by
  unfold storeCredential at h ⊢
  split at h
  next hr =>
    refine storeResident_cases (Q := fun s => .issued secret id ∈ s.acts → _) ?_ ?_ h
    · intro old k' ho hi
      cases ho <;> simp at hi
    · intro old k' k'' ho _ hi
      cases ho <;> simp at hi
  next hr =>
    have hr : residentKey req = false := by simpa using hr
    rw [if_neg (by simp [hr])]
    unfold storeStateless at h ⊢
    split at h
    · simp at h
    next id' k' hw =>
      simp only [List.mem_cons, Act.issued.injEq, reduceCtorEq, List.not_mem_nil, or_false] at h
      obtain ⟨hs, rfl⟩ := h
      have hkeys : k' = (getStatelessMasterSecret env k).2 := by
        unfold wrapStatelessCredential at hw
        simp only at hw
        split at hw
        · cases hw
        · exact (congrArg Prod.snd hw).symm
      exact ⟨⟨hm, hr, hs, by rw [hw], by simp⟩, hkeys⟩

/-- The kinds of act that only registrations leave behind. -/
theorem registration_event (h : .created ∈ i.event.kinds ∨ .issued ∈ i.event.kinds) :
    i.event.code = some 0x01 ∨ ∃ data, i.event = .u2f data := by
  have command : ∀ code k, k = .created ∨ k = .issued → i.event.code = some code →
      k ∈ commandKinds code → i.event.code = some 0x01 := by
    rintro code k (rfl | rfl) hc hk <;> unfold commandKinds at hk <;> split at hk <;>
      simp [fingerKinds] at hk <;> exact hc
  rcases h with h | h
  · refine Event.kinds_cases (fun code hc hk => .inl (command code _ (.inl rfl) hc hk))
      (fun data hd _ => .inr ⟨data, hd⟩) ?_ (fun _ hk => by cases hk) h
    intro c _ hk
    simp [serialKinds] at hk
  · refine Event.kinds_cases (fun code hc hk => .inl (command code _ (.inr rfl) hc hk))
      (fun data hd _ => .inr ⟨data, hd⟩) ?_ (fun _ hk => by cases hk) h
    intro c _ hk
    simp [serialKinds] at hk

/-- What a U2F command does with credentials. -/
inductive U2fAct (P : Platform) (env : Env) (d : Device) (data : Bytes) (acts : List Act) :
    Act → Prop where
  | created {appId : Bytes} {key : KeyPair} (made : MadeKey P env (-7) key) :
    U2fAct P env d data acts
      (.created (toHex (env.draw .keyHandle 16)) (.appId appId) (-7) key.publicKey)
  | attested {appId msg sig : Bytes} {key : KeyPair} (made : MadeKey P env (-7) key)
    (created : .created (toHex (env.draw .keyHandle 16)) (.appId appId) (-7) key.publicKey ∈ acts)
    (sign : generateAlgSignature P env (-7) key.privateKeyHex msg = some sig) :
    U2fAct P env d data acts (.signed (toHex (env.draw .keyHandle 16)) (.appId appId) (-7) msg sig)
  | authenticated {msg sig : Bytes} {c : StoredCredential} (ins : byteAt data 1 = 0x02)
    (signs : byteAt data 2 ≠ 0x07)
    (record : getPasskeyRecord P env d.keys (toHex (u2fKeyHandle env data)) = some c)
    (party : rpFieldMatchesHash P c.rpId (toHex (u2fAppId env data)) = true)
    (sign : generateAlgSignature P env (-7) c.privateKeyHex msg = some sig) :
    U2fAct P env d data acts
      (.signed (toHex (u2fKeyHandle env data)) (.appId (u2fAppId env data)) (-7) msg sig)

theorem processU2fCommand_act {data : Bytes} {a : Act}
    (ha : a ∈ (processU2fCommand P env d data).acts) (hk : a.kind ∉ fingerKinds) :
    U2fAct P env d data (processU2fCommand P env d data).acts a := by
  have finger : ∀ act, Accepted env d.bio env.sensor act env.now → a ≠ act := by
    rintro act hacc rfl
    exact hk hacc.kind
  have refused : ∀ acts : List Act, (acts = [] ∨ ∃ act, acts = [act] ∧
      Accepted env d.bio env.sensor act env.now) → a ∉ acts := by
    rintro acts (rfl | ⟨act, rfl, hacc⟩) hm
    · cases hm
    · exact finger act hacc (List.mem_singleton.mp hm)
  refine processU2fCommand_cases (Q := fun r => a ∈ r.acts → U2fAct P env d data r.acts a) ?_ ?_ ?_ ha
  · intro reply hm
    cases hm
  · intro challenge
    refine u2fRegister_cases (Q := fun r => a ∈ r.acts → U2fAct P env d data r.acts a) ?_ ?_
    · intro reply acts uv h _ hm
      exact absurd hm (refused acts h)
    · intro reply key k' act uv signed hkey _ hacc _ hsigned hm
      have hmade : MadeKey P env (-7) key := .inr ⟨rfl, hkey⟩
      rcases List.mem_append.mp hm with hm | hm
      · have hm := (List.mem_cons.mp hm).resolve_left (finger act hacc)
        rw [List.mem_singleton.mp hm]
        exact .created hmade
      · obtain ⟨msg, sig, rfl, hsig⟩ := hsigned a hm
        exact .attested hmade (by simp) hsig
  · intro hins challenge
    refine u2fAuthenticate_cases (Q := fun r => a ∈ r.acts → U2fAct P env d data r.acts a) ?_ ?_
    · intro reply acts uv n h _ hm
      exact absurd hm (refused acts h)
    · intro reply c act uv msg sig hrec hparty hp1 hacc _ hsig hm
      have hm := (List.mem_cons.mp hm).resolve_left (finger act hacc)
      rw [List.mem_singleton.mp hm]
      exact .authenticated hins hp1 hrec hparty hsig

theorem makeCredential_stored {req : MakeCredentialRequest} {a : Act}
    (ha : a ∈ (makeCredential P env d req).acts)
    (hk : a.kind = .created ∨ a.kind = .issued ∨ a.kind = .deleted) :
    ∃ key, generateCredentialKey P env req.selectedAlgId = some key ∧
      a ∈ (storeCredential P env d.keys req key).acts ∧
      (storeCredential P env d.keys req key).acts ⊆ (makeCredential P env d req).acts ∧
      (makeCredential P env d req).keys = (storeCredential P env d.keys req key).keys := by
  refine makeCredential_cases (Q := fun r => a ∈ r.acts →
    ∃ key, generateCredentialKey P env req.selectedAlgId = some key ∧
      a ∈ (storeCredential P env d.keys req key).acts ∧
      (storeCredential P env d.keys req key).acts ⊆ r.acts ∧
      r.keys = (storeCredential P env d.keys req key).keys) ?_ ?_ ha
  · intro code uv _ h
    cases h
  · intro act time uv p _ _ hacc _ h
    have hact : a ≠ act := by
      rintro rfl
      have hfinger := hacc.kind
      rcases hk with hk | hk | hk <;> simp [hk, fingerKinds] at hfinger
    have h := (List.mem_cons.mp h).resolve_left hact
    refine register_cases (Q := fun r => a ∈ r.2.1 →
      ∃ key, generateCredentialKey P env req.selectedAlgId = some key ∧
        a ∈ (storeCredential P env d.keys req key).acts ∧
        (storeCredential P env d.keys req key).acts ⊆ act :: r.2.1 ∧
        r.2.2 = (storeCredential P env d.keys req key).keys) ?_ ?_ ?_ h
    · intro h
      cases h
    · intro key code hkey _ h
      exact ⟨key, hkey, h, List.subset_cons_self _ _, rfl⟩
    · intro key credId hkey _ h
      refine ⟨key, hkey, ?_, by simp, rfl⟩
      rcases List.mem_append.mp h with h | h
      · exact h
      · rcases attestCredential_acts h with rfl | ⟨msg, sig, rfl, -⟩ <;> simp [Act.kind] at hk

theorem step_issued (h : .issued secret id ∈ (step P d i).1.acts) :
    i.event.code = some 0x01 ∧ (step P d i).2.keys = (getStatelessMasterSecret i.env d.keys).2 ∧
      ∃ req key, Issued P i.env d.keys (step P d i).1.acts secret id req key := by
  have hu : ∀ data, i.event ≠ .u2f data := by
    intro data he
    have hk := (step_kinds P d i _ h).1
    rw [he] at hk
    simp [Event.kinds, u2fKinds, fingerKinds, Act.kind] at hk
  rcases registration_event (.inr (step_kinds P d i _ h).1) with hc | ⟨data, he⟩
  · refine ⟨hc, ?_⟩
    rcases step_makeCredential (P := P) (d := d) hc with ⟨reply, hs⟩ | ⟨body, hs⟩ <;> rw [hs] at h ⊢
    · cases h
    · obtain ⟨key, hkey, hi, hsub, hkeys⟩ := makeCredential_stored h (.inr (.inl rfl))
      obtain ⟨hissued, hsecret⟩ := storeCredential_issued (.inl hkey) hi
      exact ⟨hkeys.trans hsecret, _, key, { hissued with created := hsub hissued.created }⟩
  · exact absurd he (hu data)

theorem toHex_draw_length (env : Env) (x : Draw) : (toHex (env.draw x 16)).length = 32 := by simp

/-- A new credential has an id of 16 bytes, or one that was wrapped. -/
theorem step_created (h : .created cid rp algId pub ∈ (step P d i).1.acts) :
    cid.length = 32 ∨ ∃ secret id, cid = toHex id ∧ .issued secret id ∈ (step P d i).1.acts := by
  rcases registration_event (.inl (step_kinds P d i _ h).1) with hc | ⟨data, he⟩
  · rcases step_makeCredential (P := P) (d := d) hc with ⟨reply, hs⟩ | ⟨body, hs⟩ <;> rw [hs] at h ⊢
    · cases h
    · obtain ⟨key, -, hi, hsub, -⟩ := makeCredential_stored h (.inl rfl)
      unfold storeCredential at hi hsub
      split at hi
      next hr =>
        left
        refine storeResident_cases (Q := fun s => .created cid rp algId pub ∈ s.acts → cid.length = 32)
          ?_ ?_ hi
        · intro old k' ho hm
          cases ho <;> simp at hm
        · intro old k' k'' ho _ hm
          cases ho <;> simp at hm <;> rw [hm.1] <;> exact toHex_draw_length _ _
      next hr =>
        right
        rw [if_neg hr] at hsub
        unfold storeStateless at hi hsub
        split at hi
        · simp at hi
        next id k' hw =>
          rw [hw] at hsub
          simp only [List.mem_cons, reduceCtorEq, List.not_mem_nil, or_false, false_or,
            Act.created.injEq] at hi
          exact ⟨_, id, hi.1, hsub List.mem_cons_self⟩
  · left
    have hs : step P d i = runU2f P i.env d data := by rw [step, he]
    rw [hs] at h
    cases processU2fCommand_act h (by simp [Act.kind, fingerKinds]) with
    | created made => exact toHex_draw_length _ _

/-! Signing. -/

/-- What a signature is made with: the key of a registration of the step, that of
the record a U2F command names, or that of the credential an assertion opens. -/
inductive SignedWith (P : Platform) (d : Device) (i : Input) (acts : List Act) :
    Str → RelyingParty → Int → Bytes → Bytes → Prop where
  | registration {cid : Str} {rp : RelyingParty} {algId : Int} {msg sig : Bytes} {key : KeyPair}
    (made : MadeKey P i.env algId key) (created : .created cid rp algId key.publicKey ∈ acts)
    (sign : generateAlgSignature P i.env algId key.privateKeyHex msg = some sig) :
    SignedWith P d i acts cid rp algId msg sig
  | u2f {data msg sig : Bytes} {c : StoredCredential} (event : i.event = .u2f data)
    (ins : byteAt data 1 = 0x02) (signs : byteAt data 2 ≠ 0x07)
    (record : getPasskeyRecord P i.env d.keys (toHex (u2fKeyHandle i.env data)) = some c)
    (party : rpFieldMatchesHash P c.rpId (toHex (u2fAppId i.env data)) = true)
    (sign : generateAlgSignature P i.env (-7) c.privateKeyHex msg = some sig) :
    SignedWith P d i acts (toHex (u2fKeyHandle i.env data)) (.appId (u2fAppId i.env data)) (-7) msg
      sig
  | assertion {cid rpId : Str} {msg sig : Bytes} {c : StoredCredential} {k k' : Keystore}
    (code : i.event.code = some 0x02 ∨ i.event.code = some 0x08) (keys : Ensured i.env d.keys k)
    (listed : .listed cid (.rpId rpId) ∈ acts ∨ (cid ∈ d.next.creds ∧ d.next.rpId = rpId))
    (opened : resolveCredential P i.env k rpId cid = (some c, k'))
    (sign : generateAlgSignature P i.env c.algId c.privateKeyHex msg = some sig) :
    SignedWith P d i acts cid (.rpId rpId) c.algId msg sig

theorem signed_event (h : .signed ∈ i.event.kinds) :
    i.event.code = some 0x01 ∨ i.event.code = some 0x02 ∨ i.event.code = some 0x08 ∨
      ∃ data, i.event = .u2f data := by
  refine Event.kinds_cases ?_ ?_ ?_ ?_ h
  · intro code hc hk
    rw [hc]
    unfold commandKinds at hk
    split at hk <;> simp [fingerKinds] at hk ⊢
  · intro data he _
    exact .inr (.inr (.inr ⟨data, he⟩))
  · intro c _ hk
    simp [serialKinds] at hk
  · intro _ hk
    cases hk

theorem storeCredential_created {req : MakeCredentialRequest} {key : KeyPair} {credId : Bytes}
    (h : (storeCredential P env k req key).credId = .ok credId) :
    .created (toHex credId) (.rpId req.targetRpId) req.selectedAlgId key.publicKey
      ∈ (storeCredential P env k req key).acts := by
  unfold storeCredential at h ⊢
  split at h
  next hr =>
    rw [if_pos hr]
    refine storeResident_cases (Q := fun s => s.credId = .ok credId →
      .created (toHex credId) (.rpId req.targetRpId) req.selectedAlgId key.publicKey ∈ s.acts) ?_ ?_ h
    · intro old k' _ hc
      cases hc
    · intro old k' k'' _ _ hc
      cases hc
      simp
  next hr =>
    rw [if_neg hr]
    unfold storeStateless at h ⊢
    split at h
    · cases h
    · cases h
      simp

theorem makeCredential_signed {req : MakeCredentialRequest}
    (h : .signed cid rp algId msg sig ∈ (makeCredential P i.env d req).acts) :
    SignedWith P d i (makeCredential P i.env d req).acts cid rp algId msg sig := by
  refine makeCredential_cases (Q := fun r => .signed cid rp algId msg sig ∈ r.acts →
    SignedWith P d i r.acts cid rp algId msg sig) ?_ ?_ h
  · intro code uv _ h
    cases h
  · intro act time uv p _ _ hacc _ h
    have hact : .signed cid rp algId msg sig ≠ act := by
      rintro rfl
      have hfinger := hacc.kind
      simp [Act.kind, fingerKinds] at hfinger
    have h := (List.mem_cons.mp h).resolve_left hact
    have unsigned : ∀ key, .signed cid rp algId msg sig ∉ (storeCredential P i.env d.keys req key).acts := by
      intro key hm
      have hk := (storeCredential_kinds (d := d) _ hm).1
      simp [Act.kind] at hk
    refine register_cases (Q := fun r => .signed cid rp algId msg sig ∈ r.2.1 →
      SignedWith P d i (act :: r.2.1) cid rp algId msg sig) ?_ ?_ ?_ h
    · intro h
      cases h
    · intro key code _ _ h
      exact absurd h (unsigned key)
    · intro key credId hkey hid h
      have h := (List.mem_append.mp h).resolve_left (unsigned key)
      rcases attestCredential_acts h with h | ⟨msg', sig', h, hsig⟩
      · cases h
      · cases h
        exact .registration (.inl hkey) (by simp [storeCredential_created hid]) hsig

theorem getAssertion_signed {req : GetAssertionRequest} (hc : i.event.code = some 0x02)
    (h : .signed cid rp algId msg sig ∈ (getAssertion P i.env d req).acts) :
    SignedWith P d i (getAssertion P i.env d req).acts cid rp algId msg sig := by
  have unlisted : ∀ creds, .signed cid rp algId msg sig ∉ listedActs creds req.targetRpId := by
    intro creds hm
    have hk := (listedActs_kinds i.env d.bio creds _ _ hm).1
    simp [Act.kind] at hk
  refine getAssertion_cases (Q := fun r => .signed cid rp algId msg sig ∈ r.acts →
    SignedWith P d i r.acts cid rp algId msg sig) ?_ ?_ ?_ h
  · intro code k creds _ _ h
    exact absurd h (unlisted creds)
  · intro code k k' cid' rest c uv _ _ _ _ _ _ h
    have h := (List.mem_append.mp h).resolve_left (unlisted _)
    simp at h
  · intro k k' cid' rest c act time uv _ _ hens _ hres hw h
    have hact : .signed cid rp algId msg sig ≠ act := by
      rintro rfl
      have hk := (cachedOrWait_waited i.env d.bio d.uv).kinds
      rw [hw] at hk
      have hk := (ofKinds_cons.mp hk).1.1
      simp [Act.kind, fingerKinds] at hk
    have h : .signed cid rp algId msg sig ∈
        (assertCredential P i.env c (req.input cid' (rest.length + 1)) d.signCount).2 := by
      rcases List.mem_append.mp h with h | h
      · rcases List.mem_append.mp h with h | h
        · exact absurd h (unlisted _)
        · simp at h
      · exact (List.mem_cons.mp h).resolve_left hact
    rcases assertCredential_acts h with h | ⟨msg', sig', h, hsig⟩
    · cases h
    · cases h
      refine .assertion (.inl hc) hens (.inl ?_) hres hsig
      simp [listedActs, GetAssertionRequest.input]

theorem getNextAssertion_signed (hc : i.event.code = some 0x08)
    (h : .signed cid rp algId msg sig ∈ (getNextAssertion P i.env d).acts) :
    SignedWith P d i (getNextAssertion P i.env d).acts cid rp algId msg sig := by
  refine getNextAssertion_cases (Q := fun r => .signed cid rp algId msg sig ∈ r.acts →
    SignedWith P d i r.acts cid rp algId msg sig) ?_ ?_ ?_ h
  · intro h
    cases h
  · intro k _ _ h
    cases h
  · intro k cid' c _ hidx hres h
    rcases assertCredential_acts h with h | ⟨msg', sig', h, hsig⟩
    · cases h
    · cases h
      exact .assertion (.inr hc) .refl (.inr ⟨List.mem_of_getElem? hidx, rfl⟩) hres hsig

theorem step_signed (h : .signed cid rp algId msg sig ∈ (step P d i).1.acts) :
    SignedWith P d i (step P d i).1.acts cid rp algId msg sig := by
  rcases signed_event (step_kinds P d i _ h).1 with hc | hc | hc | ⟨data, he⟩
  · rcases step_makeCredential (P := P) (d := d) hc with ⟨reply, hs⟩ | ⟨body, hs⟩ <;> rw [hs] at h ⊢
    · cases h
    · exact makeCredential_signed h
  · rcases step_getAssertion (P := P) (d := d) hc with ⟨reply, hs⟩ | ⟨req, -, hs⟩ <;> rw [hs] at h ⊢
    · cases h
    · exact getAssertion_signed hc h
  · rcases step_getNextAssertion (P := P) (d := d) hc with ⟨reply, hs⟩ | hs <;> rw [hs] at h ⊢
    · cases h
    · exact getNextAssertion_signed hc h
  · have hs : step P d i = runU2f P i.env d data := by rw [step, he]
    rw [hs] at h ⊢
    cases processU2fCommand_act h (by simp [Act.kind, fingerKinds]) with
    | attested made created sign => exact .registration made created sign
    | authenticated ins signs record party sign => exact .u2f he ins signs record party sign

end GoiKey
