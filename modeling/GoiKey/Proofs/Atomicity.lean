import GoiKey.Proofs.NextAssertion
import GoiKey.Proofs.Records

/-!
Registrations that end in an error, against the credentials stored before them:
the old credential goes and the new one comes before the last step that can fail.
-/

namespace GoiKey

variable {P : Platform} {env : Env} {d : Device} {i : Input} {k : Keystore}
variable {req : MakeCredentialRequest} {key : KeyPair} {c : StoredCredential} {r : PasskeyRecord}

/-- MakeCredential or U2F_REGISTER. -/
def Event.isRegistration : Event → Bool
  | .cbor (0x01 :: _) => true
  | .u2f data => byteAt data 1 == 0x01
  | _ => false

/-- An error: a CTAP2 status, or a U2F response that does not end in 9000. -/
def Reply.failed : Reply → Bool
  | .cbor (.status code) => code != 0
  | .u2f b => b.drop (b.length - 2) != statusWord 0x9000
  | _ => false

/-- The records that count. -/
def Keystore.stored (k : Keystore) : List PasskeyRecord := k.passkeys.filter fun r => r.status == 1

/-- A registration that ends in an error leaves the same credentials stored. -/
def Atomic (P : Platform) (d : Device) (i : Input) : Prop :=
  i.event.isRegistration = true → (step P d i).1.reply.failed = true →
    ∀ r, r ∈ (step P d i).2.keys.stored ↔ r ∈ d.keys.stored

/-! What decides it. -/

/-- The credential can be encrypted, and the record file opened for it. -/
def savable (P : Platform) (env : Env) (c : StoredCredential) : Bool :=
  encryptStoragePayload P env (recordPayload c) (fidoHardwareKey P) != [] &&
    env.opens .passkeys .write

/-- The credential of the same party and user, "" without one. -/
def replacedId (P : Platform) (env : Env) (k : Keystore) (req : MakeCredentialRequest) : Str :=
  findCredentialIdByRpAndUser P env k req.targetRpId (toHex req.userIdRaw)

/-- There is one, and it can be removed. -/
def replaces (P : Platform) (env : Env) (k : Keystore) (req : MakeCredentialRequest) : Bool :=
  replacedId P env k req != [] && env.opens .passkeysTmp .write

/-- The authenticator data has its buffer, and signing it works. -/
def attests (P : Platform) (env : Env) (req : MakeCredentialRequest) (signCount : UInt32)
    (credId : Bytes) (key : KeyPair) : Bool :=
  let signer := attestationSigner P req.selectedAlgId key.privateKeyHex
  env.allocates .authData && (generateAlgSignature P env signer.algId signer.privateKeyHex
    (createAuthData P req signCount credId key.publicKey ++ req.clientDataHash)).isSome

/-- The request is complete, excludes nothing stored, and a finger was accepted. -/
def admitted (P : Platform) (env : Env) (d : Device) (req : MakeCredentialRequest) : Bool :=
  req.targetRpId != [] && req.userIdRaw != [] && req.clientDataHash.length == 32 &&
    !excludes P env d.keys req && (waitForFinger env d.bio env.polls d.uv).1.succeeded

/-- The record is one that is stored already, and no other is replaced. -/
def Rewritten (P : Platform) (env : Env) (k : Keystore) (req : MakeCredentialRequest)
    (r : PasskeyRecord) : Prop :=
  r ∈ k.stored ∧ (replaces P env k req = true →
    ∀ r' ∈ k.stored, r'.cid = replacedId P env k req → r' = r)

/-- A resident credential is replaced only when the new one can be saved, and
saved only when it can be attested, unless it is the one that was there. -/
def CreatesWhole (P : Platform) (env : Env) (d : Device) (req : MakeCredentialRequest) : Prop :=
  admitted P env d req = true → residentKey req = true →
    ∀ key, generateCredentialKey P env req.selectedAlgId = some key →
      (savable P env (newRecord env req key) = false → replaces P env d.keys req = false) ∧
      (savable P env (newRecord env req key) = true →
        attests P env req d.signCount (env.draw .credentialId 16) key = true ∨
          Rewritten P env d.keys req
            (newPasskey P env (toHex (env.draw .credentialId 16)) (newRecord env req key)))

/-- The message that U2F_REGISTER signs. -/
def u2fRegistrationData (env : Env) (data : Bytes) (key : KeyPair) : Bytes :=
  0x00 :: (u2fAppId env data ++ frameBytes env data 7 32 ++ env.draw .keyHandle 16
    ++ padTo 65 key.publicKey)

/-- The same of U2F_REGISTER, which replaces nothing. -/
def RegistersWhole (P : Platform) (env : Env) (d : Device) (data : Bytes) : Prop :=
  7 ≤ data.length → (byteAt data 5).toNat * 256 + (byteAt data 6).toNat = 64 →
    (fidoVerifyFingerprint env d.bio d.uv env.sensor env.now).1.isSome = true →
    P.attestation.isSome = true →
    ∀ key, generateCredentialKeyP256 P env = some key →
      savable P env (u2fRecord (u2fAppId env data) key.privateKeyHex) = true →
        ((generateAlgSignature P env (-7) (attestationSigner P (-7) key.privateKeyHex).privateKeyHex
            (u2fRegistrationData env data key)).isSome = true ∧ env.allocates .localResponse = true) ∨
          newPasskey P env (toHex (env.draw .keyHandle 16))
            (u2fRecord (u2fAppId env data) key.privateKeyHex) ∈ d.keys.stored

/-- The condition on a registration. -/
def Whole (P : Platform) (d : Device) (i : Input) : Prop :=
  match i.event with
  | .cbor (0x01 :: body) => i.env.allocates .response = true →
      CreatesWhole P i.env d (parseMakeCredential d.defaultCryptoAlg body)
  | .u2f data => byteAt data 1 = 0x01 → RegistersWhole P i.env d data
  | _ => True

/-! Saving and replacing. -/

theorem savePasskeyRecord_eq (cid : Str) : savePasskeyRecord P env k cid c =
    if savable P env c then some { k with passkeys := k.passkeys ++ [newPasskey P env cid c] }
    else none := by
  unfold savePasskeyRecord savable
  by_cases he : encryptStoragePayload P env (recordPayload c) (fidoHardwareKey P) = []
  · simp [he]
  · cases ho : env.opens .passkeys .write <;> simp [he, newPasskey]

/-- The credential found is one of the file, which can be read. -/
theorem replacedId_found (h : replacedId P env k req ≠ []) :
    env.opens .passkeys .read = true ∧
      ∃ r ∈ k.passkeys, r.status = 1 ∧ r.cid = replacedId P env k req := by
  unfold replacedId findCredentialIdByRpAndUser at h ⊢
  split at h
  · exact absurd rfl h
  next r hfind =>
    have hr := List.find?_some hfind
    have hmem := List.mem_of_find?_eq_some hfind
    simp only [Bool.and_eq_true, beq_iff_eq] at hr
    unfold readPasskeys at hmem
    split at hmem
    next ho => exact ⟨ho, r, hmem, hr.1.1, rfl⟩
    next => cases hmem

/-- What is left of the file for the new record. -/
def remaining (P : Platform) (env : Env) (k : Keystore) (req : MakeCredentialRequest) :
    List PasskeyRecord :=
  if replaces P env k req then
    k.passkeys.filter fun r => r.status == 1 && !(r.cid == replacedId P env k req)
  else k.passkeys

theorem deletePasskeyRecord_replaced (h : replacedId P env k req ≠ []) :
    deletePasskeyRecord env k (replacedId P env k req) =
      (env.opens .passkeysTmp .write, { k with passkeys := remaining P env k req }) := by
  obtain ⟨hread, r, hr, hstatus, hcid⟩ := replacedId_found h
  have hany : (k.passkeys.any fun r => r.status == 1 && r.cid == replacedId P env k req) = true :=
    List.any_eq_true.mpr ⟨r, hr, by simp [hstatus, hcid]⟩
  unfold deletePasskeyRecord rewritePasskeys remaining replaces
  cases hw : env.opens .passkeysTmp .write with
  | false => simp [hread]
  | true => simp [hread, hany, h]

theorem storeResident_eq (P : Platform) (k : Keystore) (req : MakeCredentialRequest) (key : KeyPair) :
    (storeResident P env k req key).credId =
        (if savable P env (newRecord env req key) then .ok (env.draw .credentialId 16)
          else .error 0x21) ∧
      (storeResident P env k req key).keys.passkeys = remaining P env k req ++
        (if savable P env (newRecord env req key) then
          [newPasskey P env (toHex (env.draw .credentialId 16)) (newRecord env req key)] else []) := by
  -- the keystore once the old credential is out of the way
  have hgone : (if replacedId P env k req = [] then (false, k)
      else deletePasskeyRecord env k (replacedId P env k req)).2
        = { k with passkeys := remaining P env k req } := by
    by_cases hr : replacedId P env k req = []
    · rw [if_pos hr, remaining, replaces, hr]
      simp
    · rw [if_neg hr, deletePasskeyRecord_replaced hr]
  unfold replacedId at hgone
  unfold storeResident
  simp only
  rw [hgone, savePasskeyRecord_eq]
  cases savable P env (newRecord env req key) with
  | false => simp
  | true => simp

theorem mem_remaining : r ∈ (⟨remaining P env k req, k.slSecret⟩ : Keystore).stored ↔
    r ∈ k.stored ∧ ¬(replaces P env k req = true ∧ r.cid = replacedId P env k req) := by
  unfold Keystore.stored remaining
  cases hr : replaces P env k req with
  | false => simp
  | true =>
    simp only [if_true, List.mem_filter, Bool.and_eq_true, beq_iff_eq, Bool.not_eq_true',
      beq_eq_false_iff_ne, true_and]
    tauto

theorem mem_stored_append {records : List PasskeyRecord} {new : PasskeyRecord} {secret : Option Bytes}
    (hn : new.status = 1) : r ∈ (⟨records ++ [new], secret⟩ : Keystore).stored ↔
      r ∈ (⟨records, secret⟩ : Keystore).stored ∨ r = new := by
  simp only [Keystore.stored, List.filter_append, List.mem_append, List.mem_filter]
  refine or_congr_right ?_
  simp only [List.mem_singleton, beq_iff_eq]
  exact ⟨fun h => h.1, fun h => ⟨h, h ▸ hn⟩⟩

theorem stored_congr {k k' : Keystore} (h : k.passkeys = k'.passkeys) : k.stored = k'.stored := by
  rw [Keystore.stored, h, Keystore.stored]

/-- Taking the old credential out changes what is stored. -/
theorem remaining_iff : (∀ r, r ∈ (⟨remaining P env k req, k.slSecret⟩ : Keystore).stored ↔ r ∈ k.stored) ↔
    replaces P env k req = false := by
  constructor
  · intro h
    by_contra hr
    have hr : replaces P env k req = true := by simpa using hr
    have hid : replacedId P env k req ≠ [] := by
      simp only [replaces, Bool.and_eq_true, bne_iff_ne] at hr
      exact hr.1
    obtain ⟨-, r, hmem, hstatus, hcid⟩ := replacedId_found hid
    have hstored : r ∈ k.stored := List.mem_filter.mpr ⟨hmem, by simp [hstatus]⟩
    exact (mem_remaining.mp ((h r).mpr hstored)).2 ⟨hr, hcid⟩
  · intro hr r
    rw [mem_remaining, hr]
    simp

/-- With the new record behind the rest, the same is stored when it was there. -/
theorem rewritten_iff {new : PasskeyRecord} (hn : new.status = 1) :
    (∀ r, r ∈ (⟨remaining P env k req ++ [new], k.slSecret⟩ : Keystore).stored ↔ r ∈ k.stored) ↔
      Rewritten P env k req new := by
  constructor
  · intro h
    refine ⟨(h new).mp ((mem_stored_append hn).mpr (.inr rfl)), fun hr r' hr' hcid => ?_⟩
    rcases (mem_stored_append hn).mp ((h r').mpr hr') with hkept | hnew
    · exact absurd ⟨hr, hcid⟩ (mem_remaining.mp hkept).2
    · exact hnew
  · rintro ⟨hmem, honly⟩ r
    rw [mem_stored_append hn, mem_remaining]
    constructor
    · rintro (h | rfl)
      · exact h.1
      · exact hmem
    · intro hr
      by_cases hgone : replaces P env k req = true ∧ r.cid = replacedId P env k req
      · exact .inr (honly hgone.1 r hr hgone.2)
      · exact .inl ⟨hr, hgone⟩

/-! MakeCredential. -/

theorem attestCredential_failed {n : UInt32} {credId : Bytes} :
    (Reply.cbor (attestCredential P env req n credId key).1).failed = !attests P env req n credId key := by
  unfold attestCredential attests
  simp only
  cases env.allocates .authData with
  | false => rfl
  | true =>
    simp only [Bool.not_true, Bool.false_eq_true, if_false, Bool.true_and]
    split
    next hs => simp [hs, Reply.failed]
    next sig hs => simp [hs, Reply.failed]

/-- What a MakeCredential that gets as far as making a key leaves. -/
theorem makeCredential_admitted (h : admitted P env d req = true) :
    (makeCredential P env d req).reply = (register P env d.keys d.signCount req).1 ∧
      (makeCredential P env d req).keys = (register P env d.keys d.signCount req).2.2 := by
  simp only [admitted, Bool.and_eq_true, bne_iff_ne, beq_iff_eq, Bool.not_eq_true'] at h
  obtain ⟨⟨⟨⟨hrp, huser⟩, hhash⟩, hexcl⟩, hwait⟩ := h
  unfold makeCredential
  rw [if_neg (by simp [hrp, huser, hhash]), if_neg (by simp [hexcl])]
  rcases hw : waitForFinger env d.bio env.polls d.uv with ⟨r, uv⟩
  rw [hw] at hwait
  cases r with
  | cancelled => cases hwait
  | timedOut => cases hwait
  | verified act time => exact ⟨rfl, rfl⟩

theorem makeCredential_refused (h : admitted P env d req = false) :
    (makeCredential P env d req).keys = d.keys := by
  unfold makeCredential
  split
  · rfl
  next hcomplete =>
    split
    · rfl
    next hexcl =>
      simp only [not_or, not_not] at hcomplete
      have hwait : (waitForFinger env d.bio env.polls d.uv).1.succeeded = false := by
        simpa [admitted, hcomplete.1, hcomplete.2.1, hcomplete.2.2, hexcl] using h
      rcases hw : waitForFinger env d.bio env.polls d.uv with ⟨r, uv⟩
      rw [hw] at hwait
      cases r with
      | cancelled => rfl
      | timedOut => rfl
      | verified act time => cases hwait

theorem register_stateless {n : UInt32} (hr : residentKey req = false) :
    (register P env k n req).2.2.passkeys = k.passkeys := by
  refine register_cases (Q := fun r => r.2.2.passkeys = k.passkeys) rfl ?_ ?_
  all_goals
    intro key _ _ _
    rw [storeCredential, hr, if_neg Bool.false_ne_true]
    exact storeStateless_keys.passkeys

/-- The two ends of a registration of a resident credential. -/
theorem register_resident {n : UInt32} (hk : generateCredentialKey P env req.selectedAlgId = some key)
    (hr : residentKey req = true) :
    (savable P env (newRecord env req key) = false →
      (register P env k n req).1 = .status 0x21 ∧
        (register P env k n req).2.2.passkeys = remaining P env k req) ∧
    (savable P env (newRecord env req key) = true →
      (register P env k n req).1 = (attestCredential P env req n (env.draw .credentialId 16) key).1 ∧
        (register P env k n req).2.2.passkeys = remaining P env k req ++
          [newPasskey P env (toHex (env.draw .credentialId 16)) (newRecord env req key)]) := by
  obtain ⟨hid, hpasskeys⟩ := storeResident_eq P k req key
  have hstore : storeCredential P env k req key = storeResident P env k req key := by
    rw [storeCredential, hr, if_pos rfl]
  constructor
  · intro hs
    rw [hs, if_neg Bool.false_ne_true] at hid hpasskeys
    rw [List.append_nil] at hpasskeys
    unfold register
    simp only [hk, hstore, hid]
    exact ⟨trivial, hpasskeys⟩
  · intro hs
    rw [hs, if_pos rfl] at hid hpasskeys
    unfold register
    simp only [hk, hstore, hid]
    exact ⟨trivial, hpasskeys⟩

theorem makeCredential_whole :
    ((Reply.cbor (makeCredential P env d req).reply).failed = true →
        ∀ r, r ∈ (makeCredential P env d req).keys.stored ↔ r ∈ d.keys.stored) ↔
      CreatesWhole P env d req := by
  unfold CreatesWhole
  cases ha : admitted P env d req with
  | false =>
    rw [makeCredential_refused ha]
    simp
  | true =>
    obtain ⟨hreply, hkeys⟩ := makeCredential_admitted ha
    rw [hreply, hkeys]
    cases hr : residentKey req with
    | false =>
      rw [stored_congr (register_stateless hr)]
      simp
    | true =>
      cases hk : generateCredentialKey P env req.selectedAlgId with
      | none => simp [register, hk]
      | some key =>
        simp only [forall_const, Option.some.injEq, forall_eq']
        obtain ⟨hunsaved, hsaved⟩ := register_resident (k := d.keys) (n := d.signCount) hk hr
        cases hs : savable P env (newRecord env req key) with
        | false =>
          obtain ⟨hstatus, hpasskeys⟩ := hunsaved hs
          have hstored : (register P env d.keys d.signCount req).2.2.stored =
              (⟨remaining P env d.keys req, d.keys.slSecret⟩ : Keystore).stored :=
            stored_congr hpasskeys
          rw [hstatus, hstored]
          simpa [Reply.failed] using remaining_iff
        | true =>
          obtain ⟨hattested, hpasskeys⟩ := hsaved hs
          have hstored : (register P env d.keys d.signCount req).2.2.stored =
              (⟨remaining P env d.keys req ++ [newPasskey P env (toHex (env.draw .credentialId 16))
                (newRecord env req key)], d.keys.slSecret⟩ : Keystore).stored :=
            stored_congr hpasskeys
          rw [hattested, hstored, attestCredential_failed, rewritten_iff rfl]
          cases attests P env req d.signCount (env.draw .credentialId 16) key <;> simp

/-! U2F_REGISTER. -/

theorem u2f_succeeded (b : Bytes) : (Reply.u2f (b ++ statusWord 0x9000)).failed = false := by
  have hlen : (b ++ statusWord 0x9000).length - 2 = b.length := by
    rw [List.length_append]
    rfl
  rw [Reply.failed, hlen, List.drop_left]
  rfl

/-- With the new record behind all the others, the same is stored when it was there. -/
theorem appended_iff (new : PasskeyRecord) (hn : new.status = 1) :
    (∀ r, r ∈ (⟨k.passkeys ++ [new], k.slSecret⟩ : Keystore).stored ↔ r ∈ k.stored) ↔
      new ∈ k.stored := by
  constructor
  · intro h
    exact (h new).mp ((mem_stored_append hn).mpr (.inr rfl))
  · intro h r
    rw [mem_stored_append hn]
    refine ⟨fun hr => hr.elim id fun he => he ▸ h, .inl⟩

theorem u2fRegister_whole {challenge appId : Bytes} :
    ((Reply.u2f (u2fRegister P env d challenge appId).reply).failed = true →
        ∀ r, r ∈ (u2fRegister P env d challenge appId).keys.stored ↔ r ∈ d.keys.stored) ↔
      ((fidoVerifyFingerprint env d.bio d.uv env.sensor env.now).1.isSome = true →
        P.attestation.isSome = true →
        ∀ key, generateCredentialKeyP256 P env = some key →
          savable P env (u2fRecord appId key.privateKeyHex) = true →
          ((generateAlgSignature P env (-7)
              (attestationSigner P (-7) key.privateKeyHex).privateKeyHex
              (0x00 :: (appId ++ challenge ++ env.draw .keyHandle 16 ++ padTo 65 key.publicKey))).isSome
                = true ∧ env.allocates .localResponse = true) ∨
            newPasskey P env (toHex (env.draw .keyHandle 16)) (u2fRecord appId key.privateKeyHex)
              ∈ d.keys.stored) := by
  unfold u2fRegister
  rcases hv : fidoVerifyFingerprint env d.bio d.uv env.sensor env.now with ⟨act, uv⟩
  cases act with
  | none => simp
  | some act =>
    simp only
    cases hk : generateCredentialKeyP256 P env with
    | none => simp
    | some key =>
      simp only [Option.isSome_some, Option.some.injEq, forall_eq', forall_const]
      cases ha : P.attestation with
      | none => simp
      | some a =>
        simp only [Option.isNone_some, Bool.false_eq_true, if_false, Option.isSome_some, forall_const]
        rw [savePasskeyRecord_eq]
        cases hs : savable P env (u2fRecord appId key.privateKeyHex) with
        | false => simp
        | true =>
          have hnew := appended_iff (k := d.keys) (newPasskey P env
            (toHex (env.draw .keyHandle 16)) (u2fRecord appId key.privateKeyHex)) rfl
          have hfailed : (Reply.u2f (statusWord 0x6F00)).failed = true := rfl
          simp only [if_true, forall_const]
          cases hsig : generateAlgSignature P env (-7)
              (attestationSigner P (-7) key.privateKeyHex).privateKeyHex
              (0x00 :: (appId ++ challenge ++ env.draw .keyHandle 16 ++ padTo 65 key.publicKey)) with
          | none => simpa [hfailed] using hnew
          | some sig =>
            cases hl : env.allocates .localResponse with
            | false => simpa [hfailed] using hnew
            | true =>
              have hdone := u2f_succeeded (0x05 :: (padTo 65 key.publicKey ++ 16 ::
                (env.draw .keyHandle 16 ++ (attestationSigner P (-7) key.privateKeyHex).leafCert.getD []
                  ++ sig)))
              simp only [List.cons_append, List.append_assoc] at hdone
              simp [hdone]

theorem processU2fCommand_whole {data : Bytes} (hins : byteAt data 1 = 0x01) :
    ((Reply.u2f (processU2fCommand P env d data).reply).failed = true →
        ∀ r, r ∈ (processU2fCommand P env d data).keys.stored ↔ r ∈ d.keys.stored) ↔
      RegistersWhole P env d data := by
  unfold processU2fCommand RegistersWhole u2fRegistrationData
  simp only [hins]
  by_cases hlen : 7 ≤ data.length
  · rw [if_neg (by omega), if_neg (by decide), if_neg (by omega), if_pos trivial]
    by_cases hreq : (byteAt data 5).toNat * 256 + (byteAt data 6).toNat = 64
    · rw [if_neg (by omega)]
      simpa only [hlen, hreq, forall_const, u2fAppId] using u2fRegister_whole
    · rw [if_pos hreq]
      simp [hreq]
  · simp only [hlen, false_implies, iff_true]
    intro _ r
    split
    · exact Iff.rfl
    · rw [if_neg (by decide), if_pos (by omega)]

/-- A registration leaves the stored credentials alone whenever it fails, exactly
if nothing fails behind the point where it changes them. -/
theorem registration_atomic_iff (P : Platform) (d : Device) (i : Input) :
    Atomic P d i ↔ Whole P d i := by
  unfold Atomic Whole
  cases he : i.event with
  | cbor data =>
    match data with
    | [] => simp [Event.isRegistration]
    | code :: body =>
      by_cases hcode : code = 0x01
      · subst hcode
        rw [step, he]
        simp only [Event.isRegistration, forall_const, processCborCommand, cborCommand]
        cases ha : i.env.allocates .response with
        | false => simp
        | true => simpa only [runMakeCredential, if_true, forall_const] using makeCredential_whole
      · have hother : (Event.cbor (code :: body)).isRegistration = false := by
          unfold Event.isRegistration
          split
          next h => cases h; exact absurd rfl hcode
          next h => cases h
          next => rfl
        simp only [hother, Bool.false_eq_true, false_implies, true_iff]
        split
        next h => cases h; exact absurd rfl hcode
        next h => cases h
        next => trivial
  | u2f data =>
    simp only [Event.isRegistration, beq_iff_eq]
    refine imp_congr_right fun hins => ?_
    rw [step, he]
    exact processU2fCommand_whole hins
  | serial c => simp [Event.isRegistration]
  | fingerprintTask => simp [Event.isRegistration]
  | powerCycle => simp [Event.isRegistration]

section Bench

open Bench

/-- A device with the resident credential of one user. -/
def registered : Device := (step platform initial ⟨create site 1 true (-7), touchedEnv 1 60000 90⟩).2

/-- The same user registers again, and the new record cannot be written. -/
def unwritten : Input :=
  ⟨create site 1 true (-7), { touchedEnv 2 60000 90 with opens := fun f a => !(f == .passkeys && a == .write) }⟩

/-- A first registration, and no memory left for the authenticator data. -/
def unattested : Input :=
  ⟨create site 1 true (-7), { touchedEnv 1 60000 90 with allocates := fun b => !(b == .authData) }⟩

/-- Both fail: the one loses the stored credential, the other keeps the new one. -/
theorem failed_registrations_change :
    ¬ Atomic platform registered unwritten ∧ ¬ Atomic platform initial unattested := by
  constructor
  · intro h
    have hlost : (step platform registered unwritten).2.keys.stored = [] := by decide +kernel
    have hthere : registered.keys.stored ≠ [] := by decide +kernel
    obtain ⟨r, hr⟩ := List.exists_mem_of_ne_nil _ hthere
    have hkept := (h (by decide +kernel) (by decide +kernel) r).mpr hr
    rw [hlost] at hkept
    cases hkept
  · intro h
    have hkept : (step platform initial unattested).2.keys.stored ≠ [] := by decide +kernel
    obtain ⟨r, hr⟩ := List.exists_mem_of_ne_nil _ hkept
    cases (h (by decide +kernel) (by decide +kernel) r).mp hr

end Bench

end GoiKey
