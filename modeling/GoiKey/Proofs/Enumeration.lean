import GoiKey.Proofs.NextAssertion
import GoiKey.Proofs.Records
import GoiKey.Proofs.RoundTrips
import Mathlib.Data.List.Nodup

/-!
credentialManagement's walk over the credentials of a party: what it discloses,
against the verification of the enumerateCredentialsBegin that built its list.
-/

namespace GoiKey

variable {P : Platform} {env : Env} {d : Device} {i : Input} {past : History} {cid : Str}
variable {r : PasskeyRecord}

/-- A credentialManagement request that is taken up. -/
def managementRequest (i : Input) : Option CredentialManagementRequest :=
  match i.event with
  | .cbor (code :: body) =>
    if (code == 0x0A || code == 0x41) && i.env.allocates .response then
      parseCredentialManagement body
    else none
  | _ => none

/-- enumerateCredentialsBegin, by the hash it names the party with. -/
def enumerationBegin (i : Input) : Option Bytes :=
  (managementRequest i).bind fun req =>
    if req.subCommand = 0x04 then some req.targetRpIdHash else none

def isEnumerationNext (i : Input) : Bool := (managementRequest i).any fun req => req.subCommand == 0x05

def Reply.hasItems : Reply → Bool
  | .cbor (.items _) => true
  | _ => false

/-- The credential that a response of the enumeration shows. -/
def disclosed (e : Entry) : Option Str :=
  if !e.output.reply.hasItems then none
  else if (enumerationBegin e.input).isSome then e.after.enumeration.credList.head?
  else if isEnumerationNext e.input then e.before.enumeration.credList[e.before.enumeration.credIdx]?
  else none

/-- How an enumerateCredentialsBegin came by its list. -/
inductive Verification where
  | unasked | verified | failed
  deriving DecidableEq, Repr

def beginVerification (e : Entry) : Verification :=
  if e.output.acts.any Act.verifies then .verified
  else if e.output.reply.hasItems || e.after.enumeration.credList.isEmpty then .unasked
  else .failed

/-- The verification behind the list being walked. -/
def listVerification : History → Option Verification :=
  Trace.latest fun _ e =>
    if (enumerationBegin e.input).isSome then some (beginVerification e) else none

/-- The same surroundings with nothing failing. -/
def Env.flawless (env : Env) : Env :=
  { env with opens := fun _ _ => true, allocates := fun _ => true }

/-- The stored credential has credProtect level 2 or 3. -/
def isProtected (P : Platform) (e : Entry) (cid : Str) : Bool :=
  (getPasskeyRecord P e.input.env.flawless e.before.keys cid).any fun c => 2 ≤ c.credProtect

/-- Nothing is shown from a list whose verification failed, and a protected
credential only from one that was verified. -/
def EnumeratesVerified (P : Platform) (past : History) (e : Entry) : Prop :=
  ∀ cid, disclosed e = some cid → listVerification (e :: past) ≠ some .failed ∧
    (isProtected P e cid = true → listVerification (e :: past) = some .verified)

instance (past : History) (e : Entry) : Decidable (EnumeratesVerified P past e) :=
  match h : disclosed e with
  | none => .isTrue fun cid hc => by rw [h] at hc; cases hc
  | some cid => decidable_of_iff (listVerification (e :: past) ≠ some .failed ∧
      (isProtected P e cid = true → listVerification (e :: past) = some .verified))
      ⟨fun hp c hc => by rw [h] at hc; cases hc; exact hp, fun hp => hp cid h⟩

/-- enumerateCredentialsBegin finds a credential that asks for verification. -/
def asksUser (P : Platform) (env : Env) (d : Device) (rpIdHash : Bytes) : Bool :=
  (credentialsOfHash P env d.keys rpIdHash).any fun e => 2 ≤ e.2.credProtect

/-- The credential ids that a registration may draw. -/
def drawnIds (env : Env) : List Str :=
  [toHex (env.draw .credentialId 16), toHex (env.draw .keyHandle 16)]

def Event.registers : Event → Bool
  | .cbor (0x01 :: _) => true
  | .u2f _ => true
  | _ => false

/-- The ids drawn are neither in the file nor in the list being walked. -/
def FreshIds (d : Device) (env : Env) : Prop :=
  ∀ cid ∈ drawnIds env, cid ∉ d.enumeration.credList ∧ cid ∉ d.keys.passkeys.map PasskeyRecord.cid

instance (d : Device) (env : Env) : Decidable (FreshIds d env) :=
  inferInstanceAs (Decidable (∀ cid ∈ drawnIds env, _ ∧ _))

/-- The condition of a step: an enumerateCredentialsBegin that asks for a finger
gets one, and a registration draws an id that is not in use. -/
def EnumerationsVerified (P : Platform) (_ : History) (d : Device) (i : Input) : Prop :=
  ((enumerationBegin i).any (asksUser P i.env d) = true →
    (cachedOrWait i.env d.bio d.uv).1.succeeded = true) ∧
  (i.event.registers = true → FreshIds d i.env)

instance (past : History) (d : Device) (i : Input) : Decidable (EnumerationsVerified P past d i) :=
  inferInstanceAs (Decidable (_ ∧ _))

/-! Reading a record. -/

theorem decryptStoragePayload_agree {env' : Env} {payload : Str} {key : Bytes}
    (h : decryptStoragePayload P env payload key ≠ [])
    (h' : decryptStoragePayload P env' payload key ≠ []) :
    decryptStoragePayload P env' payload key = decryptStoragePayload P env payload key := by
  have allocated : ∀ e : Env, decryptStoragePayload P e payload key ≠ [] →
      e.allocates .plaintext = true := by
    intro e he
    by_contra ha
    exact he (decryptStoragePayload_refused (by simpa using ha))
  exact decryptStoragePayload_congr ((allocated env' h').trans (allocated env h).symm)

/-- However the record is read, its level is 1. -/
def Unprotected (P : Platform) (r : PasskeyRecord) : Prop :=
  ∀ env c, parsePayload r.rp r.algId (decryptRecord P env r) = some c → c.credProtect < 2

theorem decryptRecord_ne_nil {c : StoredCredential}
    (h : parsePayload r.rp r.algId (decryptRecord P env r) = some c) : decryptRecord P env r ≠ [] := by
  intro hnil
  rw [hnil] at h
  cases h

theorem unprotected_of_read {c : StoredCredential}
    (h : parsePayload r.rp r.algId (decryptRecord P env r) = some c) (hlevel : c.credProtect < 2) :
    Unprotected P r := by
  intro env' c' h'
  have hsame := decryptStoragePayload_agree (decryptRecord_ne_nil h) (decryptRecord_ne_nil h')
  rw [decryptRecord, hsame] at h'
  rw [decryptRecord, h', Option.some.injEq] at h
  rwa [h]

theorem eq_of_cid {records : List PasskeyRecord} {r' : PasskeyRecord}
    (hn : (records.map PasskeyRecord.cid).Nodup) (hr : r ∈ records) (hr' : r' ∈ records)
    (h : r.cid = r'.cid) : r = r' :=
  List.inj_on_of_nodup_map hn hr hr' h

/-! The step of an enumeration. -/

theorem step_management {req : CredentialManagementRequest} (hm : managementRequest i = some req) :
    ∃ body, parseCredentialManagement body = some req ∧
      step P d i = runCredentialManagement P i.env d body := by
  unfold managementRequest at hm
  cases he : i.event with
  | cbor data =>
    cases data with
    | nil => simp [he] at hm
    | cons code body =>
      simp only [he, Option.ite_none_right_eq_some, Bool.and_eq_true, Bool.or_eq_true,
        beq_iff_eq] at hm
      obtain ⟨⟨hcode, ha⟩, hparse⟩ := hm
      refine ⟨body, hparse, ?_⟩
      rw [step, he]
      simp only [processCborCommand, ha, if_true]
      rcases hcode with rfl | rfl <;> rfl
  | _ => simp [he] at hm

theorem step_begin {h : Bytes} (hb : enumerationBegin i = some h) :
    step P d i = (⟨.cbor (enumerateCredentialsBegin P i.env d h).reply,
        (enumerateCredentialsBegin P i.env d h).acts⟩,
      { d with
        uv := (enumerateCredentialsBegin P i.env d h).uv
        keys := (enumerateCredentialsBegin P i.env d h).keys
        enumeration := (enumerateCredentialsBegin P i.env d h).enumeration }) := by
  obtain ⟨req, hreq, hh⟩ := Option.bind_eq_some_iff.mp hb
  split at hh
  next hsub =>
    cases hh
    obtain ⟨body, hparse, hs⟩ := step_management (P := P) (d := d) hreq
    rw [hs, runCredentialManagement, credentialManagement, hparse]
    simp only [hsub]
  next => cases hh

/-- What a step leaves of the list being walked, when it does not build one. -/
inductive Walked (d : Device) (e : Enumeration) : Prop where
  | kept (list : e.credList = d.enumeration.credList)
    (forward : d.enumeration.credIdx ≤ e.credIdx)
  | cleared (list : e.credList = [])

theorem Walked.refl : Walked d d.enumeration := .kept rfl (Nat.le_refl _)

theorem credentialManagement_walked {body : Bytes}
    (hb : ∀ req, parseCredentialManagement body = some req → req.subCommand ≠ 0x04) :
    Walked d (credentialManagement P env d body).enumeration := by
  unfold credentialManagement
  cases hp : parseCredentialManagement body with
  | none => exact .refl
  | some req =>
    simp only
    split
    · exact .refl
    · unfold enumerateRpsBegin
      split <;> exact .kept rfl (Nat.le_refl _)
    · unfold enumerateRpsGetNextRp
      split <;> exact .kept rfl (Nat.le_refl _)
    next hsub => exact absurd hsub (hb req hp)
    · unfold enumerateCredentialsGetNextCredential
      split
      · exact .refl
      · exact .kept rfl (Nat.le_succ _)
    · unfold deleteCredential
      split <;> exact .refl
    · exact .refl

theorem checkPin_enumeration {pin : Str} {accepted : Device → SerialResult}
    (ha : ∀ d : Device, (accepted d).dev.enumeration = d.enumeration) :
    (checkPin P env d pin accepted).dev.enumeration = d.enumeration ∨
      (checkPin P env d pin accepted).dev.enumeration = {} := by
  refine checkPin_cases (Q := fun r => r.dev.enumeration = d.enumeration ∨ r.dev.enumeration = {})
    ?_ ?_ ?_ ?_
  · exact .inl rfl
  · intro _ _ r
    exact .inl (ha _)
  · intro stored n _ _ _ _
    exact .inl rfl
  · intro stored _ _ _
    exact .inr rfl

theorem replacePin_enumeration (newPin : Str) (d : Device) :
    (replacePin P env newPin d).dev.enumeration = d.enumeration := by
  unfold replacePin
  split <;> rfl

/-- A serial command leaves the lists alone, or wipes the device. -/
theorem serialCommand_enumeration {c : SerialCommand} :
    (serialCommand P env d c).dev.enumeration = d.enumeration ∨
      (serialCommand P env d c).dev.enumeration = {} := by
  refine serialCommand_cases (Q := fun r => r.dev.enumeration = d.enumeration ∨ r.dev.enumeration = {})
    ?_ ?_ ?_ ?_ ?_ ?_ ?_ ?_
  · intro ms v s alg dflt
    exact .inl rfl
  · intro ms pin p _ _ _
    exact .inl rfl
  · intro pin _ _
    exact checkPin_enumeration fun _ => rfl
  · intro currentPin newPin _ _
    exact checkPin_enumeration (replacePin_enumeration newPin)
  · intro ms site k _ _
    exact .inl rfl
  · intro ms _
    exact .inl rfl
  · intro ms id _ _
    exact .inl rfl
  · intro ms _ _
    exact .inl rfl

/-- Only credentialManagement builds lists. -/
theorem step_enumeration (hc : ¬ (i.event.code = some 0x0A ∨ i.event.code = some 0x41)) :
    (step P d i).2.enumeration = d.enumeration ∨ (step P d i).2.enumeration = {} := by
  refine step_cases (Q := fun r => r.2.enumeration = d.enumeration ∨ r.2.enumeration = {})
    ?_ ?_ ?_ ?_ ?_ ?_ ?_ ?_ ?_ ?_ ?_ ?_ ?_ ?_
  · intro reply
    exact .inl rfl
  · intro body _
    exact .inl rfl
  · intro body req _ _ _
    exact .inl rfl
  · intro body _
    exact .inl rfl
  · intro body _
    exact .inl rfl
  · intro body _
    unfold authenticatorReset
    split <;> exact .inl rfl
  · intro code body _ _
    exact .inl rfl
  · intro code body he hcode
    refine absurd ?_ hc
    rw [he]
    exact hcode.imp (congrArg some) (congrArg some)
  · intro body _
    exact .inl rfl
  · intro body _
    exact .inl rfl
  · intro data _
    exact .inl rfl
  · intro c _
    exact serialCommand_enumeration
  · intro _
    exact updateFingerprintAsync_cases
      (Q := fun r => r.dev.enumeration = d.enumeration ∨ r.dev.enumeration = {})
      (fun _ _ _ => .inl rfl) (fun _ _ _ _ _ _ _ _ => .inl rfl)
  · intro _
    exact .inr rfl

theorem step_walked (hb : enumerationBegin i = none) : Walked d (step P d i).2.enumeration := by
  have management : ∀ code, (code = 0x0A ∨ code = 0x41) → i.event.code = some code →
      Walked d (step P d i).2.enumeration := by
    intro code hcode hc
    obtain ⟨body, he, ⟨reply, hs⟩ | ⟨ha, hs⟩⟩ := step_code (P := P) (d := d) hc
    · rw [hs]
      exact .refl
    · have hwalked : Walked d (credentialManagement P i.env d body).enumeration := by
        refine credentialManagement_walked fun req hparse hsub => ?_
        have hreq : managementRequest i = some req := by
          rcases hcode with rfl | rfl <;> simp [managementRequest, he, ha, hparse]
        simp [enumerationBegin, hreq, hsub] at hb
      rw [hs]
      rcases hcode with rfl | rfl <;> exact hwalked
  by_cases hc : i.event.code = some 0x0A ∨ i.event.code = some 0x41
  · exact hc.elim (management _ (.inl rfl)) (management _ (.inr rfl))
  rcases step_enumeration (P := P) (d := d) hc with h | h <;> rw [h]
  · exact .refl
  · exact .cleared rfl

theorem enumerateCredentialsBegin_shown (P : Platform) (env : Env) (d : Device) (h : Bytes) :
    (∃ code, (enumerateCredentialsBegin P env d h).reply = .status code) ∨
      ∃ cid rest total, (enumerateCredentialsBegin P env d h).enumeration.credList = cid :: rest ∧
        (enumerateCredentialsBegin P env d h).reply
          = .items (credentialItems P env d.keys cid total) := by
  unfold enumerateCredentialsBegin
  simp only
  split
  · exact .inl ⟨_, rfl⟩
  next cid rest hc =>
    split
    · split
      · exact .inl ⟨_, rfl⟩
      · exact .inl ⟨_, rfl⟩
      · exact .inr ⟨cid, rest, _, hc, rfl⟩
    · exact .inr ⟨cid, rest, _, hc, rfl⟩

/-- What is shown is the record of the credential as it reads. -/
theorem disclosed_shown (hd : disclosed (Trace.entry (step P) d i) = some cid) :
    ∃ total, (step P d i).1.reply = .cbor (.items (credentialItems P i.env d.keys cid total)) := by
  unfold disclosed at hd
  split at hd
  · cases hd
  next hitems =>
    have hitems : (step P d i).1.reply.hasItems = true := by simpa [Trace.entry] using hitems
    split at hd
    next hb =>
      obtain ⟨hash, hh⟩ := Option.isSome_iff_exists.mp hb
      have hs := step_begin (P := P) (d := d) (i := i) hh
      have hhead : (step P d i).2.enumeration.credList.head? = some cid := hd
      rw [hs] at hitems hhead ⊢
      rcases enumerateCredentialsBegin_shown P i.env d hash with
        ⟨code, hstatus⟩ | ⟨first, rest, total, hlist, hreply⟩
      · rw [hstatus] at hitems
        cases hitems
      · simp only [hlist, List.head?_cons, Option.some.injEq] at hhead
        subst hhead
        exact ⟨total, congrArg Reply.cbor hreply⟩
    next =>
      split at hd
      next hnext =>
        have hget : d.enumeration.credList[d.enumeration.credIdx]? = some cid := hd
        obtain ⟨req, hreq, hsub⟩ := (Option.any_eq_true _ _).mp hnext
        obtain ⟨body, hparse, hs⟩ := step_management (P := P) (d := d) (i := i) hreq
        have hsub : req.subCommand = 0x05 := by simpa using hsub
        rw [hs, runCredentialManagement, credentialManagement, hparse]
        simp only [hsub, enumerateCredentialsGetNextCredential, hget]
        exact ⟨none, rfl⟩
      next => cases hd

/-! Lists against their records. -/

theorem listVerification_cons (e : Entry) (past : History) :
    listVerification (e :: past) =
      if (enumerationBegin e.input).isSome then some (beginVerification e)
      else listVerification past := by
  simp only [listVerification, Trace.latest]
  split <;> simp

/-- The records of the file have ids of their own, and what is left of the list
was verified or is of no protected credential. -/
structure ListAccounted (P : Platform) (past : History) (d : Device) : Prop where
  unique : (d.keys.passkeys.map PasskeyRecord.cid).Nodup
  left : ∀ cid ∈ d.enumeration.credList.drop d.enumeration.credIdx,
    listVerification past = some .verified ∨ (listVerification past = some .unasked ∧
      ∀ r ∈ d.keys.passkeys, r.cid = cid → Unprotected P r)

theorem Writes.drawn (h : Writes P d i r) : i.event.registers = true ∧ r.cid ∈ drawnIds i.env := by
  cases h with
  | resident request made =>
    refine ⟨?_, by simp [drawnIds, newPasskey]⟩
    unfold registrationRequest at request
    split at request
    next he => rw [he]; rfl
    · cases request
  | u2f event made => exact ⟨by rw [event]; rfl, by simp [drawnIds, newPasskey]⟩

theorem RecordsAfter.unique {records : List PasskeyRecord} (h : RecordsAfter P d i records)
    (hn : (d.keys.passkeys.map PasskeyRecord.cid).Nodup)
    (hf : i.event.registers = true → FreshIds d i.env) :
    (records.map PasskeyRecord.cid).Nodup := by
  cases h with
  | fewer kept => exact hn.sublist (kept.map _)
  | @added before r kept writes =>
    obtain ⟨hreg, hdrawn⟩ := writes.drawn
    rw [List.map_append, List.map_singleton]
    refine List.Nodup.append (hn.sublist (kept.map _)) (List.nodup_singleton _) ?_
    intro c hc hr
    rw [List.mem_singleton.mp hr] at hc
    exact (hf hreg _ hdrawn).2 ((kept.map _).subset hc)

/-- A record that carries an id of the list was in the file before the step. -/
theorem RecordsAfter.listed {records : List PasskeyRecord} (h : RecordsAfter P d i records)
    (hf : i.event.registers = true → FreshIds d i.env) (hr : r ∈ records)
    (hl : r.cid ∈ d.enumeration.credList) : r ∈ d.keys.passkeys := by
  cases h with
  | fewer kept => exact kept.subset hr
  | @added before r' kept writes =>
    rcases List.mem_append.mp hr with hr | hr
    · exact kept.subset hr
    · rw [List.mem_singleton.mp hr] at hl
      obtain ⟨hreg, hdrawn⟩ := writes.drawn
      exact absurd hl (hf hreg _ hdrawn).1

theorem credentialsOfHash_record {h : Bytes} {e : Str × StoredCredential}
    (he : e ∈ credentialsOfHash P env d.keys h) : getPasskeyRecord P env d.keys e.1 = some e.2 := by
  obtain ⟨hm, -⟩ := List.mem_filter.mp he
  obtain ⟨cid, -, hc⟩ := List.mem_filterMap.mp hm
  obtain ⟨c, hrecord, rfl⟩ := Option.map_eq_some_iff.mp hc
  exact hrecord

/-- Nothing asked for verification, so no record with an id found is protected. -/
theorem unasked_unprotected {h : Bytes} (hn : (d.keys.passkeys.map PasskeyRecord.cid).Nodup)
    (hu : asksUser P env d h = false)
    (hc : cid ∈ (credentialsOfHash P env d.keys h).map Prod.fst) (hr : r ∈ d.keys.passkeys)
    (hcid : r.cid = cid) : Unprotected P r := by
  obtain ⟨e, he, rfl⟩ := List.mem_map.mp hc
  obtain ⟨r', hr', hcid', hparse⟩ := getPasskeyRecord_some (credentialsOfHash_record he)
  have hsame : r = r' := eq_of_cid hn hr hr' (hcid.trans hcid'.symm)
  subst hsame
  refine unprotected_of_read hparse ?_
  have hlevel := List.any_eq_false.mp hu e he
  simp only [decide_eq_true_eq] at hlevel
  omega

/-- How enumerateCredentialsBegin ends. -/
inductive Begun (P : Platform) (env : Env) (d : Device) (h : Bytes) : CredentialManagementResult → Prop
    where
  | none {r : CredentialManagementResult} (list : r.enumeration.credList = []) (keys : r.keys = d.keys)
    (quiet : r.reply = .status 0x2E) : Begun P env d h r
  | failed {r : CredentialManagementResult} (asks : asksUser P env d h = true)
    (failed : (cachedOrWait env d.bio d.uv).1.succeeded = false) : Begun P env d h r
  | verified {r : CredentialManagementResult} (keys : r.keys = d.keys)
    (acts : r.acts.any Act.verifies = true) : Begun P env d h r
  | unasked {r : CredentialManagementResult} (keys : r.keys = d.keys)
    (calm : asksUser P env d h = false) (acts : r.acts.any Act.verifies = false)
    (items : ∃ is, r.reply = .items is)
    (list : r.enumeration.credList = (credentialsOfHash P env d.keys h).map Prod.fst) :
    Begun P env d h r

theorem enumerateCredentialsBegin_begun (P : Platform) (env : Env) (d : Device) (h : Bytes) :
    Begun P env d h (enumerateCredentialsBegin P env d h) := by
  have hlisted : ∀ cids : List Str,
      (cids.map fun cid => Act.listed cid (.rpIdHash h)).any Act.verifies = false := by
    intro cids
    rw [List.any_eq_false]
    intro a ha
    obtain ⟨cid, -, rfl⟩ := List.mem_map.mp ha
    simp [Act.verifies]
  unfold enumerateCredentialsBegin
  simp only
  cases hc : (credentialsOfHash P env d.keys h).map Prod.fst with
  | nil => exact .none rfl rfl rfl
  | cons cid cids =>
    simp only
    cases hasks : asksUser P env d h with
    | false =>
      rw [asksUser] at hasks
      rw [if_neg (by simp [hasks])]
      exact .unasked rfl hasks (hlisted _) ⟨_, rfl⟩ hc.symm
    | true =>
      have hasks' := hasks
      rw [asksUser] at hasks'
      rw [if_pos hasks']
      have hwaited := cachedOrWait_waited env d.bio d.uv
      rcases hw : cachedOrWait env d.bio d.uv with ⟨r, uv⟩
      rw [hw] at hwaited
      cases r with
      | cancelled => exact .failed hasks (by rw [hw]; rfl)
      | timedOut => exact .failed hasks (by rw [hw]; rfl)
      | verified act time =>
        refine .verified rfl ?_
        simp only [List.any_append, List.any_cons, hwaited.verifies, Bool.true_or, Bool.or_true]

/-- The verification of a begin that meets the condition. -/
theorem beginVerification_of_begun {h : Bytes} (hb : enumerationBegin i = some h)
    (hc : asksUser P i.env d h = true → (cachedOrWait i.env d.bio d.uv).1.succeeded = true)
    (hn : (d.keys.passkeys.map PasskeyRecord.cid).Nodup) :
    (step P d i).2.keys = d.keys ∧ ((step P d i).2.enumeration.credList = [] ∨
      beginVerification (Trace.entry (step P) d i) = .verified ∨
      (beginVerification (Trace.entry (step P) d i) = .unasked ∧
        ∀ cid ∈ (step P d i).2.enumeration.credList,
          ∀ r ∈ d.keys.passkeys, r.cid = cid → Unprotected P r)) := by
  have hs := step_begin (P := P) (d := d) hb
  have hbegun := enumerateCredentialsBegin_begun P i.env d h
  simp only [beginVerification, Trace.entry, hs]
  generalize enumerateCredentialsBegin P i.env d h = r at hbegun
  cases hbegun with
  | none list keys quiet => exact ⟨keys, .inl list⟩
  | failed asks failed =>
    rw [hc asks] at failed
    cases failed
  | verified keys acts => exact ⟨keys, .inr (.inl (if_pos acts))⟩
  | unasked keys calm acts items list =>
    refine ⟨keys, .inr (.inr ⟨?_, ?_⟩)⟩
    · obtain ⟨is, his⟩ := items
      rw [if_neg (by simp [acts]), his]
      rfl
    · intro cid hcid r hr he
      rw [list] at hcid
      exact unasked_unprotected hn calm hcid hr he

/-! Runs. -/

theorem listAccounted_step (h : ListAccounted P past d) (hg : EnumerationsVerified P past d i) :
    ListAccounted P (Trace.entry (step P) d i :: past) (step P d i).2 := by
  obtain ⟨hask, hfresh⟩ := hg
  have hrecords := step_recordsAfter P d i
  refine ⟨hrecords.unique h.unique hfresh, fun cid hcid => ?_⟩
  rw [listVerification_cons]
  cases hb : enumerationBegin i with
  | some hash =>
    have hbegun := beginVerification_of_begun (P := P) hb (by simpa [hb] using hask) h.unique
    obtain ⟨hkeys, hempty | hverified | ⟨hunasked, hcalm⟩⟩ := hbegun
    · rw [hempty, List.drop_nil] at hcid
      cases hcid
    · exact .inl (by simp [Trace.entry, hb] at hverified ⊢; exact hverified)
    · refine .inr ⟨by simp [Trace.entry, hb] at hunasked ⊢; exact hunasked, ?_⟩
      rw [hkeys]
      exact hcalm cid (List.drop_subset _ _ hcid)
  | none =>
    rw [if_neg (by simp [Trace.entry, hb])]
    cases step_walked (P := P) (d := d) hb with
    | cleared list =>
      rw [list] at hcid
      simp at hcid
    | kept list forward =>
      rw [list] at hcid
      have hleft : cid ∈ d.enumeration.credList.drop d.enumeration.credIdx :=
        (List.drop_sublist_drop_left _ forward).subset hcid
      refine (h.left cid hleft).imp id fun hu => ⟨hu.1, fun r hr he => ?_⟩
      refine hu.2 r (hrecords.listed hfresh hr ?_) he
      rw [he]
      exact List.drop_subset _ _ hcid

theorem isProtected_record {e : Entry} (h : isProtected P e cid = true) :
    ∃ r ∈ e.before.keys.passkeys, r.cid = cid ∧ ¬Unprotected P r := by
  unfold isProtected at h
  cases hc : getPasskeyRecord P e.input.env.flawless e.before.keys cid with
  | none =>
    rw [hc] at h
    cases h
  | some c =>
    rw [hc, Option.any_some, decide_eq_true_eq] at h
    obtain ⟨r, hr, hcid, hparse⟩ := getPasskeyRecord_some hc
    refine ⟨r, hr, hcid, fun hu => ?_⟩
    have hlow := hu _ c hparse
    omega

theorem enumeratesVerified_entry (h : ListAccounted P past d) (hg : EnumerationsVerified P past d i) :
    EnumeratesVerified P past (Trace.entry (step P) d i) := by
  -- an unasked list holds no protected credential
  have shown : ∀ v cid, (v = some Verification.verified ∨ (v = some .unasked ∧
      ∀ r ∈ d.keys.passkeys, r.cid = cid → Unprotected P r)) →
      v ≠ some .failed ∧
        (isProtected P (Trace.entry (step P) d i) cid = true → v = some .verified) := by
    rintro v cid (rfl | ⟨rfl, hu⟩)
    · exact ⟨by simp, fun _ => rfl⟩
    · refine ⟨by simp, fun hp => ?_⟩
      obtain ⟨r, hr, hcid, hnot⟩ := isProtected_record hp
      exact absurd (hu r hr hcid) hnot
  intro cid hd
  rw [listVerification_cons]
  unfold disclosed at hd
  split at hd
  · cases hd
  split at hd
  next hb =>
    rw [if_pos hb]
    obtain ⟨hash, hh⟩ := Option.isSome_iff_exists.mp hb
    have hbegin : enumerationBegin i = some hash := hh
    have hbegun := beginVerification_of_begun (P := P) hbegin (by simpa [hbegin] using hg.1) h.unique
    have hhead : cid ∈ (step P d i).2.enumeration.credList := List.mem_of_mem_head? hd
    refine shown _ cid ?_
    obtain ⟨-, hempty | hverified | ⟨hunasked, hcalm⟩⟩ := hbegun
    · rw [hempty] at hhead
      cases hhead
    · exact .inl (congrArg some hverified)
    · exact .inr ⟨congrArg some hunasked, hcalm cid hhead⟩
  next hb =>
    rw [if_neg hb]
    split at hd
    next hnext =>
      refine shown _ cid (h.left cid ?_)
      have hget : d.enumeration.credList[d.enumeration.credIdx]? = some cid := hd
      rw [← List.head?_drop] at hget
      exact List.mem_of_mem_head? hget
    next => cases hd

/-- In a run whose enumerations get the verification they ask for, and whose
registrations draw new ids, a protected credential is shown only from a list that
was verified, and nothing from one whose verification failed. -/
theorem enumerations_verified (P : Platform) (inputs : List Input)
    (hg : Trace.Guarded (step P) (EnumerationsVerified P) initial inputs) :
    Trace.Always (EnumeratesVerified P) (run P inputs) :=
  Trace.always (I := ListAccounted P) (fun _ _ _ h hg => listAccounted_step h hg)
    (fun _ _ _ h hg => enumeratesVerified_entry h hg)
    ⟨List.nodup_nil, fun _ hcid => by simp [initial] at hcid⟩ hg

section Bench

open Bench

/-- MakeCredential for a user id of one byte and credProtect level 2. -/
def createProtected (rp : Str) (user : UInt8) : Event :=
  request 0x01 [.map 6, .uint 1, .bytes clientDataHash, .uint 2, .map 1, .text (text "id"), .text rp,
    .uint 3, .map 1, .text (text "id"), .bytes [user], .uint 4, .array 1, .map 1,
    .text (text "alg"), .nint (-7), .uint 6, .map 1, .text (text "credProtect"), .uint 2, .uint 7,
    .map 1, .text (text "rk"), .bool true]

def enumerateCredentials : Event :=
  request 0x0A [.map 2, .uint 1, .uint 0x04, .uint 2, .map 1, .uint 1, .bytes (platform.sha256 site)]

def enumerateNext : Event := request 0x0A [.map 1, .uint 1, .uint 0x05]

/-- A protected credential and a walk over its party, begun with this finger. -/
def protectedThenWalk (finger : Env) : List Input :=
  [⟨createProtected site 1, touchedEnv 1 60000 90⟩, ⟨enumerateCredentials, finger⟩,
    ⟨enumerateNext, idleEnv 4 60000⟩]

theorem enumerations_verified_bench :
    Trace.Always (EnumeratesVerified platform)
      (run platform (protectedThenWalk (touchedEnv 3 60000 90))) :=
  enumerations_verified platform _ (by decide +kernel)

/-- The protected credential is shown although the enumeration was cancelled. -/
theorem cancelled_enumeration_shown :
    ¬ Trace.Always (EnumeratesVerified platform)
      (run platform (protectedThenWalk (cancelledEnv 3 60000))) := by
  decide +kernel

end Bench

end GoiKey
