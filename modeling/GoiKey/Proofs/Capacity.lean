import GoiKey.Model.RecordLists
import GoiKey.Proofs.RecordLists
import GoiKey.Proofs.Uniqueness

/-!
The two reports on how many credentials fit, against the store. Both name one
capacity, and nothing keeps the store below it.
-/

namespace GoiKey

open RecordFile

variable {P : Platform} {env : Env} {past : History} {d : Device} {i : Input} {k : Keystore}
variable {req : MakeCredentialRequest} {data : Bytes}

/-- The metadata and the list name the same numbers, those of the store. -/
def ReportsAgree (k : Keystore) : Prop :=
  ∀ env stray, env.opens .passkeys .read = true → ∃ websites used remaining,
    getCredsMetadata env k = .items [.map 2, .uint 1, .uint used, .uint 2, .uint remaining] ∧
    RecordFile.listFidoWebsites env stray (ofRecords k.passkeys) = ⟨websites, used, remaining⟩ ∧
    used = k.stored.length ∧ used + remaining = maxDiscoverableCredentials

/-- A resident credential is asked for by a user without one, and nothing but the
number of credentials can stand in its way. -/
structure Newcomer (P : Platform) (d : Device) (i : Input) (req : MakeCredentialRequest) : Prop where
  request : registrationRequest d i = some req
  response : i.env.allocates .response = true
  resident : residentKey req = true
  unknown : replacedId P i.env d.keys req = []
  admitted : admitted P i.env d req = true
  savable : ∃ key, generateCredentialKey P i.env req.selectedAlgId = some key ∧
    savable P i.env (newRecord i.env req key) = true

/-- An error is answered and nothing was stored. -/
def RefusedUnchanged (e : Entry) : Prop :=
  (∃ code, e.output.reply = .cbor (.status code)) ∧ e.after.keys.passkeys = e.before.keys.passkeys

structure CapacityKept (P : Platform) (_ : History) (e : Entry) : Prop where
  reports : ReportsAgree e.after.keys
  refused : ∀ req, Newcomer P e.before e.input req →
    (RefusedUnchanged e ↔ maxDiscoverableCredentials ≤ e.before.keys.stored.length)

/-- A record for a resident credential is added and none goes for it. -/
def addsResident (P : Platform) (env : Env) (d : Device) (req : MakeCredentialRequest) : Bool :=
  admitted P env d req && residentKey req && !replaces P env d.keys req &&
    (generateCredentialKey P env req.selectedAlgId).any fun key => savable P env (newRecord env req key)

/-- The same of U2F_REGISTER. -/
def addsU2f (P : Platform) (env : Env) (d : Device) (data : Bytes) : Bool :=
  decide (7 ≤ data.length) && byteAt data 1 == 0x01 &&
    (byteAt data 5).toNat * 256 + (byteAt data 6).toNat == 64 &&
    (fidoVerifyFingerprint env d.bio d.uv env.sensor env.now).1.isSome && P.attestation.isSome &&
    (generateCredentialKeyP256 P env).any fun key =>
      savable P env (u2fRecord (u2fAppId env data) key.privateKeyHex)

def addsRecord (P : Platform) (d : Device) (i : Input) : Bool :=
  match i.event with
  | .cbor (0x01 :: body) => i.env.allocates .response &&
      addsResident P i.env d (parseMakeCredential d.defaultCryptoAlg body)
  | .u2f data => addsU2f P i.env d data
  | _ => false

/-- A credential is added only while there is room. -/
def HasRoom (P : Platform) (_ : History) (d : Device) (i : Input) : Prop :=
  addsRecord P d i = true → d.keys.stored.length < maxDiscoverableCredentials

instance (past : History) : Decidable (HasRoom P past d i) := inferInstanceAs (Decidable (_ → _))

/-! How many are stored after a step. -/

/-- One more when the step adds one, else no more than before. -/
def Grows (adds : Bool) (before after : List PasskeyRecord) : Prop :=
  if adds then ∃ r, r.status = 1 ∧ after = before ++ [r]
  else (after.filter fun r => r.status == 1).length ≤ (before.filter fun r => r.status == 1).length

theorem grows_sublist {before after : List PasskeyRecord} (h : after.Sublist before) :
    Grows false before after :=
  (h.filter _).length_le

theorem grows_same {before after : List PasskeyRecord} (h : after = before) : Grows false before after :=
  grows_sublist (by rw [h])

/-- The record found goes, so that the new one takes its place. -/
theorem remaining_shorter (h : replaces P env k req = true) :
    ((remaining P env k req).filter fun r => r.status == 1).length + 1 ≤ k.stored.length := by
  have hne : replacedId P env k req ≠ [] := by
    simp only [replaces, Bool.and_eq_true, bne_iff_ne] at h
    exact h.1
  obtain ⟨-, r, hr, hstatus, hcid⟩ := replacedId_found hne
  have hgone : (remaining P env k req).filter (fun r => r.status == 1) =
      k.stored.filter fun r => !(r.cid == replacedId P env k req) := by
    rw [remaining, if_pos h, Keystore.stored, List.filter_filter, List.filter_filter]
    refine List.filter_congr fun r _ => ?_
    cases r.status == 1 <;> simp
  have hlt : (k.stored.filter fun r => !(r.cid == replacedId P env k req)).length < k.stored.length := by
    refine List.length_filter_lt_length_iff_exists.mpr ⟨r, ?_, ?_⟩
    · exact List.mem_filter.mpr ⟨hr, by simp [hstatus]⟩
    · simp [hcid]
  rw [hgone]
  exact hlt

theorem makeCredential_grows :
    Grows (addsResident P env d req) d.keys.passkeys (makeCredential P env d req).keys.passkeys := by
  unfold addsResident
  cases ha : admitted P env d req with
  | false => exact grows_same (by rw [makeCredential_refused ha])
  | true =>
    rw [(makeCredential_admitted ha).2]
    cases hr : residentKey req with
    | false => exact grows_same (register_stateless hr)
    | true =>
      cases hk : generateCredentialKey P env req.selectedAlgId with
      | none =>
        simp only [Option.any_none, Bool.and_false]
        exact grows_same (by simp [register, hk])
      | some key =>
        obtain ⟨hunsaved, hsaved⟩ := register_resident (k := d.keys) (n := d.signCount) hk hr
        cases hs : savable P env (newRecord env req key) with
        | false =>
          simp only [Option.any_some, hs, Bool.and_false]
          rw [(hunsaved hs).2]
          exact grows_sublist remaining_sublist
        | true =>
          simp only [Option.any_some, hs, Bool.true_and, Bool.and_true]
          rw [(hsaved hs).2]
          cases hreplaces : replaces P env d.keys req with
          | false =>
            rw [remaining, hreplaces, if_neg Bool.false_ne_true]
            exact ⟨_, rfl, rfl⟩
          | true =>
            have hshorter := remaining_shorter hreplaces
            change (List.filter _ _).length ≤ d.keys.stored.length
            rw [List.filter_append, List.length_append]
            exact hshorter

theorem u2fRegister_grows {challenge appId : Bytes} :
    Grows ((fidoVerifyFingerprint env d.bio d.uv env.sensor env.now).1.isSome && P.attestation.isSome &&
        (generateCredentialKeyP256 P env).any fun key => savable P env (u2fRecord appId key.privateKeyHex))
      d.keys.passkeys (u2fRegister P env d challenge appId).keys.passkeys := by
  unfold u2fRegister
  cases fidoVerifyFingerprint env d.bio d.uv env.sensor env.now with
  | mk act uv =>
    cases act with
    | none => exact grows_same rfl
    | some act =>
      cases generateCredentialKeyP256 P env with
      | none =>
        simp only [Option.any_none, Bool.and_false]
        exact grows_same rfl
      | some key =>
        cases ha : P.attestation with
        | none => exact grows_same rfl
        | some a =>
          simp only [Option.isNone_some, Bool.false_eq_true, if_false, savePasskeyRecord_eq, Option.any_some,
            Option.isSome_some, Bool.true_and]
          cases hs : savable P env (u2fRecord appId key.privateKeyHex) with
          | false => exact grows_same rfl
          | true =>
            simp only [if_true]
            refine ⟨newPasskey P env (toHex (env.draw .keyHandle 16)) (u2fRecord appId key.privateKeyHex),
              rfl, ?_⟩
            split
            · rfl
            · split <;> rfl

theorem u2fAuthenticate_passkeys {p1 : UInt8} {challenge appId keyHandle : Bytes} :
    (u2fAuthenticate P env d p1 challenge appId keyHandle).keys.passkeys = d.keys.passkeys :=
  u2fAuthenticate_cases (Q := fun r => r.keys.passkeys = d.keys.passkeys)
    (fun _ _ _ _ _ _ => rfl) (fun _ _ _ _ _ _ _ _ _ _ _ _ => rfl)

theorem processU2fCommand_grows :
    Grows (addsU2f P env d data) d.keys.passkeys (processU2fCommand P env d data).keys.passkeys := by
  unfold processU2fCommand addsU2f
  simp only
  by_cases hshort : data.length < 7
  · rw [decide_eq_false (by omega)]
    simp only [Bool.false_and]
    split
    · exact grows_same rfl
    split
    · exact grows_same rfl
    · exact grows_same rfl
  · rw [if_neg (by omega), decide_eq_true (by omega), if_neg hshort, Bool.true_and]
    by_cases hins : byteAt data 1 = 0x01
    · simp only [hins, beq_self_eq_true, Bool.true_and]
      rw [if_neg (by decide), if_pos trivial]
      by_cases hreq : (byteAt data 5).toNat * 256 + (byteAt data 6).toNat = 64
      · rw [if_neg (not_not.mpr hreq), beq_iff_eq.mpr hreq]
        exact u2fRegister_grows
      · rw [if_pos hreq, beq_eq_false_iff_ne.mpr hreq]
        simp only [Bool.false_and]
        exact grows_same rfl
    · rw [beq_eq_false_iff_ne.mpr hins]
      simp only [Bool.false_and, if_neg hins]
      split
      · exact grows_same rfl
      split
      · split
        · exact grows_same rfl
        · exact grows_same u2fAuthenticate_passkeys
      · exact grows_same rfl

/-- Where no registration comes, nothing is written. -/
theorem other_grows (hreq : registrationRequest d i = none) (hu2f : ∀ data, i.event ≠ .u2f data) :
    Grows (addsRecord P d i) d.keys.passkeys (step P d i).2.keys.passkeys := by
  have hadds : addsRecord P d i = false := by
    unfold addsRecord
    split
    next body he => simp [registrationRequest, he] at hreq
    next data he => exact absurd he (hu2f data)
    next => rfl
  rw [hadds]
  have hafter := step_recordsAfter P d i
  generalize (step P d i).2.keys.passkeys = after at hafter
  cases hafter with
  | fewer kept => exact grows_sublist kept
  | added kept writes =>
    cases writes with
    | resident request => simp [hreq] at request
    | u2f event => exact absurd event (hu2f _)

theorem step_grows : Grows (addsRecord P d i) d.keys.passkeys (step P d i).2.keys.passkeys := by
  cases hreq : registrationRequest d i with
  | some req =>
    unfold registrationRequest at hreq
    split at hreq
    next body he =>
      cases hreq
      simp only [addsRecord, step, he, processCborCommand, cborCommand, runMakeCredential]
      cases i.env.allocates .response with
      | false => exact grows_same rfl
      | true => exact makeCredential_grows
    next => cases hreq
  | none =>
    by_cases hu2f : ∃ data, i.event = .u2f data
    · obtain ⟨data, he⟩ := hu2f
      simp only [addsRecord, step, he, runU2f]
      exact processU2fCommand_grows
    · exact other_grows hreq fun data he => hu2f ⟨data, he⟩

/-! Reports. -/

theorem stored_ids (ho : env.opens .passkeys .read = true) :
    (getAllStoredCredentialIds env k).length = k.stored.length := by
  rw [getAllStoredCredentialIds, readPasskeys, if_pos ho, List.length_map, Keystore.stored]

/-- Below the capacity the two subtractions agree; above it one of them wraps. -/
theorem reportsAgree_iff (env : Env) (hs : ∀ r ∈ k.passkeys, Storable r) :
    ReportsAgree k ↔ k.stored.length ≤ maxDiscoverableCredentials := by
  constructor
  · intro h
    obtain ⟨websites, used, remaining, -, -, rfl, hsum⟩ := h env.flawless [] rfl
    exact Nat.le_of_add_right_le (Nat.le_of_eq hsum)
  · intro hroom env stray ho
    refine ⟨_, k.stored.length, maxDiscoverableCredentials - k.stored.length, ?_,
      listFidoWebsites_ofRecords ho hs, rfl, Nat.add_sub_cancel' hroom⟩
    have hremaining : ((1000 - (k.stored.length : Int)) % 2 ^ 32).toNat =
        maxDiscoverableCredentials - k.stored.length := by
      rw [maxDiscoverableCredentials] at hroom ⊢
      omega
    simp only [getCredsMetadata, stored_ids ho, hremaining]

/-! Runs. -/

/-- What holds of the store between two steps of a run that meets the condition. -/
structure WithinCapacity (d : Device) : Prop where
  storable : ∀ r ∈ d.keys.passkeys, Storable r
  room : d.keys.stored.length ≤ maxDiscoverableCredentials

theorem storable_step (hp : RecordsSound P) (h : ∀ r ∈ d.keys.passkeys, Storable r) :
    ∀ r ∈ (step P d i).2.keys.passkeys, Storable r := by
  intro r hr
  have hafter := step_recordsAfter P d i
  generalize (step P d i).2.keys.passkeys = after at hafter hr
  cases hafter with
  | fewer kept => exact h r (kept.subset hr)
  | added kept writes =>
    rcases List.mem_append.mp hr with hr | hr
    · exact h r (kept.subset hr)
    · rw [List.mem_singleton.mp hr]
      exact (writes.accounted hp).1

theorem room_step (h : WithinCapacity d) :
    (step P d i).2.keys.stored.length ≤ maxDiscoverableCredentials ↔ HasRoom P past d i := by
  have hgrows := step_grows (P := P) (d := d) (i := i)
  unfold HasRoom Keystore.stored
  cases ha : addsRecord P d i with
  | false =>
    rw [ha] at hgrows
    exact iff_of_true (Nat.le_trans hgrows h.room) fun hn => absurd hn (by decide)
  | true =>
    rw [ha] at hgrows
    obtain ⟨r, hr, hafter⟩ := hgrows
    rw [hafter, List.filter_append, List.length_append]
    simp [hr, Nat.succ_le_iff]

theorem newcomer_adds (h : Newcomer P d i req) : addsRecord P d i = true := by
  have hreq := h.request
  unfold registrationRequest at hreq
  split at hreq
  next body he =>
    cases hreq
    obtain ⟨key, hk, hs⟩ := h.savable
    have hreplaces : replaces P i.env d.keys (parseMakeCredential d.defaultCryptoAlg body) = false := by
      simp [replaces, h.unknown]
    simp [addsRecord, he, addsResident, h.response, h.admitted, h.resident, hreplaces, hk, hs]
  next => cases hreq

/-- A newcomer is never refused. -/
theorem newcomer_stored (h : Newcomer P d i req) : ¬RefusedUnchanged (Trace.entry (step P) d i) := by
  rintro ⟨-, hsame⟩
  have hgrows := step_grows (P := P) (d := d) (i := i)
  rw [newcomer_adds h] at hgrows
  obtain ⟨r, -, hafter⟩ := hgrows
  have hlen := congrArg List.length (hafter.symm.trans hsame)
  simp [Trace.entry] at hlen

theorem capacityKept_step (hp : RecordsSound P) (h : WithinCapacity d) :
    CapacityKept P past (Trace.entry (step P) d i) ↔ HasRoom P past d i := by
  have hreports : ReportsAgree (step P d i).2.keys ↔ HasRoom P past d i :=
    (reportsAgree_iff i.env (storable_step hp h.storable)).trans (room_step h)
  constructor
  · intro hkept
    exact hreports.mp hkept.reports
  · intro hroom
    refine ⟨hreports.mpr hroom, fun req hnew => ?_⟩
    exact iff_of_false (newcomer_stored hnew) (Nat.not_le.mpr (hroom (newcomer_adds hnew)))

/-- In a run the reports agree and registrations are refused as the capacity says,
exactly if a credential is added only while there is room. -/
theorem capacity_kept_iff (P : Platform) (hp : RecordsSound P) (inputs : List Input) :
    Trace.Always (CapacityKept P) (run P inputs) ↔ Trace.Guarded (step P) (HasRoom P) initial inputs :=
  Trace.always_iff_guarded (I := fun _ d => WithinCapacity d)
    (fun _ _ _ h hg => ⟨storable_step hp h.storable, (room_step h).mpr hg⟩)
    (fun _ _ _ h => capacityKept_step hp h)
    ⟨fun _ hr => absurd hr List.not_mem_nil, Nat.zero_le _⟩

theorem capacityKept_last {inputs : List Input}
    (h : Trace.Always (CapacityKept P) (run P (inputs ++ [i])))
    (hd : Trace.final (step P) initial inputs = d) :
    CapacityKept P (run P inputs) (Trace.entry (step P) d i) := by
  rw [run, Trace.history_snoc, hd] at h
  exact h.1

section Bench

open Bench

theorem capacity_kept_bench :
    Trace.Always (CapacityKept platform) (run platform
      [⟨create site 1 true (-7), touchedEnv 1 60000 90⟩, ⟨create site 2 true (-7), touchedEnv 2 60000 90⟩]) :=
  (capacity_kept_iff platform recordsSound_bench _).mpr (by decide +kernel)

/-- The platform with an attestation identity. -/
def attesting : Platform := { platform with attestation := some ⟨[], zeros 32⟩ }

/-- U2F_REGISTER for one application parameter. -/
def u2fRegistration : Input :=
  ⟨.u2f ([0x00, 0x01, 0x00, 0x00, 0x00, 0x00, 0x40] ++ clientDataHash ++ List.replicate 32 0xA1),
    touchedEnv 7 60000 80⟩

/-- The record it leaves. -/
def u2fStored : PasskeyRecord :=
  newPasskey attesting (touchedEnv 7 60000 80) (toHex (List.replicate 16 7))
    (u2fRecord (List.replicate 32 0xA1) (toHex (List.replicate 32 7)))

def filled (n : Nat) : Device := { keys := { passkeys := List.replicate n u2fStored } }

theorem filled_step (n : Nat) : (step attesting (filled n) u2fRegistration).2 = filled (n + 1) := by
  rw [filled, filled, List.replicate_succ']
  rfl

theorem filled_run (n : Nat) :
    Trace.final (step attesting) initial (List.replicate n u2fRegistration) = filled n := by
  induction n with
  | zero => rfl
  | succ n ih =>
    rw [List.replicate_succ', Trace.final_append, ih, Trace.final_cons]
    exact filled_step n

/-- A resident credential for a user who has none. -/
def newUser : Input := ⟨create site 1 true (-7), touchedEnv 1 60000 90⟩

theorem newUser_newcomer : ∃ req, Newcomer attesting (filled 1000) newUser req := by
  refine ⟨_, rfl, rfl, by decide +kernel, by decide +kernel, by decide +kernel, ?_⟩
  exact Option.any_eq_true _ _ |>.mp (by decide +kernel)

theorem newUser_stored {n : Nat} (hn : n = 1000) :
    ¬Trace.Always (CapacityKept attesting)
      (run attesting (List.replicate n u2fRegistration ++ [newUser])) := by
  intro h
  have hkept := capacityKept_last h (filled_run n)
  subst hn
  obtain ⟨req, hnew⟩ := newUser_newcomer
  have hcount : (filled 1000).keys.stored.length = 1000 := by decide +kernel
  exact newcomer_stored hnew ((hkept.refused req hnew).mpr (Nat.le_of_eq hcount.symm))

/-- After 1000 registrations one more is stored, and the metadata of 1001 records wraps. -/
theorem capacity_ignored :
    getCredsMetadata (idleEnv 1 60000) (filled 1001).keys =
        .items [.map 2, .uint 1, .uint 1001, .uint 2, .uint 4294967295] ∧
      ¬Trace.Always (CapacityKept attesting)
        (run attesting (List.replicate 1000 u2fRegistration ++ [newUser])) :=
  ⟨by decide +kernel, newUser_stored rfl⟩

end Bench

end GoiKey
