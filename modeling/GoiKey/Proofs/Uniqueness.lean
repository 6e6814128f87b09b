import GoiKey.Proofs.Atomicity
import GoiKey.Proofs.Enumeration
import GoiKey.Proofs.SavedRecords
import Mathlib.Data.List.Pairwise

/-!
One record for each party and user: a registration looks one up, removes it and
appends its own. The lookup also takes a record under the hash of the party.
-/

namespace GoiKey

open RecordFile

variable {P : Platform} {env : Env} {past : History} {d : Device} {i : Input} {k : Keystore}
variable {req : MakeCredentialRequest} {key : KeyPair} {r : PasskeyRecord}
variable {records : List PasskeyRecord} {rpId user : Str}

/-- Party and user of a live record; U2F records have no user. -/
def ownerOf (P : Platform) (env : Env) (r : PasskeyRecord) : Option (Str × Str) :=
  if r.status == 1 then
    ((recordUserId P env.flawless r).filter fun u => u != []).map fun u => (r.rp, u)
  else none

def owners (P : Platform) (env : Env) (records : List PasskeyRecord) : List (Str × Str) :=
  records.filterMap (ownerOf P env)

/-- No two live records are of the same party and user. -/
def OwnersUnique (P : Platform) (_ : History) (e : Entry) : Prop :=
  (owners P e.input.env e.after.keys.passkeys).Nodup

instance (past : History) (e : Entry) : Decidable (OwnersUnique P past e) :=
  inferInstanceAs (Decidable (List.Nodup _))

/-- The record file can be read and rewritten, and its records opened. -/
def StorageWorks (env : Env) : Prop :=
  env.opens .passkeys .read = true ∧ env.opens .passkeysTmp .write = true ∧
    env.allocates .plaintext = true

instance (env : Env) : Decidable (StorageWorks env) := inferInstanceAs (Decidable (_ ∧ _))

/-- Deleting takes out the records it targets and copies every other one. -/
def DeletesExactly (k : Keystore) : Prop :=
  ∀ env : Env, StorageWorks env → ∀ (stray : Bytes) (id : Str),
    RecordFile.deletePasskeyRecord env stray (ofRecords k.passkeys) id =
      (k.passkeys.any fun r => r.cid == id, ofRecords (k.passkeys.filter fun r => r.cid != id)) ∧
    RecordFile.deleteFidoWebsite env stray (ofRecords k.passkeys) id =
      (k.passkeys.any fun r => r.rp == id, ofRecords (k.passkeys.filter fun r => r.rp != id))

/-- Both, in the state a step leaves. -/
def RecordsKept (P : Platform) (past : History) (e : Entry) : Prop :=
  OwnersUnique P past e ∧ DeletesExactly e.after.keys

/-- No record of the user under the hash of the party stands before one under the
party itself. -/
def HashedBehind (P : Platform) (env : Env) (records : List PasskeyRecord) (rpId user : Str) : Prop :=
  records.Pairwise fun r r' => ¬(ownerOf P env r = some (hashSHA256 P rpId, user) ∧
    ownerOf P env r' = some (rpId, user))

instance : Decidable (HashedBehind P env records rpId user) :=
  inferInstanceAs (Decidable (List.Pairwise _ _))

/-- The condition of a registration of a resident credential. -/
def Supersedes (P : Platform) (_ : History) (d : Device) (i : Input) : Prop :=
  ∀ req, registrationRequest d i = some req → residentKey req = true →
    StorageWorks i.env ∧ HashedBehind P i.env d.keys.passkeys req.targetRpId (toHex req.userIdRaw)

instance (past : History) (d : Device) (i : Input) : Decidable (Supersedes P past d i) :=
  match h : registrationRequest d i with
  | none => .isTrue fun req hr => by rw [h] at hr; cases hr
  | some req => decidable_of_iff (residentKey req = true → StorageWorks i.env ∧
      HashedBehind P i.env d.keys.passkeys req.targetRpId (toHex req.userIdRaw))
      ⟨fun hs r hr => by rw [h] at hr; cases hr; exact hs, fun hs => hs req h⟩

/-! Owners. -/

theorem recordUserId_congr {env' : Env} (h : env.allocates .plaintext = env'.allocates .plaintext) :
    recordUserId P env r = recordUserId P env' r := by
  rw [recordUserId, decryptRecord, decryptStoragePayload_congr h, recordUserId, decryptRecord]

/-- What a record says does not depend on when it is read. -/
theorem ownerOf_env (env env' : Env) (r : PasskeyRecord) : ownerOf P env r = ownerOf P env' r := by
  have hread : recordUserId P env.flawless r = recordUserId P env'.flawless r := recordUserId_congr rfl
  rw [ownerOf, hread, ownerOf]

theorem owners_env (env env' : Env) (records : List PasskeyRecord) :
    owners P env records = owners P env' records :=
  List.filterMap_congr fun r _ => ownerOf_env env env' r

theorem ownerOf_eq_some (h : ownerOf P env r = some (rpId, user)) :
    r.status = 1 ∧ r.rp = rpId ∧ recordUserId P env.flawless r = some user ∧ user ≠ [] := by
  unfold ownerOf at h
  split at h
  next hs =>
    obtain ⟨u, hu, he⟩ := Option.map_eq_some_iff.mp h
    cases he
    obtain ⟨huser, hne⟩ := Option.filter_eq_some_iff.mp hu
    exact ⟨by simpa using hs, rfl, huser, by simpa using hne⟩
  next => cases h

theorem ownerOf_some (hs : r.status = 1) (hu : recordUserId P env.flawless r = some user)
    (hne : user ≠ []) : ownerOf P env r = some (r.rp, user) := by
  simp [ownerOf, hs, hu, hne]

/-- Two records of one owner are the same. -/
theorem eq_of_owner {r' : PasskeyRecord} (hn : (owners P env records).Nodup) (hr : r ∈ records)
    (hr' : r' ∈ records) (ho : ownerOf P env r = some (rpId, user))
    (ho' : ownerOf P env r' = some (rpId, user)) : r = r' := by
  have : Std.Symm fun r r' => ∀ o, ownerOf P env r = some o → ∀ o', ownerOf P env r' = some o' →
      o ≠ o' := ⟨fun r r' h o ho o' ho' he => h o' ho' o ho he.symm⟩
  have hpair := List.pairwise_filterMap.mp hn
  by_contra hne
  exact hpair.forall hr hr' hne _ ho _ ho' rfl

/-! The lookup of a registration. -/

theorem toHex_ne_nil {b : Bytes} (h : b ≠ []) : toHex b ≠ [] := by
  cases b with
  | nil => exact absurd rfl h
  | cons c b => simp [Hex.encode]

/-- The test that findCredentialIdByRpAndUser puts to each record. -/
def isReplaced (P : Platform) (env : Env) (req : MakeCredentialRequest) (r : PasskeyRecord) : Bool :=
  r.status == 1 && rpFieldMatchesRpId P r.rp req.targetRpId &&
    (recordUserId P env r).any fun u => toHex req.userIdRaw == [] || u == toHex req.userIdRaw

theorem replacedId_eq {r : PasskeyRecord} (ho : env.opens .passkeys .read = true)
    (h : k.passkeys.find? (isReplaced P env req) = some r) : replacedId P env k req = r.cid := by
  unfold replacedId findCredentialIdByRpAndUser
  have hread : (readPasskeys env k).find? (isReplaced P env req) = some r := by
    rwa [readPasskeys, if_pos ho]
  unfold isReplaced at hread
  rw [hread]

/-- A record found is one of the user, under the party or its hash. -/
theorem isReplaced_owner (hw : StorageWorks env) (hu : req.userIdRaw ≠ [])
    (h : isReplaced P env req r = true) :
    ownerOf P env r = some (req.targetRpId, toHex req.userIdRaw) ∨
      ownerOf P env r = some (hashSHA256 P req.targetRpId, toHex req.userIdRaw) := by
  have hread : recordUserId P env r = recordUserId P env.flawless r := recordUserId_congr hw.2.2
  simp only [isReplaced, rpFieldMatchesRpId, hread, Bool.and_eq_true, Bool.or_eq_true, beq_iff_eq,
    Option.any_eq_true, toHex_ne_nil hu, false_or] at h
  obtain ⟨⟨hs, hrp⟩, u, huser, rfl⟩ := h
  rcases hrp with hrp | hrp
  · exact .inl (hrp ▸ ownerOf_some hs huser (toHex_ne_nil hu))
  · exact .inr (hrp ▸ ownerOf_some hs huser (toHex_ne_nil hu))

theorem isReplaced_of_owner (hw : StorageWorks env)
    (h : ownerOf P env r = some (req.targetRpId, toHex req.userIdRaw)) :
    isReplaced P env req r = true := by
  have hread : recordUserId P env r = recordUserId P env.flawless r := recordUserId_congr hw.2.2
  obtain ⟨hs, hrp, huser, -⟩ := ownerOf_eq_some h
  simp [isReplaced, rpFieldMatchesRpId, hread, hs, hrp, huser]

/-- What is left for the new record holds none of its party and user. -/
theorem remaining_owners (hw : StorageWorks env) (hu : req.userIdRaw ≠ [])
    (hb : HashedBehind P env k.passkeys req.targetRpId (toHex req.userIdRaw))
    (hn : (owners P env k.passkeys).Nodup) (hcid : ∀ r ∈ k.passkeys, r.cid ≠ []) :
    (req.targetRpId, toHex req.userIdRaw) ∉ owners P env (remaining P env k req) := by
  intro hmem
  obtain ⟨r, hr, ho⟩ := List.mem_filterMap.mp hmem
  have hold : r ∈ k.passkeys := by
    unfold remaining at hr
    split at hr
    · exact (List.mem_filter.mp hr).1
    · exact hr
  obtain ⟨found, hfind⟩ := Option.isSome_iff_exists.mp
    (List.find?_isSome.mpr ⟨r, hold, isReplaced_of_owner hw ho⟩)
  have hfound : found ∈ k.passkeys := List.mem_of_find?_eq_some hfind
  have hid : replacedId P env k req = found.cid := replacedId_eq hw.1 hfind
  have hreplaces : replaces P env k req = true := by
    simp [replaces, hid, hcid found hfound, hw.2.1]
  have hother : r ≠ found := by
    rintro rfl
    rw [remaining, if_pos hreplaces, hid] at hr
    simpa using (List.mem_filter.mp hr).2
  rcases isReplaced_owner hw hu (List.find?_some hfind) with hown | hhashed
  · exact hother (eq_of_owner hn hold hfound ho hown)
  · -- found under the hash, it stands in front of the one under the party
    obtain ⟨-, before, after, hsplit, hbefore⟩ := List.find?_eq_some_iff_append.mp hfind
    have hafter : r ∈ after := by
      rw [hsplit] at hold
      rcases List.mem_append.mp hold with h | h
      · exact absurd (isReplaced_of_owner hw ho) (by simpa using hbefore r h)
      · exact (List.mem_cons.mp h).resolve_left hother
    unfold HashedBehind at hb
    rw [hsplit] at hb
    have hlater := (List.pairwise_cons.mp (List.pairwise_append.mp hb).2.1).1
    exact hlater r hafter ⟨hhashed, ho⟩

/-! A registration. -/

theorem owners_append {new : PasskeyRecord} {o : Str × Str} (hn : (owners P env records).Nodup)
    (hnew : ownerOf P env new = some o ∨ ownerOf P env new = none) (ho : o ∉ owners P env records) :
    (owners P env (records ++ [new])).Nodup := by
  rw [owners, List.filterMap_append]
  rcases hnew with h | h
  · rw [List.filterMap_cons_some h, List.filterMap_nil]
    exact hn.append (List.nodup_singleton o) (List.disjoint_singleton.mpr ho)
  · rw [List.filterMap_cons_none h, List.filterMap_nil, List.append_nil]
    exact hn

theorem remaining_sublist : (remaining P env k req).Sublist k.passkeys := by
  unfold remaining
  split
  · exact List.filter_sublist
  · exact List.Sublist.refl _

/-- If a record that was written can be opened at all, it is of the user in it. -/
theorem newPasskey_owner (hp : StorageSound P) (env : Env) {c : StoredCredential}
    (hu : newline ∉ c.userIdHex ∧ 0 ∉ c.userIdHex) (cid : Str) :
    ownerOf P env (newPasskey P env cid c) = none ∨
      c.userIdHex ≠ [] ∧ ownerOf P env (newPasskey P env cid c) = some (c.rpId, c.userIdHex) := by
  have hread : recordUserId P env.flawless (newPasskey P env cid c) = none ∨
      recordUserId P env.flawless (newPasskey P env cid c) = some c.userIdHex := by
    have hopen : decryptRecord P env.flawless (newPasskey P env cid c) = [] ∨
        decryptRecord P env.flawless (newPasskey P env cid c) = cstr (recordPayload c) :=
      decrypt_encrypt hp
    unfold recordUserId
    rcases hopen with h | h
    · rw [h]
      exact .inl rfl
    · rw [h, recordPayload, cstr_append hu.2, cstr_cons (by decide), Fields.cut_append hu.1]
      exact .inr rfl
  have hlive : ((newPasskey P env cid c).status == 1) = true := rfl
  unfold ownerOf
  rw [if_pos hlive]
  rcases hread with h | h
  · exact .inl (by rw [h]; rfl)
  · rw [h]
    by_cases hne : c.userIdHex = []
    · exact .inl (by simp [hne])
    · exact .inr ⟨hne, by simp [hne, newPasskey]⟩

/-- The record file after a MakeCredential. -/
theorem makeCredential_passkeys (P : Platform) (env : Env) (d : Device) (req : MakeCredentialRequest) :
    (makeCredential P env d req).keys.passkeys = d.keys.passkeys ∨
      (req.userIdRaw ≠ [] ∧ residentKey req = true ∧ ∃ key,
        ((makeCredential P env d req).keys.passkeys = remaining P env d.keys req ∨
          (makeCredential P env d req).keys.passkeys = remaining P env d.keys req ++
            [newPasskey P env (toHex (env.draw .credentialId 16)) (newRecord env req key)])) := by
  cases ha : admitted P env d req with
  | false => exact .inl (by rw [makeCredential_refused ha])
  | true =>
    rw [(makeCredential_admitted ha).2]
    cases hr : residentKey req with
    | false => exact .inl (register_stateless hr)
    | true =>
      cases hk : generateCredentialKey P env req.selectedAlgId with
      | none => exact .inl (by simp [register, hk])
      | some key =>
        have hu : req.userIdRaw ≠ [] := by
          simp only [admitted, Bool.and_eq_true, bne_iff_ne] at ha
          exact ha.1.1.1.2
        obtain ⟨hunsaved, hsaved⟩ := register_resident (k := d.keys) (n := d.signCount) hk hr
        refine .inr ⟨hu, rfl, key, ?_⟩
        cases hs : savable P env (newRecord env req key) with
        | false => exact .inl (hunsaved hs).2
        | true => exact .inr (hsaved hs).2

theorem step_registration (h : registrationRequest d i = some req) :
    (step P d i).2.keys = d.keys ∨ (step P d i).2.keys = (makeCredential P i.env d req).keys := by
  unfold registrationRequest at h
  split at h
  next body he =>
    cases h
    rw [step, he]
    simp only [processCborCommand, cborCommand]
    split
    · exact .inr rfl
    · exact .inl rfl
  next => cases h

theorem u2fRecord_owner (hp : StorageSound P) (cid : Str) (appId : Bytes) (keyHex : Str) :
    ownerOf P env (newPasskey P env cid (u2fRecord appId keyHex)) = none :=
  (newPasskey_owner hp env (c := u2fRecord appId keyHex) ⟨List.not_mem_nil, List.not_mem_nil⟩ cid).resolve_right
    fun h => h.1 rfl

/-! Runs. -/

/-- What holds of the record file between two steps. -/
structure FileAccounted (P : Platform) (_ : History) (d : Device) : Prop where
  unique : ∀ env, (owners P env d.keys.passkeys).Nodup
  records : ∀ r ∈ d.keys.passkeys, Storable r ∧ r.status = 1 ∧ r.cid ≠ []

theorem toHex_draw_ne_nil (w : Draw) : toHex (env.draw w 16) ≠ [] := by
  refine toHex_ne_nil fun h => ?_
  have hlen := Env.draw_length env w 16
  rw [h] at hlen
  cases hlen

theorem Writes.accounted (hp : RecordsSound P) (h : Writes P d i r) :
    Storable r ∧ r.status = 1 ∧ r.cid ≠ [] := by
  cases h with
  | resident request made =>
    exact ⟨newRecord_storable hp (registrationRequest_buffered request) made, rfl, toHex_draw_ne_nil _⟩
  | u2f event made =>
    exact ⟨u2fRecord_storable hp (by simp [u2fAppId, frameBytes]) made, rfl, toHex_draw_ne_nil _⟩

theorem makeCredential_unique (hp : RecordsSound P) (h : FileAccounted P past d)
    (hg : residentKey req = true → StorageWorks env ∧
      HashedBehind P env d.keys.passkeys req.targetRpId (toHex req.userIdRaw)) :
    (owners P env (makeCredential P env d req).keys.passkeys).Nodup := by
  have hold := h.unique env
  rcases makeCredential_passkeys P env d req with hsame | ⟨hu, hr, key, hkept | hnew⟩
  · rwa [hsame]
  · rw [hkept]
    exact hold.sublist (remaining_sublist.filterMap _)
  · rw [hnew]
    obtain ⟨hw, hb⟩ := hg hr
    have hgone := remaining_owners hw hu hb hold fun r hr => (h.records r hr).2.2
    refine owners_append (hold.sublist (remaining_sublist.filterMap _)) ?_ hgone
    have howner := newPasskey_owner hp.toStorageSound env
      (c := newRecord env req key) (notMem_toHex_separators _) (toHex (env.draw .credentialId 16))
    exact howner.symm.imp And.right id

theorem RecordsAfter.unique_owners (hp : RecordsSound P) (h : FileAccounted P past d)
    (hreq : registrationRequest d i = none) (hafter : RecordsAfter P d i records) :
    (owners P i.env records).Nodup := by
  have hold := h.unique i.env
  cases hafter with
  | fewer kept => exact hold.sublist (kept.filterMap _)
  | added kept writes =>
    cases writes with
    | resident request made =>
      rw [hreq] at request
      cases request
    | u2f event made =>
      rw [owners, List.filterMap_append, List.filterMap_cons_none (u2fRecord_owner hp.toStorageSound _ _ _),
        List.filterMap_nil, List.append_nil]
      exact hold.sublist (kept.filterMap _)

theorem fileAccounted_step (hp : RecordsSound P) (h : FileAccounted P past d)
    (hg : Supersedes P past d i) :
    FileAccounted P (Trace.entry (step P) d i :: past) (step P d i).2 := by
  have hafter := step_recordsAfter P d i
  refine ⟨fun env => ?_, fun r hr => ?_⟩
  · rw [owners_env env i.env]
    cases hreq : registrationRequest d i with
    | some req =>
      rcases step_registration (P := P) hreq with hkeys | hkeys
      · rw [hkeys]
        exact h.unique i.env
      · rw [hkeys]
        exact makeCredential_unique hp h (hg req hreq)
    | none => exact hafter.unique_owners hp h hreq
  · generalize (step P d i).2.keys.passkeys = records at hafter hr
    cases hafter with
    | fewer kept => exact h.records r (kept.subset hr)
    | added kept writes =>
      rcases List.mem_append.mp hr with hr | hr
      · exact h.records r (kept.subset hr)
      · rw [List.mem_singleton.mp hr]
        exact writes.accounted hp

/-- Where every record is live and lost nothing, the file is rewritten to the others. -/
theorem rewrite_live {hit : PasskeyRecord → Bool} {stray : Bytes} (hw : StorageWorks env)
    (hr : ∀ r ∈ k.passkeys, Storable r ∧ r.status = 1) :
    rewrite env stray (ofRecords k.passkeys) hit =
      (k.passkeys.any hit, ofRecords (k.passkeys.filter fun r => !hit r)) := by
  have hlive : ∀ r ∈ k.passkeys, (r.status == 1) = true := fun r h => by simp [(hr r h).2]
  have hany : (k.passkeys.any fun r => r.status == 1 && hit r) = k.passkeys.any hit := by
    refine Bool.eq_iff_iff.mpr ?_
    simp only [List.any_eq_true, Bool.and_eq_true]
    exact exists_congr fun r => and_congr_right fun h => and_iff_right (hlive r h)
  have hfilter : (k.passkeys.filter fun r => r.status == 1 && !hit r) =
      k.passkeys.filter fun r => !hit r := List.filter_congr fun r h => by rw [hlive r h, Bool.true_and]
  rw [rewrite_ofRecords hit k fun r h => (hr r h).1]
  unfold rewritePasskeys
  rw [hw.1, hw.2.1, hany, hfilter]
  cases ha : k.passkeys.any hit with
  | true => rfl
  | false =>
    have hall : (k.passkeys.filter fun r => !hit r) = k.passkeys :=
      List.filter_eq_self.mpr fun r h => by simpa using List.any_eq_false.mp ha r h
    rw [hall]
    rfl

theorem deletesExactly (h : FileAccounted P past d) : DeletesExactly d.keys := by
  intro env hw stray id
  have hr : ∀ r ∈ d.keys.passkeys, Storable r ∧ r.status = 1 :=
    fun r hr => ⟨(h.records r hr).1, (h.records r hr).2.1⟩
  exact ⟨rewrite_live hw hr, rewrite_live hw hr⟩

section Bench

open Bench

/-- Three registrations under one id around one under the hex of its hash. -/
def hashedBetween : List Input :=
  [⟨create site 1 true (-7), touchedEnv 1 60000 90⟩,
    ⟨create (hashSHA256 platform site) 1 true (-7), touchedEnv 2 60000 90⟩,
    ⟨create site 1 true (-7), touchedEnv 3 60000 90⟩, ⟨create site 1 true (-7), touchedEnv 4 60000 90⟩]

end Bench

end GoiKey
