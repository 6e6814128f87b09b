import GoiKey.Model.Bench
import GoiKey.Proofs.Listing
import GoiKey.Proofs.Parsing
import GoiKey.Proofs.SigningKeys

/-!
The algorithm a key signs with. It travels in the head of a record and in a
wrapped id, and is a literal in U2F.
-/

namespace GoiKey

variable {P : Platform} {env : Env} {d : Device} {i : Input} {past : History} {cid : Str}
variable {verify : Int → Bytes → Bytes → Bytes → Bool}

structure Signature where
  cid : Str
  algId : Int
  msg : Bytes
  sig : Bytes
  deriving DecidableEq, Repr

def Act.signature : Act → Option Signature
  | .signed cid _ algId msg sig => some ⟨cid, algId, msg, sig⟩
  | _ => none

def Act.registers (cid : Str) : Act → Option (Int × Bytes)
  | .created c _ algId publicKey => if c = cid then some (algId, publicKey) else none
  | _ => none

/-- The algorithms and public keys a credential was registered with. -/
def registeredKeys (past : History) (cid : Str) : List (Int × Bytes) :=
  past.flatMap fun e => e.output.acts.filterMap (Act.registers cid)

/-- A signature is made with the algorithm of a registration of its credential,
and verifies under the public key of that registration. -/
def SignsAsRegistered (verify : Int → Bytes → Bytes → Bytes → Bool) (past : History) (e : Entry) :
    Prop :=
  ∀ a ∈ e.output.acts, ∀ s ∈ a.signature, ∃ k ∈ registeredKeys (e :: past) s.cid,
    k.1 = s.algId ∧ verify k.1 k.2 s.msg s.sig = true

instance (past : History) (e : Entry) : Decidable (SignsAsRegistered verify past e) :=
  inferInstanceAs (Decidable (∀ a ∈ e.output.acts, ∀ s ∈ a.signature,
    ∃ k ∈ registeredKeys (e :: past) s.cid, _))

def Event.u2fData : Event → Option Bytes
  | .u2f data => some data
  | _ => none

/-- A U2F authentication that is to sign names a record of its party only when
that is an ES256 one. -/
def U2fNamesEs256 (P : Platform) (d : Device) (i : Input) : Prop :=
  ∀ data ∈ i.event.u2fData, byteAt data 1 = 0x02 → byteAt data 2 ≠ 0x07 →
    ∀ c ∈ getPasskeyRecord P i.env d.keys (toHex (u2fKeyHandle i.env data)),
      rpFieldMatchesHash P c.rpId (toHex (u2fAppId i.env data)) = true → c.algId = -7

/-- The credential ids an assertion may try to unwrap. -/
def presentedIds (d : Device) (i : Input) : List Bytes :=
  (assertionRequest i).elim [] GetAssertionRequest.allowCredentialIds ++
    d.next.creds.map binCredId

def issuedUnder (past : History) (secret id : Bytes) : Bool :=
  past.any fun e => .issued secret id ∈ e.output.acts

/-- An id that carries the tag of the secret was wrapped under it. -/
def Unforged (P : Platform) (past : History) (d : Device) (i : Input) : Prop :=
  ∀ id ∈ presentedIds d i,
    statelessTagOk P (getStatelessMasterSecret i.env d.keys).1 id = true →
      issuedUnder past (getStatelessMasterSecret i.env d.keys).1 id = true

/-- The condition of a step: U2F keeps to ES256 credentials, the user names of
records are one line, and no wrapped id is forged. -/
structure KeysKept (P : Platform) (past : History) (d : Device) (i : Input) : Prop where
  u2f : U2fNamesEs256 P d i
  names : ∀ req ∈ registrationRequest d i, residentKey req = true → newline ∉ req.userName
  unforged : Unforged P past d i

instance (past : History) (d : Device) (i : Input) : Decidable (KeysKept P past d i) :=
  decidable_of_iff
    ((∀ data ∈ i.event.u2fData, byteAt data 1 = 0x02 → byteAt data 2 ≠ 0x07 →
        ∀ c ∈ getPasskeyRecord P i.env d.keys (toHex (u2fKeyHandle i.env data)),
          rpFieldMatchesHash P c.rpId (toHex (u2fAppId i.env data)) = true → c.algId = -7) ∧
      (∀ req ∈ registrationRequest d i, residentKey req = true → newline ∉ req.userName) ∧
      (∀ id ∈ presentedIds d i,
        statelessTagOk P (getStatelessMasterSecret i.env d.keys).1 id = true →
          issuedUnder past (getStatelessMasterSecret i.env d.keys).1 id = true))
    ⟨fun h => ⟨h.1, h.2.1, h.2.2⟩, fun h => ⟨h.u2f, h.names, h.unforged⟩⟩

/-- Every record goes back to a registration of the run, written so that it opens
again, and the ids still to be asserted are written in hex. -/
structure KeysAccounted (P : Platform) (past : History) (d : Device) : Prop where
  genuine : Trace.Genuine (step P) past
  records : ∀ r ∈ d.keys.passkeys, ∃ e ∈ past, ∃ c rp key,
    Registered P e.before e.input e.output.acts r c rp key ∧ Writable c
  next : ∀ cid ∈ d.next.creds, ∃ id : Bytes, cid = toHex id

/-! Keeping the records accounted for. -/

theorem Registered.writable {acts : List Act} {r : PasskeyRecord} {c : StoredCredential}
    {rp : RelyingParty} {key : KeyPair} (h : Registered P d i acts r c rp key)
    (hg : KeysKept P past d i) : Writable c where
  userIdHex := by
    obtain ⟨id, hid⟩ := h.user
    rw [hid]
    exact notMem_toHex_separators id
  userName := by
    rcases h.name with hn | ⟨req, hreq, hres, hn⟩
    · simp [hn]
    · rw [hn]
      exact ⟨hg.names req hreq hres, (registrationRequest_buffered hreq).userName.notMem⟩
  privateKeyHex := by
    obtain ⟨b, hb⟩ := (madeKey_origin h.made).hex
    rw [h.keyHex, hb]
    exact notMem_toHex_separators b

theorem keysAccounted_records (h : KeysAccounted P past d) (hg : KeysKept P past d i) :
    ∀ r ∈ (step P d i).2.keys.passkeys, ∃ e ∈ Trace.entry (step P) d i :: past, ∃ c rp key,
      Registered P e.before e.input e.output.acts r c rp key ∧ Writable c := by
  intro r hr
  rcases (step_keys P d i).records r hr with hold | ⟨c, rp, key, hnew⟩
  · obtain ⟨e, he, hreg⟩ := h.records r hold
    exact ⟨e, List.mem_cons_of_mem _ he, hreg⟩
  · exact ⟨_, List.mem_cons_self, c, rp, key, hnew, hnew.writable hg⟩

/-- What a request lists is written in hex. -/
theorem Matched.hex {rpId : Str} {ids : List Bytes} (h : KeysAccounted P past d)
    (hm : Matched P env d.keys rpId ids cid) : ∃ id : Bytes, cid = toHex id := by
  cases hm with
  | wrapped mem unwrapped => exact ⟨_, rfl⟩
  | allowed mem record party => exact ⟨_, rfl⟩
  | found mem party =>
    obtain ⟨e, -, c, rp, key, hreg, -⟩ := h.records _ mem
    obtain ⟨id, -, hid⟩ := hreg.cid
    exact ⟨id, hid⟩

theorem keysAccounted_step (h : KeysAccounted P past d) (hg : KeysKept P past d i) :
    KeysAccounted P (Trace.entry (step P) d i :: past) (step P d i).2 where
  genuine := h.genuine.cons d i
  records := keysAccounted_records h hg
  next := by
    intro cid hcid
    rcases step_creds P d i hcid with ⟨hold, -⟩ | ⟨req, -, -, hm⟩
    · exact h.next cid hold
    · exact hm.hex h

/-! Opening a credential. -/

/-- A key that is the private half of a registration of the credential. -/
def KeyOf (P : Platform) (past : History) (cid : Str) (algId : Int) (hex : Str) : Prop :=
  ∃ key, (algId, key.publicKey) ∈ registeredKeys past cid ∧ KeyOrigin P algId key ∧
    key.privateKeyHex = hex

theorem mem_registeredKeys {e : Entry} {rp : RelyingParty} {algId : Int} {pub : Bytes}
    (he : e ∈ past) (h : .created cid rp algId pub ∈ e.output.acts) :
    (algId, pub) ∈ registeredKeys past cid :=
  List.mem_flatMap.mpr ⟨e, he, List.mem_filterMap.mpr ⟨_, h, by simp [Act.registers]⟩⟩

/-- A record opens to the key and the algorithm it was registered with. -/
theorem keyOf_record {c : StoredCredential} (hp : StorageSound P) (h : KeysAccounted P past d)
    (hr : getPasskeyRecord P env d.keys cid = some c) : KeyOf P past cid c.algId c.privateKeyHex := by
  obtain ⟨r, hmem, rfl, hopen⟩ := getPasskeyRecord_some hr
  obtain ⟨e, he, c₀, rp, key, hreg, hw⟩ := h.records r hmem
  have halg : r.algId = c₀.algId := by rw [hreg.record]; rfl
  have hdecrypt : decryptRecord P env r = [] ∨ decryptRecord P env r = cstr (recordPayload c₀) := by
    rw [decryptRecord, hreg.record]
    exact decrypt_encrypt hp
  rcases hdecrypt with hempty | hplain
  · rw [hempty] at hopen
    cases hopen
  · rw [hplain] at hopen
    obtain ⟨c', hc', hkey, halg'⟩ := parsePayload_recordPayload r.rp r.algId hw
    rw [hc', Option.some.injEq] at hopen
    subst hopen
    rw [halg', halg, hkey, hreg.keyHex]
    exact ⟨key, mem_registeredKeys he hreg.created, madeKey_origin hreg.made, rfl⟩

/-- A wrapped id that nobody forged opens to the key and the algorithm it was
registered with. -/
theorem keyOf_unwrapped {id : Bytes} {rpId : Str} {c : StoredCredential} (hp : StorageSound P)
    (hs : SignersSound P verify) (h : KeysAccounted P past d)
    (hi : issuedUnder past (getStatelessMasterSecret env d.keys).1 id = true)
    (hu : Unwrapped P env d.keys id rpId c) : KeyOf P past (toHex id) c.algId c.privateKeyHex := by
  obtain ⟨e, he, hissued⟩ := List.any_eq_true.mp hi
  have hissued := of_decide_eq_true hissued
  rw [h.genuine e he] at hissued
  obtain ⟨-, -, req, key, hnew⟩ := step_issued hissued
  have horigin := madeKey_origin hnew.made
  have halg : req.selectedAlgId ≠ -257 ∧ isMlDsa req.selectedAlgId = false := by
    have hres := hnew.wrappable
    simp only [residentKey, Bool.or_eq_false_iff, beq_eq_false_iff_ne] at hres
    exact ⟨hres.1.2, hres.2⟩
  obtain ⟨b, hb, hlen, hfit⟩ := horigin.wrappable hs halg
  have hwrapped := hnew.wrapped
  have hopen := hu.opened
  rw [hb] at hwrapped
  rw [hnew.secret] at hopen
  obtain ⟨hkey, hcalg, -, -⟩ := unwrap_wrapped hp hlen hfit hwrapped hopen
  have hcreated := hnew.created
  rw [hcalg, hkey, ← hb]
  have hentry : (step P e.before e.input).1.acts = e.output.acts := by
    rw [h.genuine e he]
    rfl
  rw [hentry] at hcreated
  exact ⟨key, mem_registeredKeys he hcreated, horigin, rfl⟩

/-! Signing. -/

theorem KeyOf.verifies {algId : Int} {hex : Str} {msg sig : Bytes} (hs : SignersSound P verify)
    (h : KeyOf P past cid algId hex) (hsig : generateAlgSignature P env algId hex msg = some sig) :
    ∃ k ∈ registeredKeys past cid, k.1 = algId ∧ verify k.1 k.2 msg sig = true := by
  obtain ⟨key, hmem, horigin, rfl⟩ := h
  exact ⟨_, hmem, rfl, horigin.verifies hs hsig⟩

/-- The id an assertion unwraps was presented to the step, in hex. -/
theorem presented_of_listed {rpId : Str} {c : StoredCredential} (h : KeysAccounted P past d)
    (hu : Unwrapped P i.env d.keys (binCredId cid) rpId c)
    (hl : .listed cid (.rpId rpId) ∈ (step P d i).1.acts ∨ (cid ∈ d.next.creds ∧ d.next.rpId = rpId))
    (hc : i.event.code = some 0x02 ∨ i.event.code = some 0x08) :
    ∃ id ∈ presentedIds d i, cid = toHex id := by
  rcases hl with hl | ⟨hl, -⟩
  · have hg : i.event.code = some 0x02 := by
      rcases hc with hc | hc
      · exact hc
      · have hk := (step_kinds P d i _ hl).1
        obtain ⟨body, he, -⟩ := step_code (P := P) (d := d) hc
        rw [he] at hk
        simp [Event.kinds, commandKinds, Act.kind] at hk
    rcases step_getAssertion (P := P) (d := d) hg with ⟨reply, hs⟩ | ⟨req, hreq, hs⟩ <;> rw [hs] at hl
    · cases hl
    · obtain ⟨-, hm⟩ := getAssertion_listed hl
      have hreq : assertionRequest i = some req := hreq
      cases hm with
      | wrapped mem unwrapped => exact ⟨_, by simp [presentedIds, hreq, mem], rfl⟩
      | allowed mem record party => exact ⟨_, by simp [presentedIds, hreq, mem], rfl⟩
      | found mem party =>
        obtain ⟨e, -, c₀, rp, key, hregistered, -⟩ := h.records _ mem
        obtain ⟨id, hid, hcid⟩ := hregistered.cid
        have hlong := hu.long
        rw [hcid, binCredId_toHex, hid] at hlong
        omega
  · obtain ⟨id, rfl⟩ := h.next cid hl
    refine ⟨id, List.mem_append_right _ (List.mem_map.mpr ⟨_, hl, binCredId_toHex id⟩), rfl⟩

theorem signsAsRegistered_entry (hp : StorageSound P) (hs : SignersSound P verify)
    (h : KeysAccounted P past d) (hg : KeysKept P past d i) :
    SignsAsRegistered verify past (Trace.entry (step P) d i) := by
  intro a ha s hsig
  cases a <;> simp only [Act.signature, Option.mem_def, reduceCtorEq, Option.some.injEq] at hsig
  subst hsig
  have older : ∀ {cid algId hex msg sig}, KeyOf P past cid algId hex →
      generateAlgSignature P i.env algId hex msg = some sig →
      ∃ k ∈ registeredKeys (Trace.entry (step P) d i :: past) cid,
        k.1 = algId ∧ verify k.1 k.2 msg sig = true := by
    intro cid algId hex msg sig hk hsign
    obtain ⟨k, hmem, hv⟩ := hk.verifies hs hsign
    exact ⟨k, List.mem_append_right _ hmem, hv⟩
  cases step_signed ha with
  | registration made created sign =>
    exact ⟨_, mem_registeredKeys List.mem_cons_self created, rfl, (madeKey_origin made).verifies hs sign⟩
  | u2f event ins signs record party sign =>
    have halg := hg.u2f _ (by rw [event]; rfl) ins signs _ record party
    have hk := keyOf_record hp h record
    rw [halg] at hk
    exact older hk sign
  | assertion code keys listed opened sign =>
    cases resolveCredential_some opened with
    | wrapped hu =>
      have hu := hu.ensured keys
      obtain ⟨id, hpresented, rfl⟩ := presented_of_listed h hu listed code
      rw [binCredId_toHex] at hu
      exact older (keyOf_unwrapped hp hs h (hg.unforged id hpresented hu.tagged) hu) sign
    | record found =>
      rw [getPasskeyRecord_ensured keys] at found
      exact older (keyOf_record hp h found) sign

/-- In a run whose steps meet the condition, every signature verifies under a
public key its credential was registered with, for the algorithm of that key. -/
theorem signatures_verify (P : Platform) (verify : Int → Bytes → Bytes → Bytes → Bool)
    (inputs : List Input) (hp : StorageSound P) (hs : SignersSound P verify)
    (hg : Trace.Guarded (step P) (KeysKept P) initial inputs) :
    Trace.Always (SignsAsRegistered verify) (run P inputs) := by
  refine Trace.always (I := KeysAccounted P) ?_ ?_ ?_ hg
  · intro past d i h hg
    exact keysAccounted_step h hg
  · intro past d i h hg
    exact signsAsRegistered_entry hp hs h hg
  · exact ⟨Trace.genuine_nil, by simp [initial], by simp [initial]⟩

section Bench

open Bench

theorem take_padTo {m n : Nat} (h : m ≤ n) (b : Bytes) : (padTo n b).take m = padTo m b := by
  rw [padTo, padTo, List.take_take, min_eq_left h]
  simp [List.take_append, zeros]
  omega

theorem signersSound_bench : SignersSound platform verifies where
  p256 := by
    intro seed priv pub h
    cases h
    refine ⟨padTo_length _ _, ?_⟩
    intro msg rnd r s hsign
    cases hsign
    have htake : (point (scalar seed)).tail.take 2 = (scalar seed).take 2 := by
      simp [point, List.take_append, scalar]
    simp [verifies, htake, platform]
  fpgaP256 := by
    intro seed blob pub h
    cases h
  ed25519 := by
    intro priv msg _
    simp [verifies, platform]
  fpgaEd25519 := by
    intro seed blob pub h
    cases h
  rsa := by
    intro seed der n h
    cases h
    refine ⟨by simp [fpgaRsaBlobLen], ?_⟩
    intro msg rnd sig hsign
    cases hsign
    have htake : (padTo 256 seed ++ rsaExponent).take 224 = padTo 224 (padTo 1190 seed) := by
      have hleft : (padTo 256 seed ++ rsaExponent).take 224 = padTo 224 seed := by
        rw [List.take_append_of_le_length (by simp), take_padTo (by decide)]
      have hright : padTo 224 (padTo 1190 seed) = padTo 224 seed := by
        have hlong : 224 ≤ (padTo 1190 seed).length := by simp
        change (padTo 1190 seed ++ zeros 224).take 224 = _
        rw [List.take_append_of_le_length hlong, take_padTo (by decide)]
      rw [hleft, hright]
    simp [verifies, htake, platform]
  fpgaRsa := by
    intro seed blob n h
    cases h
  mldsa := by
    intro algId seed sk pk ha h
    cases h
    refine ⟨padTo_length _ _, ?_⟩
    intro msg rnd sig hsign
    cases hsign
    have hle : mldsaPublicLen (mldsaParameterSet algId) ≤ mldsaSecretLen (mldsaParameterSet algId) := by
      rcases isMlDsa_iff.mp ha with rfl | rfl | rfl <;> decide
    have hne : algId ≠ -7 ∧ algId ≠ -8 ∧ algId ≠ -257 := by
      have := isMlDsa_iff.mp ha
      omega
    rw [verifies, if_neg hne.1, if_neg hne.2.1, if_neg hne.2.2]
    simp only
    rw [List.take_append_of_le_length (by simpa using hle), take_padTo hle]
    simp
  fpgaMldsa := by
    intro algId seed blob pk _ h
    cases h

/-- A record and a wrapped credential of different algorithms, each used. -/
def twoAlgorithms : List Input :=
  let wrapped := step platform initial ⟨create site 2 false (-8), touchedEnv 2 60000 90⟩
  [⟨create site 1 true (-7), touchedEnv 1 60000 90⟩,
    ⟨authenticate (hash site) (List.replicate 16 1), touchedEnv 1 60000 90⟩,
    ⟨create site 2 false (-8), touchedEnv 2 60000 90⟩,
    ⟨assertion site (wrapped.1.acts.filterMap Act.wrappedId), touchedEnv 3 60000 90⟩]

theorem signatures_verify_bench :
    Trace.Always (SignsAsRegistered verifies) (run platform twoAlgorithms) :=
  signatures_verify platform verifies twoAlgorithms storageSound_bench signersSound_bench
    (by decide +kernel)

/-- U2F signs with the key of an Ed25519 credential as if it were one for ES256. -/
theorem authenticate_ed25519_as_es256 : ¬ Trace.Always (SignsAsRegistered verifies) (run platform
    [⟨create site 1 true (-8), touchedEnv 1 60000 90⟩,
      ⟨authenticate (hash site) (List.replicate 16 1), touchedEnv 1 60000 90⟩]) := by
  decide +kernel

end Bench

end GoiKey
