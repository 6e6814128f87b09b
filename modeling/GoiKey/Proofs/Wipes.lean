import GoiKey.Model.Bench
import GoiKey.Proofs.CredentialActs

/-!
What a wipe ends. Both wipes remove the records; the secret that wraps the other
credentials is replaced by authenticatorReset alone.
-/

namespace GoiKey

variable {P : Platform} {env : Env} {d : Device} {i : Input} {past : History} {e : Entry} {cid : Str}

def Act.wipes : Act → Bool
  | .wiped => true
  | _ => false

def Act.creates (cid : Str) : Act → Bool
  | .created c .. => c == cid
  | _ => false

def Act.signer : Act → Option Str
  | .signed cid .. => some cid
  | _ => none

/-- What has happened since the latest wipe. -/
def sinceWipe (past : History) : History :=
  past.takeWhile fun e => !e.output.acts.any Act.wipes

def createdIn (past : History) (cid : Str) : Bool :=
  past.any fun e => e.output.acts.any (Act.creates cid)

/-- A credential that was ever created signs only if that was after the latest wipe. -/
def SignsUnwiped (past : History) (e : Entry) : Prop :=
  ∀ a ∈ e.output.acts, ∀ cid ∈ a.signer, createdIn past cid = true →
    createdIn (sinceWipe (e :: past)) cid = true

instance (past : History) (e : Entry) : Decidable (SignsUnwiped past e) :=
  inferInstanceAs (Decidable (∀ a ∈ e.output.acts, ∀ cid ∈ a.signer, _ → _))

def Event.serialCommand : Event → Option SerialCommand
  | .serial c => some c
  | _ => none

/-- The serial commands that wipe: FACTORY_RESET in a session, and the tenth wrong PIN. -/
def serialWipes (P : Platform) (env : Env) (d : Device) : SerialCommand → Bool
  | .factoryReset => d.serial.authenticated
  | .verifyPin pin => !d.serial.authenticated && (verifyPin P env d.pins pin).1 = .wiped
  | .updatePin currentPin _ =>
    d.serial.authenticated && (verifyPin P env d.pins currentPin).1 = .wiped
  | _ => false

/-- The credential ids that were wrapped. -/
def issuedIds (past : History) : List Bytes :=
  past.flatMap fun e => e.output.acts.filterMap Act.wrappedId

/-- The commands that use the secret. -/
def Event.usesSecret (e : Event) : Bool :=
  e.code == some 0x01 || e.code == some 0x02 || e.code == some 0x07 || e.code == some 0x08

/-- No id wrapped so far carries the tag of this secret. -/
def Unwraps (P : Platform) (past : History) (secret : Bytes) : Prop :=
  ∀ id ∈ issuedIds past, statelessTagOk P secret id = false

instance (past : History) (secret : Bytes) : Decidable (Unwraps P past secret) :=
  inferInstanceAs (Decidable (∀ id ∈ issuedIds past, _))

/-- The condition of a step: the secret can be read, a reset draws one that none
of the wrapped ids were made with, and a serial wipe leaves no such one in place. -/
structure SecretsTurned (P : Platform) (past : History) (d : Device) (i : Input) : Prop where
  nvs : i.event.usesSecret = true → i.env.nvsOpen = true
  reset : i.event.code = some 0x07 → Unwraps P past (i.env.draw .secret 32)
  serial : ∀ c ∈ i.event.serialCommand, serialWipes P i.env d c = true →
    ∀ secret ∈ d.keys.slSecret, Unwraps P past secret

instance (past : History) (d : Device) (i : Input) : Decidable (SecretsTurned P past d i) :=
  decidable_of_iff
    ((i.event.usesSecret = true → i.env.nvsOpen = true) ∧
      (i.event.code = some 0x07 → Unwraps P past (i.env.draw .secret 32)) ∧
      (∀ c ∈ i.event.serialCommand, serialWipes P i.env d c = true →
        ∀ secret ∈ d.keys.slSecret, Unwraps P past secret))
    ⟨fun h => ⟨h.1, h.2.1, h.2.2⟩, fun h => ⟨h.nvs, h.reset, h.serial⟩⟩

/-- Only what was created since the latest wipe can be opened: its records are
all there are, and of the wrapped ids no others carry the tag of the secret. -/
structure OnlyUnwiped (P : Platform) (past : History) (d : Device) : Prop where
  genuine : Trace.Genuine (step P) past
  records : ∀ r ∈ d.keys.passkeys, createdIn (sinceWipe past) r.cid = true
  unset : d.keys.slSecret = none → issuedIds past = []
  wrapped : ∀ secret ∈ d.keys.slSecret, ∀ id ∈ issuedIds past,
    createdIn (sinceWipe past) (toHex id) = true ∨ statelessTagOk P secret id = false

/-! Looking back. -/

theorem any_wipes {acts : List Act} (h : acts.any Act.wipes = true) : .wiped ∈ acts := by
  obtain ⟨a, ha, hw⟩ := List.any_eq_true.mp h
  cases a <;> first | exact ha | cases hw

theorem createdIn_sinceWipe_cons (hw : e.output.acts.any Act.wipes = false) :
    createdIn (sinceWipe (e :: past)) cid
      = (e.output.acts.any (Act.creates cid) || createdIn (sinceWipe past) cid) := by
  simp [sinceWipe, createdIn, hw]

theorem creates_of_created {acts : List Act} {rp : RelyingParty} {algId : Int} {pub : Bytes}
    (h : .created cid rp algId pub ∈ acts) : acts.any (Act.creates cid) = true :=
  List.any_eq_true.mpr ⟨_, h, by simp [Act.creates]⟩

theorem mem_issuedIds {id : Bytes} :
    id ∈ issuedIds past ↔ ∃ e ∈ past, ∃ secret, .issued secret id ∈ e.output.acts := by
  simp only [issuedIds, List.mem_flatMap, List.mem_filterMap]
  constructor
  · rintro ⟨e, he, a, ha, hid⟩
    cases a <;> simp only [Act.wrappedId, reduceCtorEq] at hid
    cases hid
    exact ⟨e, he, _, ha⟩
  · rintro ⟨e, he, secret, ha⟩
    exact ⟨e, he, _, ha, rfl⟩

theorem issuedIds_cons : issuedIds (e :: past)
    = e.output.acts.filterMap Act.wrappedId ++ issuedIds past := rfl

/-- The two resets and the serial line, and nothing that creates or signs. -/
theorem wiped_event (h : .wiped ∈ (step P d i).1.acts) :
    i.event.code = some 0x07 ∨ ∃ c, i.event = .serial c := by
  refine Event.kinds_cases ?_ ?_ ?_ ?_ (step_kinds P d i _ h).1
  · intro code hc hk
    rw [hc]
    unfold commandKinds at hk
    split at hk <;> simp [fingerKinds, Act.kind] at hk
    exact .inl rfl
  · intro data _ hk
    simp [u2fKinds, fingerKinds, Act.kind] at hk
  · intro c he _
    exact .inr ⟨c, he⟩
  · intro _ hk
    cases hk

theorem unwiped_of_event (h : i.event.code ≠ some 0x07) (hs : ∀ c, i.event ≠ .serial c) :
    (step P d i).1.acts.any Act.wipes = false := by
  rw [Bool.eq_false_iff]
  intro hw
  rcases wiped_event (any_wipes hw) with hc | ⟨c, he⟩
  · exact h hc
  · exact hs c he

theorem unwiped_of_code {code : UInt8} (hc : i.event.code = some code) (h : code ≠ 0x07) :
    (step P d i).1.acts.any Act.wipes = false := by
  refine unwiped_of_event (by rw [hc]; simpa using h) ?_
  intro c he
  rw [he] at hc
  cases hc

/-! What a wipe leaves. -/

theorem checkPin_wiped {pin : Str} {accepted : Device → SerialResult}
    (ha : ∀ d, (accepted d).acts = [])
    (h : .wiped ∈ (checkPin P env d pin accepted).acts) :
    (verifyPin P env d.pins pin).1 = .wiped ∧
      (checkPin P env d pin accepted).dev.keys = { d.keys with passkeys := [] } := by
  unfold checkPin at h ⊢
  rcases hv : verifyPin P env d.pins pin with ⟨verdict, p⟩
  rw [hv] at h
  cases verdict with
  | unreadable => simp at h
  | accepted => simp [ha] at h
  | wrong n => simp at h
  | wiped => exact ⟨rfl, rfl⟩

theorem serialCommand_wiped {c : SerialCommand} (h : .wiped ∈ (serialCommand P env d c).acts) :
    serialWipes P env d c = true ∧
      (serialCommand P env d c).dev.keys = { d.keys with passkeys := [] } := by
  refine serialCommand_cases (Q := fun r => .wiped ∈ r.acts →
    serialWipes P env d c = true ∧ r.dev.keys = { d.keys with passkeys := [] })
    ?_ ?_ ?_ ?_ ?_ ?_ ?_ ?_ h
  · intro ms v s alg dflt h
    cases h
  · intro ms pin p _ _ _ h
    cases h
  · intro pin hc hauth h
    obtain ⟨hv, hk⟩ := checkPin_wiped (fun _ => rfl) h
    exact ⟨by simp [serialWipes, hc, hauth, hv], hk⟩
  · intro currentPin newPin hc hauth h
    obtain ⟨hv, hk⟩ := checkPin_wiped (replacePin_acts newPin) h
    exact ⟨by simp [serialWipes, hc, hauth, hv], hk⟩
  · intro ms site k _ _ h
    obtain ⟨r, -, hr⟩ := List.mem_map.mp h
    cases hr
  · intro ms _ h
    cases h
  · intro ms id _ _ h
    cases h
  · intro ms hc hauth _
    exact ⟨by simp [serialWipes, hc, hauth], rfl⟩

theorem authenticatorReset_wiped (h : .wiped ∈ (authenticatorReset env d).1.acts) :
    (authenticatorReset env d).2.keys
      = rotateStatelessMasterSecret env { d.keys with passkeys := [] } := by
  unfold authenticatorReset at h ⊢
  split at h
  · simp at h
  · simp at h
  · rfl

/-- After a wipe there are no records, and the secret is one that opens no id
wrapped so far. -/
theorem step_wiped (hg : SecretsTurned P past d i) (h : .wiped ∈ (step P d i).1.acts) :
    (step P d i).2.keys.passkeys = [] ∧
      ∀ secret ∈ (step P d i).2.keys.slSecret, Unwraps P past secret := by
  rcases wiped_event h with hc | ⟨c, he⟩
  · have hn : i.env.nvsOpen = true := hg.nvs (by rw [Event.usesSecret, hc]; rfl)
    obtain ⟨body, -, ⟨reply, hs⟩ | ⟨-, hs⟩⟩ := step_code (P := P) (d := d) hc <;> rw [hs] at h ⊢
    · cases h
    · have hkeys : (cborCommand P i.env d 0x07 body).2.keys
          = { passkeys := [], slSecret := some (i.env.draw .secret 32) } := by
        have hreset := authenticatorReset_wiped h
        rwa [rotateStatelessMasterSecret, if_pos hn] at hreset
      rw [hkeys]
      refine ⟨rfl, ?_⟩
      rintro secret ⟨⟩
      exact hg.reset hc
  · have hs : step P d i = (serialCommand P i.env d c).run := by rw [step, he]
    rw [hs] at h ⊢
    obtain ⟨hw, hk⟩ := serialCommand_wiped h
    have hk : (serialCommand P i.env d c).run.2.keys = { d.keys with passkeys := [] } := hk
    rw [hk]
    exact ⟨rfl, hg.serial c (by rw [he]; rfl) hw⟩

/-! One step. -/

theorem records_step (h : OnlyUnwiped P past d) (hg : SecretsTurned P past d i) :
    ∀ r ∈ (step P d i).2.keys.passkeys,
      createdIn (sinceWipe (Trace.entry (step P) d i :: past)) r.cid = true := by
  intro r hr
  cases hw : (step P d i).1.acts.any Act.wipes with
  | true =>
    rw [(step_wiped hg (any_wipes hw)).1] at hr
    cases hr
  | false =>
    rw [createdIn_sinceWipe_cons hw, Bool.or_eq_true]
    rcases (step_keys P d i).records r hr with hold | ⟨c, rp, key, hnew⟩
    · exact .inr (h.records r hold)
    · exact .inl (creates_of_created hnew.created)

/-- A step that wraps an id has the secret to do so. -/
theorem issued_secret {secret id : Bytes} (hg : SecretsTurned P past d i)
    (h : .issued secret id ∈ (step P d i).1.acts) : (step P d i).2.keys.slSecret ≠ none := by
  obtain ⟨hc, hkeys, -⟩ := step_issued h
  have hn : i.env.nvsOpen = true := hg.nvs (by rw [Event.usesSecret, hc]; rfl)
  rw [hkeys]
  unfold getStatelessMasterSecret
  rw [hn]
  cases hs : d.keys.slSecret <;> simp [hs]

theorem unset_step (h : OnlyUnwiped P past d) (hg : SecretsTurned P past d i)
    (hn : (step P d i).2.keys.slSecret = none) :
    issuedIds (Trace.entry (step P) d i :: past) = [] := by
  have hold : issuedIds past = [] := by
    rcases (step_keys P d i).secret with hk | ⟨hk, -⟩
    · exact h.unset (hk ▸ hn)
    · rw [hk] at hn
      cases hn
  rw [issuedIds_cons, hold, List.append_nil, List.filterMap_eq_nil_iff]
  intro a ha
  cases a with
  | issued secret id => exact absurd hn (issued_secret hg ha)
  | _ => rfl

theorem wrapped_step (h : OnlyUnwiped P past d) (hg : SecretsTurned P past d i) :
    ∀ secret ∈ (step P d i).2.keys.slSecret, ∀ id ∈ issuedIds (Trace.entry (step P) d i :: past),
      createdIn (sinceWipe (Trace.entry (step P) d i :: past)) (toHex id) = true ∨
        statelessTagOk P secret id = false := by
  intro secret hs id hid
  obtain ⟨e, he, s, hissued⟩ := mem_issuedIds.mp hid
  rcases List.mem_cons.mp he with rfl | he
  · obtain ⟨hc, -, req, key, hnew⟩ := step_issued hissued
    have hw : (step P d i).1.acts.any Act.wipes = false := unwiped_of_code hc (by decide)
    rw [createdIn_sinceWipe_cons hw, Bool.or_eq_true]
    exact .inl (.inl (creates_of_created hnew.created))
  · have hid : id ∈ issuedIds past := mem_issuedIds.mpr ⟨e, he, s, hissued⟩
    cases hw : (step P d i).1.acts.any Act.wipes with
    | true => exact .inr ((step_wiped hg (any_wipes hw)).2 secret hs id hid)
    | false =>
      rw [createdIn_sinceWipe_cons hw, Bool.or_eq_true]
      rcases (step_keys P d i).secret with hk | ⟨hk, hnone | hc⟩
      · rcases h.wrapped secret (hk ▸ hs) id hid with hcreated | htag
        · exact .inl (.inr hcreated)
        · exact .inr htag
      · rw [h.unset hnone] at hid
        cases hid
      · rw [hk] at hs
        cases hs
        exact .inr (hg.reset hc id hid)

theorem onlyUnwiped_step (h : OnlyUnwiped P past d) (hg : SecretsTurned P past d i) :
    OnlyUnwiped P (Trace.entry (step P) d i :: past) (step P d i).2 where
  genuine := h.genuine.cons d i
  records := records_step h hg
  unset := unset_step h hg
  wrapped := wrapped_step h hg

/-- An id that opens under the secret in use is one created since the latest wipe,
if it was created at all. -/
theorem unwrapped_unwiped {k : Keystore} {rpId : Str} {c : StoredCredential}
    (h : OnlyUnwiped P past d) (hn : env.nvsOpen = true) (hens : Ensured env d.keys k)
    (hu : Unwrapped P env k (binCredId cid) rpId c) (hcreated : createdIn past cid = true) :
    createdIn (sinceWipe past) cid = true := by
  obtain ⟨e, he, hc⟩ := List.any_eq_true.mp hcreated
  obtain ⟨a, ha, hcid⟩ := List.any_eq_true.mp hc
  cases a <;> simp only [Act.creates, Bool.false_eq_true, beq_iff_eq] at hcid
  subst hcid
  rw [h.genuine e he] at ha
  rcases step_created ha with hlen | ⟨secret, id, rfl, hissued⟩
  · have hlong := hu.long
    rw [binCredId_length, hlen] at hlong
    omega
  · have hid : id ∈ issuedIds past :=
      mem_issuedIds.mpr ⟨e, he, secret, by rw [h.genuine e he]; exact hissued⟩
    have htag := hu.tagged
    rw [getStatelessMasterSecret_ensured hens, binCredId_toHex] at htag
    cases hs : d.keys.slSecret with
    | none =>
      rw [h.unset hs] at hid
      cases hid
    | some s =>
      have hsecret : (getStatelessMasterSecret env d.keys).1 = s := by
        simp [getStatelessMasterSecret, hn, hs]
      rw [hsecret] at htag
      rcases h.wrapped s hs id hid with hyes | hno
      · exact hyes
      · rw [htag] at hno
        cases hno

theorem getPasskeyRecord_unwiped {c : StoredCredential} (h : OnlyUnwiped P past d)
    (hr : getPasskeyRecord P env d.keys cid = some c) : createdIn (sinceWipe past) cid = true := by
  obtain ⟨r, hmem, rfl, -⟩ := getPasskeyRecord_some hr
  exact h.records r hmem

theorem signsUnwiped_entry (h : OnlyUnwiped P past d) (hg : SecretsTurned P past d i) :
    SignsUnwiped past (Trace.entry (step P) d i) := by
  intro a ha cid hcid hcreated
  cases a <;> simp only [Act.signer, Option.mem_def, reduceCtorEq, Option.some.injEq] at hcid
  subst hcid
  have hw : (step P d i).1.acts.any Act.wipes = false := by
    rcases signed_event (step_kinds P d i _ ha).1 with hc | hc | hc | ⟨data, he⟩
    · exact unwiped_of_code hc (by decide)
    · exact unwiped_of_code hc (by decide)
    · exact unwiped_of_code hc (by decide)
    · exact unwiped_of_event (by rw [he]; simp [Event.code]) (by rw [he]; simp)
  rw [createdIn_sinceWipe_cons hw, Bool.or_eq_true]
  cases step_signed ha with
  | registration made created sign => exact .inl (creates_of_created created)
  | u2f event ins signs record party sign => exact .inr (getPasskeyRecord_unwiped h record)
  | assertion code keys listed opened sign =>
    have hn : i.env.nvsOpen = true := by
      refine hg.nvs ?_
      rcases code with hc | hc <;> rw [Event.usesSecret, hc] <;> rfl
    cases resolveCredential_some opened with
    | wrapped hu => exact .inr (unwrapped_unwiped h hn keys hu hcreated)
    | record found =>
      rw [getPasskeyRecord_ensured keys] at found
      exact .inr (getPasskeyRecord_unwiped h found)

section Bench

open Bench

/-- A wrapped credential, a wipe, and an assertion with what was wrapped. -/
def wrapThenWipe (wipe : List Input) : List Input :=
  let created := step platform initial ⟨create site 1 false (-7), touchedEnv 1 60000 90⟩
  ⟨create site 1 false (-7), touchedEnv 1 60000 90⟩ :: (wipe ++
    [⟨assertion site (created.1.acts.filterMap Act.wrappedId), touchedEnv 3 90000 90⟩])

end Bench

end GoiKey
