import GoiKey.Model.Bench
import GoiKey.Proofs.Matches

/-!
What the management commands ask for before they change what is stored. None of
them compares a pinUvAuthParam with anything; a match counts while it is cached.
-/

namespace GoiKey

variable {P : Platform} {env : Env} {d : Device} {i : Input} {past : History}

/-- The command wrote over what it manages. -/
def ChangesStored (code : UInt8) (d d' : Device) : Prop :=
  match code with
  | 0x0A | 0x41 => d'.keys ≠ d.keys
  | 0x0D => d'.pins ≠ d.pins
  | 0x09 | 0x40 => d'.bio ≠ d.bio
  | 0x0C => d'.blob.stored ≠ d.blob.stored
  | _ => False

instance (code : UInt8) (d d' : Device) : Decidable (ChangesStored code d d') := by
  unfold ChangesStored
  split <;> infer_instance

/-- The command checked a pinUvAuthParam or matched a finger, or there is a
cached match. -/
def Authorized (past : History) (e : Entry) : Bool :=
  e.output.acts.any (fun a => a.kind = .pinUvAuthParamChecked) || userMatched past e

/-- A large-blob command that was let through with a first fragment: the only one
that looks at a finger. -/
def takesFirstFragment (e : Entry) : Bool :=
  e.input.event.code = some 0x0C && e.output.acts.any fun a => a.kind ∈ fingerKinds

/-- Whether the command of the latest first fragment was authorized. -/
def firstFragmentAuthorized : History → Option Bool :=
  Trace.latest fun past e => if takesFirstFragment e then some (Authorized past e) else none

/-- A change of what is stored comes with an authorization, for a large blob that
of its first fragment. -/
def ChangesAuthorized (past : History) (e : Entry) : Prop :=
  ∀ code ∈ e.input.event.code, ChangesStored code e.before e.after →
    if code = 0x0C then firstFragmentAuthorized (e :: past) = some true
    else Authorized past e = true

instance (past : History) (e : Entry) : Decidable (ChangesAuthorized past e) :=
  inferInstanceAs (Decidable (∀ code ∈ e.input.event.code, _ → _))

/-- The deletion names a live record. -/
def deletesRecord (d : Device) (body : Bytes) : Bool :=
  (parseCredentialManagement body).any fun req => req.subCommand == 0x06 &&
    d.keys.passkeys.any fun r => r.status == 1 && r.cid == toHex req.targetCredId

/-- A setting is asked for that is not the one in place. -/
def changesSetting (d : Device) (body : Bytes) : Bool :=
  (parseConfig body).any fun req =>
    (req.subCommand == 0x02 && d.pins.forcePin != some true) ||
    (req.subCommand == 0x03 && d.pins.minPin != some (UInt8.ofNat req.minPinLenParam))

/-- A sample of a running enrollment, a new name or a removal. -/
def changesTemplates (d : Device) (body : Bytes) : Bool :=
  (parseBioEnrollment body).any fun req =>
    (req.subCommand == some 0x02 && d.enroll.active) || req.subCommand == some 0x05 ||
      req.subCommand == some 0x06

/-- A request that changes what is stored and is not looked at for any authorization. -/
def unguardedChange (d : Device) (e : Event) : Bool :=
  match e with
  | .cbor (code :: body) =>
    match code with
    | 0x0A | 0x41 => deletesRecord d body
    | 0x0D => changesSetting d body
    | 0x09 | 0x40 => changesTemplates d body
    | _ => false
  | _ => false

/-- While no template can be read, no finger is seen by a command that caches
what it sees or starts a large blob. -/
def NoBareTouch (d : Device) (i : Input) : Prop :=
  getBioTemplateCount i.env d.bio = 0 →
    (i.event.caches = true → ∀ p ∈ i.env.polls, p.sensor.settled ≠ .ok) ∧
    (i.event.code = some 0x0C → i.env.sensor.settled ≠ .ok)

/-- The condition of a step: changes that nothing guards are asked for while a
verification is cached, and none is cached for a mere touch. -/
def AskedWhileVerified (_ : History) (d : Device) (i : Input) : Prop :=
  (unguardedChange d i.event = true → verificationCached d.uv i.env.now = true) ∧ NoBareTouch d i

instance (past : History) (d : Device) (i : Input) : Decidable (AskedWhileVerified past d i) :=
  inferInstanceAs (Decidable ((_ → _) ∧ (_ → (_ → _) ∧ (_ → _))))

/-- Nothing is cached and no array is being received, as after any start. -/
structure Booted (d : Device) : Prop where
  last : d.uv.lastFingerprintSuccessTime = 0
  writing : d.blob.writing = none

/-- What memory holds goes back to matches of the run. -/
structure MemoryAccounted (past : History) (d : Device) : Prop where
  cache : CacheAccounted past d.uv.lastFingerprintSuccessTime
  writing : d.blob.writing ≠ none → firstFragmentAuthorized past = some true

/-! Large blobs. -/

theorem firstFragmentAuthorized_cons (e : Entry) (past : History) :
    firstFragmentAuthorized (e :: past) =
      if takesFirstFragment e then some (Authorized past e) else firstFragmentAuthorized past := by
  simp only [firstFragmentAuthorized, Trace.latest]
  split <;> simp

theorem largeBlobsAppend_idle {b : LargeBlob} {offset : Nat} {fragment : Bytes}
    (h : b.writing = none) : (largeBlobsAppend P env b offset fragment).2 = b := by
  simp [largeBlobsAppend, h]

theorem largeBlobs_writing (P : Platform) (env : Env) (d : Device) (body : Bytes)
    (ht : getBioTemplateCount env d.bio = 0 → env.sensor.settled ≠ .ok) :
    let r := largeBlobs P env d body
    (∃ act, r.acts = [act] ∧ act.kind = .matched ∧ ReportedMatch env act) ∨
      (r.acts = [] ∧ (d.blob.writing = none → r.blob = d.blob)) := by
  have reported : ∀ act, Accepted env d.bio env.sensor act env.now →
      act.kind = .matched ∧ ReportedMatch env act := by
    intro act ha
    obtain ⟨hact, hrep⟩ := ha.reported sensor_mem_looks ht
    exact ⟨by rw [hact]; rfl, hrep⟩
  refine largeBlobs_cases (Q := fun r =>
    (∃ act, r.acts = [act] ∧ act.kind = .matched ∧ ReportedMatch env act) ∨
      (r.acts = [] ∧ (d.blob.writing = none → r.blob = d.blob))) ?_ ?_ ?_ ?_
  · intro reply uv _
    exact .inr ⟨rfl, fun _ => rfl⟩
  · intro act uv ha _
    exact .inl ⟨act, rfl, reported act ha⟩
  · intro req fragment total act uv _ _ _ ha _
    exact .inl ⟨act, rfl, reported act ha⟩
  · intro req fragment _ _ _
    exact .inr ⟨rfl, fun hw => largeBlobsAppend_idle hw⟩

/-- After a large-blob command what is being received or has been stored comes
from an authorized first fragment, or is what it was. -/
theorem largeBlobs_authorized (h : MemoryAccounted past d) (hg : NoBareTouch d i)
    (hc : i.event.code = some 0x0C) :
    firstFragmentAuthorized (Trace.entry (step P) d i :: past) = some true ∨
      (step P d i).2.blob = d.blob ∧ firstFragmentAuthorized (Trace.entry (step P) d i :: past)
        = firstFragmentAuthorized past := by
  rw [firstFragmentAuthorized_cons]
  obtain ⟨body, he, ⟨reply, hs⟩ | ⟨-, hs⟩⟩ := step_code (P := P) (d := d) hc
  · exact .inr ⟨by rw [hs], by simp [takesFirstFragment, Trace.entry, hs]⟩
  · rcases largeBlobs_writing P i.env d body fun hn => (hg hn).2 hc with
      ⟨act, hacts, hkind, hrep⟩ | ⟨hacts, hidle⟩
    · have htakes : takesFirstFragment (Trace.entry (step P) d i) = true := by
        simp [takesFirstFragment, Trace.entry, hs, hc, cborCommand, runLargeBlobs, hacts, hkind,
          fingerKinds]
      rw [if_pos htakes]
      have hmatched : matchedFinger (Trace.entry (step P) d i) = true := by
        simp [matchedFinger, Trace.entry, hs, cborCommand, runLargeBlobs, hacts, hkind, hrep]
      exact .inl (by simp [Authorized, userMatched, hmatched])
    · have htakes : takesFirstFragment (Trace.entry (step P) d i) = false := by
        simp [takesFirstFragment, Trace.entry, hs, cborCommand, runLargeBlobs, hacts]
      rw [htakes, if_neg Bool.false_ne_true]
      by_cases hw : d.blob.writing = none
      · exact .inr ⟨by rw [hs]; exact hidle hw, rfl⟩
      · exact .inl (h.writing hw)

theorem writing_step (h : MemoryAccounted past d) (hg : NoBareTouch d i)
    (hw : (step P d i).2.blob.writing ≠ none) :
    firstFragmentAuthorized (Trace.entry (step P) d i :: past) = some true := by
  by_cases hc : i.event.code = some 0x0C
  · rcases largeBlobs_authorized (P := P) h hg hc with ha | ⟨hb, ha⟩
    · exact ha
    · rw [ha]
      exact h.writing (hb ▸ hw)
  · rw [firstFragmentAuthorized_cons, if_neg (by simp [takesFirstFragment, Trace.entry, hc])]
    rcases step_writing (P := P) (d := d) hc with hk | hk
    · exact h.writing (hk ▸ hw)
    · exact absurd hk hw

theorem memoryAccounted_step (h : MemoryAccounted past d) (hg : NoBareTouch d i) :
    MemoryAccounted (Trace.entry (step P) d i :: past) (step P d i).2 :=
  ⟨cacheAccounted_step h.cache fun hc hn => (hg hn).1 hc, writing_step h hg⟩

/-! A change of what is stored is an unguarded one. -/

theorem credentialManagement_changes {body : Bytes}
    (h : (credentialManagement P env d body).keys ≠ d.keys) : deletesRecord d body = true := by
  refine credentialManagement_cases (Q := fun r => r.keys ≠ d.keys → deletesRecord d body = true)
    ?_ ?_ ?_ h
  · intro reply enumeration hk
    exact absurd rfl hk
  · intro req _ _
    refine enumerateCredentialsBegin_cases
      (Q := fun r => r.keys ≠ d.keys → deletesRecord d body = true) ?_ ?_
    · intro reply enumeration hk
      exact absurd rfl hk
    · intro reply enumeration r uv _ hk
      exact absurd rfl hk
  · intro req k hp hs hdel _
    have hlive : d.keys.passkeys.any (fun r => r.status == 1 && r.cid == toHex req.targetCredId)
        = true := by
      unfold deletePasskeyRecord rewritePasskeys at hdel
      split at hdel
      · simp at hdel
      · split at hdel
        next hlive => exact hlive
        · simp at hdel
    rw [deletesRecord, hp, Option.any_some, hs, hlive]
    rfl

theorem authenticatorConfig_changes {p : PinFiles} {body : Bytes} (hp : d.pins = p)
    (h : (authenticatorConfig env p body).2 ≠ p) : changesSetting d body = true := by
  subst hp
  unfold authenticatorConfig at h
  cases hparse : parseConfig body with
  | none =>
    rw [hparse] at h
    exact absurd rfl h
  | some req =>
    rw [hparse] at h
    simp only at h
    rw [changesSetting, hparse, Option.any_some]
    split at h
    · exact absurd rfl h
    next hs =>
      by_cases hf : d.pins.forcePin = some true
      · have hsame : setForcePinChange env d.pins true = d.pins := by
          unfold setForcePinChange
          split
          · rw [← hf]
          · rfl
        exact absurd hsame h
      · simp [hs, hf]
    next hs =>
      by_cases hm : d.pins.minPin = some (UInt8.ofNat req.minPinLenParam)
      · have hsame : setMinPinLength env d.pins (UInt8.ofNat req.minPinLenParam) = d.pins := by
          unfold setMinPinLength
          split
          · rw [← hm]
          · rfl
        exact absurd hsame h
      · simp [hs, hm]
    · exact absurd rfl h

/-- The sample that begins an enrollment is not its last. -/
theorem captureStep_begin {answer : Nat → BioEnroll → List Item} {id : UInt8} :
    (captureStep env d ⟨true, id, 2, 2⟩ answer).bio = d.bio := by
  refine captureStep_cases (Q := fun r => r.bio = d.bio) ?_ ?_
  · intro reply enroll _
    rfl
  · intro reply enroll hlast _
    have hmore : 0 < (2 : UInt8) - min 1 2 := by decide
    exact absurd hmore hlast

theorem bioEnrollment_changes {body : Bytes} (h : (bioEnrollment env d body).bio ≠ d.bio) :
    changesTemplates d body = true := by
  refine bioEnrollment_cases (Q := fun r => r.bio ≠ d.bio → changesTemplates d body = true)
    ?_ ?_ ?_ ?_ ?_ ?_ h
  · intro reply enroll hb
    exact absurd rfl hb
  · intro req answer _ _ _ hb
    exact absurd captureStep_begin hb
  · intro req answer hp hs hactive _
    simp [changesTemplates, hp, hs, hactive]
  · refine enumerateEnrollments_cases (Q := fun r => r.bio ≠ d.bio → _) ?_
    intro reply r uv _ hb
    exact absurd rfl hb
  · intro req id name b hp hs _ _ _ _ _
    simp [changesTemplates, hp, hs]
  · intro req id enroll hp hs _ _ _
    simp [changesTemplates, hp, hs]

theorem changesStored_unguarded {code : UInt8} (hc : i.event.code = some code)
    (hne : code ≠ 0x0C) (h : ChangesStored code d (step P d i).2) :
    unguardedChange d i.event = true := by
  obtain ⟨body, he, ⟨reply, hs⟩ | ⟨-, hs⟩⟩ := step_code (P := P) (d := d) hc
  · rw [hs] at h
    unfold ChangesStored at h
    split at h <;> first | exact h.elim | exact absurd rfl h
  · rw [hs] at h
    rw [he]
    unfold ChangesStored at h
    split at h
    · exact credentialManagement_changes h
    · exact credentialManagement_changes h
    · exact authenticatorConfig_changes rfl h
    · exact bioEnrollment_changes h
    · exact bioEnrollment_changes h
    · exact absurd rfl hne
    · exact h.elim

theorem changesAuthorized_entry (h : MemoryAccounted past d) (hg : AskedWhileVerified past d i) :
    ChangesAuthorized past (Trace.entry (step P) d i) := by
  intro code hc hchange
  have hc : i.event.code = some code := hc
  by_cases hl : code = 0x0C
  · subst hl
    rw [if_pos rfl]
    rcases largeBlobs_authorized (P := P) h hg.2 hc with ha | ⟨hb, -⟩
    · exact ha
    · exact absurd (congrArg LargeBlob.stored hb) hchange
  · rw [if_neg hl]
    have hcached := cachedMatch_of_verificationCached h.cache
      (hg.1 (changesStored_unguarded hc hl hchange))
    simp [Authorized, userMatched, Trace.entry, hcached]

theorem memoryAccounted_booted (h : Booted d) : MemoryAccounted [] d :=
  ⟨.inl h.last, fun hw => absurd h.writing hw⟩

/-- In a run from any start of the device whose steps meet the condition, every
change of what is stored is authorized. -/
theorem changes_authorized (P : Platform) (d : Device) (inputs : List Input) (hd : Booted d)
    (hg : Trace.Guarded (step P) AskedWhileVerified d inputs) :
    Trace.Always ChangesAuthorized (Trace.history (step P) d inputs) :=
  Trace.always (I := MemoryAccounted)
    (fun _ _ _ h hg => memoryAccounted_step h hg.2)
    (fun _ _ _ h hg => changesAuthorized_entry h hg)
    (memoryAccounted_booted hd) hg

section Bench

open Bench

/-- The enrollments listed with a matching finger, and one renamed a second later. -/
def listThenRename : List Input :=
  [⟨bioRequest 0x04 [.map 0], touchedEnv 1 60000 90⟩,
    ⟨bioRequest 0x05 [.map 2, .uint 1, .bytes [1], .uint 2, .text (text "g")], idleEnv 2 61000⟩]

theorem changes_authorized_bench :
    Trace.Always ChangesAuthorized (Trace.history (step platform) enrolled listThenRename) :=
  changes_authorized platform enrolled listThenRename ⟨rfl, rfl⟩ (by decide +kernel)

/-- A credential deleted by its id alone. -/
theorem deleteCredential_unauthorized :
    ¬ Trace.Always ChangesAuthorized (run platform
      [⟨create site 1 true (-7), touchedEnv 1 60000 90⟩,
        ⟨deleteRequest (List.replicate 16 1), idleEnv 2 60000⟩]) := by
  decide +kernel

end Bench

end GoiKey
