import GoiKey.Model.Bench
import GoiKey.Proofs.Matches

/-!
The two stores of fingerprints: the names in /bio_templates.json and the models
in the sensor. bioEnrollment writes both, ENROLL_FINGER the sensor alone.
-/

namespace GoiKey

variable {P : Platform} {env : Env} {d : Device} {b : BioStore} {i : Input} {past : History}

/-- The same ids, in any order. -/
def SameIds (xs ys : List UInt8) : Prop := (∀ x ∈ xs, x ∈ ys) ∧ ∀ y ∈ ys, y ∈ xs

instance (xs ys : List UInt8) : Decidable (SameIds xs ys) := inferInstanceAs (Decidable (_ ∧ _))

theorem sameIds_iff {xs ys : List UInt8} : SameIds xs ys ↔ ∀ x, x ∈ xs ↔ x ∈ ys :=
  ⟨fun h x => ⟨h.1 x, h.2 x⟩, fun h => ⟨fun x => (h x).mp, fun x => (h x).mpr⟩⟩

def BioStore.recorded (b : BioStore) : List UInt8 := Members.keys b.templates

/-- The ids on record are those the sensor holds a model for. -/
def BioStore.InSync (b : BioStore) : Prop := SameIds b.recorded b.sensor

instance (b : BioStore) : Decidable b.InSync := inferInstanceAs (Decidable (SameIds _ _))

def acceptKinds : List ActKind := .approved :: fingerKinds

/-- A step leaves the stores in step, and accepts no finger without a match while
the sensor holds a model. -/
def TemplatesAgree (_ : History) (e : Entry) : Prop :=
  e.after.bio.InSync ∧ (e.before.bio.sensor ≠ [] →
    ∀ a ∈ e.output.acts, a.kind ∈ acceptKinds → ReportedMatch e.input.env a)

instance (past : History) (e : Entry) : Decidable (TemplatesAgree past e) :=
  inferInstanceAs (Decidable (_ ∧ (_ → ∀ a ∈ e.output.acts, _ → _)))

/-- Commands that empty the sensor, or wipe the device after the tenth wrong PIN. -/
def Event.mayEmptySensor : Event → Bool
  | .serial (.verifyPin _) | .serial (.updatePin ..) | .serial (.enrollFinger _)
  | .serial .factoryReset => true
  | e => e.code = some 0x07

/-- What ENROLL_FINGER leaves in the sensor. -/
def enrolledIds (env : Env) (id : UInt8) : List UInt8 :=
  if env.sampleTz = .ok ∧ env.secondTz = .ok ∧ env.createModel = .ok ∧ env.storeModel = .ok then
    [id]
  else []

def Event.enrolls : Event → Option UInt8
  | .serial (.enrollFinger id) => some id
  | _ => none

/-- The condition of a step: sensor and file do what they are told, and
ENROLL_FINGER enrolls what is on record already. -/
structure StoresObey (_ : History) (d : Device) (i : Input) : Prop where
  read : i.env.opens .bioTemplates .read = true
  manage : i.event.code = some 0x09 ∨ i.event.code = some 0x40 →
    i.env.opens .bioTemplates .write = true ∧ i.env.deleteModel = .ok
  empty : i.event.mayEmptySensor = true → i.env.emptyDatabase = .ok
  enroll : d.serial.authenticated = true → ∀ id ∈ i.event.enrolls,
    SameIds d.bio.recorded (enrolledIds i.env id)

instance (past : History) (d : Device) (i : Input) : Decidable (StoresObey past d i) :=
  decidable_of_iff
    (i.env.opens .bioTemplates .read = true ∧
      (i.event.code = some 0x09 ∨ i.event.code = some 0x40 →
        i.env.opens .bioTemplates .write = true ∧ i.env.deleteModel = .ok) ∧
      (i.event.mayEmptySensor = true → i.env.emptyDatabase = .ok) ∧
      (d.serial.authenticated = true → (i.event.enrolls.all fun id =>
        decide (SameIds d.bio.recorded (enrolledIds i.env id))) = true))
    ⟨fun h => ⟨h.1, h.2.1, h.2.2.1, by simpa [Option.all_eq_true] using h.2.2.2⟩,
      fun h => ⟨h.read, h.manage, h.empty, by simpa [Option.all_eq_true] using h.enroll⟩⟩

/-! What each operation does to the two lists. -/

theorem readTemplates_eq (hr : env.opens .bioTemplates .read = true) :
    readTemplates env b = b.templates := by
  rw [readTemplates, if_pos hr]

theorem mem_storeModel {id x : UInt8} : x ∈ (storeModel b id).sensor ↔ x = id ∨ x ∈ b.sensor := by
  unfold storeModel
  split
  next hid =>
    constructor
    · exact .inr
    · rintro (rfl | hx)
      · exact hid
      · exact hx
  · exact List.mem_cons

theorem mem_deleteModel {id x : UInt8} (hd : env.deleteModel = .ok) :
    x ∈ (deleteModel env b id).sensor ↔ x ≠ id ∧ x ∈ b.sensor := by
  rw [deleteModel, if_pos hd]
  simp [and_comm]

theorem storeModel_recorded {id : UInt8} : (storeModel b id).recorded = b.recorded := by
  unfold storeModel
  split <;> rfl

theorem mem_saveBioTemplateName {b' : BioStore} {id x : UInt8} {name : Str}
    (hr : env.opens .bioTemplates .read = true) (h : saveBioTemplateName env b id name = some b') :
    (x ∈ b'.recorded ↔ x = id ∨ x ∈ b.recorded) ∧ b'.sensor = b.sensor := by
  unfold saveBioTemplateName at h
  split at h
  · cases h
    rw [readTemplates_eq hr]
    exact ⟨Members.mem_keys_set, rfl⟩
  · cases h

/-- A finished enrollment names the id it stored. -/
theorem enrolled_inSync {id : UInt8} {name : Str} (h : b.InSync)
    (hr : env.opens .bioTemplates .read = true) (hw : env.opens .bioTemplates .write = true) :
    ((saveBioTemplateName env (storeModel b id) id name).getD (storeModel b id)).InSync := by
  obtain ⟨b', hb⟩ : ∃ b', saveBioTemplateName env (storeModel b id) id name = some b' := by
    simp [saveBioTemplateName, hw]
  rw [hb, Option.getD_some]
  refine sameIds_iff.mpr fun x => ?_
  have hsync := sameIds_iff.mp h x
  have hsaved := mem_saveBioTemplateName (x := x) hr hb
  rw [hsaved.1, hsaved.2, mem_storeModel, storeModel_recorded, hsync]

/-- A new name for an id on record adds no id. -/
theorem renamed_inSync {b' : BioStore} {id : UInt8} {name : Str} (h : b.InSync)
    (hr : env.opens .bioTemplates .read = true) (hid : id ∈ getAllBioTemplateIds env b)
    (hb : saveBioTemplateName env b id name = some b') : b'.InSync := by
  have hid : id ∈ b.recorded := by
    rwa [getAllBioTemplateIds, readTemplates_eq hr] at hid
  refine sameIds_iff.mpr fun x => ?_
  have hsync := sameIds_iff.mp h x
  have hsaved := mem_saveBioTemplateName (x := x) hr hb
  rw [hsaved.1, hsaved.2, ← hsync]
  constructor
  · rintro (rfl | hx)
    · exact hid
    · exact hx
  · exact .inr

/-- A removal takes the id out of both. -/
theorem removed_inSync {id : UInt8} (h : b.InSync) (hr : env.opens .bioTemplates .read = true)
    (hw : env.opens .bioTemplates .write = true) (hd : env.deleteModel = .ok)
    (hid : id ∈ getAllBioTemplateIds env b) :
    (deleteBioTemplateRecord env (deleteModel env b id) id).2.InSync := by
  have htemplates : (deleteModel env b id).templates = b.templates := by
    rw [deleteModel, if_pos hd]
  have hmem : (Members.get? id b.templates).isSome = true := by
    rw [getAllBioTemplateIds, readTemplates_eq hr] at hid
    exact Members.get?_isSome_of_mem hid
  have hdel : (deleteBioTemplateRecord env (deleteModel env b id) id).2
      = { deleteModel env b id with templates := Members.remove id b.templates } := by
    rw [deleteBioTemplateRecord, readTemplates_eq hr, htemplates]
    have hnone : (Members.get? id b.templates).isNone = false := by
      rw [← Option.not_isSome, hmem]
      rfl
    simp [hnone, hw]
  rw [hdel]
  refine sameIds_iff.mpr fun x => ?_
  have hsync := sameIds_iff.mp h x
  change x ∈ Members.keys (Members.remove id b.templates) ↔ x ∈ (deleteModel env b id).sensor
  rw [Members.mem_keys_remove, mem_deleteModel hd, ← hsync]
  rfl

theorem emptied_inSync (he : env.emptyDatabase = .ok) :
    (deleteAllFingerprints env { b with templates := [] }).InSync := by
  rw [deleteAllFingerprints, if_pos he]
  exact ⟨fun _ h => h, fun _ h => h⟩

/-- ENROLL_FINGER empties the sensor and leaves the file alone. -/
theorem enrollFingerprint_eq {id : UInt8} (he : env.emptyDatabase = .ok) :
    (enrollFingerprint env b id).2 = { b with sensor := enrolledIds env id } := by
  unfold enrollFingerprint
  simp only [deleteAllFingerprints, if_pos he]
  by_cases hok : env.sampleTz = .ok ∧ env.secondTz = .ok ∧ env.createModel = .ok ∧
      env.storeModel = .ok
  · obtain ⟨h1, h2, h3, h4⟩ := hok
    simp [enrolledIds, storeModel, h1, h2, h3, h4]
  · have hfail : env.sampleTz ≠ .ok ∨ env.secondTz ≠ .ok ∨ env.createModel ≠ .ok ∨
        env.storeModel ≠ .ok := by tauto
    rw [if_pos hfail, enrolledIds, if_neg hok]

/-! One step. -/

theorem bioEnrollment_inSync {body : Bytes} (h : d.bio.InSync)
    (hr : env.opens .bioTemplates .read = true)
    (hm : env.opens .bioTemplates .write = true ∧ env.deleteModel = .ok) :
    (bioEnrollment env d body).bio.InSync := by
  have capture : ∀ e answer, (captureStep env d e answer).bio.InSync := by
    intro e answer
    refine captureStep_cases (Q := fun r => r.bio.InSync) ?_ ?_
    · intro reply enroll _
      exact h
    · intro reply enroll _ _
      exact enrolled_inSync h hr hm.1
  refine bioEnrollment_cases (Q := fun r => r.bio.InSync) ?_ ?_ ?_ ?_ ?_ ?_
  · intro reply enroll
    exact h
  · intro req answer _ _ _
    exact capture _ answer
  · intro req answer _ _ _
    exact capture _ answer
  · refine enumerateEnrollments_cases (Q := fun r => r.bio.InSync) ?_
    intro reply r uv _
    exact h
  · intro req id name b _ _ _ _ hid hb
    exact renamed_inSync h hr hid hb
  · intro req id enroll _ _ _ hid
    exact removed_inSync h hr hm.1 hm.2 hid

theorem checkPin_inSync {pin : Str} {accepted : Device → SerialResult} (h : d.bio.InSync)
    (he : env.emptyDatabase = .ok) (ha : ∀ d : Device, (accepted d).dev.bio = d.bio) :
    (checkPin P env d pin accepted).dev.bio.InSync := by
  refine checkPin_cases (Q := fun r => r.dev.bio.InSync) ?_ ?_ ?_ ?_
  · exact h
  · intro _ _ r
    have hbio : r.dev.bio = d.bio := ha _
    rw [hbio]
    exact h
  · intro stored n _ _ _ _
    exact h
  · intro stored _ _ _
    exact emptied_inSync he

theorem replacePin_bio (newPin : Str) (d : Device) : (replacePin P env newPin d).dev.bio = d.bio := by
  unfold replacePin
  split <;> rfl

theorem serialCommand_inSync {c : SerialCommand} (h : d.bio.InSync) (he : i.event = .serial c)
    (hg : StoresObey past d i) : (serialCommand P i.env d c).dev.bio.InSync := by
  refine serialCommand_cases (Q := fun r => r.dev.bio.InSync) ?_ ?_ ?_ ?_ ?_ ?_ ?_ ?_
  · intro ms v s alg dflt
    exact h
  · intro ms pin p _ _ _
    exact h
  · intro pin hc _
    exact checkPin_inSync h (hg.empty (by rw [he, hc]; rfl)) fun _ => rfl
  · intro currentPin newPin hc _
    exact checkPin_inSync h (hg.empty (by rw [he, hc]; rfl)) (replacePin_bio newPin)
  · intro ms site k _ _
    exact h
  · intro ms _
    exact h
  · intro ms id hc ha
    have hids := hg.enroll ha id (by rw [he, hc]; rfl)
    change (enrollFingerprint i.env d.bio id).2.InSync
    rw [enrollFingerprint_eq (hg.empty (by rw [he, hc]; rfl))]
    exact hids
  · intro ms hc _
    exact emptied_inSync (hg.empty (by rw [he, hc]; rfl))

theorem authenticatorReset_inSync (h : d.bio.InSync) (he : env.emptyDatabase = .ok) :
    (authenticatorReset env d).2.bio.InSync := by
  unfold authenticatorReset
  split
  · exact h
  · exact h
  · exact emptied_inSync he

theorem step_inSync (h : d.bio.InSync) (hg : StoresObey past d i) : (step P d i).2.bio.InSync := by
  refine step_cases (Q := fun r => r.2.bio.InSync) ?_ ?_ ?_ ?_ ?_ ?_ ?_ ?_ ?_ ?_ ?_ ?_ ?_ ?_
  · intro reply
    exact h
  · intro body he
    exact h
  · intro body req he _ _
    exact h
  · intro body he
    exact h
  · intro body he
    exact h
  · intro body he
    exact authenticatorReset_inSync h (hg.empty (by rw [he]; rfl))
  · intro code body he hcode
    exact bioEnrollment_inSync h hg.read (hg.manage (by rw [he]; simpa [Event.code] using hcode))
  · intro code body he _
    exact h
  · intro body he
    exact h
  · intro body he
    exact h
  · intro data he
    exact h
  · intro c he
    exact serialCommand_inSync h he hg
  · intro he
    exact updateFingerprintAsync_cases (Q := fun r => r.dev.bio.InSync)
      (fun _ _ _ => h) (fun _ _ _ _ _ _ _ _ => h)
  · intro he
    exact h

/-- With a model in the sensor there is a record to count. -/
theorem count_ne_zero (h : d.bio.InSync) (hr : env.opens .bioTemplates .read = true)
    (hs : d.bio.sensor ≠ []) : getBioTemplateCount env d.bio ≠ 0 := by
  obtain ⟨id, hid⟩ := List.exists_mem_of_ne_nil _ hs
  have hrec : id ∈ d.bio.recorded := h.2 id hid
  rw [getBioTemplateCount, getAllBioTemplateIds, readTemplates_eq hr]
  exact Nat.ne_of_gt (List.length_pos_of_mem hrec)

theorem updateFingerprintAsync_reported {a : Act}
    (ha : a ∈ (updateFingerprintAsync P env d).acts) : ReportedMatch env a := by
  refine updateFingerprintAsync_cases (Q := fun r => a ∈ r.acts → ReportedMatch env a) ?_ ?_ ha
  · intro ms n s hm
    simp at hm
  · intro ms n v s _ _ hsearch hconf hm
    simp only [List.mem_singleton] at hm
    subst hm
    exact ⟨env.sensor, sensor_mem_looks, hsearch, hconf, rfl⟩

theorem approved_event (h : .approved ∈ i.event.kinds) : i.event = .fingerprintTask := by
  refine Event.kinds_cases ?_ ?_ ?_ ?_ h
  · intro code _ hk
    unfold commandKinds at hk
    split at hk <;> simp [fingerKinds] at hk
  · intro data _ hk
    simp [u2fKinds, fingerKinds] at hk
  · intro c _ hk
    simp [serialKinds] at hk
  · intro he _
    exact he

theorem step_reported (h : d.bio.InSync) (hr : i.env.opens .bioTemplates .read = true)
    (hs : d.bio.sensor ≠ []) {a : Act} (ha : a ∈ (step P d i).1.acts) (hk : a.kind ∈ acceptKinds) :
    ReportedMatch i.env a := by
  obtain ⟨hkind, hlook⟩ := step_kinds P d i a ha
  rcases List.mem_cons.mp hk with happroved | hfinger
  · rw [happroved] at hkind
    have he := approved_event hkind
    have hstep : step P d i = (updateFingerprintAsync P i.env d).run := by rw [step, he]
    rw [hstep] at ha
    exact updateFingerprintAsync_reported ha
  · obtain ⟨s, hs', time, hacc⟩ := hlook hfinger
    have hcount := count_ne_zero h hr hs
    rcases hacc.act with ⟨hzero, -⟩ | ⟨-, -, hsearch, hconf, rfl⟩
    · exact absurd hzero hcount
    · exact ⟨s, hs', hsearch, hconf, rfl⟩

/-- In a run whose steps meet the condition, the two stores hold the same ids
after every step, and no finger is accepted without a match while there are any. -/
theorem templates_agree (P : Platform) (inputs : List Input)
    (hg : Trace.Guarded (step P) StoresObey initial inputs) :
    Trace.Always TemplatesAgree (run P inputs) :=
  Trace.always (I := fun _ d => d.bio.InSync)
    (fun _ _ _ h hg => step_inSync h hg)
    (fun _ _ _ h hg => ⟨step_inSync h hg, fun hs _ ha hk => step_reported h hg.read hs ha hk⟩)
    (by simp [BioStore.InSync, SameIds, BioStore.recorded, Members.keys, initial]) hg

section Bench

open Bench

theorem templates_agree_bench : Trace.Always TemplatesAgree
    (run platform (enrollment ++ [⟨create site 1 true (-7), touchedEnv 1 60000 90⟩])) :=
  templates_agree platform _ (by decide +kernel)

/-- ENROLL_FINGER puts a model into the sensor that no record names. -/
theorem enrollFinger_unrecorded :
    ¬ Trace.Always TemplatesAgree (run platform
      [⟨.serial (.createPin (text "1234")), idleEnv 1 60000⟩,
        ⟨.serial (.verifyPin (text "1234")), idleEnv 1 60000⟩,
        ⟨.serial (.enrollFinger 1), idleEnv 1 60000⟩]) := by
  decide +kernel

end Bench

end GoiKey
