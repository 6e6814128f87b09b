import GoiKey.Model.Bench
import GoiKey.Proofs.Acts

/-!
The counter of wrong PINs, which both front ends write, against the guesses of
the run. changePIN refuses at ten; verifyPin compares first and counts after.
-/

namespace GoiKey

variable {P : Platform} {env : Env} {d : Device} {i : Input} {past : History}

/-- The wrong guesses in a row after one more act; a wipe starts over. -/
def countGuess (n : Nat) : Act → Nat
  | .pinGuess true | .wiped => 0
  | .pinGuess false => n + 1
  | _ => n

/-- The wrong guesses since the last correct one or the last wipe. -/
def wrongRun : History → Nat
  | [] => 0
  | e :: past => e.output.acts.foldl countGuess (wrongRun past)

/-- What a getRetries answered. -/
def reportedRetries (e : Entry) : Option (List Item) :=
  match e.input.event, e.output.reply with
  | .cbor (0x06 :: body), .cbor (.items is) =>
    if (parseClientPin body).any (fun req => req.subCommand == 0x01) then some is else none
  | _, _ => none

/-- No guess is accepted after ten wrong ones, and the retries reported are those
that are left. -/
def GuessesBounded (past : History) (e : Entry) : Prop :=
  (.pinGuess true ∈ e.output.acts → wrongRun past < 10) ∧
    ∀ is ∈ reportedRetries e, wrongRun past ≤ 10 ∧ is = [.map 1, .uint 3, .uint (10 - wrongRun past)]

instance (past : History) (e : Entry) : Decidable (GuessesBounded past e) :=
  inferInstanceAs (Decidable ((_ → _) ∧ ∀ is ∈ reportedRetries e, _))

/-- The PIN a serial command has compared with the stored one. -/
def serialGuess (d : Device) : Event → Option Str
  | .serial (.verifyPin pin) => if d.serial.authenticated then none else some pin
  | .serial (.updatePin currentPin _) => if d.serial.authenticated then some currentPin else none
  | _ => none

/-- The commands that read or write the counter. -/
def Event.guesses (e : Event) : Bool :=
  match e with
  | .serial (.verifyPin _) | .serial (.updatePin ..) => true
  | e => e.code == some 0x06

/-- The condition of a step: the counter can be read and written, and no correct
PIN comes over the serial line once it stands at ten. -/
def CounterHeeded (P : Platform) (_ : History) (d : Device) (i : Input) : Prop :=
  (i.event.guesses = true →
    i.env.opens .failures .read = true ∧ i.env.opens .failures .write = true) ∧
  ∀ pin ∈ serialGuess d i.event, d.pins.pin = some (hashPin P pin) → d.pins.failures < 10

instance (past : History) (d : Device) (i : Input) : Decidable (CounterHeeded P past d i) :=
  inferInstanceAs (Decidable ((_ → _) ∧ ∀ pin ∈ serialGuess d i.event, _ → _))

/-- The counter is the number of wrong guesses in a row, ten at most. -/
structure Counted (past : History) (d : Device) : Prop where
  failures : d.pins.failures = wrongRun past
  bound : d.pins.failures ≤ 10

/-! One command: what its guesses do to the counter. -/

/-- A result whose acts account for the counter, and which accepts below ten only. -/
structure Counts (before : PinFiles) (acts : List Act) (after : PinFiles) : Prop where
  failures : after.failures = acts.foldl countGuess before.failures
  bound : before.failures ≤ 10 → after.failures ≤ 10
  accepted : .pinGuess true ∈ acts → before.failures < 10

theorem countGuess_quiet {n : Nat} {a : Act} (h : a.kind ≠ .pinGuess ∧ a.kind ≠ .wiped) :
    countGuess n a = n := by
  cases a with
  | pinGuess correct => exact absurd rfl h.1
  | wiped => exact absurd rfl h.2
  | _ => rfl

theorem Counts.quiet {p p' : PinFiles} {acts : List Act} (h : p'.failures = p.failures)
    (hacts : ∀ a ∈ acts, a.kind ≠ .pinGuess ∧ a.kind ≠ .wiped) : Counts p acts p' where
  failures := by
    rw [h]
    clear h
    induction acts generalizing p with
    | nil => rfl
    | cons a acts ih =>
      rw [List.foldl_cons, countGuess_quiet (hacts a List.mem_cons_self)]
      exact ih fun b hb => hacts b (List.mem_cons_of_mem _ hb)
  bound hb := h ▸ hb
  accepted hm := absurd rfl (hacts _ hm).1

theorem getFailedPinAttempts_eq {p : PinFiles} (hr : env.opens .failures .read = true) :
    getFailedPinAttempts env p = p.failures := by
  simp [getFailedPinAttempts, hr]

theorem incrementFailedPinAttempts_failures {p : PinFiles}
    (hr : env.opens .failures .read = true) (hw : env.opens .failures .write = true) :
    (incrementFailedPinAttempts env p).failures = p.failures + 1 := by
  simp [incrementFailedPinAttempts, getFailedPinAttempts, hr, hw]

theorem createPin_failures {p p' : PinFiles} {pin : Str} (h : createPin P env p pin = some p') :
    p'.failures = p.failures := by
  unfold createPin at h
  split at h
  · cases h
  · split at h <;> cases h <;> rfl

theorem storeNewPin_failures {p : PinFiles} {secret : Bytes} {req : ClientPinRequest} :
    (storeNewPin P env secret p req).2.failures = p.failures := by
  unfold storeNewPin
  cases hd : aesCbcZeroIvDecrypt P secret req.newPinEnc with
  | none => rfl
  | some padded =>
    simp only
    cases hc : createPin P env p (decryptedPin padded) with
    | none => rfl
    | some p' => exact createPin_failures hc

theorem changePin_counts {p : PinFiles} {session : PinSession} {req : ClientPinRequest}
    (hr : env.opens .failures .read = true) (hw : env.opens .failures .write = true) :
    Counts p (changePin P env p session req).2.1 (changePin P env p session req).2.2 := by
  have quiet : Counts p [] p := .quiet rfl (by simp)
  unfold changePin
  split
  · exact quiet
  split
  · exact quiet
  next hten =>
    rw [getFailedPinAttempts_eq hr] at hten
    split
    · exact quiet
    · split
      · exact quiet
      · split
        · exact quiet
        · split
          · have hinc := incrementFailedPinAttempts_failures (p := p) hr hw
            refine ⟨by simp [countGuess, hinc], fun _ => ?_, fun h => by simp at h⟩
            change (incrementFailedPinAttempts env p).failures ≤ 10
            omega
          · refine ⟨?_, fun _ => ?_, fun _ => by omega⟩
            · simp [countGuess, storeNewPin_failures, resetFailedPinAttempts]
            · simp [storeNewPin_failures, resetFailedPinAttempts]

theorem setPin_failures {p : PinFiles} {session : PinSession} {req : ClientPinRequest} :
    (setPin P env p session req).2.2.failures = p.failures := by
  unfold setPin
  split
  · rfl
  split
  · rfl
  · split
    · rfl
    · split
      · rfl
      · exact storeNewPin_failures

theorem clientPin_counts {body : Bytes} (hr : env.opens .failures .read = true)
    (hw : env.opens .failures .write = true) :
    Counts d.pins (clientPin P env d.pins d.session body).acts
      (clientPin P env d.pins d.session body).pins := by
  refine clientPin_cases (Q := fun r => Counts d.pins r.acts r.pins) ?_ ?_ ?_ ?_ ?_
  · intro reply session
    exact .quiet rfl (by simp)
  · intro req _ _
    exact .quiet rfl (by simp)
  · intro req _ _
    exact .quiet setPin_failures (by simp [setPin_acts])
  · intro req _ _
    exact changePin_counts hr hw
  · exact .quiet rfl (by simp [issueToken, Act.kind])

theorem authenticatorConfig_failures {p : PinFiles} {body : Bytes} :
    (authenticatorConfig env p body).2.failures = p.failures := by
  unfold authenticatorConfig setForcePinChange setMinPinLength
  repeat' split
  all_goals rfl

theorem authenticatorReset_counts : Counts d.pins (authenticatorReset env d).1.acts
    (authenticatorReset env d).2.pins := by
  unfold authenticatorReset
  have hacc := @waitForFinger_accepted env d.bio d.uv env.polls
  rcases hw : waitForFinger env d.bio env.polls d.uv with ⟨r, uv⟩
  rw [hw] at hacc
  cases r with
  | cancelled => exact .quiet rfl (by simp)
  | timedOut => exact .quiet rfl (by simp)
  | verified act time =>
    obtain ⟨p, -, -, ha⟩ := hacc rfl
    refine ⟨by simp [countGuess, resetFido2System, removeFiles], fun _ => ?_, fun h => ?_⟩
    · exact Nat.zero_le _
    · rcases ha.act with ⟨-, rfl⟩ | ⟨-, -, -, -, rfl⟩ <;> simp at h

/-- A PIN of the serial line, when no correct one comes at ten. -/
theorem checkPin_counts {pin : Str} {accepted : Device → SerialResult}
    (hr : env.opens .failures .read = true) (hw : env.opens .failures .write = true)
    (hten : d.pins.pin = some (hashPin P pin) → d.pins.failures < 10)
    (ha : ∀ d : Device, (accepted d).acts = [] ∧
      (accepted d).dev.pins.failures = d.pins.failures) :
    Counts d.pins (checkPin P env d pin accepted).acts (checkPin P env d pin accepted).dev.pins := by
  have hinc := incrementFailedPinAttempts_failures (p := d.pins) hr hw
  refine checkPin_cases (Q := fun r => Counts d.pins r.acts r.dev.pins) ?_ ?_ ?_ ?_
  · exact .quiet rfl (by simp)
  · intro hpin _ r
    obtain ⟨hacts, hfail⟩ := ha { d with pins := resetFailedPinAttempts d.pins }
    refine ⟨?_, fun _ => ?_, fun _ => hten hpin⟩
    · rw [show r.acts = [] from hacts]
      exact hfail
    · exact (Nat.le_of_eq hfail).trans (Nat.zero_le _)
  · intro stored n _ _ hn hlt
    rw [getFailedPinAttempts_eq hr] at hn
    refine ⟨by simp [countGuess, hinc], fun _ => ?_, fun h => by simp at h⟩
    change (incrementFailedPinAttempts env d.pins).failures ≤ 10
    omega
  · intro stored _ _ _
    exact ⟨by simp [countGuess, reboot, factoryResetSystem, removeFiles], fun _ => Nat.zero_le _,
      fun h => by simp at h⟩

theorem replacePin_failures (newPin : Str) (d : Device) :
    (replacePin P env newPin d).dev.pins.failures = d.pins.failures := by
  unfold replacePin
  split
  next p hc => exact createPin_failures hc
  · rfl

theorem serialCommand_counts {c : SerialCommand} (he : i.event = .serial c)
    (hg : CounterHeeded P past d i) :
    Counts d.pins (serialCommand P i.env d c).acts (serialCommand P i.env d c).dev.pins := by
  refine serialCommand_cases (Q := fun r => Counts d.pins r.acts r.dev.pins)
    ?_ ?_ ?_ ?_ ?_ ?_ ?_ ?_
  · intro ms v s alg dflt
    exact .quiet rfl (by simp)
  · intro ms pin p _ _ hc
    exact .quiet (createPin_failures hc) (by simp)
  · intro pin hc ha
    subst hc
    obtain ⟨hr, hw⟩ := hg.1 (by rw [he]; rfl)
    exact checkPin_counts hr hw (hg.2 pin (by simp [he, serialGuess, ha])) fun _ => ⟨rfl, rfl⟩
  · intro currentPin newPin hc ha
    subst hc
    obtain ⟨hr, hw⟩ := hg.1 (by rw [he]; rfl)
    exact checkPin_counts hr hw (hg.2 currentPin (by simp [he, serialGuess, ha])) fun d =>
      ⟨replacePin_acts newPin d, replacePin_failures newPin d⟩
  · intro ms site k _ _
    refine .quiet rfl fun a ha => ?_
    obtain ⟨r, -, rfl⟩ := List.mem_map.mp ha
    simp [Act.kind]
  · intro ms _
    exact .quiet rfl (by simp)
  · intro ms id _ _
    exact .quiet rfl (by simp)
  · intro ms _ _
    exact ⟨by simp [countGuess, Device.locked, factoryResetSystem, removeFiles], fun _ => Nat.zero_le _,
      fun h => by simp at h⟩

/-- Commands of other kinds neither guess nor wipe. -/
theorem OfKinds.quiet {b : BioStore} {ks : List ActKind} {acts : List Act}
    (h : OfKinds env b ks acts)
    (hg : .pinGuess ∉ ks) (hw : .wiped ∉ ks) : ∀ a ∈ acts, a.kind ≠ .pinGuess ∧ a.kind ≠ .wiped :=
  fun a ha => ⟨fun hk => hg (hk ▸ (h a ha).1), fun hk => hw (hk ▸ (h a ha).1)⟩

theorem step_counts (hg : CounterHeeded P past d i) :
    Counts d.pins (step P d i).1.acts (step P d i).2.pins := by
  refine step_cases (Q := fun r => Counts d.pins r.1.acts r.2.pins)
    ?_ ?_ ?_ ?_ ?_ ?_ ?_ ?_ ?_ ?_ ?_ ?_ ?_ ?_
  · intro reply
    exact .quiet rfl (by simp)
  · intro body he
    exact .quiet rfl (makeCredential_kinds.quiet (by decide) (by decide))
  · intro body req he _ _
    exact .quiet rfl (getAssertion_kinds.quiet (by decide) (by decide))
  · intro body he
    exact .quiet rfl (getNextAssertion_kinds.quiet (by decide) (by decide))
  · intro body he
    obtain ⟨hr, hw⟩ := hg.1 (by rw [he]; rfl)
    exact clientPin_counts hr hw
  · intro body he
    exact authenticatorReset_counts
  · intro code body he _
    exact .quiet rfl (bioEnrollment_kinds.quiet (by decide) (by decide))
  · intro code body he _
    exact .quiet rfl (credentialManagement_kinds.quiet (by decide) (by decide))
  · intro body he
    exact .quiet rfl (largeBlobs_kinds.quiet (by decide) (by decide))
  · intro body he
    exact .quiet authenticatorConfig_failures (by simp [runConfig])
  · intro data he
    exact .quiet rfl (processU2fCommand_kinds.quiet (by decide) (by decide))
  · intro c he
    exact serialCommand_counts he hg
  · intro he
    refine .quiet ?_ (updateFingerprintAsync_kinds.quiet (by decide) (by decide))
    exact updateFingerprintAsync_cases (Q := fun r => r.dev.pins.failures = d.pins.failures)
      (fun _ _ _ => rfl) (fun _ _ _ _ _ _ _ _ => rfl)
  · intro he
    exact .quiet rfl (by simp)

/-! The run. -/

theorem counted_step (h : Counted past d) (hg : CounterHeeded P past d i) :
    Counted (Trace.entry (step P) d i :: past) (step P d i).2 where
  failures := by
    rw [(step_counts hg).failures, h.failures]
    rfl
  bound := (step_counts hg).bound h.bound

theorem getRetries_items {p : PinFiles} (hr : env.opens .failures .read = true)
    (hb : p.failures ≤ 10) :
    getRetries env p = .items [.map 1, .uint 3, .uint (10 - p.failures)] := by
  have hleft : ((10 - (p.failures : Int)) % 2 ^ 64).toNat = 10 - p.failures := by omega
  rw [getRetries, getFailedPinAttempts_eq hr, hleft]

theorem step_getRetries {body : Bytes} {req : ClientPinRequest} (he : i.event = .cbor (0x06 :: body))
    (hp : parseClientPin body = some req) (hs : req.subCommand = 0x01) :
    (step P d i).1.reply = .cbor (.status 0x01) ∨
      (step P d i).1.reply = .cbor (getRetries i.env d.pins) := by
  simp only [step, he, processCborCommand]
  split
  · exact .inr (by simp [cborCommand, runClientPin, clientPin, hp, clientPinSubCommand, hs])
  · exact .inl rfl

/-- What getRetries reports is what the counter leaves. -/
theorem reportedRetries_entry (hg : CounterHeeded P past d i) (hb : d.pins.failures ≤ 10)
    {is : List Item} (h : is ∈ reportedRetries (Trace.entry (step P) d i)) :
    is = [.map 1, .uint 3, .uint (10 - d.pins.failures)] := by
  unfold reportedRetries at h
  split at h
  next body items he hreply =>
    split at h
    next hs =>
      obtain ⟨rfl⟩ := h
      have he : i.event = .cbor (0x06 :: body) := he
      have hreply : (step P d i).1.reply = .cbor (.items is) := hreply
      obtain ⟨hr, -⟩ := hg.1 (by rw [he]; rfl)
      obtain ⟨req, hp, hsub⟩ := (Option.any_eq_true _ _).mp hs
      rcases step_getRetries (P := P) (d := d) he hp (by simpa using hsub) with hr' | hr'
      · rw [hreply] at hr'
        cases hr'
      · rw [hreply, getRetries_items hr hb] at hr'
        cases hr'
        rfl
    · cases h
  · cases h

theorem guessesBounded_entry (h : Counted past d) (hg : CounterHeeded P past d i) :
    GuessesBounded past (Trace.entry (step P) d i) := by
  refine ⟨fun hm => h.failures ▸ (step_counts hg).accepted hm, fun is his => ?_⟩
  rw [← h.failures]
  exact ⟨h.bound, reportedRetries_entry hg h.bound his⟩

section Bench

open Bench

/-- The secret agreed on with a peer point of zeros. -/
def agreedSecret (seed : UInt8) : Bytes := hash (List.replicate 32 seed)

/-- changePIN with a right pinUvAuthParam and this PIN hash. -/
def changePinRequest (seed : UInt8) (pinHash newPin : Bytes) : Event :=
  let newPinEnc := padTo 64 newPin
  request 0x06 [.map 6, .uint 1, .uint 1, .uint 2, .uint 0x04, .uint 3, .map 2, .nint (-2),
    .bytes (zeros 32), .nint (-3), .bytes (zeros 32), .uint 4,
    .bytes ((platform.hmacSha256 (agreedSecret seed) (newPinEnc ++ pinHash)).take 16), .uint 5,
    .bytes newPinEnc, .uint 6, .bytes pinHash]

def pinRequest (sub : Nat) : Event := request 0x06 [.map 2, .uint 1, .uint 1, .uint 2, .uint sub]

def wrongPin : Input := ⟨.serial (.verifyPin (text "0000")), idleEnv 1 60000⟩

def correctPin : Input := ⟨.serial (.verifyPin (text "1234")), idleEnv 1 60000⟩

/-- A PIN, an agreed key, some wrong guesses over the serial line and one by
changePIN. -/
def wrongGuesses (n : Nat) : List Input :=
  [⟨.serial (.createPin (text "1234")), idleEnv 1 60000⟩, ⟨pinRequest 0x02, idleEnv 7 60000⟩]
    ++ List.replicate n wrongPin ++ [⟨changePinRequest 7 (zeros 16) (text "5678"), idleEnv 1 60000⟩]

end Bench

end GoiKey
