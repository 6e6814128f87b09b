import GoiKey.Model.Bench
import GoiKey.Proofs.Commands
import GoiKey.Proofs.Memory
import GoiKey.Proofs.Retries
import GoiKey.Proofs.Sessions

/-!
The PIN policy of authenticatorConfig over runs: what was asked for since the last
reset, against what is on file and what the two front ends do about it.
-/

namespace GoiKey

variable {P : Platform} {env : Env} {d : Device} {i : Input} {past : History} {e : Entry}

/-! What the steps ask for and what they answer. -/

/-- The length in force as it is on file. -/
def minLength (p : PinFiles) : Nat := max 4 (p.minPin.getD 4).toNat

def configRequest (i : Input) : Option ConfigRequest :=
  match i.event with
  | .cbor (0x0D :: body) => parseConfig body
  | _ => none

/-- The length a setMinPINLength asks for. -/
def minLengthRequest (i : Input) : Option Nat :=
  (configRequest i).bind fun req => if req.subCommand = 0x03 then some req.minPinLenParam else none

def forcesChange (i : Input) : Bool := (configRequest i).any fun req => req.subCommand == 0x02

/-- The command was carried out. -/
def Reply.succeeds : Reply → Bool
  | .cbor (.items _) => true
  | .serial messages => messages.any fun m =>
      m == .event "AUTH" "PIN_CREATED" [] || m == .event "AUTH" "PIN_UPDATED" []
  | _ => false

/-- The PIN in a setPIN or changePIN. -/
def encryptedPin (P : Platform) (d : Device) (req : ClientPinRequest) : Option Str :=
  (sharedSecret P d.session req).bind fun secret =>
    (aesCbcZeroIvDecrypt P secret req.newPinEnc).map decryptedPin

def pinRequestOf (i : Input) : Option ClientPinRequest :=
  match i.event with
  | .cbor (0x06 :: body) => parseClientPin body
  | _ => none

/-- The PIN that either front end is given to store. -/
def offeredPin (P : Platform) (d : Device) (i : Input) : Option Str :=
  match i.event with
  | .serial (.createPin pin) => some pin
  | .serial (.updatePin _ newPin) => some newPin
  | _ => (pinRequestOf i).bind fun req =>
    if req.subCommand = 0x03 ∨ req.subCommand = 0x04 then encryptedPin P d req else none

/-- The PIN a step says it stored. -/
def takenPin (P : Platform) (d : Device) (i : Input) (o : Output) : Option Str :=
  if o.reply.succeeds then offeredPin P d i else none

/-- A PIN is to be changed, not set for the first time. -/
def asksChange (i : Input) : Bool :=
  match i.event with
  | .serial (.updatePin _ _) => true
  | _ => (pinRequestOf i).any fun req => req.subCommand == 0x04

def wipedBy (e : Entry) : Bool := e.output.acts.contains .wiped

def changedBy (P : Platform) (e : Entry) : Bool :=
  asksChange e.input && (takenPin P e.before e.input e.output).isSome

/-! The policy since the last reset. -/

/-- The length a step was told and did not refuse. -/
def acceptedLength (e : Entry) : Nat :=
  if e.output.reply.succeeds then (minLengthRequest e.input).getD 0 else 0

def largestAccepted : History → Nat
  | [] => 4
  | e :: past => if wipedBy e then 4 else max (largestAccepted past) (acceptedLength e)

/-- A change is forced and has not come yet. -/
def changeRequired (P : Platform) : History → Bool
  | [] => false
  | e :: past =>
    if wipedBy e || changedBy P e then false
    else (forcesChange e.input && e.output.reply.succeeds) || changeRequired P past

structure PolicyKept (P : Platform) (past : History) (e : Entry) : Prop where
  largest : minLength e.after.pins = largestAccepted (e :: past)
  raised : wipedBy e = false → minLength e.before.pins ≤ minLength e.after.pins
  refused : ∀ n, minLengthRequest e.input = some n → n < minLength e.before.pins ∨ 256 ≤ n →
    e.output.reply.succeeds = false ∧ e.after.pins = e.before.pins
  long : ∀ pin, takenPin P e.before e.input e.output = some pin → minLength e.before.pins ≤ pin.length
  written : e.after.pins.pin = e.before.pins.pin ∨ wipedBy e = true ∨
    ∃ pin, takenPin P e.before e.input e.output = some pin ∧ e.after.pins.pin = some (hashPin P pin)
  token : changeRequired P past = true → ∀ t, .tokenIssued t ∉ e.output.acts
  cleared : changedBy P e = true → e.after.pins.forcePin ≠ some true

/-! When the code keeps it. -/

/-- The request asks for a token, and what the handler looks at lets it have one. -/
def asksToken (d : Device) (i : Input) : Bool :=
  i.env.allocates .response && (pinRequestOf i).any fun req => isPinSet d.pins &&
    (req.subCommand == 0x05 || (req.subCommand == 0x09 && decide (getFailedPinAttempts i.env d.pins < 10)
      && req.permissions != 0))

/-- The old PIN in a changePIN is right. -/
def changeAuthorized (P : Platform) (env : Env) (d : Device) (req : ClientPinRequest) : Bool :=
  isPinSet d.pins && decide (getFailedPinAttempts env d.pins < 10) &&
    req.newPinEnc.length == 64 && req.pinHashEnc.length == 16 && decide (16 ≤ req.pinAuth.length) &&
    (sharedSecret P d.session req).any fun secret =>
      pinAuthOk P secret (req.newPinEnc ++ req.pinHashEnc) req.pinAuth && pinHashEncOk P env secret d.pins req

/-- A change with the right PIN and a new one that is long enough. -/
def changes (P : Platform) (d : Device) (i : Input) : Bool :=
  match i.event with
  | .serial (.updatePin currentPin newPin) =>
    d.serial.authenticated && currentPin != [] && newPin != [] && i.env.opens .pin .read &&
      d.pins.pin == some (hashPin P currentPin) && decide (getMinPinLength i.env d.pins ≤ newPin.length)
  | _ => i.env.allocates .response && (pinRequestOf i).any fun req => req.subCommand == 0x04 &&
    changeAuthorized P i.env d req &&
    (encryptedPin P d req).any fun pin => decide (getMinPinLength i.env d.pins ≤ pin.length)

structure PolicyHeeded (P : Platform) (past : History) (d : Device) (i : Input) : Prop where
  raises : i.env.allocates .response = true → ∀ n, minLengthRequest i = some n →
    minLength d.pins ≤ n ∧ n < 256 ∧ (i.env.opens .minPin .write = true ∨ n = minLength d.pins)
  read : ∀ pin, offeredPin P d i = some pin →
    i.env.opens .minPin .read = true ∨ minLength d.pins ≤ pin.length
  unforced : changeRequired P past = true → asksToken d i = false
  unflagged : changes P d i = true → d.pins.forcePin ≠ some true

instance : Decidable (PolicyHeeded P past d i) :=
  decidable_of_iff ((i.env.allocates .response = true → ∀ n ∈ minLengthRequest i,
      minLength d.pins ≤ n ∧ n < 256 ∧ (i.env.opens .minPin .write = true ∨ n = minLength d.pins)) ∧
    (∀ pin ∈ offeredPin P d i, i.env.opens .minPin .read = true ∨ minLength d.pins ≤ pin.length) ∧
    (changeRequired P past = true → asksToken d i = false) ∧
    (changes P d i = true → d.pins.forcePin ≠ some true))
    ⟨fun h => ⟨h.1, h.2.1, h.2.2.1, h.2.2.2⟩, fun h => ⟨h.raises, h.read, h.unforced, h.unflagged⟩⟩

/-! What a step does to the files. -/

/-- Nothing but the count of failures differs. -/
structure SamePolicy (p p' : PinFiles) : Prop where
  pin : p'.pin = p.pin
  minPin : p'.minPin = p.minPin
  forcePin : p'.forcePin = p.forcePin

/-- A PIN that was long enough for the length that could be read has been stored,
or its file did not open. -/
structure PinTaken (P : Platform) (env : Env) (p p' : PinFiles) (pin : Str) : Prop where
  long : getMinPinLength env p ≤ pin.length
  pin : p'.pin = p.pin ∨ p'.pin = some (hashPin P pin)
  minPin : p'.minPin = p.minPin
  forcePin : p'.forcePin = p.forcePin

theorem createPin_taken {p p' : PinFiles} {pin : Str} (h : createPin P env p pin = some p') :
    PinTaken P env p p' pin := by
  unfold createPin at h
  split at h
  · cases h
  next hlen =>
    split at h
    · cases h
      exact ⟨Nat.not_lt.mp hlen, .inr rfl, rfl, rfl⟩
    · cases h
      exact ⟨Nat.not_lt.mp hlen, .inl rfl, rfl, rfl⟩

/-- The files after a step that is not authenticatorConfig. -/
inductive PinsStep (P : Platform) (d : Device) (i : Input) (r : Output × Device) : Prop where
  | kept (same : SamePolicy d.pins r.2.pins) (nothing : takenPin P d i r.1 = none)
    (whole : .wiped ∉ r.1.acts)
  | wiped (mem : .wiped ∈ r.1.acts) (pins : r.2.pins = {}) (nothing : takenPin P d i r.1 = none)
  | taken (pin : Str) (offered : takenPin P d i r.1 = some pin) (took : PinTaken P i.env d.pins r.2.pins pin)
    (whole : .wiped ∉ r.1.acts) (change : asksChange i = true → changes P d i = true)

theorem takenPin_none {o : Output} (h : offeredPin P d i = none) : takenPin P d i o = none := by
  rw [takenPin, h, ite_self]

theorem takenPin_refused {o : Output} (h : o.reply.succeeds = false) : takenPin P d i o = none := by
  rw [takenPin, h, if_neg Bool.false_ne_true]

theorem SamePolicy.refl (p : PinFiles) : SamePolicy p p := ⟨rfl, rfl, rfl⟩

theorem incrementFailedPinAttempts_same (env : Env) (p : PinFiles) :
    SamePolicy p (incrementFailedPinAttempts env p) := by
  unfold incrementFailedPinAttempts
  split <;> exact ⟨rfl, rfl, rfl⟩

/-! ClientPIN. -/

theorem storeNewPin_takes (P : Platform) (env : Env) (p : PinFiles) (secret : Bytes) (req : ClientPinRequest) :
    ((∃ code, (storeNewPin P env secret p req).1 = .status code) ∧ (storeNewPin P env secret p req).2 = p) ∨
      ∃ padded, aesCbcZeroIvDecrypt P secret req.newPinEnc = some padded ∧
        (storeNewPin P env secret p req).1 = .items [.map 0] ∧
        PinTaken P env p (storeNewPin P env secret p req).2 (decryptedPin padded) := by
  unfold storeNewPin
  cases hd : aesCbcZeroIvDecrypt P secret req.newPinEnc with
  | none => exact .inl ⟨⟨_, rfl⟩, rfl⟩
  | some padded =>
    simp only
    cases hc : createPin P env p (decryptedPin padded) with
    | none => exact .inl ⟨⟨_, rfl⟩, rfl⟩
    | some p' => exact .inr ⟨padded, rfl, rfl, createPin_taken hc⟩

theorem setPin_takes (P : Platform) (env : Env) (d : Device) (req : ClientPinRequest) :
    ((∃ code, (setPin P env d.pins d.session req).1 = .status code) ∧
      (setPin P env d.pins d.session req).2.2 = d.pins) ∨
    ∃ pin, encryptedPin P d req = some pin ∧ (setPin P env d.pins d.session req).1 = .items [.map 0] ∧
      PinTaken P env d.pins (setPin P env d.pins d.session req).2.2 pin := by
  unfold setPin encryptedPin
  split
  · exact .inl ⟨⟨_, rfl⟩, rfl⟩
  split
  · exact .inl ⟨⟨_, rfl⟩, rfl⟩
  cases sharedSecret P d.session req with
  | none => exact .inl ⟨⟨_, rfl⟩, rfl⟩
  | some secret =>
    simp only
    split
    · exact .inl ⟨⟨_, rfl⟩, rfl⟩
    · rcases storeNewPin_takes P env d.pins secret req with
        hrefused | ⟨padded, hd, hreply, htook⟩
      · exact .inl hrefused
      · exact .inr ⟨decryptedPin padded, by simp [hd], hreply, htook⟩

theorem changePin_takes (P : Platform) (env : Env) (d : Device) (req : ClientPinRequest) :
    ((∃ code, (changePin P env d.pins d.session req).1 = .status code) ∧
      SamePolicy d.pins (changePin P env d.pins d.session req).2.2) ∨
    ∃ pin, encryptedPin P d req = some pin ∧ (changePin P env d.pins d.session req).1 = .items [.map 0] ∧
      changeAuthorized P env d req = true ∧
      PinTaken P env d.pins (changePin P env d.pins d.session req).2.2 pin := by
  unfold changePin encryptedPin changeAuthorized
  cases hset : isPinSet d.pins with
  | false => exact .inl ⟨⟨_, rfl⟩, .refl _⟩
  | true =>
    simp only [Bool.not_true, Bool.false_eq_true, if_false]
    split
    · exact .inl ⟨⟨_, rfl⟩, .refl _⟩
    next hten =>
      split
      · exact .inl ⟨⟨_, rfl⟩, .refl _⟩
      next hlengths =>
        cases sharedSecret P d.session req with
        | none => exact .inl ⟨⟨_, rfl⟩, .refl _⟩
        | some secret =>
          simp only
          split
          · exact .inl ⟨⟨_, rfl⟩, .refl _⟩
          next hauth =>
            split
            · exact .inl ⟨⟨_, rfl⟩, incrementFailedPinAttempts_same env d.pins⟩
            next hknown =>
              rcases storeNewPin_takes P env (resetFailedPinAttempts d.pins) secret req with ⟨hcode, hp⟩ | ⟨padded, hd, hreply, htook⟩
              · refine .inl ⟨hcode, ?_⟩
                rw [hp]
                exact ⟨rfl, rfl, rfl⟩
              · simp only [not_or, not_not, not_lt] at hlengths
                refine .inr ⟨decryptedPin padded, by simp [hd], hreply, ?_, ⟨htook.long, htook.pin,
                  htook.minPin, htook.forcePin⟩⟩
                simp only [Bool.not_eq_true', Bool.not_eq_false] at hauth hknown
                simp [hlengths, hauth, hknown, Nat.lt_of_not_le hten]

theorem clientPin_step {body : Bytes} (he : i.event = .cbor (0x06 :: body))
    (hroom : i.env.allocates .response = true) : PinsStep P d i (runClientPin P i.env d body) := by
  have hreq : pinRequestOf i = parseClientPin body := by simp [pinRequestOf, he]
  have hoffered : offeredPin P d i = (parseClientPin body).bind fun req =>
      if req.subCommand = 0x03 ∨ req.subCommand = 0x04 then encryptedPin P d req else none := by
    simp [offeredPin, he, hreq]
  have hwhole : .wiped ∉ (runClientPin P i.env d body).1.acts := by
    intro hm
    have hkinds : OfKinds i.env d.bio (commandKinds 0x06) (clientPin P i.env d.pins d.session body).acts :=
      clientPin_kinds
    have hkind := (hkinds _ hm).1
    simp [Act.kind, commandKinds] at hkind
  unfold runClientPin clientPin at hwhole ⊢
  cases hp : parseClientPin body with
  | none => exact .kept (.refl _) (takenPin_refused rfl) (by simp)
  | some req =>
    simp only [hp, Option.bind_some] at hoffered hwhole ⊢
    by_cases hset : req.subCommand = 0x03
    · rw [hset, if_pos (.inl rfl)] at hoffered
      simp only [clientPinSubCommand, hset] at hwhole ⊢
      rcases setPin_takes P i.env d req with
        ⟨⟨code, hcode⟩, hpins⟩ | ⟨pin, hpin, hreply, htook⟩
      · exact .kept (by rw [hpins]; exact .refl _) (takenPin_refused (by rw [hcode]; rfl)) hwhole
      · refine .taken pin ?_ htook hwhole ?_
        · rw [takenPin, hreply, hoffered, hpin]
          rfl
        · intro ha
          simp [asksChange, he, hreq, hp, hset] at ha
    by_cases hchange : req.subCommand = 0x04
    · rw [hchange, if_pos (.inr rfl)] at hoffered
      simp only [clientPinSubCommand, hchange] at hwhole ⊢
      rcases changePin_takes P i.env d req with
        ⟨⟨code, hcode⟩, hpins⟩ | ⟨pin, hpin, hreply, hauthorized, htook⟩
      · exact .kept hpins (takenPin_refused (by rw [hcode]; rfl)) hwhole
      · refine .taken pin ?_ htook hwhole ?_
        · rw [takenPin, hreply, hoffered, hpin]
          rfl
        · intro _
          simp [changes, he, hreq, hp, hroom, hchange, hauthorized, hpin, htook.long]
    · rw [if_neg (by simp [hset, hchange])] at hoffered
      refine .kept ?_ (takenPin_none hoffered) hwhole
      unfold clientPinSubCommand
      split
      · exact .refl _
      · exact .refl _
      next h => exact absurd h hset
      next h => exact absurd h hchange
      all_goals exact .refl _

/-! The serial front end. -/

theorem pinErrors_fail (v : PinVerdict) : (Reply.serial (pinErrors v)).succeeds = false := by
  cases v <;> simp [pinErrors, Reply.succeeds]

/-- Comparing the PIN leaves an act behind. -/
theorem PinsStep.guess {r : SerialResult} (h : PinsStep P d i r.run) :
    PinsStep P d i (SerialResult.run { r with acts := .pinGuess true :: r.acts }) := by
  cases h with
  | kept same nothing whole =>
    exact .kept same nothing fun hm => (List.mem_cons.mp hm).elim (by simp) whole
  | wiped mem pins nothing => exact .wiped (List.mem_cons_of_mem _ mem) pins nothing
  | taken pin offered took whole change =>
    exact .taken pin offered took (fun hm => (List.mem_cons.mp hm).elim (by simp) whole) change

theorem checkPin_step {pin : Str} {accepted : Device → SerialResult}
    (hacc : d.pins.pin = some (hashPin P pin) → i.env.opens .pin .read = true →
      PinsStep P d i (accepted { d with pins := resetFailedPinAttempts d.pins }).run) :
    PinsStep P d i (checkPin P i.env d pin accepted).run := by
  refine checkPin_cases (Q := fun r => PinsStep P d i r.run) ?_ ?_ ?_ ?_
  · exact .kept (.refl _) (takenPin_refused rfl) List.not_mem_nil
  · intro hs hr
    exact (hacc hs hr).guess
  · intro stored n _ _ _ _
    exact .kept (incrementFailedPinAttempts_same _ _) (takenPin_refused (pinErrors_fail (.wrong n)))
      (by simp [SerialResult.run])
  · intro stored _ _ _
    exact .wiped (by simp [SerialResult.run]) rfl (takenPin_refused (pinErrors_fail .wiped))

theorem replacePin_step {currentPin newPin : Str} (he : i.event = .serial (.updatePin currentPin newPin))
    (hargs : currentPin ≠ [] ∧ newPin ≠ []) (ha : d.serial.authenticated = true)
    (hs : d.pins.pin = some (hashPin P currentPin)) (hr : i.env.opens .pin .read = true) :
    PinsStep P d i (replacePin P i.env newPin { d with pins := resetFailedPinAttempts d.pins }).run := by
  unfold replacePin
  cases hc : createPin P i.env (resetFailedPinAttempts d.pins) newPin with
  | none =>
    exact .kept ⟨rfl, rfl, rfl⟩ (takenPin_refused (by simp [SerialResult.run, Reply.succeeds])) List.not_mem_nil
  | some p =>
    have htook := createPin_taken hc
    refine .taken newPin ?_ ⟨htook.long, htook.pin, htook.minPin, htook.forcePin⟩ List.not_mem_nil ?_
    · simp [takenPin, SerialResult.run, Reply.succeeds, offeredPin, he]
    · intro _
      have hlong : getMinPinLength i.env d.pins ≤ newPin.length := htook.long
      simp [changes, he, ha, hargs, hr, hs, hlong]

theorem authenticatedCommand_updatePin (currentPin newPin : Str) :
    authenticatedCommand P env d (.updatePin currentPin newPin) =
      if currentPin = [] ∨ newPin = [] then ⟨[.error "AUTH" "MISSING_ARGS" []], [], d⟩
      else checkPin P env d currentPin (replacePin P env newPin) := rfl

theorem updatePin_step {currentPin newPin : Str} (he : i.event = .serial (.updatePin currentPin newPin)) :
    PinsStep P d i (serialCommand P i.env d (.updatePin currentPin newPin)).run := by
  have hrefused : ∀ code, PinsStep P d i (SerialResult.run ⟨[.error "AUTH" code []], [], d⟩) := fun code =>
    .kept (.refl _) (takenPin_refused (by simp [SerialResult.run, Reply.succeeds])) List.not_mem_nil
  simp only [serialCommand]
  split
  · exact hrefused _
  split
  · exact hrefused _
  next ha =>
    rw [authenticatedCommand_updatePin]
    by_cases hargs : currentPin = [] ∨ newPin = []
    · rw [if_pos hargs]
      exact hrefused _
    · rw [if_neg hargs]
      have hauth : d.serial.authenticated = true := by simpa using ha
      exact checkPin_step fun hs hr => replacePin_step he (not_or.mp hargs) hauth hs hr

theorem createPin_step {pin : Str} (he : i.event = .serial (.createPin pin)) :
    PinsStep P d i (serialCommand P i.env d (.createPin pin)).run := by
  have hrefused : ∀ module code, PinsStep P d i (SerialResult.run ⟨[.error module code []], [], d⟩) :=
    fun module code =>
      .kept (.refl _) (takenPin_refused (by simp [SerialResult.run, Reply.succeeds])) List.not_mem_nil
  simp only [serialCommand]
  split
  · cases hc : createPin P i.env d.pins pin with
    | none => exact hrefused _ _
    | some p =>
      refine .taken pin ?_ (createPin_taken hc) List.not_mem_nil ?_
      · simp [takenPin, SerialResult.run, Reply.succeeds, offeredPin, he]
      · intro ha
        simp [asksChange, he, pinRequestOf] at ha
  split
  · exact hrefused _ _
  · exact hrefused _ _

theorem serialCommand_step {c : SerialCommand} (he : i.event = .serial c) :
    PinsStep P d i (serialCommand P i.env d c).run := by
  by_cases hcreate : ∃ pin, c = .createPin pin
  · obtain ⟨pin, rfl⟩ := hcreate
    exact createPin_step he
  by_cases hupdate : ∃ currentPin newPin, c = .updatePin currentPin newPin
  · obtain ⟨currentPin, newPin, rfl⟩ := hupdate
    exact updatePin_step he
  have hoffered : offeredPin P d i = none := by
    unfold offeredPin
    split
    next pin h => exact absurd ⟨pin, by simpa [he] using h⟩ hcreate
    next currentPin newPin h => exact absurd ⟨currentPin, newPin, by simpa [he] using h⟩ hupdate
    next => simp [pinRequestOf, he]
  have hquiet : ∀ {r : SerialResult}, r.dev.pins = d.pins → .wiped ∉ r.acts → PinsStep P d i r.run :=
    fun hpins hacts => .kept (by rw [SerialResult.run, hpins]; exact .refl _) (takenPin_none hoffered) hacts
  refine serialCommand_cases (Q := fun r => PinsStep P d i r.run) ?_ ?_ ?_ ?_ ?_ ?_ ?_ ?_
  · intro ms v s alg dflt
    exact hquiet rfl List.not_mem_nil
  · intro ms pin p hc _ _
    exact absurd ⟨pin, hc⟩ hcreate
  · intro pin _ _
    exact checkPin_step fun _ _ => .kept ⟨rfl, rfl, rfl⟩ (takenPin_none hoffered) List.not_mem_nil
  · intro currentPin newPin hc _
    exact absurd ⟨currentPin, newPin, hc⟩ hupdate
  · intro ms site k _ _
    exact hquiet rfl (by simp [deletedOf])
  · intro ms _
    exact hquiet rfl List.not_mem_nil
  · intro ms id _ _
    exact hquiet rfl List.not_mem_nil
  · intro ms _ _
    exact .wiped List.mem_cons_self rfl (takenPin_none hoffered)

/-! Every other step. -/

theorem authenticatorReset_step (hoffered : offeredPin P d i = none) :
    PinsStep P d i (authenticatorReset i.env d) := by
  unfold authenticatorReset
  split
  · exact .kept (.refl _) (takenPin_none hoffered) List.not_mem_nil
  · exact .kept (.refl _) (takenPin_none hoffered) List.not_mem_nil
  · exact .wiped (by simp) rfl (takenPin_none hoffered)

theorem commandKinds_wiped {code : UInt8} (h : ActKind.wiped ∈ commandKinds code) : code = 0x07 := by
  unfold commandKinds at h
  split at h <;> first | rfl | simp [fingerKinds] at h

theorem other_step (hoffered : offeredPin P d i = none) (hpin : i.event.code ≠ some 0x06)
    (hconfig : i.event.code ≠ some 0x0D) (hserial : ∀ c, i.event ≠ .serial c) :
    PinsStep P d i (step P d i) := by
  have hkept : ∀ {r : Output × Device}, r.2.pins = d.pins → .wiped ∉ r.1.acts → PinsStep P d i r :=
    fun hpins hacts => .kept (by rw [hpins]; exact .refl _) (takenPin_none hoffered) hacts
  by_cases hreset : ∃ body, i.event = .cbor (0x07 :: body)
  · obtain ⟨body, he⟩ := hreset
    simp only [step, he, processCborCommand, cborCommand]
    split
    · exact authenticatorReset_step hoffered
    · exact hkept rfl List.not_mem_nil
  have hwhole : .wiped ∉ (step P d i).1.acts := by
    intro hm
    refine Event.kinds_cases ?_ ?_ ?_ ?_ (step_kinds P d i _ hm).1
    · intro code hcode hkind
      obtain ⟨body, he, -⟩ := step_code (P := P) (d := d) hcode
      rw [commandKinds_wiped hkind] at he
      exact hreset ⟨body, he⟩
    · intro data _ hkind
      simp [Act.kind, u2fKinds, fingerKinds] at hkind
    · intro c he _
      exact hserial c he
    · intro _ hkind
      cases hkind
  refine hkept ?_ hwhole
  refine step_cases (Q := fun r => r.2.pins = d.pins) ?_ ?_ ?_ ?_ ?_ ?_ ?_ ?_ ?_ ?_ ?_ ?_ ?_ ?_
  · intro reply
    rfl
  · intro body _
    rfl
  · intro body req _ _ _
    rfl
  · intro body _
    rfl
  · intro body he
    exact absurd (by rw [he]; rfl) hpin
  · intro body he
    exact absurd ⟨body, he⟩ hreset
  · intro code body _ _
    rfl
  · intro code body _ _
    rfl
  · intro body _
    rfl
  · intro body he
    exact absurd (by rw [he]; rfl) hconfig
  · intro data _
    rfl
  · intro c he
    exact absurd he (hserial c)
  · intro _
    exact updateFingerprintAsync_cases (Q := fun r => r.dev.pins = d.pins)
      (fun _ _ _ => rfl) (fun _ _ _ _ _ _ _ _ => rfl)
  · intro _
    rfl

theorem step_pins (hconfig : i.event.code ≠ some 0x0D) : PinsStep P d i (step P d i) := by
  by_cases hserial : ∃ c, i.event = .serial c
  · obtain ⟨c, he⟩ := hserial
    simp only [step, he]
    exact serialCommand_step he
  by_cases hpin : i.event.code = some 0x06
  · obtain ⟨body, he, ⟨refusal, hidle⟩ | ⟨hroom, hrun⟩⟩ := step_code (P := P) (d := d) hpin
    · rw [hidle]
      exact .kept (.refl _) (takenPin_refused rfl) List.not_mem_nil
    · rw [hrun]
      exact clientPin_step he hroom
  · have hoffered : offeredPin P d i = none := by
      unfold offeredPin pinRequestOf
      split
      next pin he => exact absurd ⟨_, he⟩ hserial
      next currentPin newPin he => exact absurd ⟨_, he⟩ hserial
      next =>
        split
        next body he => exact absurd (by rw [he]; rfl) hpin
        next => rfl
    exact other_step hoffered hpin hconfig fun c he => hserial ⟨c, he⟩

/-! Tokens and settings. -/

theorem clientPin_token {body : Bytes} {t : Bytes} (he : i.event = .cbor (0x06 :: body))
    (hroom : i.env.allocates .response = true)
    (hm : .tokenIssued t ∈ (clientPin P i.env d.pins d.session body).acts) : asksToken d i = true := by
  have hreq : pinRequestOf i = parseClientPin body := by simp [pinRequestOf, he]
  unfold clientPin at hm
  cases hp : parseClientPin body with
  | none => simp [hp] at hm
  | some req =>
    simp only [hp] at hm
    unfold asksToken
    rw [hreq, hp, hroom]
    unfold clientPinSubCommand at hm
    split at hm
    · cases hm
    · cases hm
    · simp [setPin_acts] at hm
    · simp only [changePin] at hm
      repeat' split at hm
      all_goals simp at hm
    next hsub =>
      simp only [getPinToken] at hm
      cases hset : isPinSet d.pins with
      | false => simp [hset] at hm
      | true => simp [hset, hsub]
    next hsub =>
      simp only [getPinUvAuthTokenUsingPinWithPermissions] at hm
      cases hset : isPinSet d.pins with
      | false => simp [hset] at hm
      | true =>
        by_cases hten : 10 ≤ getFailedPinAttempts i.env d.pins
        · simp [hset, hten] at hm
        · by_cases hperm : req.permissions = 0
          · simp [hset, hten, hperm] at hm
          · simp [hset, hsub, hperm, Nat.lt_of_not_le hten]
    · cases hm

theorem step_token {t : Bytes} (hm : .tokenIssued t ∈ (step P d i).1.acts) : asksToken d i = true := by
  have hcode : i.event.code = some 0x06 := by
    refine Event.kinds_cases ?_ ?_ ?_ ?_ (step_kinds P d i _ hm).1
    · intro code hcode hkind
      unfold commandKinds at hkind
      split at hkind
      all_goals first | exact hcode | simp [Act.kind, fingerKinds] at hkind
    · intro data _ hkind
      simp [Act.kind, u2fKinds, fingerKinds] at hkind
    · intro c _ hkind
      simp [Act.kind, serialKinds] at hkind
    · intro _ hkind
      cases hkind
  obtain ⟨body, he, ⟨refusal, hidle⟩ | ⟨hroom, hrun⟩⟩ := step_code (P := P) (d := d) hcode
  · rw [hidle] at hm
    cases hm
  · rw [hrun] at hm
    exact clientPin_token he hroom hm

theorem minLength_eq {p : PinFiles} (ho : env.opens .minPin .read = true) :
    getMinPinLength env p = minLength p := by
  unfold getMinPinLength minLength
  rw [if_pos ho]
  simp only
  split <;> omega

/-- A length that fits and is not below the one in force comes into force. -/
theorem minLength_set {p : PinFiles} {n : Nat} (hle : minLength p ≤ n) (hfit : n < 256)
    (hw : env.opens .minPin .write = true ∨ n = minLength p) :
    minLength (setMinPinLength env p (UInt8.ofNat n)) = n := by
  unfold setMinPinLength
  split
  · have hbyte : (UInt8.ofNat n).toNat = n := by
      rw [UInt8.toNat_ofNat']
      exact Nat.mod_eq_of_lt hfit
    unfold minLength at hle ⊢
    simp only [Option.getD_some, hbyte]
    omega
  next hclosed => exact (hw.resolve_left hclosed).symm

theorem minLength_same {p p' : PinFiles} (h : p'.minPin = p.minPin) : minLength p' = minLength p := by
  rw [minLength, h, minLength]

/-! Runs. -/

theorem wipedBy_eq_false (h : .wiped ∉ e.output.acts) : wipedBy e = false := by
  rw [wipedBy]
  simpa using h

theorem wipedBy_eq_true (h : .wiped ∈ e.output.acts) : wipedBy e = true := by
  rw [wipedBy]
  simpa using h

/-- A PIN that is taken is as long as the length in force. -/
theorem PinTaken.within {p' : PinFiles} {pin : Str} (h : PinTaken P i.env d.pins p' pin)
    (hg : PolicyHeeded P past d i) (ho : offeredPin P d i = some pin) : minLength d.pins ≤ pin.length := by
  rcases hg.read pin ho with hread | hlong
  · rw [← minLength_eq hread]
    exact h.long
  · exact hlong

theorem policyKept_other (hi : minLength d.pins = largestAccepted past) (hg : PolicyHeeded P past d i)
    (hconfig : i.event.code ≠ some 0x0D) : PolicyKept P past (Trace.entry (step P) d i) := by
  have hrequest : configRequest i = none := by
    unfold configRequest
    split
    next body he => exact absurd (by rw [he]; rfl) hconfig
    next => rfl
  have hnone : minLengthRequest i = none := by rw [minLengthRequest, hrequest, Option.bind_none]
  have haccepted : acceptedLength (Trace.entry (step P) d i) = 0 := by
    rw [acceptedLength]
    simp [Trace.entry, hnone]
  have hlargest : wipedBy (Trace.entry (step P) d i) = false →
      largestAccepted (Trace.entry (step P) d i :: past) = minLength d.pins := by
    intro hw
    rw [largestAccepted, hw, if_neg Bool.false_ne_true, haccepted, hi, Nat.max_eq_left (Nat.zero_le _)]
  have hrefused : ∀ n, minLengthRequest i = some n → n < minLength d.pins ∨ 256 ≤ n →
      (step P d i).1.reply.succeeds = false ∧ (step P d i).2.pins = d.pins := by
    intro n hn
    rw [hnone] at hn
    cases hn
  have htoken : changeRequired P past = true → ∀ t, .tokenIssued t ∉ (step P d i).1.acts := by
    intro hforced t hm
    have hnot := hg.unforced hforced
    rw [step_token hm] at hnot
    cases hnot
  -- A step that takes no PIN changes none.
  have hunchanged : takenPin P d i (step P d i).1 = none →
      changedBy P (Trace.entry (step P) d i) = false := by
    intro hn
    rw [changedBy]
    simp [Trace.entry, hn]
  have hnolong : takenPin P d i (step P d i).1 = none → ∀ pin, takenPin P d i (step P d i).1 = some pin →
      minLength d.pins ≤ pin.length := by
    intro hn pin hp
    rw [hn] at hp
    cases hp
  cases step_pins (P := P) (d := d) hconfig with
  | kept same nothing whole =>
    have hmin : minLength (step P d i).2.pins = minLength d.pins := minLength_same same.minPin
    refine ⟨?_, fun _ => Nat.le_of_eq hmin.symm, hrefused, hnolong nothing, .inl same.pin, htoken, ?_⟩
    · rw [hlargest (wipedBy_eq_false whole)]
      exact hmin
    · rw [hunchanged nothing]
      exact fun h => absurd h (by decide)
  | wiped mem pins nothing =>
    have hwiped : wipedBy (Trace.entry (step P) d i) = true := wipedBy_eq_true mem
    refine ⟨?_, ?_, hrefused, hnolong nothing, .inr (.inl hwiped), htoken, ?_⟩
    · rw [largestAccepted, hwiped, if_pos rfl]
      exact congrArg minLength pins
    · rw [hwiped]
      exact fun h => absurd h (by decide)
    · rw [hunchanged nothing]
      exact fun h => absurd h (by decide)
  | taken pin offered took whole change =>
    have hmin : minLength (step P d i).2.pins = minLength d.pins := minLength_same took.minPin
    have hoffered : offeredPin P d i = some pin := by
      rw [takenPin] at offered
      split at offered
      · exact offered
      · cases offered
    refine ⟨?_, fun _ => Nat.le_of_eq hmin.symm, hrefused, ?_, ?_, htoken, ?_⟩
    · rw [hlargest (wipedBy_eq_false whole)]
      exact hmin
    · intro pin' hp
      cases offered.symm.trans hp
      exact took.within hg hoffered
    · exact took.pin.imp_right fun h => .inr ⟨pin, offered, h⟩
    · intro hchanged
      have hasks : asksChange i = true := by
        simp only [changedBy, Trace.entry, Bool.and_eq_true] at hchanged
        exact hchanged.1
      have hflag := hg.unflagged (change hasks)
      rw [← took.forcePin] at hflag
      exact hflag

/-- What authenticatorConfig leaves of the length, and that it refuses nothing. -/
theorem config_step (hg : PolicyHeeded P past d i) (hconfig : i.event.code = some 0x0D) :
    ((step P d i).1.reply.succeeds = false ∧ (step P d i).2.pins = d.pins) ∨
      (minLengthRequest i = none ∧ minLength (step P d i).2.pins = minLength d.pins) ∨
      ∃ n, minLengthRequest i = some n ∧ (step P d i).1.reply.succeeds = true ∧
        minLength d.pins ≤ n ∧ n < 256 ∧ minLength (step P d i).2.pins = n := by
  obtain ⟨body, he, ⟨refusal, hidle⟩ | ⟨hroom, hrun⟩⟩ := step_code (P := P) (d := d) hconfig
  · rw [hidle]
    exact .inl ⟨rfl, rfl⟩
  · have hrequest : configRequest i = parseConfig body := by simp [configRequest, he]
    have hasked : minLengthRequest i = (parseConfig body).bind fun req =>
        if req.subCommand = 0x03 then some req.minPinLenParam else none := by
      rw [minLengthRequest, hrequest]
    rw [hrun]
    simp only [cborCommand, runConfig, authenticatorConfig]
    cases hp : parseConfig body with
    | none => exact .inl ⟨rfl, rfl⟩
    | some req =>
      rw [hp, Option.bind_some] at hasked
      simp only
      split
      next hsub => exact .inr (.inl ⟨by rw [hasked, hsub]; rfl, rfl⟩)
      next hsub =>
        refine .inr (.inl ⟨by rw [hasked, hsub]; rfl, minLength_same ?_⟩)
        unfold setForcePinChange
        split <;> rfl
      next hsub =>
        rw [if_pos hsub] at hasked
        obtain ⟨hle, hfit, hw⟩ := hg.raises hroom _ hasked
        exact .inr (.inr ⟨_, hasked, rfl, hle, hfit, minLength_set hle hfit hw⟩)
      · exact .inl ⟨rfl, rfl⟩

theorem policyKept_config (hi : minLength d.pins = largestAccepted past) (hg : PolicyHeeded P past d i)
    (hconfig : i.event.code = some 0x0D) : PolicyKept P past (Trace.entry (step P) d i) := by
  obtain ⟨body, he, hrun⟩ := step_code (P := P) (d := d) hconfig
  have hoffered : offeredPin P d i = none := by simp [offeredPin, pinRequestOf, he]
  have hnothing : takenPin P d i (step P d i).1 = none := takenPin_none hoffered
  have hunchanged : changedBy P (Trace.entry (step P) d i) = false := by
    rw [changedBy]
    simp [Trace.entry, hnothing]
  have hacts : (step P d i).1.acts = [] := by
    rcases hrun with ⟨refusal, hidle⟩ | ⟨-, hrun⟩
    · rw [hidle]
    · rw [hrun]
      rfl
  have hwhole : wipedBy (Trace.entry (step P) d i) = false := by
    refine wipedBy_eq_false ?_
    simp [Trace.entry, hacts]
  have hpin : (step P d i).2.pins.pin = d.pins.pin := by
    rcases hrun with ⟨refusal, hidle⟩ | ⟨-, hrun⟩
    · rw [hidle]
    · rw [hrun]
      exact authenticatorConfig_pin
  -- What becomes of the length.
  have hlength : minLength (step P d i).2.pins =
      max (minLength d.pins) (acceptedLength (Trace.entry (step P) d i)) := by
    have haccepted : acceptedLength (Trace.entry (step P) d i) =
        if (step P d i).1.reply.succeeds then (minLengthRequest i).getD 0 else 0 := rfl
    rw [haccepted]
    rcases config_step hg hconfig with ⟨hfail, hsame⟩ | ⟨hnone, hsame⟩ | ⟨n, hn, hdone, hle, -, hnew⟩
    · rw [hfail, if_neg Bool.false_ne_true, hsame, Nat.max_eq_left (Nat.zero_le _)]
    · rw [hnone, hsame, Option.getD_none, ite_self, Nat.max_eq_left (Nat.zero_le _)]
    · rw [hn, hdone, if_pos rfl, hnew, Option.getD_some, Nat.max_eq_right hle]
  refine ⟨?_, ?_, ?_, ?_, .inl hpin, ?_, ?_⟩
  · rw [largestAccepted, hwhole, if_neg Bool.false_ne_true, ← hi]
    exact hlength
  · intro _
    rw [Trace.entry, hlength]
    exact Nat.le_max_left _ _
  · intro n hn hbad
    rcases config_step hg hconfig with hrefused | ⟨hnone, -⟩ | ⟨n', hn', -, hle, hfit, -⟩
    · exact hrefused
    · cases hnone.symm.trans hn
    · cases hn'.symm.trans hn
      have hbad : n < minLength d.pins ∨ 256 ≤ n := hbad
      omega
  · intro pin hp
    rw [Trace.entry, hnothing] at hp
    cases hp
  · intro _ t hm
    rw [Trace.entry, hacts] at hm
    cases hm
  · rw [hunchanged]
    exact fun h => absurd h (by decide)

/-- In every run whose steps meet the condition, the policy that was asked for is the
one in force. -/
theorem pin_policy_kept (P : Platform) (inputs : List Input)
    (hg : Trace.Guarded (step P) (PolicyHeeded P) initial inputs) :
    Trace.Always (PolicyKept P) (run P inputs) := by
  have hone : ∀ past d i, minLength d.pins = largestAccepted past → PolicyHeeded P past d i →
      PolicyKept P past (Trace.entry (step P) d i) := by
    intro past d i hi hg
    by_cases hconfig : i.event.code = some 0x0D
    · exact policyKept_config hi hg hconfig
    · exact policyKept_other hi hg hconfig
  exact Trace.always (I := fun past d => minLength d.pins = largestAccepted past)
    (fun past d i hi hg => (hone past d i hi hg).largest) hone rfl hg

section Bench

open Bench

def configure (items : List Item) : Input := ⟨request 0x0D items, idleEnv 1 60000⟩

def setMinPinLengthTo (n : Nat) : Input :=
  configure [.map 2, .uint 1, .uint 0x03, .uint 2, .map 1, .uint 2, .uint n]

def forceChange : Input := configure [.map 1, .uint 1, .uint 0x02]

def serialInput (c : SerialCommand) : Input := ⟨.serial c, idleEnv 1 60000⟩

/-- The length goes up twice, with a PIN stored each time. -/
def raisedTwice : List Input :=
  [setMinPinLengthTo 5, serialInput (.createPin (text "12345")), setMinPinLengthTo 6,
    serialInput (.verifyPin (text "12345")), serialInput (.updatePin (text "12345") (text "123456"))]

theorem pin_policy_kept_raised :
    minLength (Trace.final (step platform) initial raisedTwice).pins = 6 ∧
      Trace.Always (PolicyKept platform) (run platform raisedTwice) :=
  ⟨by decide +kernel, pin_policy_kept platform _ (by decide +kernel)⟩

/-- A length of eight is lowered to four, and a token comes while a change is forced. -/
theorem pin_policy_ignored :
    ¬Trace.Always (PolicyKept platform) (run platform [setMinPinLengthTo 8, setMinPinLengthTo 4]) ∧
      ¬Trace.Always (PolicyKept platform) (run platform
        [serialInput (.createPin (text "1234")), forceChange, ⟨pinRequest 0x05, idleEnv 1 60000⟩]) := by
  constructor
  · intro h
    have hrefused := (h.1.refused 4 (by decide +kernel) (.inl (by decide +kernel))).1
    exact absurd hrefused (by decide +kernel)
  · intro h
    have hm : .tokenIssued (List.replicate 32 1) ∈ (step platform (Trace.final (step platform) initial
        [serialInput (.createPin (text "1234")), forceChange]) ⟨pinRequest 0x05, idleEnv 1 60000⟩).1.acts := by
      decide +kernel
    exact h.1.token (by decide +kernel) _ hm

end Bench

end GoiKey
