import GoiKey.Model.Bench
import GoiKey.Proofs.Commands

/-!
A change of the PIN and what the vault holds. The records stay encrypted under
the key of the old PIN, so a session opened with the new one reads what opens
under both.
-/

namespace GoiKey

variable {P : Platform} {d : Device} {i : Input} {v : Vault} {key key' : Bytes}

/-- The operations that change a PIN, with the reply that reports success. -/
inductive ReportsPinChange : Event → Reply → Prop where
  | updatePin (currentPin newPin : Str) :
    ReportsPinChange (.serial (.updatePin currentPin newPin))
      (.serial [.event "AUTH" "PIN_UPDATED" []])
  | clientPin (body : Bytes) (req : ClientPinRequest) (parsed : parseClientPin body = some req)
    (sub : req.subCommand = 0x03 ∨ req.subCommand = 0x04) :
    ReportsPinChange (.cbor (0x06 :: body)) (.cbor (.items [.map 0]))

/-- The step replaces the PIN `old` by `new`. -/
structure PinChanged (P : Platform) (d : Device) (i : Input) (old new : Str) : Prop where
  reported : ReportsPinChange i.event (step P d i).1.reply
  before : d.pins.pin = some (hashPin P old)
  after : (step P d i).2.pins.pin = some (hashPin P new)

/-- What one key reads from the vault, another reads from the vault after it. -/
structure Preserved (P : Platform) (v v' : Vault) (key key' : Bytes) : Prop where
  passwords : ∀ r site login, getPasswordFromStorage P r (some key) v site login ≠ [] →
    getPasswordFromStorage P r (some key') v' site login
      = getPasswordFromStorage P r (some key) v site login
  totp : ∀ r name, getTotpSecret P r (some key) v name ≠ [] →
    getTotpSecret P r (some key') v' name = getTotpSecret P r (some key) v name

/-- No password and no TOTP secret can be read with the key. -/
structure Unreadable (P : Platform) (v : Vault) (key : Bytes) : Prop where
  passwords : ∀ r site login, getPasswordFromStorage P r (some key) v site login = []
  totp : ∀ r name, getTotpSecret P r (some key) v name = []

def Vault.payloads (v : Vault) : List Str :=
  v.passwords.flatMap (fun site => site.2.map Prod.snd) ++ v.totp.map Prod.snd

/-- A stored record opens under one of the two keys only. -/
def OpensUnderOne (P : Platform) (v : Vault) (key key' : Bytes) : Prop :=
  key ≠ key' → ∀ payload ∈ v.payloads, ∀ r,
    decryptStoragePayload P r payload key = [] ∨ decryptStoragePayload P r payload key' = []

theorem storedPassword_payload {r : Env} {site login payload : Str}
    (h : storedPassword r v site login = some payload) : payload ∈ v.payloads := by
  obtain ⟨logins, hs, hl⟩ := Option.bind_eq_some_iff.mp h
  have hsite : (site, logins) ∈ v.passwords := by
    have hm := Members.mem_of_get? hs
    unfold readPasswords at hm
    split at hm
    · exact hm
    · cases hm
  exact List.mem_append_left _ (List.mem_flatMap.mpr
    ⟨_, hsite, List.mem_map.mpr ⟨_, Members.mem_of_get? hl, rfl⟩⟩)

theorem totp_payload {r : Env} {name payload : Str}
    (h : Members.get? name (readTotp r v) = some payload) : payload ∈ v.payloads := by
  have hm := Members.mem_of_get? h
  unfold readTotp at hm
  split at hm
  · exact List.mem_append_right _ (List.mem_map.mpr ⟨_, hm, rfl⟩)
  · cases hm

/-- A read is the decryption of one stored record, whatever the key. -/
theorem getPasswordFromStorage_reads (P : Platform) (r : Env) (v : Vault) (site login : Str) :
    (∀ key, getPasswordFromStorage P r (some key) v site login = []) ∨
      ∃ payload ∈ v.payloads, ∀ key,
        getPasswordFromStorage P r (some key) v site login = decryptStoragePayload P r payload key := by
  cases h : storedPassword r v site login with
  | none => exact .inl fun key => by simp [getPasswordFromStorage, h]
  | some payload =>
    exact .inr ⟨payload, storedPassword_payload h, fun key => by simp [getPasswordFromStorage, h]⟩

theorem getTotpSecret_reads (P : Platform) (r : Env) (v : Vault) (name : Str) :
    (∀ key, getTotpSecret P r (some key) v name = []) ∨
      ∃ payload ∈ v.payloads, ∀ key,
        getTotpSecret P r (some key) v name = decryptStoragePayload P r payload key := by
  cases h : Members.get? name (readTotp r v) with
  | none => exact .inl fun key => by simp [getTotpSecret, h]
  | some payload =>
    exact .inr ⟨payload, totp_payload h, fun key => by simp [getTotpSecret, h]⟩

/-- What reads alike under two keys of which a record opens under one reads as nothing. -/
theorem unreadable_of_preserved (hone : OpensUnderOne P v key key') (hk : key ≠ key')
    (h : Preserved P v v key key') : Unreadable P v key where
  passwords r site login := by
    rcases getPasswordFromStorage_reads P r v site login with hnone | ⟨payload, hm, hread⟩
    · exact hnone key
    · by_contra hne
      have hsame := h.passwords r site login hne
      rw [hread, hread] at hsame
      rw [hread] at hne
      exact (hone hk payload hm r).elim hne (hsame ▸ hne)
  totp r name := by
    rcases getTotpSecret_reads P r v name with hnone | ⟨payload, hm, hread⟩
    · exact hnone key
    · by_contra hne
      have hsame := h.totp r name hne
      rw [hread, hread] at hsame
      rw [hread] at hne
      exact (hone hk payload hm r).elim hne (hsame ▸ hne)

theorem preserved_iff (hone : OpensUnderOne P v key key') :
    Preserved P v v key key' ↔ key = key' ∨ Unreadable P v key := by
  constructor
  · intro h
    by_cases hk : key = key'
    · exact .inl hk
    · exact .inr (unreadable_of_preserved hone hk h)
  · rintro (rfl | h)
    · exact ⟨fun _ _ _ _ => rfl, fun _ _ _ => rfl⟩
    · exact ⟨fun r site login hne => absurd (h.passwords r site login) hne,
        fun r name hne => absurd (h.totp r name) hne⟩

theorem replacePin_vault (newPin : Str) (env : Env) (d : Device) :
    (replacePin P env newPin d).dev.vault = d.vault := by
  unfold replacePin
  split <;> rfl

/-- A wrong PIN, even the last that is allowed, is not reported as a change. -/
theorem checkPin_vault {env : Env} {pin newPin : Str}
    (h : (checkPin P env d pin (replacePin P env newPin)).messages
      = [.event "AUTH" "PIN_UPDATED" []]) :
    (checkPin P env d pin (replacePin P env newPin)).dev.vault = d.vault := by
  refine checkPin_cases (Q := fun r => r.messages = [.event "AUTH" "PIN_UPDATED" []] →
    r.dev.vault = d.vault) ?_ ?_ ?_ ?_ h
  · intro _
    rfl
  · intro _ _ r _
    exact replacePin_vault newPin env _
  · intro stored n _ _ _ _ hm
    rfl
  · intro stored _ _ _ hm
    simp [pinErrors] at hm

theorem serialCommand_updatePin (P : Platform) (env : Env) (d : Device) (currentPin newPin : Str) :
    serialCommand P env d (.updatePin currentPin newPin) =
      if !isPinSet d.pins then ⟨[.error "AUTH" "NEW_PIN_REQ" []], [], d⟩
      else if !d.serial.authenticated then ⟨[.error "AUTH" "PIN_REQ" []], [], d⟩
      else if currentPin = [] ∨ newPin = [] then ⟨[.error "AUTH" "MISSING_ARGS" []], [], d⟩
      else checkPin P env d currentPin (replacePin P env newPin) := rfl

theorem updatePin_vault {env : Env} {currentPin newPin : Str}
    (h : (serialCommand P env d (.updatePin currentPin newPin)).messages
      = [.event "AUTH" "PIN_UPDATED" []]) :
    (serialCommand P env d (.updatePin currentPin newPin)).dev.vault = d.vault := by
  rw [serialCommand_updatePin] at h ⊢
  split
  · rfl
  · split
    · rfl
    · split
      · rfl
      next hset hauth hargs =>
        rw [if_neg hset, if_neg hauth, if_neg hargs] at h
        exact checkPin_vault h

/-- None of the operations that change the PIN touches the vault. -/
theorem pinChanged_vault (h : ReportsPinChange i.event (step P d i).1.reply) :
    (step P d i).2.vault = d.vault := by
  generalize he : i.event = e at h
  generalize hr : (step P d i).1.reply = reply at h
  cases h with
  | updatePin currentPin newPin =>
    have hs : step P d i = (serialCommand P i.env d (.updatePin currentPin newPin)).run := by
      rw [step, he]
    rw [hs] at hr ⊢
    exact updatePin_vault (Reply.serial.inj hr)
  | clientPin body req parsed sub =>
    have hcode : i.event.code = some 0x06 := by rw [he]; rfl
    obtain ⟨body', -, ⟨reply, hs⟩ | ⟨-, hs⟩⟩ := step_code (P := P) (d := d) hcode <;> rw [hs]
    rfl

/-- A PIN change preserves what was readable exactly when both PINs give the
same key or nothing was readable. -/
theorem pinChange_preserves_iff (P : Platform) (d : Device) (i : Input) (old new : Str)
    (h : PinChanged P d i old new)
    (hone : OpensUnderOne P d.vault (deriveStorageKey P old) (deriveStorageKey P new)) :
    Preserved P d.vault (step P d i).2.vault (deriveStorageKey P old) (deriveStorageKey P new) ↔
      deriveStorageKey P old = deriveStorageKey P new ∨
        Unreadable P d.vault (deriveStorageKey P old) := by
  rw [pinChanged_vault h.reported]
  exact preserved_iff hone

section Bench

open Bench

/-- A PIN, a session opened with it and a password saved in that session. -/
def savedPassword : List Input :=
  [⟨.serial (.createPin (text "1234")), idleEnv 1 60000⟩,
    ⟨.serial (.verifyPin (text "1234")), idleEnv 2 60000⟩,
    ⟨.serial (.savePass site (text "u") (text "pw") false), idleEnv 3 60000⟩]

def updatedPin : Input := ⟨.serial (.updatePin (text "1234") (text "5678")), idleEnv 4 60000⟩

def savedDevice : Device := Trace.final (step platform) initial savedPassword

theorem updatedPin_changed :
    PinChanged platform savedDevice updatedPin (text "1234") (text "5678") where
  reported := by
    have hr : (step platform savedDevice updatedPin).1.reply
        = .serial [.event "AUTH" "PIN_UPDATED" []] := by decide +kernel
    rw [hr]
    exact .updatePin _ _
  before := by decide +kernel
  after := by decide +kernel

theorem decryptStoragePayload_eq (P : Platform) (r : Env) (payload : Str) (key : Bytes) :
    decryptStoragePayload P r payload key = [] ∨ decryptStoragePayload P r payload key
      = decryptStoragePayload P (idleEnv 0 0) payload key := by
  cases ha : r.allocates .plaintext with
  | true => exact .inr (by simp [decryptStoragePayload, ha, idleEnv])
  | false =>
    left
    unfold decryptStoragePayload
    repeat' split
    all_goals simp_all

theorem pinChange_preserves_iff_bench :
    Preserved platform savedDevice.vault (step platform savedDevice updatedPin).2.vault
        (deriveStorageKey platform (text "1234")) (deriveStorageKey platform (text "5678")) ↔
      deriveStorageKey platform (text "1234") = deriveStorageKey platform (text "5678") ∨
        Unreadable platform savedDevice.vault (deriveStorageKey platform (text "1234")) := by
  apply pinChange_preserves_iff platform savedDevice updatedPin _ _ updatedPin_changed
  intro _ payload hm r
  have hclosed : ∀ payload ∈ savedDevice.vault.payloads, decryptStoragePayload platform (idleEnv 0 0)
      payload (deriveStorageKey platform (text "5678")) = [] := by decide +kernel
  rcases decryptStoragePayload_eq platform r payload (deriveStorageKey platform (text "5678"))
    with h | h
  · exact .inr h
  · exact .inr (h.trans (hclosed payload hm))

/-- The password saved before the change is not found after it. -/
theorem updatedPin_loses_password :
    PinChanged platform savedDevice updatedPin (text "1234") (text "5678") ∧
      ¬ Preserved platform savedDevice.vault (step platform savedDevice updatedPin).2.vault
        (deriveStorageKey platform (text "1234")) (deriveStorageKey platform (text "5678")) := by
  refine ⟨updatedPin_changed, fun h => ?_⟩
  have hlost := h.passwords (idleEnv 5 60000) site (text "u") (by decide +kernel)
  exact absurd hlost (by decide +kernel)

end Bench

end GoiKey
