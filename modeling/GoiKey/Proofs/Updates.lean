import GoiKey.Model.Backup
import GoiKey.Proofs.VaultMap

/-!
A password that is replaced: the old entry is removed first, and then the new one
is saved if nothing speaks against it.
-/

namespace GoiKey

open VaultMap (Works)

variable {P : Platform} {env removal saving : Env} {key : Option Bytes} {k : Bytes} {v : Vault}
variable {site login password : Str}

/-! The replacement. -/

/-- The new password is what every reader finds that can read. -/
def Stores (P : Platform) (key : Option Bytes) (v : Vault) (site login password : Str) : Prop :=
  ∀ r, Works r → getPasswordFromStorage P r key v site login = cstr password

/-- Every reader finds what it found before. -/
def Keeps (v v' : Vault) (site login : Str) : Prop :=
  ∀ r, storedPassword r v' site login = storedPassword r v site login

theorem Keeps.get {v' : Vault} (h : Keeps v v' site login) (r : Env) :
    getPasswordFromStorage P r key v' site login = getPasswordFromStorage P r key v site login := by
  unfold getPasswordFromStorage
  rw [h r]

/-- The update is reported and stored, or the entry is what it was. -/
def Safe (P : Platform) (key : Option Bytes) (v : Vault) (site login password : Str)
    (reported : Prop) (v' : Vault) : Prop :=
  (reported ∧ Stores P key v' site login password) ∨ Keeps v v' site login

/-- The old entry goes. -/
def Removes (removal : Env) (v : Vault) (site login : Str) : Prop :=
  isPasswordExists removal v site login = true ∧ removal.opens .passwords .write = true

/-- What the save behind the removal of an entry asks for. -/
structure Fits (P : Platform) (saving : Env) (key : Option Bytes) (v : Vault)
    (site login password : Str) : Prop where
  unlocked : ∃ k, key = some k ∧ encryptStoragePayload P saving password k ≠ []
  shortSite : site.length ≤ 64
  shortLogin : login.length ≤ 64
  shortPassword : password.length ≤ 4000
  room : saving.opens .passwords .read = true →
    Nested.size (Nested.remove site login v.passwords) < maxLogins
  opens : saving.opens .passwords .write = true

/-- The vault without an entry. -/
def Vault.without (v : Vault) (site login : Str) : Vault :=
  { v with passwords := Nested.remove site login v.passwords }

theorem storedPassword_without (r : Env) : storedPassword r (v.without site login) site login = none := by
  unfold storedPassword readPasswords Vault.without
  split
  · exact Nested.get?_remove_self
  · rfl

theorem deletePassword_removes (h : Removes removal v site login) :
    deletePassword removal v site login = (true, v.without site login) := by
  have hread : readPasswords removal v = v.passwords := by
    unfold readPasswords
    split
    · rfl
    next hclosed =>
      have hthere := h.1
      rw [isPasswordExists, storedPassword, readPasswords, if_neg hclosed] at hthere
      cases hthere
  unfold deletePassword
  rw [if_neg (by simp [h.1, h.2]), hread]
  rfl

theorem deletePassword_keeps (h : ¬Removes removal v site login) :
    deletePassword removal v site login = (false, v) := by
  unfold deletePassword
  rw [if_pos]
  simpa [Removes, imp_iff_not_or] using h

theorem admits_without_iff :
    (∃ k, key = some k ∧ Admits P saving k (v.without site login) site login password) ↔
      Fits P saving key v site login password := by
  have hroom : Nested.size (readPasswords saving (v.without site login)) < maxLogins ↔
      (saving.opens .passwords .read = true →
        Nested.size (Nested.remove site login v.passwords) < maxLogins) := by
    unfold readPasswords Vault.without
    split
    next hopen => exact ⟨fun h _ => h, fun h => h hopen⟩
    next hclosed => exact ⟨fun _ h => absurd h hclosed, fun _ => by decide⟩
  constructor
  · rintro ⟨k, hk, h⟩
    exact ⟨⟨k, hk, h.encrypts⟩, h.shortSite, h.shortLogin, h.shortPassword, hroom.mp h.room, h.opens⟩
  · intro h
    obtain ⟨k, hk, henc⟩ := h.unlocked
    refine ⟨k, hk, h.shortSite, h.shortLogin, h.shortPassword, ?_, hroom.mpr h.room, henc, h.opens⟩
    rw [isPasswordExists, storedPassword_without]
    rfl

theorem stores_set (hp : RecordsSound P) (h : encryptStoragePayload P env password k ≠ [])
    (sites : List (Str × List (Str × Str))) :
    Stores P (some k) { v with
      passwords := Nested.set site login (encryptStoragePayload P env password k) sites } site login password := by
  intro r hr
  rw [VaultMap.getPasswordFromStorage_works hr, Nested.get?_set_self]
  exact VaultMap.decrypt_works hp hr h

/-- A replacement is safe exactly where the entry stays or the save behind its removal fits. -/
theorem replacePassword_safe_iff (hp : RecordsSound P) :
    Safe P key v site login password (replacePassword P removal saving key v site login password).1.isNone
        (replacePassword P removal saving key v site login password).2 ↔
      (Removes removal v site login → Fits P saving key v site login password) := by
  unfold replacePassword
  by_cases hr : Removes removal v site login
  · rw [deletePassword_removes hr, ← admits_without_iff]
    simp only [hr, true_imp_iff]
    rcases savePassword_cases P saving key (v.without site login) site login password with
      ⟨k, rfl, ha, hsave⟩ | ⟨hrefused, m, hsave⟩
    · rw [hsave]
      exact ⟨fun _ => ⟨k, rfl, ha⟩, fun _ => .inl ⟨rfl, stores_set hp ha.encrypts _⟩⟩
    · rw [hsave]
      constructor
      · rintro (⟨hnone, -⟩ | hkeeps)
        · cases hnone
        · have hthere := hr.1
          rw [isPasswordExists, ← hkeeps removal, storedPassword_without] at hthere
          cases hthere
      · rintro ⟨k, hk, ha⟩
        exact absurd ha (hrefused k hk)
  · rw [deletePassword_keeps hr]
    simp only [hr, false_imp_iff, iff_true]
    rcases savePassword_cases P saving key v site login password with ⟨k, rfl, ha, hsave⟩ | ⟨-, m, hsave⟩
    · rw [hsave]
      exact .inl ⟨rfl, stores_set hp ha.encrypts _⟩
    · rw [hsave]
      exact .inr fun _ => rfl

/-- An approved update is a replacement, reported when the save went well. -/
theorem applyUpdate_eq (P : Platform) (env : Env) (d : Device) :
    applyUpdate P env d =
      match replacePassword P env env d.serial.storageKey d.vault d.serial.pendingWebsite
        d.serial.pendingLogin d.serial.pendingPasswordToSave with
      | (none, v) => ([.event "PASS" "UPDATED" []], v)
      | (some m, v) => ([m, .error "PASS" "UPDATE_FAILED" []], v) := by
  unfold applyUpdate replacePassword
  simp only
  cases savePassword P env d.serial.storageKey
    (deletePassword env d.vault d.serial.pendingWebsite d.serial.pendingLogin).2
    d.serial.pendingWebsite d.serial.pendingLogin d.serial.pendingPasswordToSave <;> rfl

theorem applyUpdate_reported (P : Platform) (env : Env) (d : Device) :
    ((applyUpdate P env d).1 = [.event "PASS" "UPDATED" []] ↔
      (replacePassword P env env d.serial.storageKey d.vault d.serial.pendingWebsite
        d.serial.pendingLogin d.serial.pendingPasswordToSave).1.isNone = true) ∧
    (applyUpdate P env d).2 =
      (replacePassword P env env d.serial.storageKey d.vault d.serial.pendingWebsite
        d.serial.pendingLogin d.serial.pendingPasswordToSave).2 := by
  rw [applyUpdate_eq]
  rcases replacePassword P env env d.serial.storageKey d.vault d.serial.pendingWebsite
    d.serial.pendingLogin d.serial.pendingPasswordToSave with ⟨_ | m, v⟩
  · exact ⟨⟨fun _ => rfl, fun _ => rfl⟩, rfl⟩
  · exact ⟨⟨fun h => by simp at h, fun h => nomatch h⟩, rfl⟩

/-- An item over an existing entry is a replacement, counted when the save went well. -/
theorem importPassword_replaces {lookup : Env} {s : Importing} (hsite : site ≠ []) (hlogin : login ≠ [])
    (h : isPasswordExists lookup s.vault site login = true) :
    importPassword P lookup removal saving key true s site login password =
      s.saved (replacePassword P removal saving key s.vault site login password) := by
  unfold importPassword
  rw [if_neg (by simp [hsite, hlogin]), if_pos h]
  rfl

theorem saved_reported (s : Importing) (r : Option Message × Vault) :
    ((s.saved r).imported = s.imported + 1 ↔ r.1.isNone = true) ∧ (s.saved r).vault = r.2 := by
  rcases r with ⟨_ | m, v⟩
  · exact ⟨⟨fun _ => rfl, fun _ => rfl⟩, rfl⟩
  · exact ⟨⟨fun h => absurd h (Nat.ne_of_lt (Nat.lt_succ_self _)), fun h => nomatch h⟩, rfl⟩

theorem safe_congr {reported reported' : Prop} {v' v'' : Vault} (h : reported ↔ reported') (hv : v' = v'') :
    Safe P key v site login password reported v' ↔ Safe P key v site login password reported' v'' := by
  rw [Safe, Safe, h, hv]

/-- Both ways to replace a password: an approved update and an import that overwrites. -/
theorem updates_safe_iff (P : Platform) (hp : RecordsSound P) :
    (∀ removal saving key v site login password,
      Safe P key v site login password
          (replacePassword P removal saving key v site login password).1.isNone
          (replacePassword P removal saving key v site login password).2 ↔
        (Removes removal v site login → Fits P saving key v site login password)) ∧
    (∀ (env : Env) (d : Device),
      Safe P d.serial.storageKey d.vault d.serial.pendingWebsite d.serial.pendingLogin
          d.serial.pendingPasswordToSave ((applyUpdate P env d).1 = [.event "PASS" "UPDATED" []])
          (applyUpdate P env d).2 ↔
        (Removes env d.vault d.serial.pendingWebsite d.serial.pendingLogin →
          Fits P env d.serial.storageKey d.vault d.serial.pendingWebsite d.serial.pendingLogin
            d.serial.pendingPasswordToSave)) ∧
    (∀ (lookup removal saving : Env) (key : Option Bytes) (s : Importing) (site login password : Str),
      site ≠ [] → login ≠ [] → isPasswordExists lookup s.vault site login = true →
      (Safe P key s.vault site login password
          ((importPassword P lookup removal saving key true s site login password).imported = s.imported + 1)
          (importPassword P lookup removal saving key true s site login password).vault ↔
        (Removes removal s.vault site login → Fits P saving key s.vault site login password))) := by
  refine ⟨?replacement, ?approved, ?imported⟩
  case replacement =>
    intro removal saving key v site login password
    exact replacePassword_safe_iff hp
  case approved =>
    intro env d
    obtain ⟨hreported, hvault⟩ := applyUpdate_reported P env d
    rw [safe_congr hreported hvault]
    exact replacePassword_safe_iff hp
  case imported =>
    intro lookup removal saving key s site login password hsite hlogin hthere
    rw [importPassword_replaces hsite hlogin hthere]
    obtain ⟨hreported, hvault⟩ :=
      saved_reported s (replacePassword P removal saving key s.vault site login password)
    rw [safe_congr hreported hvault]
    exact replacePassword_safe_iff hp

section Bench

open Bench

/-- One password, stored under a key of zeros. -/
def oneEntry : Vault where
  passwords := [(text "site", [(text "login",
    encryptStoragePayload platform (idleEnv 1 0) (text "old") (zeros 32))])]

/-- An update of it that waits for a finger. -/
def pendingUpdate (password : Str) : Device where
  vault := oneEntry
  serial := { authenticated := true, storageKey := some (zeros 32)
              commandState := .awaitingFingerprintUpdate, pendingWebsite := text "site"
              pendingLogin := text "login", pendingPasswordToSave := password }

theorem updates_safe_iff_short :
    Safe platform (some (zeros 32)) oneEntry (text "site") (text "login") (text "new")
      ((applyUpdate platform (idleEnv 2 0) (pendingUpdate (text "new"))).1 = [.event "PASS" "UPDATED" []])
      (applyUpdate platform (idleEnv 2 0) (pendingUpdate (text "new"))).2 :=
  ((updates_safe_iff platform recordsSound_bench).2.1 (idleEnv 2 0) (pendingUpdate (text "new"))).mpr
    fun _ => ⟨⟨zeros 32, rfl, by decide +kernel⟩, by decide, by decide, by decide, fun _ => by decide +kernel, rfl⟩

def longPassword : Str := List.replicate 4001 0x61

theorem long_update_loses :
    isPasswordExists (idleEnv 2 0) oneEntry (text "site") (text "login") = true ∧
    (applyUpdate platform (idleEnv 2 0) (pendingUpdate longPassword)).1 =
      [.error "PASS" "PASS_TOO_LONG" (text "Password length exceeds limits."),
        .error "PASS" "UPDATE_FAILED" []] ∧
    isPasswordExists (idleEnv 2 0) (applyUpdate platform (idleEnv 2 0) (pendingUpdate longPassword)).2
      (text "site") (text "login") = false := by
  decide +kernel

end Bench

end GoiKey
