import GoiKey.Model.Backup
import GoiKey.Proofs.VaultMap

/-!
What a vault under a storage key holds, what an export lists of it and
what an import makes of such a list.
-/

namespace GoiKey.Backups

open VaultMap

variable {P : Platform} {B : BackupEnv} {env : Env} {key : Bytes} {v : Vault}
variable {site login password name secret : Str}

/-- A C string that is not empty. -/
structure Worded (s : Str) : Prop where
  nonempty : s ≠ []
  nulFree : (0 : UInt8) ∉ s

/-- The vaults that saves and deletions lead to; what is saved has a name and a value. -/
inductive Built (P : Platform) (key : Bytes) : Vault → Prop where
  | empty : Built P key {}
  | save {v v' : Vault} {site login password : Str} (env : Env) (before : Built P key v)
    (hsite : Worded site) (hlogin : Worded login) (hpassword : Worded password)
    (saved : savePassword P env (some key) v site login password = .ok v') : Built P key v'
  | delete {v : Vault} (env : Env) (site login : Str) (before : Built P key v) :
    Built P key (deletePassword env v site login).2
  | saveTotp {v : Vault} {name secret : Str} (env : Env) (before : Built P key v) (hname : Worded name)
    (hsecret : Worded secret) : Built P key (saveTotpSecret P env (some key) v name secret).2
  | deleteTotp {v : Vault} (env : Env) (name : Str) (before : Built P key v) :
    Built P key (deleteTotpSecret env v name).2

/-- A stored password under its names. -/
structure PasswordEntry (P : Platform) (key : Bytes) (e : Str × Str × Str) : Prop where
  site : VaultMap.Named e.1
  login : VaultMap.Named e.2.1
  opens : ∃ password, Worded password ∧ password.length ≤ 4000 ∧ Opens P key e.2.2 password

structure TotpEntry (P : Platform) (key : Bytes) (e : Str × Str) : Prop where
  name : Worded e.1
  opens : ∃ secret, Worded secret ∧ Opens P key e.2 secret

/-- A vault whose every entry opens under the key. -/
structure Whole (P : Platform) (key : Bytes) (v : Vault) : Prop where
  distinct : Nested.Distinct v.passwords
  password : ∀ e ∈ Nested.entries v.passwords, PasswordEntry P key e
  size : Nested.size v.passwords ≤ maxLogins
  names : Members.Distinct v.totp
  secret : ∀ e ∈ v.totp, TotpEntry P key e

theorem deletePassword_cases (env : Env) (v : Vault) (site login : Str) :
    (deletePassword env v site login).2 = v ∨ (deletePassword env v site login).2 =
      { v with passwords := Nested.remove site login (readPasswords env v) } := by
  unfold deletePassword
  split
  · exact .inl rfl
  · exact .inr rfl

theorem deleteTotpSecret_cases (env : Env) (v : Vault) (name : Str) :
    (deleteTotpSecret env v name).2 = v ∨
      (deleteTotpSecret env v name).2 = { v with totp := Members.remove name v.totp } := by
  unfold deleteTotpSecret
  split
  · exact .inl rfl
  · exact .inr rfl

theorem saveTotpSecret_cases (P : Platform) (env : Env) (key : Bytes) (v : Vault) (name secret : Str) :
    (saveTotpSecret P env (some key) v name secret).2 = v ∨
      encryptStoragePayload P env secret key ≠ [] ∧ (saveTotpSecret P env (some key) v name secret).2 =
        { v with totp := Members.set name (encryptStoragePayload P env secret key) (readTotp env v) } := by
  unfold saveTotpSecret
  simp only
  split
  · exact .inl rfl
  next henc =>
    split
    · exact .inl rfl
    · exact .inr ⟨henc, rfl⟩

/-- What was read is the file or, where it did not open, nothing. -/
theorem Whole.read (h : Whole P key v) (env : Env) :
    Whole P key { v with passwords := readPasswords env v } := by
  unfold readPasswords
  split
  · exact h
  · exact { h with
      distinct := ⟨List.nodup_nil, nofun⟩
      password := nofun
      size := Nat.zero_le _ }

theorem Whole.readTotp (h : Whole P key v) (env : Env) :
    Whole P key { v with totp := GoiKey.readTotp env v } := by
  unfold GoiKey.readTotp
  split
  · exact h
  · exact { h with names := List.nodup_nil, secret := nofun }

theorem Built.whole (hp : RecordsSound P) (h : Built P key v) : Whole P key v := by
  induction h with
  | empty =>
    exact ⟨⟨List.nodup_nil, nofun⟩, nofun, Nat.zero_le _,
      List.nodup_nil, nofun⟩
  | @save v v' site login password env before hsite hlogin hpassword saved ih =>
    rcases savePassword_cases P env (some key) v site login password with ⟨k, hk, ha, hs⟩ | ⟨-, m, hs⟩
    · cases hk
      rw [hs] at saved
      cases saved
      have hread := ih.read env
      have habsent : Nested.get? site login (readPasswords env v) = none := by
        have hx := ha.absent
        rw [isPasswordExists, Option.isSome_eq_false_iff, Option.isNone_iff_eq_none] at hx
        exact hx
      refine { ih with
        distinct := hread.distinct.set site login _
        password := fun e he => ?_
        size := ?_ }
      · rcases Nested.mem_entries_set he with rfl | he
        · exact ⟨⟨hsite.nonempty, hsite.nulFree, ha.shortSite⟩, ⟨hlogin.nonempty, hlogin.nulFree, ha.shortLogin⟩,
            password, hpassword, ha.shortPassword, fun env' hw => decrypt_works hp hw ha.encrypts⟩
        · exact hread.password e he
      · change Nested.size (Nested.set site login _ (readPasswords env v)) ≤ maxLogins
        rw [Nested.size_set habsent]
        exact ha.room
    · rw [hs] at saved
      cases saved
  | @delete v env site login before ih =>
    rcases deletePassword_cases env v site login with h | h <;> rw [h]
    · exact ih
    · have hread := ih.read env
      exact { ih with
        distinct := hread.distinct.remove site login
        password := fun e he => hread.password e (Nested.mem_entries_remove he)
        size := Nat.le_trans Nested.size_remove_le hread.size }
  | @saveTotp v name secret env before hname hsecret ih =>
    rcases saveTotpSecret_cases P env key v name secret with h | ⟨henc, h⟩ <;> rw [h]
    · exact ih
    · have hread := ih.readTotp env
      refine { ih with names := hread.names.set name _, secret := fun e he => ?_ }
      rcases Members.mem_set he with rfl | he
      · exact ⟨hname, secret, hsecret, fun env' hw => decrypt_works hp hw henc⟩
      · exact hread.secret e he
  | @deleteTotp v env name before ih =>
    rcases deleteTotpSecret_cases env v name with h | h <;> rw [h]
    · exact ih
    · exact { ih with
        names := ih.names.remove name
        secret := fun e he => ih.secret e (List.mem_filter.mp he).1 }

/-! Export. -/

/-- What an export lists: every entry, opened. -/
def archiveOf (P : Platform) (env : Env) (key : Bytes) (d : Device) : Archive where
  passwords := (Nested.entries d.vault.passwords).map fun e =>
    (e.1, e.2.1, decryptStoragePayload P env e.2.2 key)
  totp := d.vault.totp.map fun e => (e.1, decryptStoragePayload P env e.2 key)
  cryptoAlg := some (loadDefaultCryptoAlg env d)

theorem opens_worded {payload plain : Str} (h : Opens P key payload plain) (hw : Works env)
    (hplain : Worded plain) : decryptStoragePayload P env payload key = plain :=
  (h env hw).trans (cstr_of_notMem hplain.nulFree)

theorem PasswordEntry.ne_nil {e : Str × Str × Str} (h : PasswordEntry P key e) (hw : Works env) :
    decryptStoragePayload P env e.2.2 key ≠ [] := by
  obtain ⟨password, hpassword, -, hopens⟩ := h.opens
  rw [opens_worded hopens hw hpassword]
  exact hpassword.nonempty

theorem TotpEntry.ne_nil {e : Str × Str} (h : TotpEntry P key e) (hw : Works env) :
    decryptStoragePayload P env e.2 key ≠ [] := by
  obtain ⟨secret, hsecret, hopens⟩ := h.opens
  rw [opens_worded hopens hw hsecret]
  exact hsecret.nonempty

/-- Nothing of a whole vault is left out. -/
theorem exportVaultPlaintext_whole {d : Device} (h : Whole P key d.vault) (hw : Works env) :
    exportVaultPlaintext P env (some key) d = some (archiveOf P env key d) := by
  have hpasswords : (d.vault.passwords.flatMap fun site => site.2.filterMap fun login =>
      if decryptStoragePayload P env login.2 key = [] then none
      else some (site.1, login.1, decryptStoragePayload P env login.2 key)) =
      (archiveOf P env key d).passwords := by
    rw [archiveOf, Nested.entries, List.map_flatMap]
    apply List.flatMap_congr
    intro site hsite
    rw [List.map_map, ← List.filterMap_eq_map]
    apply List.filterMap_congr
    intro login hlogin
    have hentry := h.password (site.1, login.1, login.2) (Nested.mem_entries.mpr ⟨site.2, hsite, hlogin⟩)
    exact if_neg (hentry.ne_nil hw)
  have htotp : (d.vault.totp.filterMap fun entry =>
      if decryptStoragePayload P env entry.2 key = [] then none
      else some (entry.1, decryptStoragePayload P env entry.2 key)) = (archiveOf P env key d).totp := by
    change _ = d.vault.totp.map _
    rw [← List.filterMap_eq_map]
    apply List.filterMap_congr
    intro entry hentry
    exact if_neg ((h.secret entry hentry).ne_nil hw)
  have hread : GoiKey.readTotp env d.vault = d.vault.totp := if_pos (hw.opens _ _)
  simp only [exportVaultPlaintext, readPasswords_works hw, hread, hpasswords, htotp]
  rfl

/-! Import. -/

/-- With memory for it the linked cipher encrypts. -/
def Encrypts (P : Platform) : Prop := ∀ key iv plain, P.gcmEncrypt key iv plain ≠ none

theorem encryptStoragePayload_works (he : Encrypts P) (hw : Works env) (plain : Str) :
    encryptStoragePayload P env plain key ≠ [] := by
  unfold encryptStoragePayload
  simp only [hw.allocates, Bool.not_true, Bool.false_eq_true, if_false]
  cases h : P.gcmEncrypt key (env.draw .nonce 12) plain with
  | none => exact absurd h (he _ _ _)
  | some parts => simp

/-- An item savePassword takes. -/
structure PasswordItem (i : Str × Str × Str) : Prop where
  site : VaultMap.Named i.1
  login : VaultMap.Named i.2.1
  password : Worded i.2.2
  short : i.2.2.length ≤ 4000

structure TotpItem (i : Str × Str) : Prop where
  name : Worded i.1
  secret : Worded i.2

/-- What an import of new passwords does. -/
structure PasswordsImported (P : Platform) (key : Bytes) (items : List (Str × Str × Str))
    (s s' : Importing) : Prop where
  messages : s'.messages = s.messages
  imported : s'.imported = s.imported + items.length
  skipped : s'.skipped = s.skipped
  totp : s'.vault.totp = s.vault.totp
  there : ∀ i ∈ items, ∃ payload, Nested.get? i.1 i.2.1 s'.vault.passwords = some payload ∧
    Opens P key payload i.2.2
  others : ∀ site login, (∀ i ∈ items, (i.1, i.2.1) ≠ (site, login)) →
    Nested.get? site login s'.vault.passwords = Nested.get? site login s.vault.passwords

structure TotpsImported (P : Platform) (key : Bytes) (items : List (Str × Str)) (s s' : Importing) :
    Prop where
  messages : s'.messages = s.messages ++ List.replicate items.length (.event "TOTP" "SAVED" [])
  imported : s'.imported = s.imported + items.length
  skipped : s'.skipped = s.skipped
  passwords : s'.vault.passwords = s.vault.passwords
  there : ∀ i ∈ items, ∃ payload, Members.get? i.1 s'.vault.totp = some payload ∧ Opens P key payload i.2
  others : ∀ name, (∀ i ∈ items, i.1 ≠ name) →
    Members.get? name s'.vault.totp = Members.get? name s.vault.totp

/-- The surroundings of an import in which everything works. -/
structure ImportWorks (B : BackupEnv) : Prop where
  lookup : ∀ k, Works (B.lookup k)
  saving : ∀ k, Works (B.saving k)

/-- A password that is not there yet is saved. -/
theorem importPassword_new (key : Bytes) (he : Encrypts P) {lookup saving : Env} (hl : Works lookup)
    (removal : Env) (hs : Works saving) (overwrite : Bool) {s : Importing} {i : Str × Str × Str} (hi : PasswordItem i)
    (habsent : Nested.get? i.1 i.2.1 s.vault.passwords = none)
    (hroom : Nested.size s.vault.passwords < maxLogins) :
    importPassword P lookup removal saving (some key) overwrite s i.1 i.2.1 i.2.2 =
      s.saved (none, { s.vault with
        passwords := Nested.set i.1 i.2.1 (encryptStoragePayload P saving i.2.2 key) s.vault.passwords }) := by
  have hnames : ¬(i.1 = [] ∨ i.2.1 = []) := fun h => h.elim hi.site.nonempty hi.login.nonempty
  have hexists : isPasswordExists lookup s.vault i.1 i.2.1 = false := by
    rw [isPasswordExists, storedPassword_works hl, habsent]
    rfl
  have hsave := savePassword_works P key s.vault hs hi.site.short hi.login.short hi.short
  unfold importPassword
  rw [if_neg hnames, hexists]
  rcases hsave with ⟨m, -, hno⟩ | ⟨hok, -⟩
  · exact absurd ⟨habsent, hroom, encryptStoragePayload_works he hs _⟩ hno
  · simp only [Bool.false_eq_true, if_false, hok]

theorem importPasswords_new (key : Bytes) (hp : RecordsSound P) (he : Encrypts P) (hB : ImportWorks B) (overwrite : Bool)
    (k : Nat) (s : Importing) (items : List (Str × Str × Str)) (hitems : ∀ i ∈ items, PasswordItem i)
    (hnodup : (items.map fun i => (i.1, i.2.1)).Nodup)
    (habsent : ∀ i ∈ items, Nested.get? i.1 i.2.1 s.vault.passwords = none)
    (hroom : Nested.size s.vault.passwords + items.length ≤ maxLogins) :
    PasswordsImported P key items s (importPasswords P B (some key) overwrite k s items) := by
  induction items generalizing k s with
  | nil => exact ⟨rfl, rfl, rfl, rfl, nofun, fun _ _ _ => rfl⟩
  | cons i items ih =>
    obtain ⟨hnot, hrest⟩ := List.nodup_cons.mp hnodup
    have hi := hitems i List.mem_cons_self
    have hnone := habsent i List.mem_cons_self
    have hne : ∀ j ∈ items, (j.1, j.2.1) ≠ (i.1, i.2.1) := by
      intro j hj heq
      exact hnot (List.mem_map.mpr ⟨j, hj, heq⟩)
    simp only [List.length_cons] at hroom
    have hnew := importPassword_new key he (hB.lookup k) (B.removal k) (hB.saving k) overwrite hi hnone (by omega)
    obtain ⟨site, login, password⟩ := i
    rw [importPasswords, hnew]
    set s₁ := s.saved (none, { s.vault with
      passwords := Nested.set site login (encryptStoragePayload P (B.saving k) password key) s.vault.passwords })
    have hsize : Nested.size s₁.vault.passwords = Nested.size s.vault.passwords + 1 := Nested.size_set hnone
    have hstep := ih (k + 1) s₁ (fun j hj => hitems j (List.mem_cons_of_mem _ hj)) hrest
      (fun j hj => (Nested.get?_set_of_ne (hne j hj)).trans (habsent j (List.mem_cons_of_mem _ hj)))
      (by omega)
    refine ⟨hstep.messages, ?_, hstep.skipped, hstep.totp, ?_, ?_⟩
    · rw [hstep.imported, List.length_cons]
      change s.imported + 1 + items.length = _
      omega
    · intro j hj
      rcases List.mem_cons.mp hj with rfl | hj
      · refine ⟨_, (hstep.others _ _ hne).trans Nested.get?_set_self, fun env hw => ?_⟩
        exact decrypt_works hp hw (encryptStoragePayload_works he (hB.saving k) _)
      · exact hstep.there j hj
    · intro a b hab
      rw [hstep.others a b fun j hj => hab j (List.mem_cons_of_mem _ hj)]
      exact Nested.get?_set_of_ne fun heq => hab _ List.mem_cons_self heq.symm

def savedTotp (s : Importing) (name payload : Str) : Importing :=
  { s with
    messages := s.messages ++ [.event "TOTP" "SAVED" []]
    imported := s.imported + 1
    vault := { s.vault with totp := Members.set name payload s.vault.totp } }

/-- A secret that is not there yet is saved, and the save says so. -/
theorem importTotp_new (key : Bytes) (he : Encrypts P) {lookup saving : Env} (hl : Works lookup)
    (hs : Works saving) (overwrite : Bool) {s : Importing} {i : Str × Str} (hi : TotpItem i)
    (habsent : Members.get? i.1 s.vault.totp = none) :
    importTotp P lookup saving (some key) overwrite s i.1 i.2 =
      savedTotp s i.1 (encryptStoragePayload P saving i.2 key) := by
  have hnames : ¬(i.1 = [] ∨ i.2 = []) := fun h => h.elim hi.name.nonempty hi.secret.nonempty
  have hread : ∀ env, Works env → GoiKey.readTotp env s.vault = s.vault.totp := fun env hw =>
    if_pos (hw.opens _ _)
  have hget : getTotpSecret P lookup (some key) s.vault i.1 = [] := by
    unfold getTotpSecret
    rw [hread lookup hl, habsent]
  have hopens : ¬(!saving.opens .totp .write) = true := by simp [hs.opens]
  unfold importTotp
  rw [if_neg hnames, if_neg (fun h => h.1 hget)]
  simp only [saveTotpSecret, if_neg (encryptStoragePayload_works he hs _), if_neg hopens, hread saving hs, savedTotp]

theorem importTotps_new (key : Bytes) (hp : RecordsSound P) (he : Encrypts P) (hB : ImportWorks B) (overwrite : Bool)
    (k : Nat) (s : Importing) (items : List (Str × Str)) (hitems : ∀ i ∈ items, TotpItem i)
    (hnodup : Members.Distinct items) (habsent : ∀ i ∈ items, Members.get? i.1 s.vault.totp = none) :
    TotpsImported P key items s (importTotps P B (some key) overwrite k s items) := by
  induction items generalizing k s with
  | nil => exact ⟨(List.append_nil _).symm, rfl, rfl, rfl, nofun, fun _ _ => rfl⟩
  | cons i items ih =>
    obtain ⟨hnot, hrest⟩ := List.nodup_cons.mp hnodup
    have hnone := habsent i List.mem_cons_self
    have hne : ∀ j ∈ items, j.1 ≠ i.1 := by
      intro j hj heq
      exact hnot (List.mem_map.mpr ⟨j, hj, heq⟩)
    have hnew := importTotp_new key he (hB.lookup k) (hB.saving k) overwrite (hitems i List.mem_cons_self) hnone
    obtain ⟨name, secret⟩ := i
    rw [importTotps, hnew]
    have hstep := ih (k + 1) (savedTotp s name (encryptStoragePayload P (B.saving k) secret key))
      (fun j hj => hitems j (List.mem_cons_of_mem _ hj)) hrest
      (fun j hj => (Members.get?_set_of_ne (hne j hj)).trans (habsent j (List.mem_cons_of_mem _ hj)))
    refine ⟨?_, ?_, hstep.skipped, hstep.passwords, ?_, ?_⟩
    · rw [hstep.messages, List.length_cons, List.replicate_succ]
      exact List.append_assoc _ _ _
    · rw [hstep.imported, List.length_cons]
      change s.imported + 1 + items.length = _
      omega
    · intro j hj
      rcases List.mem_cons.mp hj with rfl | hj
      · refine ⟨_, (hstep.others _ hne).trans Members.get?_set_self, fun env hw => ?_⟩
        exact decrypt_works hp hw (encryptStoragePayload_works he (hB.saving k) _)
      · exact hstep.there j hj
    · intro a ha
      rw [hstep.others a fun j hj => ha j (List.mem_cons_of_mem _ hj)]
      exact Members.get?_set_of_ne fun heq => ha _ List.mem_cons_self heq.symm

/-! Export and import. -/

theorem archiveOf_items {d : Device} (h : Whole P key d.vault) (hw : Works env) :
    (∀ i ∈ (archiveOf P env key d).passwords, PasswordItem i) ∧
      (∀ i ∈ (archiveOf P env key d).totp, TotpItem i) := by
  constructor
  · intro i hi
    obtain ⟨e, he, rfl⟩ := List.mem_map.mp hi
    have hentry := h.password e he
    obtain ⟨password, hpassword, hshort, hopens⟩ := hentry.opens
    have hplain := opens_worded hopens hw hpassword
    exact ⟨hentry.site, hentry.login, by rw [hplain]; exact hpassword, by rw [hplain]; exact hshort⟩
  · intro i hi
    obtain ⟨e, he, rfl⟩ := List.mem_map.mp hi
    have hentry := h.secret e he
    obtain ⟨secret, hsecret, hopens⟩ := hentry.opens
    exact ⟨hentry.name, by rw [opens_worded hopens hw hsecret]; exact hsecret⟩

/-- Two vaults that hold the same under their keys, as the reads of the device say. -/
structure SameContent (P : Platform) (key key' : Bytes) (v v' : Vault) : Prop where
  passwords : ∀ env env', Works env → Works env' → ∀ site login,
    isPasswordExists env v site login = isPasswordExists env' v' site login ∧
      getPasswordFromStorage P env (some key) v site login =
        getPasswordFromStorage P env' (some key') v' site login
  totp : ∀ env env', Works env → Works env' → ∀ name,
    (Members.get? name v.totp).isSome = (Members.get? name v'.totp).isSome ∧
      getTotpSecret P env (some key) v name = getTotpSecret P env' (some key') v' name

theorem getTotpSecret_works (hw : Works env) :
    getTotpSecret P env (some key) v name =
      (Members.get? name v.totp).elim [] fun payload => decryptStoragePayload P env payload key := by
  have hread : GoiKey.readTotp env v = v.totp := if_pos (hw.opens _ _)
  unfold getTotpSecret
  rw [hread]
  cases Members.get? name v.totp <;> rfl

/-- What was exported and imported reads as before, for every name there is or is not. -/
theorem passwords_reproduced {key' : Bytes} {s s' : Importing} {d : Device} (h : Whole P key d.vault)
    (hw : Works env) (hs : s.vault.passwords = [])
    (himp : PasswordsImported P key' (archiveOf P env key d).passwords s s') {v' : Vault}
    (hv : v'.passwords = s'.vault.passwords) (env₁ env₂ : Env) (hw₁ : Works env₁) (hw₂ : Works env₂)
    (site login : Str) :
    isPasswordExists env₁ d.vault site login = isPasswordExists env₂ v' site login ∧
      getPasswordFromStorage P env₁ (some key) d.vault site login =
        getPasswordFromStorage P env₂ (some key') v' site login := by
  rw [isPasswordExists, isPasswordExists, storedPassword_works hw₁, storedPassword_works hw₂,
    getPasswordFromStorage_works hw₁, getPasswordFromStorage_works hw₂, hv]
  cases hget : Nested.get? site login d.vault.passwords with
  | some payload =>
    have hmem := h.distinct.get?_iff.mp hget
    obtain ⟨password, hpassword, -, hopens⟩ := (h.password _ hmem).opens
    obtain ⟨payload', hget', hopens'⟩ := himp.there _ (List.mem_map.mpr ⟨_, hmem, rfl⟩)
    have hplain := opens_worded hopens hw hpassword
    rw [hget']
    refine ⟨rfl, ?_⟩
    simp only [hplain] at hopens'
    exact (opens_worded hopens hw₁ hpassword).trans (opens_worded hopens' hw₂ hpassword).symm
  | none =>
    have hnone : Nested.get? site login s'.vault.passwords = none := by
      rw [himp.others site login, hs]
      · rfl
      · intro i hi heq
        obtain ⟨e, he, rfl⟩ := List.mem_map.mp hi
        cases heq
        rw [h.distinct.get?_iff.mpr he] at hget
        cases hget
    rw [hnone]
    exact ⟨rfl, rfl⟩

theorem totp_reproduced {key' : Bytes} {s s' : Importing} {d : Device} (h : Whole P key d.vault)
    (hw : Works env) (hs : s.vault.totp = [])
    (himp : TotpsImported P key' (archiveOf P env key d).totp s s') (env₁ env₂ : Env)
    (hw₁ : Works env₁) (hw₂ : Works env₂) (name : Str) :
    (Members.get? name d.vault.totp).isSome = (Members.get? name s'.vault.totp).isSome ∧
      getTotpSecret P env₁ (some key) d.vault name = getTotpSecret P env₂ (some key') s'.vault name := by
  rw [getTotpSecret_works hw₁, getTotpSecret_works hw₂]
  cases hget : Members.get? name d.vault.totp with
  | some payload =>
    have hmem := Members.mem_of_get? hget
    obtain ⟨secret, hsecret, hopens⟩ := (h.secret _ hmem).opens
    obtain ⟨payload', hget', hopens'⟩ := himp.there _ (List.mem_map.mpr ⟨_, hmem, rfl⟩)
    have hplain := opens_worded hopens hw hsecret
    rw [hget']
    refine ⟨rfl, ?_⟩
    simp only [hplain] at hopens'
    exact (opens_worded hopens hw₁ hsecret).trans (opens_worded hopens' hw₂ hsecret).symm
  | none =>
    have hnone : Members.get? name s'.vault.totp = none := by
      rw [himp.others name, hs]
      · rfl
      · intro i hi heq
        obtain ⟨e, he, rfl⟩ := List.mem_map.mp hi
        cases heq
        rw [h.names.get?_of_mem he] at hget
        cases hget
    rw [hnone]
    exact ⟨rfl, rfl⟩

/-- The archive of a whole vault, imported into an empty one. -/
theorem importVaultPlaintext_archiveOf (hp : RecordsSound P) (he : Encrypts P) (hB : ImportWorks B)
    {key' : Bytes} {d d' : Device} (h : Whole P key d.vault) (hw : Works env) (hempty : d'.vault = {})
    (hkey : d'.serial.storageKey = some key') (overwrite : Bool) :
    ∃ done d'', importVaultPlaintext P B (archiveOf P env key d) overwrite d' = some (done, d'') ∧
      done.messages = List.replicate d.vault.totp.length (.event "TOTP" "SAVED" []) ∧
      done.imported = Nested.size d.vault.passwords + d.vault.totp.length ∧ done.skipped = 0 ∧
      SameContent P key key' d.vault d''.vault := by
  obtain ⟨hpasswords, htotp⟩ := archiveOf_items h hw
  have hlen : (archiveOf P env key d).passwords.length = Nested.size d.vault.passwords := by
    rw [archiveOf, List.length_map, Nested.length_entries]
  have hlen' : (archiveOf P env key d).totp.length = d.vault.totp.length := List.length_map _
  have hnodup : ((archiveOf P env key d).passwords.map fun i => (i.1, i.2.1)).Nodup := by
    rw [archiveOf, List.map_map]
    exact h.distinct.nodup
  have hnames : Members.Distinct (archiveOf P env key d).totp := by
    rw [Members.Distinct, Members.keys, archiveOf, List.map_map]
    exact h.names
  set s : Importing := { vault := d'.vault } with hs
  have hsv : s.vault.passwords = [] ∧ s.vault.totp = [] := by rw [hs, hempty]; exact ⟨rfl, rfl⟩
  have hfirst := importPasswords_new key' hp he hB overwrite 0 s (archiveOf P env key d).passwords
    hpasswords hnodup (fun i _ => by rw [hsv.1]; rfl)
    (by rw [hsv.1, hlen]; exact Nat.le_trans (Nat.le_of_eq (Nat.zero_add _)) h.size)
  set s₁ := importPasswords P B (some key') overwrite 0 s (archiveOf P env key d).passwords with hs₁
  have hsecond := importTotps_new key' hp he hB overwrite (archiveOf P env key d).passwords.length s₁
    (archiveOf P env key d).totp htotp hnames (fun i _ => by rw [hfirst.totp, hsv.2]; rfl)
  set s₂ := importTotps P B (some key') overwrite (archiveOf P env key d).passwords.length s₁
    (archiveOf P env key d).totp with hs₂
  refine ⟨s₂, saveDefaultCryptoAlg B.env { d' with vault := s₂.vault } (loadDefaultCryptoAlg env d), ?_, ?_, ?_, ?_, ?_⟩
  · unfold importVaultPlaintext
    rw [hkey]
    rfl
  · rw [hsecond.messages, hfirst.messages, hlen']
    rfl
  · rw [hsecond.imported, hfirst.imported, hlen, hlen']
    change 0 + _ + _ = _
    omega
  · rw [hsecond.skipped, hfirst.skipped]
  · refine ⟨fun env₁ env₂ hw₁ hw₂ site login => ?_, fun env₁ env₂ hw₁ hw₂ name => ?_⟩
    · exact passwords_reproduced h hw hsv.1 hfirst hsecond.passwords env₁ env₂ hw₁ hw₂ site login
    · refine totp_reproduced h hw ?_ hsecond env₁ env₂ hw₁ hw₂ name
      rw [hfirst.totp]
      exact hsv.2

end GoiKey.Backups
