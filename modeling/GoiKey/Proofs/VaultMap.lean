import GoiKey.Lib.Nested
import GoiKey.Lib.Trace
import GoiKey.Proofs.SavedRecords

/-!
The passwords of a vault as a map under one storage key: a read gives what was
saved last under its site and login, and the other entries are never touched.
-/

namespace GoiKey

section Saving

variable {P : Platform} {env : Env} {k : Bytes} {v : Vault} {site login password : Str}

/-- What savePassword asks for. -/
structure Admits (P : Platform) (env : Env) (k : Bytes) (v : Vault) (site login password : Str) :
    Prop where
  shortSite : site.length ≤ 64
  shortLogin : login.length ≤ 64
  shortPassword : password.length ≤ 4000
  absent : isPasswordExists env v site login = false
  room : Nested.size (readPasswords env v) < maxLogins
  encrypts : encryptStoragePayload P env password k ≠ []
  opens : env.opens .passwords .write = true

/-- With everything it asks for the entry is stored, else nothing is. -/
theorem savePassword_cases (P : Platform) (env : Env) (key : Option Bytes) (v : Vault)
    (site login password : Str) :
    (∃ k, key = some k ∧ Admits P env k v site login password ∧
      savePassword P env key v site login password = .ok { v with
        passwords := Nested.set site login (encryptStoragePayload P env password k) (readPasswords env v) }) ∨
    ((∀ k, key = some k → ¬Admits P env k v site login password) ∧
      ∃ m, savePassword P env key v site login password = .error m) := by
  unfold savePassword
  cases key with
  | none =>
    refine .inr ⟨fun k h => ?_, _, rfl⟩
    cases h
  | some k =>
    have hrefused : ¬Admits P env k v site login password →
        ∀ k', some k = some k' → ¬Admits P env k' v site login password := by
      intro h k' hk
      cases hk
      exact h
    simp only
    split
    next hlong =>
      refine .inr ⟨hrefused fun h => ?_, _, rfl⟩
      exact hlong.elim (Nat.not_lt.mpr h.shortSite) (Nat.not_lt.mpr h.shortLogin)
    split
    next hlong => exact .inr ⟨hrefused fun h => Nat.not_lt.mpr h.shortPassword hlong, _, rfl⟩
    split
    next hthere =>
      refine .inr ⟨hrefused fun h => ?_, _, rfl⟩
      rw [h.absent] at hthere
      cases hthere
    split
    next hfull => exact .inr ⟨hrefused fun h => Nat.not_lt.mpr hfull h.room, _, rfl⟩
    split
    next hnil => exact .inr ⟨hrefused fun h => h.encrypts hnil, _, rfl⟩
    split
    next hclosed => exact .inr ⟨hrefused fun h => by simp [h.opens] at hclosed, _, rfl⟩
    next hnames hlen habsent hroom hnil hopen =>
      refine .inl ⟨k, rfl, ⟨by omega, by omega, by omega, ?_, Nat.not_le.mp hroom, hnil, ?_⟩, rfl⟩
      · rwa [Bool.not_eq_true] at habsent
      · simpa using hopen

end Saving

end GoiKey

namespace GoiKey.VaultMap

variable {P : Platform} {env env' : Env} {key : Bytes} {v v' : Vault}
variable {site login password : Str}

/-- The three calls on the passwords. -/
inductive Call where
  | save (site login password : Str)
  | get (site login : Str)
  | delete (site login : Str)
  deriving DecidableEq, Repr

/-- The entry a call is about. -/
def Call.entry : Call → Str × Str
  | .save site login _ => (site, login)
  | .get site login => (site, login)
  | .delete site login => (site, login)

inductive Returned where
  | done (ok : Bool)
  | text (s : Str)
  deriving DecidableEq, Repr

structure Input where
  env : Env
  call : Call

abbrev Entry := Trace.Entry Vault Input Returned

/-- A call under the storage key. -/
def run (P : Platform) (key : Bytes) (v : Vault) (i : Input) : Returned × Vault :=
  match i.call with
  | .save site login password =>
    match savePassword P i.env (some key) v site login password with
    | .ok v => (.done true, v)
    | .error _ => (.done false, v)
  | .get site login => (.text (getPasswordFromStorage P i.env (some key) v site login), v)
  | .delete site login =>
    let r := deletePassword i.env v site login
    (.done r.1, r.2)

/-- Files open and buffers are there. -/
structure Works (env : Env) : Prop where
  opens : ∀ f a, env.opens f a = true
  allocates : ∀ b, env.allocates b = true

/-- A C string that names an entry. -/
structure Named (s : Str) : Prop where
  nonempty : s ≠ []
  nulFree : (0 : UInt8) ∉ s
  short : s.length ≤ 64

/-- What the calls are made with. -/
def Allowed : Call → Prop
  | .save site login password => (Named site ∧ Named login) ∧ password.length ≤ 4000
  | .get site login => Named site ∧ Named login
  | .delete site login => Named site ∧ Named login

/-! The map a history of calls makes. -/

/-- What a call did to an entry: the password it has now, or that it is gone. -/
def effect (site login : Str) (e : Entry) : Option (Option Str) :=
  match e.input.call, e.output with
  | .save s l password, .done true => if (s, l) = (site, login) then some (some password) else none
  | .delete s l, .done true => if (s, l) = (site, login) then some none else none
  | _, _ => none

/-- The value of the last successful save no successful delete came after. -/
def lastSaved (past : List Entry) (site login : Str) : Option Str :=
  (Trace.latest (fun _ e => effect site login e) past).join

/-- A step of the map. What comes back is the C string of the password, which is the
password where it has no NUL, as none has that came as a C string. -/
structure MapStep (P : Platform) (key : Bytes) (past : List Entry) (e : Entry) : Prop where
  saved : ∀ site login password, e.input.call = .save site login password →
    (e.output = .done true ↔ lastSaved past site login = none ∧
      Nested.size e.before.passwords < maxLogins ∧
      encryptStoragePayload P e.input.env password key ≠ [])
  deleted : ∀ site login, e.input.call = .delete site login →
    e.output = .done (lastSaved past site login).isSome
  got : ∀ site login, e.input.call = .get site login →
    e.output = .text (cstr ((lastSaved past site login).getD []))
  got_whole : ∀ site login password, e.input.call = .get site login →
    lastSaved past site login = some password → (0 : UInt8) ∉ password → e.output = .text password
  others : ∀ site login, (site, login) ≠ e.input.call.entry → ∀ env, Works env →
    getPasswordFromStorage P env (some key) e.after site login =
      getPasswordFromStorage P env (some key) e.before site login
  capped : Nested.size e.after.passwords ≤ maxLogins

/-! The calls when everything works. -/

theorem readPasswords_works (hw : Works env) : readPasswords env v = v.passwords :=
  if_pos (hw.opens _ _)

theorem storedPassword_works (hw : Works env) :
    storedPassword env v site login = Nested.get? site login v.passwords := by
  rw [storedPassword, readPasswords_works hw, Nested.get?]

/-- A save within its bounds says no for three reasons. -/
theorem savePassword_works (P : Platform) (key : Bytes) (v : Vault) (hw : Works env) (hs : site.length ≤ 64) (hl : login.length ≤ 64)
    (hp : password.length ≤ 4000) :
    (∃ m, savePassword P env (some key) v site login password = .error m ∧
      ¬(Nested.get? site login v.passwords = none ∧ Nested.size v.passwords < maxLogins ∧
        encryptStoragePayload P env password key ≠ [])) ∨
    (savePassword P env (some key) v site login password = .ok { v with
      passwords := Nested.set site login (encryptStoragePayload P env password key) v.passwords } ∧
      Nested.get? site login v.passwords = none ∧ Nested.size v.passwords < maxLogins ∧
      encryptStoragePayload P env password key ≠ []) := by
  rcases savePassword_cases P env (some key) v site login password with ⟨k, hk, ha, hsave⟩ | ⟨hno, m, hsave⟩
  · cases hk
    rw [readPasswords_works hw] at hsave
    refine .inr ⟨hsave, ?_, ?_, ha.encrypts⟩
    · rw [← storedPassword_works hw, ← Option.isNone_iff_eq_none, ← Option.not_isSome, Bool.not_eq_true']
      exact ha.absent
    · rw [← readPasswords_works hw]
      exact ha.room
  · refine .inl ⟨m, hsave, fun ⟨hnone, hroom, henc⟩ => hno key rfl ⟨hs, hl, hp, ?_, ?_, henc, hw.opens _ _⟩⟩
    · rw [isPasswordExists, storedPassword_works hw, hnone]
      rfl
    · rwa [readPasswords_works hw]

theorem deletePassword_works (hw : Works env) :
    deletePassword env v site login =
      if (Nested.get? site login v.passwords).isSome then
        (true, { v with passwords := Nested.remove site login v.passwords })
      else (false, v) := by
  unfold deletePassword
  rw [isPasswordExists, storedPassword_works hw, readPasswords_works hw]
  by_cases h : (Nested.get? site login v.passwords).isSome = true
  · rw [if_pos h, if_neg (by simp [h, hw.opens])]
    rfl
  · rw [if_neg h, if_pos (by simp [h])]

theorem getPasswordFromStorage_works (hw : Works env) :
    getPasswordFromStorage P env (some key) v site login =
      (Nested.get? site login v.passwords).elim [] fun payload => decryptStoragePayload P env payload key := by
  unfold getPasswordFromStorage
  rw [storedPassword_works hw]
  cases Nested.get? site login v.passwords <;> rfl

/-- A payload opens to its password, an empty one too. -/
theorem decrypt_works (hp : RecordsSound P) (hw : Works env')
    (h : encryptStoragePayload P env password key ≠ []) :
    decryptStoragePayload P env' (encryptStoragePayload P env password key) key = cstr password := by
  by_cases hpw : password = []
  · subst hpw
    exact (decrypt_encrypt hp.toStorageSound).elim id id
  · exact decrypt_encrypt_eq hp hpw h (hw.allocates _)

/-! The vault holds the map. -/

/-- A stored payload opens to the password of the map. -/
def Opens (P : Platform) (key : Bytes) (payload password : Str) : Prop :=
  ∀ env, Works env → decryptStoragePayload P env payload key = cstr password

/-- Every entry of the map is stored and no other is. -/
structure Holds (P : Platform) (key : Bytes) (past : List Entry) (v : Vault) : Prop where
  entries : ∀ site login, Option.Rel (Opens P key) (Nested.get? site login v.passwords) (lastSaved past site login)
  capped : Nested.size v.passwords ≤ maxLogins

theorem isSome_of_rel {r : Str → Str → Prop} {a b : Option Str} (h : Option.Rel r a b) :
    a.isSome = b.isSome := by
  cases h <;> rfl

theorem elim_of_rel {r : Str → Str → Prop} {a b : Option Str} {f : Str → Str} (h : Option.Rel r a b)
    (hf : ∀ x y, r x y → f x = cstr y) : a.elim [] f = cstr (b.getD []) := by
  cases h with
  | none => rfl
  | some hr => exact hf _ _ hr

theorem Holds.isSome {past : List Entry} (h : Holds P key past v) (site login : Str) :
    (Nested.get? site login v.passwords).isSome = (lastSaved past site login).isSome := by
  exact isSome_of_rel (h.entries site login)

theorem Holds.none_iff {past : List Entry} (h : Holds P key past v) (site login : Str) :
    Nested.get? site login v.passwords = none ↔ lastSaved past site login = none := by
  rw [← Option.isNone_iff_eq_none, ← Option.isNone_iff_eq_none, ← Option.not_isSome, h.isSome,
    Option.not_isSome]

theorem Holds.got {past : List Entry} (h : Holds P key past v) (hw : Works env) (site login : Str) :
    getPasswordFromStorage P env (some key) v site login = cstr ((lastSaved past site login).getD []) := by
  rw [getPasswordFromStorage_works hw]
  exact elim_of_rel (h.entries site login) fun _ _ hopens => hopens env hw

theorem lastSaved_cons (e : Entry) (past : List Entry) (site login : Str) :
    lastSaved (e :: past) site login = (effect site login e).getD (lastSaved past site login) := by
  unfold lastSaved
  rw [Trace.latest]
  cases effect site login e <;> rfl

/-! What a step does to both. -/

variable {past : List Entry} {e : Entry}

theorem Holds.unchanged (h : Holds P key past v) (he : ∀ site login, effect site login e = none) :
    Holds P key (e :: past) v where
  entries site login := by
    rw [lastSaved_cons, he]
    exact h.entries site login
  capped := h.capped

theorem Holds.saves (h : Holds P key past v) {payload : Str} (hopens : Opens P key payload password)
    (hnone : Nested.get? site login v.passwords = none) (hroom : Nested.size v.passwords < maxLogins)
    (he : ∀ s l, effect s l e = if (site, login) = (s, l) then some (some password) else none) :
    Holds P key (e :: past) { v with passwords := Nested.set site login payload v.passwords } where
  entries s l := by
    rw [lastSaved_cons, he]
    by_cases hsl : (site, login) = (s, l)
    · cases hsl
      rw [if_pos rfl, Nested.get?_set_self]
      exact .some hopens
    · rw [if_neg hsl, Nested.get?_set_of_ne (Ne.symm hsl)]
      exact h.entries s l
  capped := by
    rw [Nested.size_set hnone]
    exact hroom

theorem Holds.deletes (h : Holds P key past v)
    (he : ∀ s l, effect s l e = if (site, login) = (s, l) then some none else none) :
    Holds P key (e :: past) { v with passwords := Nested.remove site login v.passwords } where
  entries s l := by
    rw [lastSaved_cons, he]
    by_cases hsl : (site, login) = (s, l)
    · cases hsl
      rw [if_pos rfl, Nested.get?_remove_self]
      exact .none
    · rw [if_neg hsl, Nested.get?_remove_of_ne (Ne.symm hsl)]
      exact h.entries s l
  capped := Nested.size_remove_le.trans h.capped

/-- A save, as a call: refused for one of three reasons, or stored. -/
theorem run_save (P : Platform) (key : Bytes) (v : Vault) (hw : Works env) (ha : Allowed (.save site login password)) :
    (run P key v ⟨env, .save site login password⟩ = (.done false, v) ∧
      ¬(Nested.get? site login v.passwords = none ∧ Nested.size v.passwords < maxLogins ∧
        encryptStoragePayload P env password key ≠ [])) ∨
    (run P key v ⟨env, .save site login password⟩ = (.done true, { v with
      passwords := Nested.set site login (encryptStoragePayload P env password key) v.passwords }) ∧
      Nested.get? site login v.passwords = none ∧ Nested.size v.passwords < maxLogins ∧
      encryptStoragePayload P env password key ≠ []) := by
  obtain ⟨⟨hs, hl⟩, hlen⟩ := ha
  unfold run
  rcases savePassword_works P key v hw hs.short hl.short hlen with
    ⟨m, hsave, hrefused⟩ | ⟨hsave, hfits⟩
  · exact .inl ⟨by simp only [hsave], hrefused⟩
  · exact .inr ⟨by simp only [hsave], hfits⟩

theorem run_delete (hw : Works env) :
    run P key v ⟨env, .delete site login⟩ =
      if (Nested.get? site login v.passwords).isSome then
        (.done true, { v with passwords := Nested.remove site login v.passwords })
      else (.done false, v) := by
  change ((.done (deletePassword env v site login).1, (deletePassword env v site login).2) :
    Returned × Vault) = _
  rw [deletePassword_works hw]
  split <;> rfl

theorem holds_run (hp : RecordsSound P) (h : Holds P key past v) {i : Input} (hw : Works i.env)
    (ha : Allowed i.call) :
    Holds P key (Trace.entry (run P key) v i :: past) (run P key v i).2 := by
  obtain ⟨env, call⟩ := i
  cases call with
  | save site login password =>
    rcases run_save P key v hw ha with ⟨hrun, -⟩ | ⟨hrun, hnone, hroom, henc⟩
    · rw [Trace.entry, hrun]
      exact h.unchanged fun _ _ => rfl
    · rw [Trace.entry, hrun]
      exact h.saves (fun env' hw' => decrypt_works hp hw' henc) hnone hroom fun _ _ => rfl
  | get site login => exact h.unchanged fun _ _ => rfl
  | delete site login =>
    rw [Trace.entry, run_delete hw]
    split
    · exact h.deletes fun _ _ => rfl
    · exact h.unchanged fun _ _ => rfl

theorem effect_of_ne (h : (site, login) ≠ e.input.call.entry) : effect site login e = none := by
  obtain ⟨before, ⟨env, call⟩, output, after⟩ := e
  unfold effect
  cases call with
  | get s l => rfl
  | save s l password =>
    rcases output with ⟨_ | _⟩ | _
    · rfl
    · exact if_neg (Ne.symm h)
    · rfl
  | delete s l =>
    rcases output with ⟨_ | _⟩ | _
    · rfl
    · exact if_neg (Ne.symm h)
    · rfl

theorem mapStep_run (hp : RecordsSound P) (h : Holds P key past v) {i : Input} (hw : Works i.env)
    (ha : Allowed i.call) : MapStep P key past (Trace.entry (run P key) v i) where
  saved site login password hcall := by
    obtain ⟨env, call⟩ := i
    obtain rfl : call = .save site login password := hcall
    rw [← h.none_iff]
    rcases run_save P key v hw ha with ⟨hrun, hrefused⟩ | ⟨hrun, hfits⟩
    · rw [Trace.entry, hrun]
      exact ⟨(fun h => nomatch h), fun hfits => absurd hfits hrefused⟩
    · rw [Trace.entry, hrun]
      exact ⟨fun _ => hfits, fun _ => rfl⟩
  deleted site login hcall := by
    obtain ⟨env, call⟩ := i
    obtain rfl : call = .delete site login := hcall
    rw [Trace.entry, run_delete hw, ← h.isSome]
    split
    next hsome => rw [hsome]
    next hnone => rw [Bool.not_eq_true] at hnone; rw [hnone]
  got site login hcall := by
    obtain ⟨env, call⟩ := i
    obtain rfl : call = .get site login := hcall
    exact congrArg Returned.text (h.got hw site login)
  got_whole site login password hcall hlast hnul := by
    obtain ⟨env, call⟩ := i
    obtain rfl : call = .get site login := hcall
    have hgot := h.got hw site login
    rw [hlast, Option.getD_some, cstr_of_notMem hnul] at hgot
    exact congrArg Returned.text hgot
  others site login hne env' hw' := by
    have hafter := (holds_run hp h hw ha).got hw' site login
    rw [lastSaved_cons, effect_of_ne hne, Option.getD_none] at hafter
    exact hafter.trans (h.got hw' site login).symm
  capped := (holds_run hp h hw ha).capped

/-- Over any calls on an empty vault each one is a step of the map. -/
theorem passwords_are_a_map (P : Platform) (hp : RecordsSound P) (key : Bytes) (v : Vault)
    (hv : v.passwords = []) (is : List Input)
    (his : Trace.Guarded (run P key) (fun _ _ i => Works i.env ∧ Allowed i.call) v is) :
    Trace.Always (MapStep P key) (Trace.history (run P key) v is) := by
  have hempty : Holds P key [] v := by
    refine ⟨fun site login => ?_, ?_⟩
    · rw [hv]
      exact .none
    · rw [hv]
      exact Nat.zero_le _
  exact Trace.always (I := Holds P key) (fun past v i h hi => holds_run hp h hi.1 hi.2)
    (fun past v i h hi => mapStep_run hp h hi.1 hi.2) hempty his

section Bench

open Bench

def calls : List Input :=
  [⟨idleEnv 1 0, .save (text "site") (text "login") (text "first")⟩,
    ⟨idleEnv 2 0, .get (text "site") (text "login")⟩,
    ⟨idleEnv 3 0, .delete (text "site") (text "login")⟩,
    ⟨idleEnv 4 0, .get (text "site") (text "login")⟩]

theorem idleEnv_works (seed : UInt8) (now : UInt32) : Works (idleEnv seed now) where
  opens _ _ := rfl
  allocates _ := rfl

theorem named_site : Named (text "site") := ⟨by decide, by decide, by decide⟩

theorem named_login : Named (text "login") := ⟨by decide, by decide, by decide⟩

theorem passwords_are_a_map_calls :
    Trace.Always (MapStep platform (zeros 32))
      (Trace.history (run platform (zeros 32)) {} calls) := by
  have hnamed := And.intro named_site named_login
  exact passwords_are_a_map platform recordsSound_bench (zeros 32) {} rfl calls
    ⟨⟨idleEnv_works 1 0, hnamed, by decide⟩, ⟨idleEnv_works 2 0, hnamed⟩, ⟨idleEnv_works 3 0, hnamed⟩,
      ⟨idleEnv_works 4 0, hnamed⟩, trivial⟩

end Bench

end GoiKey.VaultMap
