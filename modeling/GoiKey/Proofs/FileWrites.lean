import GoiKey.Model.Bench
import GoiKey.Model.FileWrites
import GoiKey.Proofs.VaultMap

/-!
Which writes of whole files are all or nothing. The live file is emptied before the
new text is written, and only the large blobs ask how much of it was.
-/

namespace GoiKey.FileWrites

variable {P : Platform} {env : Env} {J : Json Passwords} {T : Json Secrets} {f : Flash}
variable {file : Option Bytes} {new data : Bytes} {o : Outcome} {ms unopened done : List Message}

/-- The text does not reach the flash in full. -/
def Fails (f : Flash) (new : Bytes) : Prop := f.writes = false ∨ f.room < new.length

/-- A write that fails is reported and leaves what was stored, and success means that
the new content is stored. -/
structure Sound (f : Flash) (file : Option Bytes) (o : Outcome) : Prop where
  failed : ∀ new, o.content = some new → Fails f new →
    o.success = false ∧ ∀ old, file = some old → o.file = some old
  stored : o.success = true → ∃ new, o.content = some new ∧ o.file = some new

/-- A file that opens has room for the text. -/
def Fits (f : Flash) (new : Bytes) : Prop := f.writes = true → new.length ≤ f.room

/-- The file opens and has room for it. -/
def Lands (f : Flash) (new : Bytes) : Prop := f.writes = true ∧ new.length ≤ f.room

theorem lands_iff_not_fails : Lands f new ↔ ¬Fails f new := by
  simp [Lands, Fails]

theorem refused_sound (ms : List Message) (file : Option Bytes) : Sound f file (refused ms file) where
  failed _ h := nomatch h
  stored h := nomatch h

/-- What nobody looks at is sound exactly when it fits. -/
theorem unchecked_sound_iff : Sound f file (unchecked f unopened done file new) ↔ Fits f new := by
  cases hw : f.writes with
  | false =>
    have ho : unchecked f unopened done file new =
        { success := false, messages := unopened, content := some new, file := file } := by
      simp [unchecked, hw]
    rw [ho]
    refine ⟨fun _ h => by simp [hw] at h, fun _ => ⟨fun _ _ _ => ⟨rfl, fun _ h => h⟩, fun h => nomatch h⟩⟩
  | true =>
    have ho : unchecked f unopened done file new =
        { success := true, messages := done, content := some new, file := some (new.take f.room) } := by
      simp [unchecked, hw]
    rw [ho]
    constructor
    · intro h _
      by_contra hshort
      nomatch (h.failed new rfl (.inr (Nat.lt_of_not_le hshort))).1
    · intro hfits
      have hroom := hfits hw
      constructor
      · rintro _ ⟨⟩ (hclosed | hshort)
        · rw [hw] at hclosed
          nomatch hclosed
        · omega
      · exact fun _ => ⟨new, rfl, by rw [List.take_of_length_le hroom]⟩

/-- What reports no failure is sound exactly when there is none. -/
theorem unconditional_sound_iff : Sound f file (unconditional f file new) ↔ Lands f new := by
  have hcontent : (unconditional f file new).content = some new := by
    unfold unconditional unchecked
    split <;> rfl
  constructor
  · intro h
    rw [lands_iff_not_fails]
    intro hfails
    nomatch (h.failed new hcontent hfails).1
  · rintro ⟨hw, hroom⟩
    have hsound : Sound f file (unchecked f [] [] file new) := unchecked_sound_iff.mpr fun _ => hroom
    have ho : unconditional f file new = unchecked f [] [] file new := by
      simp [unconditional, unchecked, hw]
    rwa [ho]

/-- Behind checks nothing is written that they do not let through. -/
theorem refused_sound_iff {p : Bytes → Prop} (h : ∀ new, ¬p new) :
    Sound f file (refused ms file) ↔ ∀ new, p new → Fits f new :=
  ⟨fun _ new hp => absurd hp (h new), fun _ => refused_sound ms file⟩

theorem checked_sound_iff {p : Bytes → Prop} (h : ∀ other, p other ↔ new = other) :
    Sound f file (unchecked f unopened done file new) ↔ ∀ new, p new → Fits f new := by
  rw [unchecked_sound_iff]
  constructor
  · intro hfits other hp
    rwa [← (h other).mp hp]
  · intro hfits
    exact hfits new ((h new).mpr rfl)

theorem savePassword_sound_iff {key : Option Bytes} {site login password : Str} :
    Sound f file (savePassword P env J f key file site login password) ↔
      ∀ new, savePasswordText P env J f key file site login password = .ok new → Fits f new := by
  unfold savePassword
  cases savePasswordText P env J f key file site login password with
  | error m => exact refused_sound_iff fun _ h => nomatch h
  | ok new => exact checked_sound_iff fun _ => ⟨Except.ok.inj, congrArg Except.ok⟩

theorem deletePassword_sound_iff {site login : Str} :
    Sound f file (deletePassword J f file site login) ↔
      ∀ new, deletePasswordText J f file site login = some new → Fits f new := by
  unfold deletePassword
  cases deletePasswordText J f file site login with
  | none => exact refused_sound_iff fun _ h => nomatch h
  | some new => exact checked_sound_iff fun _ => Option.some_inj

theorem saveTotpSecret_sound_iff {key : Option Bytes} {name secret : Str} :
    Sound f file (saveTotpSecret P env T f key file name secret) ↔
      ∀ new, saveTotpSecretText P env T f key file name secret = .ok new → Fits f new := by
  unfold saveTotpSecret
  cases saveTotpSecretText P env T f key file name secret with
  | error ms => exact refused_sound_iff fun _ h => nomatch h
  | ok new => exact checked_sound_iff fun _ => ⟨Except.ok.inj, congrArg Except.ok⟩

theorem deleteTotpSecret_sound_iff {name : Str} :
    Sound f file (deleteTotpSecret T f file name) ↔
      ∀ new, deleteTotpSecretText T f file name = some new → Fits f new := by
  unfold deleteTotpSecret
  cases deleteTotpSecretText T f file name with
  | none => exact refused_sound_iff fun _ h => nomatch h
  | some new => exact checked_sound_iff fun _ => Option.some_inj

theorem createPin_sound_iff {minLength : Nat} {pin : Str} :
    Sound f file (createPin P f minLength file pin) ↔
      pin.length < minLength ∨ Lands f (hashPin P pin) := by
  unfold createPin
  split
  next hshort => exact ⟨fun _ => .inl hshort, fun _ => refused_sound _ _⟩
  next hlong =>
    rw [unconditional_sound_iff]
    exact ⟨.inr, fun h => h.resolve_left hlong⟩

/-- The blobs report a short write, but what was stored is gone by then. -/
theorem setLargeBlobArray_sound_iff :
    Sound f file (setLargeBlobArray f file data) ↔
      (f.writes = true → data.length ≤ f.room ∨ ∀ old, file = some old → old = data.take f.room) := by
  unfold setLargeBlobArray
  cases hw : f.writes with
  | false =>
    refine ⟨fun _ h => (nomatch h), fun _ => ⟨fun _ _ _ => ⟨rfl, fun _ h => h⟩, fun h => nomatch h⟩⟩
  | true =>
    rw [if_pos rfl]
    constructor
    · intro h _
      refine or_iff_not_imp_left.mpr fun hshort old hold => ?_
      have hkept := (h.failed data rfl (.inr (Nat.lt_of_not_le hshort))).2 old hold
      exact (Option.some.inj hkept).symm
    · intro h
      constructor
      · rintro _ ⟨⟩ (hclosed | hshort)
        · rw [hw] at hclosed
          nomatch hclosed
        · have hlen : ((data.take f.room).length == data.length) = false := by
            rw [List.length_take, beq_eq_false_iff_ne]
            omega
          refine ⟨hlen, fun old hold => ?_⟩
          rw [(h rfl).resolve_left (by omega) old hold]
      · intro hsuccess
        have hlen : (data.take f.room).length = data.length := beq_iff_eq.mp hsuccess
        refine ⟨data, rfl, ?_⟩
        rw [List.length_take] at hlen
        rw [List.take_of_length_le (by omega)]

/-! Written in full, the files are the vault of the sessions. -/

/-- ArduinoJson reads back what it wrote. -/
structure Json.Sound {δ : Type} (D : Json δ) : Prop where
  parse : ∀ doc, D.parse (D.serialize doc) = doc
  whole : ∀ doc, D.fails (D.serialize doc) = false

/-- The file is the text of the document, or is not there for an empty one. -/
def Stored (J : Json Passwords) (file : Option Bytes) (doc : Passwords) : Prop :=
  file = some (J.serialize doc) ∨ file = none ∧ doc = []

variable {v v' : Vault} {key : Option Bytes} {site login password : Str} {m : Message}

theorem load_stored (hJ : J.Sound) (h : Stored J file v.passwords)
    (hreads : f.reads = env.opens .passwords .read) : load f J file = readPasswords env v := by
  unfold load readPasswords
  rw [hreads]
  rcases h with rfl | ⟨rfl, hnil⟩
  · simp only [hJ.parse]
  · simp only [hnil, ite_self]

theorem isPasswordExists_stored (hJ : J.Sound) (h : Stored J file v.passwords)
    (hreads : f.reads = env.opens .passwords .read) :
    isPasswordExists J f file site login = GoiKey.isPasswordExists env v site login := by
  unfold isPasswordExists GoiKey.isPasswordExists storedPassword readPasswords
  rw [hreads]
  rcases h with rfl | ⟨rfl, hnil⟩
  · simp only [hJ.parse, hJ.whole]
    cases env.opens .passwords .read <;> rfl
  · rw [hnil, ite_self]
    rfl

/-- With room for it, a save writes the text of what it makes of the vault. -/
theorem savePassword_stored (hJ : J.Sound) (h : Stored J file v.passwords)
    (hreads : f.reads = env.opens .passwords .read) (hwrites : f.writes = env.opens .passwords .write)
    (hroom : ∀ doc, (J.serialize doc).length ≤ f.room)
    (hok : GoiKey.savePassword P env key v site login password = .ok v') :
    (savePassword P env J f key file site login password).success = true ∧
      Stored J (savePassword P env J f key file site login password).file v'.passwords := by
  have hload := load_stored hJ h hreads
  rcases savePassword_cases P env key v site login password with ⟨k, rfl, ha, hsave⟩ | ⟨-, m, hsave⟩
  · obtain rfl : _ = v' := Except.ok.inj (hsave.symm.trans hok)
    have htext : savePasswordText P env J f (some k) file site login password = .ok (J.serialize
        (Nested.set site login (encryptStoragePayload P env password k) (readPasswords env v))) := by
      have hnames : ¬(64 < site.length ∨ 64 < login.length) := by
        have := ha.shortSite
        have := ha.shortLogin
        omega
      unfold savePasswordText
      simp only [isPasswordExists_stored hJ h hreads, hload, if_neg hnames, ha.absent,
        if_neg (Nat.not_lt.mpr ha.shortPassword), if_neg (Nat.not_le.mpr ha.room), if_neg ha.encrypts,
        Bool.false_eq_true, if_false]
    have hopen : f.writes = true := hwrites.trans ha.opens
    unfold savePassword
    rw [htext]
    simp only [unchecked, hopen, if_true, true_and]
    exact .inl (by rw [List.take_of_length_le (hroom _)])
  · cases hsave.symm.trans hok

/-- And what it refuses leaves the file as it was, with the same message. -/
theorem savePassword_refused (hJ : J.Sound) (h : Stored J file v.passwords)
    (hreads : f.reads = env.opens .passwords .read) (hwrites : f.writes = env.opens .passwords .write)
    (herr : GoiKey.savePassword P env key v site login password = .error m) :
    (savePassword P env J f key file site login password).success = false ∧
      (savePassword P env J f key file site login password).messages = [m] ∧
      (savePassword P env J f key file site login password).file = file := by
  unfold savePassword savePasswordText
  unfold GoiKey.savePassword at herr
  cases key with
  | none =>
    cases herr
    exact ⟨rfl, rfl, rfl⟩
  | some k =>
    simp only [isPasswordExists_stored hJ h hreads, load_stored hJ h hreads, Nested.size] at herr ⊢
    split at herr
    next hnames => cases herr; rw [if_pos hnames]; exact ⟨rfl, rfl, rfl⟩
    next hnames =>
    rw [if_neg hnames]
    split at herr
    next hlen => cases herr; rw [if_pos hlen]; exact ⟨rfl, rfl, rfl⟩
    next hlen =>
    rw [if_neg hlen]
    split at herr
    next hthere => cases herr; rw [if_pos hthere]; exact ⟨rfl, rfl, rfl⟩
    next hthere =>
    rw [if_neg hthere]
    split at herr
    next hfull => cases herr; rw [if_pos hfull]; exact ⟨rfl, rfl, rfl⟩
    next hfull =>
    rw [if_neg hfull]
    split at herr
    next hnil => cases herr; rw [if_pos hnil]; exact ⟨rfl, rfl, rfl⟩
    next hnil =>
    rw [if_neg hnil]
    split at herr
    next hclosed =>
      cases herr
      have hw : f.writes = false := by rw [hwrites]; simpa using hclosed
      simp only [unchecked, hw]
      exact ⟨rfl, rfl, rfl⟩
    · cases herr

/-- When each operation is sound, whatever the files hold. -/
theorem writers_sound_iff (P : Platform) (env : Env) (J : Json Passwords) (T : Json Secrets) (f : Flash)
    (file : Option Bytes) :
    (∀ minLength pin, Sound f file (createPin P f minLength file pin) ↔
      pin.length < minLength ∨ Lands f (hashPin P pin)) ∧
    (Sound f file (incrementFailedPinAttempts f file) ↔
      Lands f (printInt (getFailedPinAttempts f file + 1))) ∧
    (∀ force, Sound f file (setForcePinChange f file force) ↔ Lands f (text (if force then "1" else "0"))) ∧
    (∀ length, Sound f file (setMinPinLength f file length) ↔ Lands f (decimal length.toNat)) ∧
    (∀ key site login password, Sound f file (savePassword P env J f key file site login password) ↔
      ∀ new, savePasswordText P env J f key file site login password = .ok new → Fits f new) ∧
    (∀ site login, Sound f file (deletePassword J f file site login) ↔
      ∀ new, deletePasswordText J f file site login = some new → Fits f new) ∧
    (∀ key name secret, Sound f file (saveTotpSecret P env T f key file name secret) ↔
      ∀ new, saveTotpSecretText P env T f key file name secret = .ok new → Fits f new) ∧
    (∀ name, Sound f file (deleteTotpSecret T f file name) ↔
      ∀ new, deleteTotpSecretText T f file name = some new → Fits f new) ∧
    (∀ data, Sound f file (setLargeBlobArray f file data) ↔
      (f.writes = true → data.length ≤ f.room ∨ ∀ old, file = some old → old = data.take f.room)) := by
  refine ⟨?createPin, ?failures, ?force, ?minLength, ?save, ?delete, ?saveTotp, ?deleteTotp, ?blobs⟩
  case createPin => exact fun _ _ => createPin_sound_iff
  case failures => exact unconditional_sound_iff
  case force => exact fun _ => unconditional_sound_iff
  case minLength => exact fun _ => unconditional_sound_iff
  case save => exact fun _ _ _ _ => savePassword_sound_iff
  case delete => exact fun _ _ => deletePassword_sound_iff
  case saveTotp => exact fun _ _ _ => saveTotpSecret_sound_iff
  case deleteTotp => exact fun _ => deleteTotpSecret_sound_iff
  case blobs => exact fun _ => setLargeBlobArray_sound_iff

/-- A new PIN of which ten bytes of the hash reach the flash. -/
theorem short_pin_reported :
    (createPin Bench.platform ⟨true, true, 10⟩ 4 (some (hashPin Bench.platform (text "1234"))) (text "5678")).success = true ∧
    (createPin Bench.platform ⟨true, true, 10⟩ 4 (some (hashPin Bench.platform (text "1234"))) (text "5678")).file =
      some ((hashPin Bench.platform (text "5678")).take 10) ∧
    ¬Sound ⟨true, true, 10⟩ (some (hashPin Bench.platform (text "1234")))
      (createPin Bench.platform ⟨true, true, 10⟩ 4 (some (hashPin Bench.platform (text "1234"))) (text "5678")) := by
  refine ⟨rfl, rfl, fun h => ?_⟩
  have hfails : Fails ⟨true, true, 10⟩ (hashPin Bench.platform (text "5678")) := .inr (by decide +kernel)
  nomatch (h.failed _ rfl hfails).1

end GoiKey.FileWrites
