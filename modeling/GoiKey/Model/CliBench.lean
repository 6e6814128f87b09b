import GoiKey.Model.Bench
import GoiKey.Model.Cli

/-! The bench for the serial front end: archives as text, and a turn of cliTask. -/

namespace GoiKey.Bench

/-- The text up to a comma, in hex. -/
def field (s : Str) : Str := toHex s ++ [0x2C]

def readField (b : Str) : Option (Str × Str) :=
  (Fields.cut 0x2C b).map fun p => (hexPairs p.1, p.2)

theorem readField_field (s rest : Str) : readField (field s ++ rest) = some (s, rest) := by
  have hcomma : (0x2C : UInt8) ∉ toHex s := Hex.notMem_encode (by simp [Hex.IsDigit]) s
  rw [field, List.append_assoc, List.singleton_append, readField, Fields.cut_append hcomma]
  simp

def passwordText (entry : Str × Str × Str) : Str :=
  0x70 :: (field entry.1 ++ (field entry.2.1 ++ field entry.2.2))

def totpText (entry : Str × Str) : Str := 0x74 :: (field entry.1 ++ field entry.2)

/-- A number as that many zeros, under a letter that tells its sign. -/
def algText : Option Int → Str
  | none => []
  | some (.ofNat n) => 0x61 :: field (zeros n)
  | some (.negSucc n) => 0x6E :: field (zeros n)

def archiveText (a : Archive) : Str :=
  a.passwords.flatMap passwordText ++ (a.totp.flatMap totpText ++ algText a.cryptoAlg)

/-- Every entry takes a letter, so the length of the text is fuel enough. -/
def readArchive : Nat → Archive → Str → Option Archive
  | _, a, [] => some a
  | 0, _, _ :: _ => none
  | fuel + 1, a, c :: b => do
    let (x, b) ← readField b
    if c = 0x61 then readArchive fuel { a with cryptoAlg := some (.ofNat x.length) } b
    else if c = 0x6E then readArchive fuel { a with cryptoAlg := some (.negSucc x.length) } b
    else
      let (y, b) ← readField b
      if c = 0x74 then readArchive fuel { a with totp := a.totp ++ [(x, y)] } b
      else
        let (z, b) ← readField b
        readArchive fuel { a with passwords := a.passwords ++ [(x, y, z)] } b

def archiveJson : ArchiveJson := ⟨archiveText, fun s => readArchive s.length {} s⟩

theorem readArchive_passwords (entries : List (Str × Str × Str)) (rest : Str) (fuel : Nat) (a : Archive)
    (h : (entries.flatMap passwordText ++ rest).length ≤ fuel) :
    ∃ fuel', rest.length ≤ fuel' ∧ readArchive fuel a (entries.flatMap passwordText ++ rest) =
      readArchive fuel' { a with passwords := a.passwords ++ entries } rest := by
  induction entries generalizing fuel a with
  | nil => exact ⟨fuel, h, by simp⟩
  | cons entry entries ih =>
    obtain ⟨x, y, z⟩ := entry
    simp only [List.flatMap_cons, passwordText, List.cons_append, List.append_assoc, List.length_cons,
      List.length_append] at h ⊢
    cases fuel with
    | zero => omega
    | succ fuel =>
      obtain ⟨fuel', hle, hread⟩ := ih fuel { a with passwords := a.passwords ++ [(x, y, z)] }
        (by simp only [List.length_append]; omega)
      refine ⟨fuel', hle, ?_⟩
      have h1 : (0x70 : UInt8) ≠ 0x61 := by decide
      have h2 : (0x70 : UInt8) ≠ 0x6E := by decide
      have h3 : (0x70 : UInt8) ≠ 0x74 := by decide
      simp only [readArchive, readField_field, Option.bind_eq_bind, Option.bind_some, if_neg h1, if_neg h2,
        if_neg h3, hread, List.append_assoc, List.singleton_append]

theorem readArchive_totp (entries : List (Str × Str)) (rest : Str) (fuel : Nat) (a : Archive)
    (h : (entries.flatMap totpText ++ rest).length ≤ fuel) :
    ∃ fuel', rest.length ≤ fuel' ∧ readArchive fuel a (entries.flatMap totpText ++ rest) =
      readArchive fuel' { a with totp := a.totp ++ entries } rest := by
  induction entries generalizing fuel a with
  | nil => exact ⟨fuel, h, by simp⟩
  | cons entry entries ih =>
    obtain ⟨x, y⟩ := entry
    simp only [List.flatMap_cons, totpText, List.cons_append, List.append_assoc, List.length_cons,
      List.length_append] at h ⊢
    cases fuel with
    | zero => omega
    | succ fuel =>
      obtain ⟨fuel', hle, hread⟩ := ih fuel { a with totp := a.totp ++ [(x, y)] }
        (by simp only [List.length_append]; omega)
      refine ⟨fuel', hle, ?_⟩
      have h1 : (0x74 : UInt8) ≠ 0x61 := by decide
      have h2 : (0x74 : UInt8) ≠ 0x6E := by decide
      simp only [readArchive, readField_field, Option.bind_eq_bind, Option.bind_some, if_neg h1, if_neg h2,
        ↓reduceIte, hread, List.append_assoc, List.singleton_append]

theorem readArchive_alg (n : Option Int) (a : Archive) {fuel : Nat} (h : (algText n).length ≤ fuel)
    (ha : a.cryptoAlg = none) : readArchive fuel a (algText n) = some { a with cryptoAlg := n } := by
  have hnil : ∀ s, readField (field s) = some (s, []) := fun s => by
    simpa using readField_field s []
  have hend : ∀ fuel a, readArchive fuel a [] = some a := fun fuel a => by cases fuel <;> rfl
  cases n with
  | none => rw [algText, hend, ← ha]
  | some n =>
    cases fuel with
    | zero => cases n <;> simp [algText] at h
    | succ fuel =>
      cases n with
      | ofNat n => simp [algText, readArchive, hnil, hend, zeros]
      | negSucc n => simp [algText, readArchive, hnil, hend, zeros]

/-- It reads back every archive it writes. -/
theorem archiveJson_roundTrip (a : Archive) :
    archiveJson.deserialize (archiveJson.serialize a) = some a := by
  obtain ⟨fuel, hle, hread⟩ := readArchive_passwords a.passwords
    (a.totp.flatMap totpText ++ algText a.cryptoAlg) _ {} (Nat.le_refl _)
  obtain ⟨fuel', hle', hread'⟩ := readArchive_totp a.totp (algText a.cryptoAlg) _
    { passwords := a.passwords } hle
  change readArchive (archiveText a).length {} (archiveText a) = some a
  rw [archiveText, hread]
  simp only [List.nil_append] at hread' ⊢
  rw [hread', readArchive_alg a.cryptoAlg _ hle' rfl]

def backupEnv (env : Env) (seed : UInt8) : BackupEnv where
  env := env
  lookup _ := env
  removal _ := env
  saving _ := env
  salt := List.replicate 16 seed
  nonce := List.replicate 12 seed
  derives := true
  cipherBuffer := true
  blobBuffer := true
  plainBuffer := true

def cliEnv (env : Env) (seed : UInt8) : CliEnv where
  storage := backupEnv env seed
  emptyPasswords := false
  totalBytes := 1000000
  usedBytes := 20000

def hmacSha1 (key msg : Bytes) : Bytes := (hash (key ++ 0x5C :: msg)).take 20

def cli : CliState → CliInput → CliReply × CliState := cliStep platform archiveJson hmacSha1

/-- A command nobody touches the sensor at. -/
def ask (c : CliCommand) : CliInput := ⟨.command c, cliEnv (idleEnv 1 60000) 1⟩

def touch (confidence : Nat) : CliInput := ⟨.finger, cliEnv (touchedEnv 1 60000 confidence) 1⟩

end GoiKey.Bench
