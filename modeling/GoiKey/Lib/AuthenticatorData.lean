import GoiKey.Lib.CborOrder

/-!
The authenticator data of WebAuthn: a hash of the party, flags, a counter, and what
the flags announce behind them, the credential that is attested and a map of
extension outputs.
-/

namespace AuthenticatorData

open CborGrammar

/-- The credential attested, its id behind the length of it. -/
structure Attested where
  aaguid : List Byte
  idLength : List Byte
  id : List Byte
  key : Datum

namespace Attested

def bytes (t : Attested) : List Byte := t.aaguid ++ (t.idLength ++ (t.id ++ t.key.bytes))

structure Valid (t : Attested) : Prop where
  aaguid : t.aaguid.length = 16
  idLength : t.idLength.length = 2
  id : argument t.idLength = t.id.length
  key : t.key.Valid
  map : t.key.major = 5

end Attested

end AuthenticatorData

/-- Its parts, in the order they are written. -/
structure AuthenticatorData where
  rpIdHash : List CborGrammar.Byte
  flags : CborGrammar.Byte
  counter : List CborGrammar.Byte
  attested : Option AuthenticatorData.Attested
  extensions : Option CborGrammar.Datum

namespace AuthenticatorData

open CborGrammar

/-- The flag AT. -/
def attests (flags : Byte) : Bool := flags &&& 0x40 != 0

/-- The flag ED. -/
def carriesExtensions (flags : Byte) : Bool := flags &&& 0x80 != 0

def bytes (a : AuthenticatorData) : List Byte :=
  a.rpIdHash ++ a.flags :: (a.counter ++
    (a.attested.elim [] Attested.bytes ++ a.extensions.elim [] Datum.bytes))

/-- Every part has its length, and behind the counter is what the flags announce. -/
structure Valid (a : AuthenticatorData) : Prop where
  rpIdHash : a.rpIdHash.length = 32
  counter : a.counter.length = 4
  attestedFlag : a.attested.isSome = attests a.flags
  attested : ∀ t ∈ a.attested, t.Valid
  extensionFlag : a.extensions.isSome = carriesExtensions a.flags
  extensions : ∀ e ∈ a.extensions, e.Valid ∧ e.major = 5

theorem Valid.flags {a : AuthenticatorData} (ha : a.Valid) : a.bytes[32]? = some a.flags := by
  rw [bytes, List.getElem?_append_right (by rw [ha.rpIdHash]), ha.rpIdHash]
  rfl

/-- Extensions take at least a byte behind the counter. -/
theorem Valid.long {a : AuthenticatorData} (ha : a.Valid) (he : carriesExtensions a.flags = true) :
    37 < a.bytes.length := by
  obtain ⟨e, hsome⟩ := Option.isSome_iff_exists.mp (ha.extensionFlag.trans he)
  obtain ⟨c, t, hb, -⟩ := (ha.extensions e hsome).1.begins
  rw [bytes, hsome, Option.elim_some, hb]
  simp only [List.length_append, List.length_cons, ha.rpIdHash, ha.counter]
  omega

theorem Attested.Valid.unique {t : Attested} (ht : t.Valid) : Starts Attested.bytes Attested.Valid t := by
  intro t' ht' r r' he
  simp only [Attested.bytes, List.append_assoc] at he
  obtain ⟨haaguid, he⟩ := List.append_inj he (ht.aaguid.trans ht'.aaguid.symm)
  obtain ⟨hlength, he⟩ := List.append_inj he (ht.idLength.trans ht'.idLength.symm)
  obtain ⟨hid, he⟩ := List.append_inj he (by rw [← ht.id, ← ht'.id, hlength])
  obtain ⟨hkey, hrest⟩ := ht.key.unique _ ht'.key _ _ he
  obtain ⟨aaguid, idLength, id, key⟩ := t
  cases haaguid
  cases hlength
  cases hid
  cases hkey
  exact ⟨rfl, hrest⟩

/-- An optional part that flags announce is there in both readings or in neither. -/
theorem announced_inj {α : Type} {enc : α → List Byte} {kind : α → Prop} {x y : Option α} {r r' : List Byte}
    (hx : ∀ a ∈ x, Starts enc kind a) (hy : ∀ b ∈ y, kind b) (hsome : x.isSome = y.isSome)
    (he : x.elim [] enc ++ r = y.elim [] enc ++ r') : x = y ∧ r = r' := by
  cases x with
  | none =>
    obtain rfl : y = none := Option.isSome_eq_false_iff.mp hsome.symm |> Option.isNone_iff_eq_none.mp
    exact ⟨rfl, he⟩
  | some a =>
    obtain ⟨b, rfl⟩ := Option.isSome_iff_exists.mp hsome.symm
    obtain ⟨rfl, hrest⟩ := hx a rfl b (hy b rfl) _ _ he
    exact ⟨rfl, hrest⟩

/-- There is at most one way to read authenticator data. -/
theorem Valid.inj {a a' : AuthenticatorData} (ha : a.Valid) (ha' : a'.Valid) (he : a.bytes = a'.bytes) :
    a = a' := by
  obtain ⟨hhash, he⟩ := List.append_inj he (ha.rpIdHash.trans ha'.rpIdHash.symm)
  obtain ⟨hflags, he⟩ := List.cons.inj he
  obtain ⟨hcounter, he⟩ := List.append_inj he (ha.counter.trans ha'.counter.symm)
  obtain ⟨hattested, he⟩ := announced_inj (fun t ht => (ha.attested t ht).unique) ha'.attested
    (by rw [ha.attestedFlag, ha'.attestedFlag, hflags]) he
  obtain ⟨hextensions, -⟩ := announced_inj (fun e h => (ha.extensions e h).1.unique)
    (fun e h => (ha'.extensions e h).1) (by rw [ha.extensionFlag, ha'.extensionFlag, hflags])
    (show a.extensions.elim [] Datum.bytes ++ [] = a'.extensions.elim [] Datum.bytes ++ [] by rw [he])
  obtain ⟨rpIdHash, flags, counter, attested, extensions⟩ := a
  cases hhash
  cases hflags
  cases hcounter
  cases hattested
  cases hextensions
  rfl

end AuthenticatorData
