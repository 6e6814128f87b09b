import GoiKey.Model.Step

/-!
The signature counter in flash. `savePersistedSignCount` drops what `EEPROM.commit`
returns, and `EEPROM.begin` reads the flash again before the next `EEPROM.get`.
-/

namespace GoiKey

/-- What becomes of the counter a command saves: it reaches the flash, it does not,
or the power goes while the command works. -/
inductive CounterSave where
  | committed
  | failed
  /-- The flash keeps `flash` of everything else and the counter of before or after. -/
  | powerLost (flash : Device) (committed : Bool)
  deriving DecidableEq

structure SavingInput where
  event : Event
  env : Env
  save : CounterSave

variable (P : Platform)

def savingStep (d : Device) (i : SavingInput) : Output × Device :=
  let r := step P d ⟨i.event, i.env⟩
  match i.save with
  | .committed => r
  | .failed => (r.1, { r.2 with signCount := d.signCount })
  | .powerLost flash committed =>
    (⟨.none, []⟩,
      reboot i.env { flash with signCount := if committed then r.2.signCount else d.signCount })

abbrev SavingEntry := Trace.Entry Device SavingInput Output

/-! The counter an assertion carries. -/

/-- GetAssertion, GetNextAssertion and U2F_AUTHENTICATE. -/
def Event.asserts : Event → Bool
  | .cbor (code :: _) => code == 0x02 || code == 0x08
  | .u2f data => byteAt data 1 == 0x02
  | _ => false

/-- The hash in front of the message an assertion signs. -/
def signedHash : RelyingParty → Bytes
  | .rpId s => P.sha256 s
  | .appId hash => hash
  | .rpIdHash hash => hash

/-- The counter stands behind the hash and a byte of flags, in four bytes. -/
def signedCounter (rp : RelyingParty) (msg : Bytes) : Nat :=
  fromBigEndian (((msg.drop (signedHash P rp).length).drop 1).take 4)

def actCounter : Act → Option Nat
  | .signed _ rp _ msg _ => some (signedCounter P rp msg)
  | _ => none

/-- The counters of the assertions a command signed. -/
def emittedCounters (e : Event) (o : Output) : List Nat :=
  if e.asserts then o.acts.filterMap (actCounter P) else []

end GoiKey
