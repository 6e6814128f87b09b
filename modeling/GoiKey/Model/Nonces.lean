import GoiKey.Lib.Trace
import GoiKey.Model.Text

/-!
The nonces of AES-GCM: init_aes_nonce_subsystem and generate_aes_gcm_nonce of
CryptoManager.cpp over boots, with a non-volatile store that may refuse.
-/

namespace GoiKey.Nonces

/-- What the store says while the subsystem is set up. A value that was set and
not committed may be kept or lost. -/
structure Nvs where
  opens : Bool := true
  reads : Bool := true
  sets : Bool := true
  commits : Bool := true
  keepsUncommitted : Bool := false
  deriving DecidableEq, Repr

/-- "boot_cnt" in the store, and the globals. -/
structure State where
  bootCnt : Option UInt32 := none
  bootCounter : UInt32 := 0
  sessionCounter : UInt32 := 0
  initialized : Bool := false
  deriving DecidableEq, Repr

/-- What is stored once the counter was set, with the answer to the commit. -/
def Nvs.stored (nvs : Nvs) (old : Option UInt32) (new : UInt32) : Option UInt32 :=
  if nvs.sets && (nvs.commits || nvs.keepsUncommitted) then some new else old

/-- A failed nvs_get_u32 leaves the counter as it was, which is 0 after a boot. -/
def initAesNonceSubsystem (nvs : Nvs) (s : State) : State :=
  if nvs.opens then
    let bootCounter := (if nvs.reads then s.bootCnt.getD 0 else s.bootCounter) + 1
    { s with
      bootCnt := nvs.stored s.bootCnt bootCounter
      bootCounter := bootCounter
      initialized := true }
  else s

/-- The globals start over. -/
def boot (nvs : Nvs) (s : State) : State := initAesNonceSubsystem nvs { bootCnt := s.bootCnt }

/-- `abort()` without the subsystem. -/
def generateAesGcmNonce (randPad : UInt32) (s : State) : Option Bytes × State :=
  if s.initialized then
    let sessionCounter := s.sessionCounter + 1
    (some (bigEndian 4 s.bootCounter.toNat ++ (bigEndian 4 sessionCounter.toNat ++
      bigEndian 4 randPad.toNat)), { s with sessionCounter := sessionCounter })
  else (none, s)

inductive Event where
  | boot (nvs : Nvs)
  | encrypt (randPad : UInt32)
  deriving DecidableEq, Repr

def Event.isBoot : Event → Bool
  | .boot _ => true
  | .encrypt _ => false

def step (s : State) : Event → Option Bytes × State
  | .boot nvs => (none, boot nvs s)
  | .encrypt randPad => generateAesGcmNonce randPad s

abbrev Entry := Trace.Entry State Event (Option Bytes)

/-- A device whose store has never been written. -/
def initial : State := {}

end GoiKey.Nonces
