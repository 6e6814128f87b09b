import GoiKey.Model.Storage

/-! fidoVerifyFingerprint and the loops that wait for it. -/

namespace GoiKey

variable (env : Env)

/-- `MAX_FAILED_UV_ATTEMPTS`. -/
def maxFailedUvAttempts : Nat := 8

/-- getImage, repeated at most three times while it reports an error. -/
def settledImage : SensorCode → List SensorCode → SensorCode
  | .failed, c :: cs => settledImage c cs
  | c, _ => c

def SensorRead.settled (s : SensorRead) : SensorCode := settledImage s.image (s.retries.take 3)

/-- The act of an accepted finger, none for a refusal. With no template on
record any touch is accepted. -/
def fidoVerifyFingerprint (b : BioStore) (u : UvState) (s : SensorRead) (time : UInt32) :
    Option Act × UvState :=
  if maxFailedUvAttempts ≤ getFailedUvAttempts env u then (none, u)
  else if s.settled ≠ .ok then (none, u)
  else if getBioTemplateCount env b = 0 then (some (.touched time), resetFailedUvAttempts u)
  else if s.tz ≠ .ok then (none, incrementFailedUvAttempts env u)
  else if s.search ≠ .ok then (none, incrementFailedUvAttempts env u)
  else
    let u := { u with lastConfidenceScore := s.confidence }
    if 50 < s.confidence then (some (.matched s.confidence time), resetFailedUvAttempts u)
    else (none, incrementFailedUvAttempts env u)

inductive WaitResult where
  | cancelled
  | timedOut
  | verified (act : Act) (time : UInt32)
  deriving DecidableEq, Repr

/-- `while (millis() - authStart < 15000)`: a CANCEL of the channel is looked for
before the sensor is. -/
def waitForFinger (b : BioStore) : List Poll → UvState → WaitResult × UvState
  | [], u => (.timedOut, u)
  | p :: ps, u =>
    if p.cancelled then (.cancelled, u)
    else match fidoVerifyFingerprint env b u p.sensor p.time with
      | (none, u) => waitForFinger b ps u
      | (some act, u) => (.verified act p.time, u)

/-- `lastFingerprintSuccessTime > 0 && millis() - lastFingerprintSuccessTime < 5000`. -/
def verificationCached (u : UvState) (now : UInt32) : Bool :=
  0 < u.lastFingerprintSuccessTime && now - u.lastFingerprintSuccessTime < 5000

/-- A cached verification, or a wait whose success is cached. -/
def cachedOrWait (b : BioStore) (u : UvState) : WaitResult × UvState :=
  if verificationCached u env.now then (.verified (.usedCache env.now) env.now, u)
  else match waitForFinger env b env.polls u with
    | (.verified act time, u) =>
      (.verified act time, { u with lastFingerprintSuccessTime := time })
    | (r, u) => (r, u)

end GoiKey
