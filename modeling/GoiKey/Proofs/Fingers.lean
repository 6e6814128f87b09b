import GoiKey.Proofs.Commands

/-! What an accepted finger means, wherever the firmware asks for one. -/

namespace GoiKey

variable {env : Env} {b : BioStore} {u : UvState}

/-- A look at the sensor that was accepted, and the act it left: a touch while
no template is on record, otherwise a match above the threshold. -/
structure Accepted (env : Env) (b : BioStore) (s : SensorRead) (act : Act) (time : UInt32) :
    Prop where
  settled : s.settled = .ok
  act : (getBioTemplateCount env b = 0 ∧ act = .touched time) ∨
    (getBioTemplateCount env b ≠ 0 ∧ s.tz = .ok ∧ s.search = .ok ∧ 50 < s.confidence ∧
      act = .matched s.confidence time)

theorem fidoVerifyFingerprint_accepted {s : SensorRead} {time : UInt32} {act : Act}
    (h : (fidoVerifyFingerprint env b u s time).1 = some act) : Accepted env b s act time := by
  unfold fidoVerifyFingerprint at h
  split at h
  · cases h
  split at h
  · cases h
  next hs =>
    have hs : s.settled = .ok := by simpa using hs
    split at h
    next hc =>
      cases h
      exact ⟨hs, .inl ⟨hc, rfl⟩⟩
    next hc =>
      split at h
      · cases h
      split at h
      · cases h
      next htz hsearch =>
        simp only at h
        split at h
        next hconf =>
          cases h
          exact ⟨hs, .inr ⟨hc, by simpa using htz, by simpa using hsearch, hconf, rfl⟩⟩
        · cases h

@[simp] theorem incrementFailedUvAttempts_last :
    (incrementFailedUvAttempts env u).lastFingerprintSuccessTime = u.lastFingerprintSuccessTime := by
  unfold incrementFailedUvAttempts
  split <;> rfl

@[simp] theorem resetFailedUvAttempts_last :
    (resetFailedUvAttempts u).lastFingerprintSuccessTime = u.lastFingerprintSuccessTime := rfl

/-- The helper never touches the cache; its callers do. -/
@[simp] theorem fidoVerifyFingerprint_last (env : Env) (b : BioStore) (u : UvState)
    (s : SensorRead) (time : UInt32) :
    (fidoVerifyFingerprint env b u s time).2.lastFingerprintSuccessTime
      = u.lastFingerprintSuccessTime := by
  unfold fidoVerifyFingerprint
  repeat' split
  all_goals simp

@[simp] theorem waitForFinger_last (env : Env) (b : BioStore) (ps : List Poll) (u : UvState) :
    (waitForFinger env b ps u).2.lastFingerprintSuccessTime = u.lastFingerprintSuccessTime := by
  induction ps generalizing u with
  | nil => rfl
  | cons p ps ih =>
    unfold waitForFinger
    have hlast := fidoVerifyFingerprint_last env b u p.sensor p.time
    split
    · rfl
    · split
      next u' hv =>
        rw [hv] at hlast
        exact (ih _).trans hlast
      next act u' hv =>
        rw [hv] at hlast
        exact hlast

theorem waitForFinger_accepted {ps : List Poll} {act : Act} {time : UInt32}
    (h : (waitForFinger env b ps u).1 = .verified act time) :
    ∃ p ∈ ps, p.time = time ∧ Accepted env b p.sensor act time := by
  induction ps generalizing u with
  | nil => cases h
  | cons p ps ih =>
    unfold waitForFinger at h
    split at h
    · cases h
    · split at h
      next u' hv =>
        obtain ⟨q, hq, ht, ha⟩ := ih h
        exact ⟨q, List.mem_cons_of_mem p hq, ht, ha⟩
      next act' u' hv =>
        cases h
        refine ⟨p, List.mem_cons_self, rfl, ?_⟩
        apply fidoVerifyFingerprint_accepted (u := u)
        rw [hv]

/-- How a cached verification or the wait for a fresh one can end. -/
inductive Waited (env : Env) (b : BioStore) (u : UvState) : WaitResult → UvState → Prop where
  | cached (h : verificationCached u env.now = true) :
    Waited env b u (.verified (.usedCache env.now) env.now) u
  | finger {act : Act} {u' : UvState} (p : Poll) (mem : p ∈ env.polls)
    (accepted : Accepted env b p.sensor act p.time)
    (last : u'.lastFingerprintSuccessTime = p.time) :
    Waited env b u (.verified act p.time) u'
  | cancelled {u' : UvState}
    (last : u'.lastFingerprintSuccessTime = u.lastFingerprintSuccessTime) :
    Waited env b u .cancelled u'
  | timedOut {u' : UvState}
    (last : u'.lastFingerprintSuccessTime = u.lastFingerprintSuccessTime) :
    Waited env b u .timedOut u'

theorem cachedOrWait_waited (env : Env) (b : BioStore) (u : UvState) :
    Waited env b u (cachedOrWait env b u).1 (cachedOrWait env b u).2 := by
  unfold cachedOrWait
  have hlast := waitForFinger_last env b env.polls u
  have hacc := @waitForFinger_accepted env b u env.polls
  split
  next hc => exact .cached hc
  · rcases hw : waitForFinger env b env.polls u with ⟨r, u'⟩
    rw [hw] at hlast hacc
    cases r with
    | cancelled => exact .cancelled hlast
    | timedOut => exact .timedOut hlast
    | verified act time =>
      obtain ⟨p, hp, rfl, ha⟩ := hacc rfl
      exact .finger p hp ha rfl

/-- The act a wait leaves when it succeeds. -/
def WaitResult.acts : WaitResult → List Act
  | .verified act _ => [act]
  | _ => []

/-- Acts that stand for the user having been verified. -/
def Act.verifies : Act → Bool
  | .matched .. | .touched .. | .usedCache .. => true
  | _ => false

theorem Accepted.verifies {s : SensorRead} {act : Act} {time : UInt32}
    (h : Accepted env b s act time) : act.verifies = true := by
  rcases h.act with ⟨-, rfl⟩ | ⟨-, -, -, -, rfl⟩ <;> rfl

/-- A wait that succeeds leaves the act that accounts for it. -/
theorem Waited.verifies {b : BioStore} {u uv : UvState} {act : Act} {time : UInt32}
    (h : Waited env b u (.verified act time) uv) : act.verifies = true := by
  cases h with
  | cached h => rfl
  | finger p mem accepted last => exact accepted.verifies

end GoiKey
