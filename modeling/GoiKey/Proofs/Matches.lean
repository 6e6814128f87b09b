import GoiKey.Proofs.Memory

/-! The fingerprint matches of a run: those a command makes and those it finds cached. -/

namespace GoiKey

variable {P : Platform} {env : Env} {b : BioStore} {d : Device} {i : Input} {past : History}

/-- The score an act was accepted with. -/
def Act.score : Act → Option Nat
  | .matched confidence _ | .approved confidence => some confidence
  | _ => none

/-- A finger was accepted for a match the sensor reported above the threshold. -/
def ReportedMatch (env : Env) (a : Act) : Prop :=
  ∃ s ∈ env.looks, s.search = .ok ∧ 50 < s.confidence ∧ a.score = some s.confidence

instance (a : Act) : Decidable (ReportedMatch env a) :=
  inferInstanceAs (Decidable (∃ s ∈ env.looks, _))

/-- The command matched a finger. -/
def matchedFinger (e : Entry) : Bool :=
  e.output.acts.any fun a => a.kind = .matched && ReportedMatch e.input.env a

def Act.matchedWithin (now : UInt32) : Act → Bool
  | .matched _ time => now - time < 5000
  | _ => false

/-- A match that its command cached, within its five seconds. -/
def cachedMatch (past : History) (now : UInt32) : Bool :=
  past.any fun e => e.input.event.caches &&
    e.output.acts.any fun a => a.matchedWithin now && ReportedMatch e.input.env a

/-- A match stands behind the command: its own, or one that was cached. -/
def userMatched (past : History) (e : Entry) : Bool :=
  matchedFinger e || cachedMatch past e.input.env.now

/-- The cached time is zero, or that of a match of the run. -/
def CacheAccounted (past : History) (last : UInt32) : Prop :=
  last = 0 ∨ ∃ e ∈ past, e.input.event.caches = true ∧ ∃ confidence,
    .matched confidence last ∈ e.output.acts ∧ ReportedMatch e.input.env (.matched confidence last)

theorem Accepted.matched {s : SensorRead} {act : Act} {time : UInt32}
    (h : Accepted env b s act time) (ht : getBioTemplateCount env b = 0 → s.settled ≠ .ok) :
    act = .matched s.confidence time ∧ s.search = .ok ∧ 50 < s.confidence := by
  rcases h.act with ⟨hc, rfl⟩ | ⟨-, -, hsearch, hconf, rfl⟩
  · exact absurd h.settled (ht hc)
  · exact ⟨rfl, hsearch, hconf⟩

/-- A finger that is no mere touch is a reported match. -/
theorem Accepted.reported {s : SensorRead} {act : Act} {time : UInt32}
    (h : Accepted env b s act time) (hs : s ∈ env.looks)
    (ht : getBioTemplateCount env b = 0 → s.settled ≠ .ok) :
    act = .matched s.confidence time ∧ ReportedMatch env act := by
  obtain ⟨rfl, hsearch, hconf⟩ := h.matched ht
  exact ⟨rfl, s, hs, hsearch, hconf, rfl⟩

theorem matchedFinger_of_accepted {e : Entry} {s : SensorRead} {act : Act} {time : UInt32}
    (h : Accepted e.input.env b s act time) (hs : s ∈ e.input.env.looks)
    (ht : getBioTemplateCount e.input.env b = 0 → s.settled ≠ .ok) (ha : act ∈ e.output.acts) :
    matchedFinger e = true := by
  obtain ⟨hact, hrep⟩ := h.reported hs ht
  refine List.any_eq_true.mpr ⟨act, ha, ?_⟩
  have hkind : act.kind = .matched := by rw [hact]; rfl
  simp [hkind, hrep]

theorem cachedMatch_of_verificationCached {u : UvState}
    (h : CacheAccounted past u.lastFingerprintSuccessTime) {now : UInt32}
    (hc : verificationCached u now = true) : cachedMatch past now = true := by
  simp only [verificationCached, Bool.and_eq_true, decide_eq_true_eq] at hc
  rcases h with h0 | ⟨e, he, hcaches, confidence, hm, hrep⟩
  · exact absurd hc.1 (by rw [h0]; decide)
  · refine List.any_eq_true.mpr ⟨e, he, ?_⟩
    rw [hcaches, Bool.true_and]
    exact List.any_eq_true.mpr ⟨_, hm, by simp [Act.matchedWithin, hc.2, hrep]⟩

/-- What a step caches is a match when it sees no bare touch. -/
theorem cacheAccounted_step (h : CacheAccounted past d.uv.lastFingerprintSuccessTime)
    (ht : i.event.caches = true → getBioTemplateCount i.env d.bio = 0 →
      ∀ p ∈ i.env.polls, p.sensor.settled ≠ .ok) :
    CacheAccounted (Trace.entry (step P) d i :: past)
      (step P d i).2.uv.lastFingerprintSuccessTime := by
  cases step_cache P d i with
  | kept hk =>
    rcases h with h0 | ⟨e, he, hm⟩
    · exact .inl (hk.trans h0)
    · exact .inr ⟨e, List.mem_cons_of_mem _ he, hk ▸ hm⟩
  | cleared hz => exact .inl hz
  | accepted p act caches poll mem finger hl =>
    obtain ⟨rfl, hrep⟩ := finger.reported (poll_mem_looks poll) fun hc => ht caches hc p poll
    exact .inr ⟨_, List.mem_cons_self, caches, _, hl ▸ mem, hl ▸ hrep⟩

end GoiKey
