import GoiKey.Proofs.Matches
import GoiKey.Proofs.NextAssertion

/-!
The user verification flag of authenticator data. MakeCredential and GetAssertion
set it for every finger they accept, and GetNextAssertion for every list it has.
-/

namespace GoiKey

variable {P : Platform} {env : Env} {d : Device} {i : Input} {past : History} {a : Act}

/-- Authenticator data sent out with the flag, bit 2. -/
def Act.claimsUv : Act → Bool
  | .authData flags => flags &&& 0x04 != 0
  | _ => false

/-- Whether a match stood behind the latest GetAssertion that set up a list. -/
def setUpMatched : History → Option Bool := setUpVerdict userMatched

/-- The flag goes out with a match behind it, that of the command or that of the
GetAssertion it continues. -/
def UvMatched (past : History) (e : Entry) : Prop :=
  e.output.acts.any Act.claimsUv = true →
    userMatched past e = true ∨ (e.input.event.code = some 0x08 ∧ setUpMatched past = some true)

instance (past : History) (e : Entry) : Decidable (UvMatched past e) :=
  inferInstanceAs (Decidable (_ → _ ∨ _))

/-- While no template can be read, no finger is seen by a command that takes one
for the user. -/
def NoTouchVerifies (d : Device) (i : Input) : Prop :=
  getBioTemplateCount i.env d.bio = 0 → (i.event.code = some 0x01 ∨ i.event.caches = true) →
    ∀ p ∈ i.env.polls, p.sensor.settled ≠ .ok

/-- The condition of a step: no touch is taken for the user, and no list is left
to GetNextAssertion without one. -/
def UsersMatched (P : Platform) (past : History) (d : Device) (i : Input) : Prop :=
  ListsVerified P past d i ∧ NoTouchVerifies d i

instance (past : History) (d : Device) (i : Input) : Decidable (UsersMatched P past d i) :=
  inferInstanceAs (Decidable (_ ∧ (_ → _ → ∀ p ∈ i.env.polls, _)))

/-- The cached time goes back to a match, and so does an unfinished list. -/
structure MatchAccounted (past : History) (d : Device) : Prop where
  cache : CacheAccounted past d.uv.lastFingerprintSuccessTime
  list : UnfinishedFor userMatched past d

/-- A verification was cached, or a finger accepted while the command waited. -/
def TookFinger (env : Env) (d : Device) (acts : List Act) : Prop :=
  verificationCached d.uv env.now = true ∨
    ∃ act ∈ acts, ∃ p ∈ env.polls, Accepted env d.bio p.sensor act p.time

theorem Waited.tookFinger {act : Act} {time : UInt32} {uv : UvState} {acts : List Act}
    (h : Waited env d.bio d.uv (.verified act time) uv) (ha : act ∈ acts) :
    TookFinger env d acts := by
  cases h with
  | cached hc => exact .inl hc
  | finger p mem accepted last => exact .inr ⟨act, ha, p, mem, accepted⟩

theorem makeCredential_tookFinger {req : MakeCredentialRequest}
    (ha : a ∈ (makeCredential P env d req).acts) :
    TookFinger env d (makeCredential P env d req).acts := by
  refine makeCredential_cases (Q := fun r => a ∈ r.acts → TookFinger env d r.acts) ?_ ?_ ha
  · intro code uv _ h
    cases h
  · rintro act time uv p hp rfl hacc _ -
    exact .inr ⟨act, List.mem_cons_self, p, hp, hacc⟩

/-- A GetAssertion that sends authenticator data, or has the user verified. -/
theorem getAssertion_tookFinger {req : GetAssertionRequest}
    (ha : a ∈ (getAssertion P env d req).acts) (hk : a.kind = .authData ∨ a.verifies = true) :
    TookFinger env d (getAssertion P env d req).acts := by
  have unlisted : ∀ creds rpId, a ∉ listedActs creds rpId := by
    intro creds rpId hl
    obtain ⟨cid, -, rfl⟩ := List.mem_map.mp hl
    simp [Act.kind, Act.verifies] at hk
  refine getAssertion_cases (Q := fun r => a ∈ r.acts → TookFinger env d r.acts) ?_ ?_ ?_ ha
  · intro code k creds _ _ h
    exact absurd h (unlisted creds _)
  · intro code k k' cid rest c uv _ _ _ _ _ _ h
    rcases List.mem_append.mp h with h | h
    · exact absurd h (unlisted _ _)
    · rw [List.mem_singleton.mp h] at hk
      simp [Act.kind, Act.verifies] at hk
  · intro k k' cid rest c act time uv _ _ _ _ _ hw _
    have hwaited := cachedOrWait_waited env d.bio d.uv
    rw [hw] at hwaited
    exact hwaited.tookFinger (by simp)

theorem userMatched_of_tookFinger (h : MatchAccounted past d) (hg : NoTouchVerifies d i)
    (hc : i.event.code = some 0x01 ∨ i.event.caches = true)
    (ht : TookFinger i.env d (step P d i).1.acts) :
    userMatched past (Trace.entry (step P) d i) = true := by
  rw [userMatched, Bool.or_eq_true]
  rcases ht with hcached | ⟨act, ha, p, hp, hacc⟩
  · exact .inr (cachedMatch_of_verificationCached h.cache hcached)
  · exact .inl (matchedFinger_of_accepted hacc (poll_mem_looks hp) (fun hn => hg hn hc p hp) ha)

theorem caches_getAssertion (hc : i.event.code = some 0x02) : i.event.caches = true := by
  rw [Event.caches, hc]
  rfl

theorem getAssertion_userMatched (h : MatchAccounted past d) (hg : NoTouchVerifies d i)
    (hc : i.event.code = some 0x02) (ha : a ∈ (step P d i).1.acts)
    (hk : a.kind = .authData ∨ a.verifies = true) :
    userMatched past (Trace.entry (step P) d i) = true := by
  refine userMatched_of_tookFinger h hg (.inr (caches_getAssertion hc)) ?_
  rcases step_getAssertion (P := P) (d := d) hc with ⟨reply, hs⟩ | ⟨req, -, hs⟩ <;> rw [hs] at ha ⊢
  · cases ha
  · exact getAssertion_tookFinger ha hk

theorem makeCredential_userMatched (h : MatchAccounted past d) (hg : NoTouchVerifies d i)
    (hc : i.event.code = some 0x01) (ha : a ∈ (step P d i).1.acts) :
    userMatched past (Trace.entry (step P) d i) = true := by
  refine userMatched_of_tookFinger h hg (.inl hc) ?_
  rcases step_makeCredential (P := P) (d := d) hc with ⟨reply, hs⟩ | ⟨body, hs⟩ <;> rw [hs] at ha ⊢
  · cases ha
  · exact makeCredential_tookFinger ha

theorem matchAccounted_step (h : MatchAccounted past d) (hg : UsersMatched P past d i) :
    MatchAccounted (Trace.entry (step P) d i :: past) (step P d i).2 := by
  refine ⟨cacheAccounted_step h.cache fun hc hn => hg.2 hn (.inr hc),
    unfinishedFor_step h.list hg.1 ?_⟩
  intro hc hv
  obtain ⟨a, ha, hver⟩ := List.any_eq_true.mp hv
  exact getAssertion_userMatched h hg.2 hc ha (.inr hver)

/-- The three commands that send authenticator data. -/
theorem authData_code (h : .authData ∈ i.event.kinds) :
    i.event.code = some 0x01 ∨ i.event.code = some 0x02 ∨ i.event.code = some 0x08 := by
  refine Event.kinds_cases ?_ ?_ ?_ ?_ h
  · intro code hc hk
    rw [hc]
    unfold commandKinds at hk
    split at hk <;> simp [fingerKinds] at hk ⊢
  · intro data _ hk
    simp [u2fKinds, fingerKinds] at hk
  · intro c _ hk
    simp [serialKinds] at hk
  · intro _ hk
    cases hk

theorem uvMatched_entry (h : MatchAccounted past d) (hg : UsersMatched P past d i) :
    UvMatched past (Trace.entry (step P) d i) := by
  intro huv
  obtain ⟨a, ha, hflag⟩ := List.any_eq_true.mp huv
  have hkind : a.kind = .authData := by
    cases a <;> first | rfl | cases hflag
  have hin : .authData ∈ i.event.kinds := hkind ▸ (step_kinds P d i a ha).1
  rcases authData_code hin with hc | hc | hc
  · exact .inl (makeCredential_userMatched h hg.2 hc ha)
  · exact .inl (getAssertion_userMatched h hg.2 hc ha (.inl hkind))
  · exact .inr ⟨hc, setUpVerdict_of_act h.list hc ha⟩

section Bench

open Bench

end Bench

end GoiKey
