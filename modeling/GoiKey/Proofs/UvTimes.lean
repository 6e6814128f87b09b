import GoiKey.Model.Bench
import GoiKey.Model.Uptime
import GoiKey.Proofs.Matches

/-!
How old a cached verification may be in real time, when the counter it is measured
with wraps after 2 ^ 32 milliseconds.
-/

namespace GoiKey

variable {P : Platform} {s : TimedDevice} {i : TimedInput} {past : List TimedEntry} {e : TimedEntry}

/-- The steps since the device was started last, the newest first. -/
def sinceStart (past : List TimedEntry) : List TimedEntry :=
  past.takeWhile fun e => !startsAnew e.input.event e.output.acts

/-- The command cached a finger it accepted at this time. -/
def CachedAt (e : TimedEntry) (t : Nat) : Prop :=
  e.after.dev.uv.lastFingerprintSuccessTime = millis t ∧
    ∃ p act, (t, p) ∈ e.input.rounds e.before ∧ act ∈ e.output.acts ∧
      Accepted (e.input.input e.before).env e.before.dev.bio p.sensor act (millis t)

/-- The last finger that was cached since the start was accepted at this time. -/
def LastCached (past : List TimedEntry) (t : Nat) : Prop :=
  ∃ newer e older, sinceStart past = newer ++ e :: older ∧ CachedAt e t ∧ ∀ e' ∈ newer, ∀ t', ¬CachedAt e' t'

/-- Where a cached verification stands in for the finger, one was accepted less than
five seconds before, since the device was started. -/
def Fresh (past : List TimedEntry) (e : TimedEntry) : Prop :=
  ∀ time, .usedCache time ∈ e.output.acts →
    ∃ t, LastCached past t ∧ t ≤ e.input.now e.before ∧ e.input.now e.before - t < 5000

/-- The last accepted finger is not a multiple of 2 ^ 32 milliseconds and less than
five seconds ago. -/
def NotAliased (past : List TimedEntry) (s : TimedDevice) (i : TimedInput) : Prop :=
  i.event.caches = true → ∀ t, LastCached past t →
    i.now s - t < 2 ^ 32 ∨ 5000 ≤ (i.now s - t) % 2 ^ 32

/-! The counter. -/

theorem millis_sub {now t : Nat} (h : t ≤ now) : (millis now - millis t).toNat = (now - t) % 2 ^ 32 := by
  have hmillis : ∀ n, (millis n).toNat = n % 2 ^ 32 := fun n => UInt32.toNat_ofNat
  rw [UInt32.toNat_sub, hmillis, hmillis]
  omega

/-! When the cache is used. -/

theorem Waited.usedCache {env : Env} {b : BioStore} {u u' : UvState} {r : WaitResult} {time : UInt32}
    (h : Waited env b u r u') (hm : .usedCache time ∈ r.acts) : verificationCached u env.now = true := by
  cases h with
  | cached hc => exact hc
  | finger p mem accepted last =>
    have hkind := accepted.kind
    rw [← List.mem_singleton.mp hm] at hkind
    exact absurd hkind (by simp [Act.kind, fingerKinds])
  | cancelled => exact absurd hm List.not_mem_nil
  | timedOut => exact absurd hm List.not_mem_nil

theorem assertCredential_unused {env : Env} {c : StoredCredential} {a : AssertionInput} {n time : UInt32} :
    .usedCache time ∉ (assertCredential P env c a n).2 := by
  intro hm
  rcases assertCredential_acts hm with h | ⟨msg, sig, h, -⟩
  · cases h
  · cases h

theorem getAssertion_usedCache {env : Env} {d : Device} {req : GetAssertionRequest} {time : UInt32}
    (hm : .usedCache time ∈ (getAssertion P env d req).acts) : verificationCached d.uv env.now = true := by
  have hlisted : ∀ creds, .usedCache time ∉ listedActs creds req.targetRpId := by
    intro creds hmem
    have hkind := (listedActs_kinds env d.bio creds _ _ hmem).1
    simp [Act.kind] at hkind
  refine getAssertion_cases (Q := fun r => .usedCache time ∈ r.acts → verificationCached d.uv env.now = true)
    ?_ ?_ ?_ hm
  · intro code k creds _ _ hm
    exact absurd hm (hlisted creds)
  · intro code k k' cid rest c uv _ _ _ _ _ _ hm
    have hm := (List.mem_append.mp hm).resolve_left (hlisted _)
    simp at hm
  · intro k k' cid rest c act time' uv _ _ _ _ _ hc hm
    have hm := (List.mem_append.mp hm).resolve_left fun h =>
      (List.mem_append.mp h).elim (hlisted _) (by simp)
    rcases List.mem_cons.mp hm with rfl | hm
    · have hw := cachedOrWait_waited env d.bio d.uv
      rw [hc] at hw
      exact hw.usedCache List.mem_cons_self
    · exact absurd hm assertCredential_unused

theorem credentialManagement_usedCache {env : Env} {d : Device} {body : Bytes} {time : UInt32}
    (hm : .usedCache time ∈ (credentialManagement P env d body).acts) :
    verificationCached d.uv env.now = true := by
  have hlisted : ∀ h, Act.usedCache time ∉
      ((credentialsOfHash P env d.keys h).map Prod.fst).map fun cid => Act.listed cid (.rpIdHash h) := by
    simp
  refine credentialManagement_cases
    (Q := fun r => .usedCache time ∈ r.acts → verificationCached d.uv env.now = true) ?_ ?_ ?_ hm
  · intro reply enumeration hm
    exact absurd hm List.not_mem_nil
  · intro req _ _
    refine enumerateCredentialsBegin_cases
      (Q := fun r => .usedCache time ∈ r.acts → verificationCached d.uv env.now = true) ?_ ?_
    · intro reply enumeration hm
      exact absurd hm (hlisted _)
    · intro reply enumeration r uv hw hm
      exact hw.usedCache ((List.mem_append.mp hm).resolve_left (hlisted _))
  · intro req k _ _ _ hm
    exact absurd hm List.not_mem_nil

theorem bioEnrollment_usedCache {env : Env} {d : Device} {body : Bytes} {time : UInt32}
    (hm : .usedCache time ∈ (bioEnrollment env d body).acts) : verificationCached d.uv env.now = true := by
  refine bioEnrollment_cases
    (Q := fun r => .usedCache time ∈ r.acts → verificationCached d.uv env.now = true) ?_ ?_ ?_ ?_ ?_ ?_ hm
  · intro reply enroll hm
    exact absurd hm List.not_mem_nil
  · intro req answer _ _ _ hm
    rw [captureStep_acts.1] at hm
    exact absurd hm List.not_mem_nil
  · intro req answer _ _ _ hm
    rw [captureStep_acts.1] at hm
    exact absurd hm List.not_mem_nil
  · refine enumerateEnrollments_cases
      (Q := fun r => .usedCache time ∈ r.acts → verificationCached d.uv env.now = true) ?_
    intro reply r uv hw hm
    exact hw.usedCache hm
  · intro req id name b _ _ _ _ _ _ hm
    exact absurd hm List.not_mem_nil
  · intro req id enroll _ _ _ _ hm
    exact absurd hm List.not_mem_nil

/-- Only three commands use the cache, and only while the counter calls it fresh. -/
theorem step_usedCache {d : Device} {i : Input} {time : UInt32} (hm : .usedCache time ∈ (step P d i).1.acts) :
    i.event.caches = true ∧ verificationCached d.uv i.env.now = true := by
  have hkind := (step_kinds P d i _ hm).1
  have hnot : ∀ {e : Event}, i.event = e → (Act.usedCache time).kind ∉ e.kinds →
      i.event.caches = true ∧ verificationCached d.uv i.env.now = true := by
    intro e he hno
    rw [he] at hkind
    exact absurd hkind hno
  refine step_cases (Q := fun r => .usedCache time ∈ r.1.acts →
    i.event.caches = true ∧ verificationCached d.uv i.env.now = true)
    ?_ ?_ ?_ ?_ ?_ ?_ ?_ ?_ ?_ ?_ ?_ ?_ ?_ ?_ hm
  · intro reply hm
    exact absurd hm List.not_mem_nil
  · intro body he _
    exact hnot he (by simp [Act.kind, Event.kinds, commandKinds, fingerKinds])
  · intro body req he _ _ hm
    exact ⟨by rw [he]; rfl, getAssertion_usedCache hm⟩
  · intro body he _
    exact hnot he (by simp [Act.kind, Event.kinds, commandKinds])
  · intro body he _
    exact hnot he (by simp [Act.kind, Event.kinds, commandKinds])
  · intro body he _
    exact hnot he (by simp [Act.kind, Event.kinds, commandKinds, fingerKinds])
  · rintro code body he (rfl | rfl) hm
    all_goals exact ⟨by rw [he]; rfl, bioEnrollment_usedCache hm⟩
  · rintro code body he (rfl | rfl) hm
    all_goals exact ⟨by rw [he]; rfl, credentialManagement_usedCache hm⟩
  · intro body he _
    exact hnot he (by simp [Act.kind, Event.kinds, commandKinds, fingerKinds])
  · intro body he _
    exact hnot he (by simp [Act.kind, Event.kinds, commandKinds])
  · intro data he _
    exact hnot he (by simp [Act.kind, Event.kinds, u2fKinds, fingerKinds])
  · intro c he _
    exact hnot he (by simp [Act.kind, Event.kinds, serialKinds])
  · intro he _
    exact hnot he (by simp [Act.kind, Event.kinds])
  · intro he _
    exact hnot he (by simp [Act.kind, Event.kinds])

/-! Starts and rounds. -/

theorem checkPin_startsAnew {env : Env} {d : Device} {pin : Str} {accepted : Device → SerialResult}
    (hacc : ∀ d, (accepted d).acts = []) (hm : .wiped ∈ (checkPin P env d pin accepted).acts) :
    (checkPin P env d pin accepted).dev.uv.lastFingerprintSuccessTime = 0 := by
  unfold checkPin at hm ⊢
  cases hv : verifyPin P env d.pins pin with
  | mk verdict p =>
    rw [hv] at hm
    cases verdict with
    | unreadable => exact absurd hm List.not_mem_nil
    | accepted => simp [hacc] at hm
    | wrong n => simp at hm
    | wiped => rfl

/-- Nothing is cached after a start. -/
theorem startsAnew_last {d : Device} {i : Input} (h : startsAnew i.event (step P d i).1.acts = true) :
    (step P d i).2.uv.lastFingerprintSuccessTime = 0 := by
  cases he : i.event with
  | cbor data => simp [he, startsAnew] at h
  | u2f data => simp [he, startsAnew] at h
  | fingerprintTask => simp [he, startsAnew] at h
  | powerCycle => simp [step, he, reboot]
  | serial c =>
    simp only [he, startsAnew, step, SerialResult.run, Bool.and_eq_true, bne_iff_ne,
      List.contains_iff_mem] at h ⊢
    obtain ⟨hc, hm⟩ := h
    refine serialCommand_cases (Q := fun r => .wiped ∈ r.acts → r.dev.uv.lastFingerprintSuccessTime = 0)
      ?_ ?_ ?_ ?_ ?_ ?_ ?_ ?_ hm
    · intro ms v s alg dflt hm
      exact absurd hm List.not_mem_nil
    · intro ms pin p _ _ _ hm
      exact absurd hm List.not_mem_nil
    · intro pin _ _ hm
      exact checkPin_startsAnew (fun _ => rfl) hm
    · intro currentPin newPin _ _ hm
      exact checkPin_startsAnew (replacePin_acts newPin) hm
    · intro ms site k _ _ hm
      simp [deletedOf] at hm
    · intro ms _ hm
      exact absurd hm List.not_mem_nil
    · intro ms id _ _ hm
      exact absurd hm List.not_mem_nil
    · intro ms hreset _ _
      exact absurd hreset hc

theorem start_le_last (start : Nat) (gaps : List Nat) : start ≤ (roundTimes start gaps).getLast?.getD start := by
  induction gaps generalizing start with
  | nil => exact Nat.le_refl start
  | cons gap gaps ih =>
    have hnext := ih (start + gap)
    simp only [roundTimes, List.getLast?_cons, Option.getD_some]
    omega

theorem round_le_last {start t : Nat} {gaps : List Nat} (h : t ∈ roundTimes start gaps) :
    t ≤ (roundTimes start gaps).getLast?.getD start := by
  induction gaps generalizing start with
  | nil => exact absurd h List.not_mem_nil
  | cons gap gaps ih =>
    have hnext := start_le_last (start + gap) gaps
    simp only [roundTimes, List.getLast?_cons, Option.getD_some]
    rcases List.mem_cons.mp h with rfl | h
    · exact hnext
    · exact ih h

theorem rounds_spec {t : Nat} {p : Poll} (h : (t, p) ∈ i.rounds s) :
    t ∈ roundTimes (i.now s) i.gaps ∧ p.time = millis t := by
  obtain ⟨r, hr, he⟩ := List.mem_map.mp h
  cases he
  exact ⟨(List.of_mem_zip hr).1, rfl⟩

/-! The run. -/

/-- The time in the cache is zero, or the one the last accepted finger left. -/
def CacheTimed (past : List TimedEntry) (s : TimedDevice) : Prop :=
  s.dev.uv.lastFingerprintSuccessTime = 0 ∨
    ∃ t, LastCached past t ∧ s.dev.uv.lastFingerprintSuccessTime = millis t ∧ t ≤ s.uptime

theorem sinceStart_cons (h : startsAnew e.input.event e.output.acts = false) :
    sinceStart (e :: past) = e :: sinceStart past := by
  simp [sinceStart, h]

/-- What one step leaves in the cache. -/
theorem cacheTimed_step (h : CacheTimed past s) :
    CacheTimed (Trace.entry (timedStep P) s i :: past) (timedStep P s i).2 := by
  let e := Trace.entry (timedStep P) s i
  have he : Trace.entry (timedStep P) s i = e := rfl
  cases hstart : startsAnew i.event (step P s.dev (i.input s)).1.acts with
  | true =>
    exact .inl (startsAnew_last hstart)
  | false =>
    have hsince : sinceStart (e :: past) = e :: sinceStart past := sinceStart_cons hstart
    have huptime : (timedStep P s i).2.uptime = i.finish s := by
      simp only [timedStep, hstart, Bool.false_eq_true, if_false]
    by_cases hcached : ∃ t, CachedAt e t
    · obtain ⟨t, hlast, p, act, hround, hact⟩ := hcached
      refine .inr ⟨t, ⟨[], e, sinceStart past, hsince, ⟨hlast, p, act, hround, hact⟩, fun _ hn => ?_⟩, hlast, ?_⟩
      · exact absurd hn List.not_mem_nil
      · rw [huptime]
        exact round_le_last (rounds_spec hround).1
    · cases step_cache P s.dev (i.input s) with
      | kept hk =>
        rcases h with h0 | ⟨t, ⟨newer, e', older, hpast, hat, hnewer⟩, hlast, hle⟩
        · exact .inl (hk.trans h0)
        · refine .inr ⟨t, ⟨e :: newer, e', older, ?_, hat, ?_⟩, hk.trans hlast, ?_⟩
          · rw [he, hsince, hpast, List.cons_append]
          · intro e'' hmem t' hat'
            rcases List.mem_cons.mp hmem with rfl | hmem
            · exact hcached ⟨t', hat'⟩
            · exact hnewer e'' hmem t' hat'
          · have hnow := start_le_last (i.now s) i.gaps
            rw [huptime]
            exact Nat.le_trans (Nat.le_trans hle (Nat.le_add_right _ _)) hnow
      | cleared hz => exact .inl hz
      | accepted p act caches poll mem finger hl =>
        obtain ⟨⟨t, q⟩, hround, rfl⟩ := List.mem_map.mp poll
        have htime := (rounds_spec hround).2
        rw [htime] at hl finger
        exact absurd ⟨t, hl, q, act, hround, mem, finger⟩ hcached

/-- One use of the cache. -/
theorem fresh_step (h : CacheTimed past s) (hg : NotAliased past s i) :
    Fresh past (Trace.entry (timedStep P) s i) := by
  intro time hm
  obtain ⟨hcaches, hcached⟩ := step_usedCache (i := i.input s) hm
  simp only [verificationCached, Bool.and_eq_true, decide_eq_true_eq] at hcached
  rcases h with h0 | ⟨t, hlastCached, hlast, hle⟩
  · rw [h0] at hcached
    exact absurd hcached.1 (by decide)
  · have htnow : t ≤ i.now s := Nat.le_trans hle (Nat.le_add_right _ _)
    have hwindow : (i.now s - t) % 2 ^ 32 < 5000 := by
      rw [← millis_sub htnow, ← hlast]
      exact UInt32.lt_iff_toNat_lt.mp hcached.2
    refine ⟨t, hlastCached, htnow, ?_⟩
    rcases hg hcaches t hlastCached with hshort | hlong
    · rwa [Nat.mod_eq_of_lt hshort] at hwindow
    · omega

/-- In every run from a start of the device whose steps meet the condition, a cached
verification is less than five seconds old wherever it is used. -/
theorem cached_verification_fresh (P : Platform) (d : Device) (inputs : List TimedInput)
    (hd : d.uv.lastFingerprintSuccessTime = 0)
    (hg : Trace.Guarded (timedStep P) NotAliased ⟨d, 0⟩ inputs) :
    Trace.Always Fresh (Trace.history (timedStep P) ⟨d, 0⟩ inputs) :=
  Trace.always (I := CacheTimed)
    (fun _ _ _ h _ => cacheTimed_step h)
    (fun _ _ _ h hg => fresh_step h hg)
    (.inl hd) hg

theorem LastCached.round {t : Nat} (h : LastCached past t) :
    ∃ e ∈ past, t ∈ roundTimes (e.input.now e.before) e.input.gaps := by
  obtain ⟨newer, e, older, hpast, ⟨-, p, act, hround, -⟩, -⟩ := h
  refine ⟨e, ?_, (rounds_spec hround).1⟩
  have hmem : e ∈ sinceStart past := by
    rw [hpast]
    simp
  exact (List.takeWhile_sublist _).subset hmem

section Bench

open Bench

/-- A minute after the start the enrollments are listed with a matching finger. -/
def listMatched : TimedInput := ⟨bioRequest 0x04 [.map 0], touchedEnv 1 0 90, 60000, [100]⟩

/-- They are listed again with nobody at the sensor. -/
def listAgain (elapsed : Nat) : TimedInput := ⟨bioRequest 0x04 [.map 0], idleEnv 2 0, elapsed, [100]⟩

theorem cached_verification_fresh_second :
    (timedStep platform (timedStep platform ⟨enrolled, 0⟩ listMatched).2 (listAgain 1000)).1.acts =
        [.usedCache 61100] ∧
      Trace.Always Fresh (Trace.history (timedStep platform) ⟨enrolled, 0⟩ [listMatched, listAgain 1000]) := by
  refine ⟨by decide, cached_verification_fresh platform enrolled _ rfl ⟨?_, ?_, trivial⟩⟩
  · exact fun _ t _ => .inl (Nat.lt_of_le_of_lt (Nat.sub_le _ _) (by decide))
  · exact fun _ t _ => .inl (Nat.lt_of_le_of_lt (Nat.sub_le _ _) (by decide))

theorem listed_after_wrap :
    ¬Trace.Always Fresh
      (Trace.history (timedStep platform) ⟨enrolled, 0⟩ [listMatched, listAgain (2 ^ 32)]) := by
  intro h
  obtain ⟨t, hlast, -, hlt⟩ := h.1 60100 (by decide)
  obtain ⟨e, he, ht⟩ := hlast.round
  obtain rfl := List.mem_singleton.mp he
  have h60100 : t = 60100 := List.mem_singleton.mp ht
  rw [h60100] at hlt
  exact absurd hlt (by decide)

end Bench

end GoiKey
