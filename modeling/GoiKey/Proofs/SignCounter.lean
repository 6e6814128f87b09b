import GoiKey.Model.Bench
import GoiKey.Model.SignCounter
import GoiKey.Proofs.Memory
import GoiKey.Proofs.RoundTrips

/-!
The counters of the assertions of a run, against the counter in flash.
-/

namespace GoiKey

variable {P : Platform} {d : Device} {env : Env}

def countersOf (P : Platform) (e : SavingEntry) : List Nat :=
  emittedCounters P e.input.event e.output

/-- Every counter a step emits is above all that were emitted before. -/
def Increasing (P : Platform) (past : List SavingEntry) (e : SavingEntry) : Prop :=
  (countersOf P e).Pairwise (· < ·) ∧ ∀ n ∈ countersOf P e, ∀ e' ∈ past, ∀ m ∈ countersOf P e', m < n

/-- An assertion is asked for when the counter of every earlier one has reached the
flash, and the counter there has not reached its last value. -/
def CountersSaved (P : Platform) (past : List SavingEntry) (d : Device) (i : SavingInput) : Prop :=
  i.event.asserts = true → ∀ e ∈ past, countersOf P e ≠ [] →
    e.input.save = .committed ∧ d.signCount ≠ 0xFFFFFFFF

instance (past : List SavingEntry) (e : SavingEntry) : Decidable (Increasing P past e) :=
  inferInstanceAs (Decidable (_ ∧ _))

instance (past : List SavingEntry) (i : SavingInput) : Decidable (CountersSaved P past d i) :=
  inferInstanceAs (Decidable (_ → ∀ e ∈ past, _))

/-! The counter of one assertion. -/

theorem signedCounter_eq {rp : RelyingParty} {flags : UInt8} {n : UInt32} {rest : Bytes} :
    signedCounter P rp (signedHash P rp ++ flags :: (bigEndian 4 n.toNat ++ rest)) = n.toNat := by
  have hlen : (bigEndian 4 n.toNat).length = 4 := bigEndian_length 4 n.toNat
  have hbytes : (bigEndian 4 n.toNat ++ rest).take 4 = bigEndian 4 n.toNat :=
    List.take_left' hlen
  rw [signedCounter, List.drop_left, List.drop_one, List.tail_cons, hbytes]
  exact fromBigEndian_bigEndian n.toNat_lt

theorem finger_counter {b : BioStore} {s : SensorRead} {act : Act} {time : UInt32}
    (h : Accepted env b s act time) : actCounter P act = none := by
  have hkind := h.kind
  cases act <;> first | rfl | simp [Act.kind, fingerKinds] at hkind

theorem listed_counters {creds : List Str} {rp : Str} :
    (listedActs creds rp).filterMap (actCounter P) = [] := by
  simp [listedActs, actCounter]

theorem assertCredential_counters (P : Platform) (env : Env) (c : StoredCredential) (a : AssertionInput)
    (n : UInt32) :
    (assertCredential P env c a n).2.filterMap (actCounter P) = [] ∨
      (assertCredential P env c a n).2.filterMap (actCounter P) = [(nextSignCount n).toNat] := by
  have hcounter : signedCounter P (.rpId a.rpId)
      (assertionAuthData P a (nextSignCount n) ++ a.clientHash) = (nextSignCount n).toNat := by
    rw [assertionAuthData, List.append_assoc]
    exact signedCounter_eq
  unfold assertCredential
  simp only
  split
  · exact .inl rfl
  · right
    split
    all_goals simp [actCounter, hcounter]

/-- What a command that may assert leaves in flash, and the counters it emits. -/
inductive Counting (n : UInt32) : UInt32 → List Nat → Prop where
  | unused : Counting n n []
  | unsigned : Counting n (nextSignCount n) []
  | signed : Counting n (nextSignCount n) [(nextSignCount n).toNat]

theorem Counting.counter {n n' : UInt32} {counters : List Nat} (h : Counting n n' counters) :
    n' = n ∨ n' = nextSignCount n := by
  cases h with
  | unused => exact .inl rfl
  | unsigned => exact .inr rfl
  | signed => exact .inr rfl

theorem Counting.emitted {n n' : UInt32} {counters : List Nat} (h : Counting n n' counters) :
    counters = [] ∨ n' = nextSignCount n ∧ counters = [(nextSignCount n).toNat] := by
  cases h with
  | unused => exact .inl rfl
  | unsigned => exact .inl rfl
  | signed => exact .inr ⟨rfl, rfl⟩

theorem getAssertion_counts {req : GetAssertionRequest} :
    Counting d.signCount (getAssertion P env d req).signCount
      ((getAssertion P env d req).acts.filterMap (actCounter P)) := by
  refine getAssertion_cases
    (Q := fun r => Counting d.signCount r.signCount (r.acts.filterMap (actCounter P))) ?_ ?_ ?_
  · intro code k creds _ _
    rw [listed_counters]
    exact .unused
  · intro code k k' cid rest c uv _ _ _ _ _ _
    rw [List.filterMap_append, listed_counters]
    exact .unused
  · intro k k' cid rest c act time uv _ _ _ _ _ hw
    have hact : actCounter P act = none := by
      have hwaited := cachedOrWait_waited env d.bio d.uv
      rw [hw] at hwaited
      cases hwaited with
      | cached _ => rfl
      | finger p _ accepted _ => exact finger_counter accepted
    rw [List.filterMap_append, List.filterMap_append, listed_counters, List.filterMap_cons_none hact]
    rcases assertCredential_counters P env c (req.input cid (rest.length + 1)) d.signCount with h | h
    · rw [h]
      exact .unsigned
    · rw [h]
      exact .signed

theorem getNextAssertion_counts :
    Counting d.signCount (getNextAssertion P env d).signCount
      ((getNextAssertion P env d).acts.filterMap (actCounter P)) := by
  refine getNextAssertion_cases
    (Q := fun r => Counting d.signCount r.signCount (r.acts.filterMap (actCounter P))) ?_ ?_ ?_
  · exact .unused
  · intro k _ _
    exact .unused
  · intro k cid c _ _ _
    rcases assertCredential_counters P env c (d.next.input cid) d.signCount with h | h
    · rw [h]
      exact .unsigned
    · rw [h]
      exact .signed

theorem u2fAuthenticate_counts {p1 : UInt8} {challenge appId keyHandle : Bytes} :
    Counting d.signCount (u2fAuthenticate P env d p1 challenge appId keyHandle).signCount
      ((u2fAuthenticate P env d p1 challenge appId keyHandle).acts.filterMap (actCounter P)) := by
  unfold u2fAuthenticate
  cases getPasskeyRecord P env d.keys (toHex keyHandle) with
  | none => exact .unused
  | some c =>
    simp only
    split
    · exact .unused
    split
    · exact .unused
    have haccepted := @fidoVerifyFingerprint_accepted env d.bio d.uv env.sensor env.now
    cases hv : fidoVerifyFingerprint env d.bio d.uv env.sensor env.now with
    | mk act uv =>
      rw [hv] at haccepted
      cases act with
      | none => exact .unused
      | some act =>
        have hact : actCounter P act = none := finger_counter (haccepted rfl)
        simp only
        split
        · rw [List.filterMap_cons_none hact]
          exact .unsigned
        next sig _ =>
          have hcounter : signedCounter P (.appId appId)
              (appId ++ 0x01 :: (bigEndian 4 (nextSignCount d.signCount).toNat ++ challenge)) =
              (nextSignCount d.signCount).toNat := signedCounter_eq
          rw [List.filterMap_cons_none hact]
          simp only [List.filterMap_cons, actCounter, hcounter, List.filterMap_nil]
          exact .signed

theorem processU2fCommand_counts {data : Bytes} (hins : byteAt data 1 = 0x02) :
    Counting d.signCount (processU2fCommand P env d data).signCount
      ((processU2fCommand P env d data).acts.filterMap (actCounter P)) := by
  have hversion : byteAt data 1 ≠ 0x03 := by rw [hins]; decide
  have hregister : byteAt data 1 ≠ 0x01 := by rw [hins]; decide
  unfold processU2fCommand
  simp only [if_neg hversion, if_neg hregister, if_pos hins]
  split
  · exact .unused
  split
  · exact .unused
  split
  · exact .unused
  · exact u2fAuthenticate_counts

/-! The other commands leave the counter alone. -/

theorem processU2fCommand_signCount {data : Bytes} (hins : byteAt data 1 ≠ 0x02) :
    (processU2fCommand P env d data).signCount = d.signCount := by
  refine processU2fCommand_cases (Q := fun r => r.signCount = d.signCount) ?_ ?_ ?_
  · intro reply
    rfl
  · intro challenge
    exact u2fRegister_cases (Q := fun r => r.signCount = d.signCount)
      (fun _ _ _ _ _ => rfl) (fun _ _ _ _ _ _ _ _ _ _ _ => rfl)
  · intro h
    exact absurd h hins

theorem serialCommand_signCount {c : SerialCommand} :
    (serialCommand P env d c).dev.signCount = d.signCount := by
  have check : ∀ {pin accepted}, (∀ d : Device, (accepted d).dev.signCount = d.signCount) →
      (checkPin P env d pin accepted).dev.signCount = d.signCount := by
    intro pin accepted hkept
    refine checkPin_cases (Q := fun r => r.dev.signCount = d.signCount) ?_ ?_ ?_ ?_
    · rfl
    · intro _ _
      exact hkept _
    · intro stored n _ _ _ _
      rfl
    · intro stored _ _ _
      rfl
  have hreplace : ∀ newPin (d : Device), (replacePin P env newPin d).dev.signCount = d.signCount := by
    intro newPin d
    unfold replacePin
    split <;> rfl
  refine serialCommand_cases (Q := fun r => r.dev.signCount = d.signCount) ?_ ?_ ?_ ?_ ?_ ?_ ?_ ?_
  · intro ms v s alg dflt
    rfl
  · intro ms pin p _ _ _
    rfl
  · intro pin _ _
    exact check fun _ => rfl
  · intro currentPin newPin _ _
    exact check (hreplace newPin)
  · intro ms site k _ _
    rfl
  · intro ms _
    rfl
  · intro ms id _ _
    rfl
  · intro ms _ _
    rfl

/-- What a step does with the counter. Only an assertion moves it. -/
theorem step_counts_assertions {i : Input} :
    Counting d.signCount (step P d i).2.signCount (emittedCounters P i.event (step P d i).1) ∧
      (i.event.asserts = false → (step P d i).2.signCount = d.signCount) := by
  have silent : ∀ {r : Output × Device}, i.event.asserts = false → r.2.signCount = d.signCount →
      Counting d.signCount r.2.signCount (emittedCounters P i.event r.1) ∧
        (i.event.asserts = false → r.2.signCount = d.signCount) := by
    intro r he hr
    rw [emittedCounters, he, hr]
    exact ⟨.unused, fun _ => rfl⟩
  have asserting : ∀ {r : Output × Device}, i.event.asserts = true →
      Counting d.signCount r.2.signCount (r.1.acts.filterMap (actCounter P)) →
      Counting d.signCount r.2.signCount (emittedCounters P i.event r.1) ∧
        (i.event.asserts = false → r.2.signCount = d.signCount) := by
    intro r he hr
    rw [emittedCounters, he]
    exact ⟨hr, fun hn => absurd hn (by decide)⟩
  refine step_cases
    (Q := fun r => Counting d.signCount r.2.signCount (emittedCounters P i.event r.1) ∧
      (i.event.asserts = false → r.2.signCount = d.signCount))
    ?_ ?_ ?_ ?_ ?_ ?_ ?_ ?_ ?_ ?_ ?_ ?_ ?_ ?_
  · intro reply
    refine ⟨?_, fun _ => rfl⟩
    rw [emittedCounters]
    split <;> exact .unused
  · intro body he
    exact silent (by rw [he]; rfl) rfl
  · intro body req he _ _
    exact asserting (by rw [he]; rfl) getAssertion_counts
  · intro body he
    exact asserting (by rw [he]; rfl) getNextAssertion_counts
  · intro body he
    exact silent (by rw [he]; rfl) rfl
  · intro body he
    refine silent (by rw [he]; rfl) ?_
    unfold authenticatorReset
    split <;> rfl
  · rintro code body he (rfl | rfl)
    all_goals exact silent (by rw [he]; rfl) rfl
  · rintro code body he (rfl | rfl)
    all_goals exact silent (by rw [he]; rfl) rfl
  · intro body he
    exact silent (by rw [he]; rfl) rfl
  · intro body he
    exact silent (by rw [he]; rfl) rfl
  · intro data he
    cases hins : byteAt data 1 == 0x02 with
    | true => exact asserting (by rw [he]; exact hins) (processU2fCommand_counts (beq_iff_eq.mp hins))
    | false => exact silent (by rw [he]; exact hins) (processU2fCommand_signCount (beq_eq_false_iff_ne.mp hins))
  · intro c he
    exact silent (by rw [he]; rfl) serialCommand_signCount
  · intro he
    refine silent (by rw [he]; rfl) ?_
    exact updateFingerprintAsync_cases (Q := fun r => r.dev.signCount = d.signCount)
      (fun _ _ _ => rfl) (fun _ _ _ _ _ _ _ _ => rfl)
  · intro he
    exact silent (by rw [he]; rfl) rfl

/-! The run. -/

/-- The counter in flash is not below those that reached it. -/
def ReachedFlash (P : Platform) (past : List SavingEntry) (d : Device) : Prop :=
  ∀ e ∈ past, e.input.save = .committed → ∀ n ∈ countersOf P e, n ≤ d.signCount.toNat

theorem nextSignCount_toNat {n : UInt32} (h : n ≠ 0xFFFFFFFF) : (nextSignCount n).toNat = n.toNat + 1 := by
  have hlt : n.toNat + 1 < 2 ^ 32 := by
    have hne : n.toNat ≠ 2 ^ 32 - 1 := fun he => h (UInt32.toNat_inj.mp he)
    have hn := n.toNat_lt
    omega
  rw [nextSignCount, loadPersistedSignCount, if_neg h, UInt32.toNat_add]
  exact Nat.mod_eq_of_lt hlt

variable {past : List SavingEntry} {i : SavingInput}

/-- A guarded step that counts finds all earlier counters at most the one in flash,
and that one below the next. -/
theorem counters_below (h : ReachedFlash P past d) (hg : CountersSaved P past d i)
    (ha : i.event.asserts = true) {e : SavingEntry} (he : e ∈ past) {m : Nat} (hm : m ∈ countersOf P e) :
    m < (nextSignCount d.signCount).toNat := by
  obtain ⟨hsave, hfull⟩ := hg ha e he (List.ne_nil_of_mem hm)
  have hle : m ≤ d.signCount.toNat := h e he hsave m hm
  rw [nextSignCount_toNat hfull]
  omega

theorem reachedFlash_step (h : ReachedFlash P past d) (hg : CountersSaved P past d i) :
    ReachedFlash P (Trace.entry (savingStep P) d i :: past) (savingStep P d i).2 := by
  obtain ⟨hcounts, hquiet⟩ := step_counts_assertions (P := P) (d := d) (i := ⟨i.event, i.env⟩)
  -- What was emitted before stays below the counter, whichever of the two the flash keeps.
  have hnext : ∀ e ∈ past, e.input.save = .committed → ∀ n ∈ countersOf P e,
      n ≤ (step P d ⟨i.event, i.env⟩).2.signCount.toNat := by
    intro e he hsave n hn
    cases ha : i.event.asserts with
    | false =>
      rw [hquiet ha]
      exact h e he hsave n hn
    | true =>
      have hbelow := counters_below h hg ha he hn
      rcases hcounts.counter with hsame | hmoved
      · rw [hsame]
        exact h e he hsave n hn
      · rw [hmoved]
        exact Nat.le_of_lt hbelow
  intro e he hsave n hn
  cases hi : i.save with
  | committed =>
    have hstep : savingStep P d i = step P d ⟨i.event, i.env⟩ := by simp only [savingStep, hi]
    rw [hstep]
    rcases List.mem_cons.mp he with rfl | he
    · simp only [Trace.entry, countersOf, hstep] at hn
      rcases hcounts.emitted with hnone | ⟨hmoved, hone⟩
      · rw [hnone] at hn
        exact absurd hn List.not_mem_nil
      · rw [hone] at hn
        rw [hmoved, List.mem_singleton.mp hn]
    · exact hnext e he hsave n hn
  | failed =>
    have hcount : (savingStep P d i).2.signCount = d.signCount := by simp only [savingStep, hi]
    rw [hcount]
    rcases List.mem_cons.mp he with rfl | he
    · exact absurd (hi.symm.trans hsave) (by simp)
    · exact h e he hsave n hn
  | powerLost flash committed =>
    rcases List.mem_cons.mp he with rfl | he
    · exact absurd (hi.symm.trans hsave) (by simp)
    · cases committed with
      | true =>
        have hcount : (savingStep P d i).2.signCount = (step P d ⟨i.event, i.env⟩).2.signCount := by
          simp only [savingStep, hi, reboot, if_true]
        rw [hcount]
        exact hnext e he hsave n hn
      | false =>
        have hcount : (savingStep P d i).2.signCount = d.signCount := by
          simp only [savingStep, hi, reboot, Bool.false_eq_true, if_false]
        rw [hcount]
        exact h e he hsave n hn

theorem increasing_step (h : ReachedFlash P past d) (hg : CountersSaved P past d i) :
    Increasing P past (Trace.entry (savingStep P) d i) := by
  obtain ⟨hcounts, -⟩ := step_counts_assertions (P := P) (d := d) (i := ⟨i.event, i.env⟩)
  have hsigned : (savingStep P d i).1 = (step P d ⟨i.event, i.env⟩).1 →
      countersOf P (Trace.entry (savingStep P) d i) = [] ∨ i.event.asserts = true ∧
        countersOf P (Trace.entry (savingStep P) d i) = [(nextSignCount d.signCount).toNat] := by
    intro hout
    simp only [countersOf, Trace.entry, hout]
    cases ha : i.event.asserts with
    | false => exact .inl (by simp [emittedCounters, ha])
    | true => exact hcounts.emitted.imp_right fun hone => ⟨rfl, hone.2⟩
  have hemitted : countersOf P (Trace.entry (savingStep P) d i) = [] ∨
      i.event.asserts = true ∧
        countersOf P (Trace.entry (savingStep P) d i) = [(nextSignCount d.signCount).toNat] := by
    cases hi : i.save with
    | powerLost flash committed =>
      left
      simp [countersOf, Trace.entry, savingStep, hi, emittedCounters]
    | committed => exact hsigned (by simp only [savingStep, hi])
    | failed => exact hsigned (by simp only [savingStep, hi])
  rcases hemitted with hnone | ⟨ha, hone⟩
  · rw [Increasing, hnone]
    exact ⟨List.Pairwise.nil, fun _ hn => absurd hn List.not_mem_nil⟩
  · rw [Increasing, hone]
    refine ⟨List.pairwise_singleton _ _, fun n hn e he m hm => ?_⟩
    rw [List.mem_singleton.mp hn]
    exact counters_below h hg ha he hm

/-- In every run whose steps meet the condition, the counters of the assertions increase. -/
theorem counters_increase (P : Platform) (d : Device) (inputs : List SavingInput)
    (hg : Trace.Guarded (savingStep P) (CountersSaved P) d inputs) :
    Trace.Always (Increasing P) (Trace.history (savingStep P) d inputs) :=
  Trace.always (I := ReachedFlash P)
    (fun _ _ _ h hg => reachedFlash_step h hg)
    (fun _ _ _ h hg => increasing_step h hg)
    (fun _ he => absurd he List.not_mem_nil) hg

section Bench

open Bench

/-- A registration and two assertions, with what becomes of the first counter. -/
def assertedTwice (save : CounterSave) : List SavingInput :=
  [⟨create site 1 true (-7), touchedEnv 1 60000 90, .committed⟩,
    ⟨assertion site [], touchedEnv 1 60000 90, save⟩,
    ⟨assertion site [], touchedEnv 1 60000 90, .committed⟩]

theorem counters_increase_twice :
    (Trace.history (savingStep platform) initial (assertedTwice .committed)).map (countersOf platform) =
        [[2], [1], []] ∧
      Trace.Always (Increasing platform)
        (Trace.history (savingStep platform) initial (assertedTwice .committed)) :=
  ⟨by decide +kernel, counters_increase platform initial _ (by decide +kernel)⟩

/-- A counter that does not reach the flash is used again, and the one after the last
is the first. -/
theorem counter_repeated :
    (Trace.history (savingStep platform) initial (assertedTwice .failed)).map (countersOf platform) =
        [[1], [1], []] ∧
      ¬Trace.Always (Increasing platform)
        (Trace.history (savingStep platform) initial (assertedTwice .failed)) ∧
      ¬Trace.Always (Increasing platform)
        (Trace.history (savingStep platform) { signCount := 0xFFFFFFFE } (assertedTwice .committed)) := by
  decide +kernel

end Bench

end GoiKey
