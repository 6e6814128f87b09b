import GoiKey.Model.PinTasks

/-! The attempts that two tasks count, against the attempts that failed. -/

namespace GoiKey.PinTasks

variable {past : List Entry} {s : State} {turn : Turn} {t u : Task} {p : Phase} {n : Nat}

/-- The attempts that failed since the last right PIN or wipe. -/
def failuresSince : List Entry → Nat
  | [] => 0
  | e :: past =>
    match e.output with
    | .nothing => failuresSince past
    | .failed => failuresSince past + 1
    | .cleared => 0

/-- The file holds their number. -/
def Counted (past : List Entry) (e : Entry) : Prop := e.after.failures = failuresSince (e :: past)

/-- What an increment writes is one more than what is there now, and the file takes it. -/
def Undisturbed (_ : List Entry) (s : State) (turn : Turn) : Prop :=
  ∀ n, s.phase turn.task = .incrementing n → turn.opens = true ∧ n = s.failures + 1

instance (past : List Entry) (s : State) (turn : Turn) : Decidable (Undisturbed past s turn) :=
  match h : s.phase turn.task with
  | .incrementing n =>
    if hn : turn.opens = true ∧ n = s.failures + 1 then
      .isTrue fun m hm => by
        rw [h] at hm
        cases hm
        exact hn
    else .isFalse fun hall => hn (hall n h)
  | .idle => .isTrue fun m hm => by rw [h] at hm; cases hm
  | .comparing => .isTrue fun m hm => by rw [h] at hm; cases hm
  | .judging => .isTrue fun m hm => by rw [h] at hm; cases hm

@[simp] theorem go_failures : (s.go t p).failures = s.failures := by cases t <;> rfl

@[simp] theorem go_phase : (s.go t p).phase t = p := by cases t <;> rfl

theorem go_phase_of_ne (h : u ≠ t) : (s.go t p).phase u = s.phase u := by
  cases t <;> cases u
  · exact absurd rfl h
  · rfl
  · rfl
  · exact absurd rfl h

theorem beginCheck_cases (turn : Turn) (s : State) :
    beginCheck turn s = s ∨ beginCheck turn s = s.go turn.task .comparing := by
  unfold beginCheck
  split
  next ht =>
    split
    · exact .inl rfl
    · exact .inr (by rw [ht])
  next ht =>
    split
    · exact .inr (by rw [ht])
    · exact .inl rfl

theorem beginCheck_failures : (beginCheck turn s).failures = s.failures := by
  rcases beginCheck_cases turn s with h | h <;> rw [h]
  exact go_failures

/-! One section. -/

/-- Sections other than the writing one keep file and attempts together. -/
theorem step_counted (h : s.failures = failuresSince past)
    (hp : ∀ n, s.phase turn.task ≠ .incrementing n) :
    (step s turn).2.failures = failuresSince (Trace.entry step s turn :: past) := by
  have hcases : (step s turn).1 = .nothing ∧ (step s turn).2.failures = s.failures ∨
      (step s turn).1 = .cleared ∧ (step s turn).2.failures = 0 := by
    unfold step
    split
    · split
      · exact .inr ⟨rfl, rfl⟩
      · exact .inl ⟨rfl, beginCheck_failures⟩
    · split
      · exact .inr ⟨rfl, go_failures⟩
      · exact .inl ⟨rfl, go_failures⟩
    next n he => exact absurd he (hp n)
    · unfold judgeTotal
      split
      · exact .inr ⟨rfl, rfl⟩
      · exact .inl ⟨rfl, go_failures⟩
  unfold failuresSince
  change _ = match (step s turn).1 with
    | .nothing => failuresSince past
    | .failed => failuresSince past + 1
    | .cleared => 0
  rcases hcases with ⟨ho, hs⟩ | ⟨ho, hs⟩ <;> rw [ho, hs]
  exact h

/-- The writing section counts its attempt exactly when it is undisturbed. -/
theorem write_counted_iff (h : s.failures = failuresSince past)
    (hn : s.phase turn.task = .incrementing n) :
    (step s turn).2.failures = failuresSince (Trace.entry step s turn :: past) ↔
      turn.opens = true ∧ n = s.failures + 1 := by
  have hafter : (step s turn).2.failures = if turn.opens = true then n else s.failures := by
    simp only [step, hn, writeFailures, go_failures]
    split <;> rfl
  have hsince : failuresSince (Trace.entry step s turn :: past) = s.failures + 1 := by
    simp only [failuresSince, Trace.entry, step, hn, h]
  rw [hafter, hsince]
  cases turn.opens with
  | true => simp
  | false => simp

theorem counted_iff (h : s.failures = failuresSince past) :
    Counted past (Trace.entry step s turn) ↔ Undisturbed past s turn := by
  change (step s turn).2.failures = failuresSince (Trace.entry step s turn :: past) ↔ _
  cases hn : s.phase turn.task with
  | incrementing n =>
    rw [write_counted_iff h hn, Undisturbed, hn]
    exact ⟨fun hw m hm => by cases hm; exact hw, fun hall => hall n rfl⟩
  | idle => exact iff_of_true (step_counted h (by simp [hn])) (by simp [Undisturbed, hn])
  | comparing => exact iff_of_true (step_counted h (by simp [hn])) (by simp [Undisturbed, hn])
  | judging => exact iff_of_true (step_counted h (by simp [hn])) (by simp [Undisturbed, hn])

/-! Whole runs. -/

/-- In every order of the sections the file holds the number of failed attempts, exactly when
every increment writes one more than the file holds by then. -/
theorem failures_counted_iff (turns : List Turn) :
    Trace.Always Counted (Trace.history step initial turns) ↔
      Trace.Guarded step Undisturbed initial turns :=
  Trace.always_iff_guarded (I := fun past s => s.failures = failuresSince past)
    (fun _ _ _ h hc => (counted_iff h).mpr hc) (fun _ _ _ h => counted_iff h) rfl

/-- Both tasks read before either writes. -/
theorem lostUpdate : ¬ Trace.Always Counted (Trace.history step initial
    [⟨.fido, false, false, true⟩, ⟨.cli, false, false, true⟩, ⟨.fido, false, false, true⟩,
      ⟨.cli, false, false, true⟩, ⟨.fido, false, false, true⟩, ⟨.cli, false, false, true⟩]) := by
  rw [failures_counted_iff]
  decide

/-- The other task is not between the two sections of an increment, and files open. -/
def Alone (_ : List Entry) (s : State) (turn : Turn) : Prop :=
  turn.opens = true ∧ ∀ u ≠ turn.task, ∀ n, s.phase u ≠ .incrementing n

/-- What increments are going to write is right as long as no other task comes between. -/
theorem step_alone (h : ∀ u n, s.phase u = .incrementing n → n = s.failures + 1)
    (ha : Alone past s turn) :
    ∀ u n, (step s turn).2.phase u = .incrementing n → n = (step s turn).2.failures + 1 := by
  obtain ⟨hopens, hother⟩ := ha
  have hidle : ∀ s' : State, (∀ u ≠ turn.task, s'.phase u = s.phase u) →
      (∀ n, s'.phase turn.task ≠ .incrementing n) →
      ∀ u n, s'.phase u = .incrementing n → n = s'.failures + 1 := by
    intro s' hkept hown u n hu
    by_cases hut : u = turn.task
    · exact absurd (hut ▸ hu) (hown n)
    · rw [hkept u hut] at hu
      exact absurd hu (hother u hut n)
  unfold step
  cases hphase : s.phase turn.task with
  | idle =>
    simp only
    split
    · exact hidle _ (fun u _ => by cases u <;> rfl) fun n hn => by
        have hsame : ({ s with failures := 0 } : State).phase turn.task = s.phase turn.task := by
          cases turn.task <;> rfl
        rw [hsame, hphase] at hn
        cases hn
    · rcases beginCheck_cases turn s with hb | hb
      · rw [hb]
        exact h
      · rw [hb]
        exact hidle _ (fun u hu => go_phase_of_ne hu) fun n hn => by simp at hn
  | comparing =>
    simp only
    split
    · refine hidle _ (fun u hu => ?_) fun n hn => by simp at hn
      rw [go_phase_of_ne hu]
      cases u <;> rfl
    · intro u n hu
      by_cases hut : u = turn.task
      · subst hut
        rw [go_phase] at hu
        cases hu
        simp [getFailedPinAttempts, hopens]
      · rw [go_phase_of_ne hut] at hu
        exact absurd hu (hother u hut n)
  | incrementing m =>
    simp only [writeFailures, hopens, if_true]
    refine hidle _ (fun u hu => ?_) fun n hn => ?_
    · rw [go_phase_of_ne hu]
      cases u <;> rfl
    · rw [go_phase] at hn
      split at hn <;> cases hn
  | judging =>
    simp only [judgeTotal]
    split
    · intro u n hu
      cases u <;> cases hu
    · exact hidle _ (fun u hu => go_phase_of_ne hu) fun n hn => by simp at hn

/-- Increments that no other section comes between count every attempt. -/
theorem failures_counted_alone (turns : List Turn) (ha : Trace.Guarded step Alone initial turns) :
    Trace.Always Counted (Trace.history step initial turns) := by
  refine Trace.always (C := Alone)
    (I := fun past s => s.failures = failuresSince past ∧
      ∀ u n, s.phase u = .incrementing n → n = s.failures + 1)
    (fun past s turn h hc => ?_) (fun past s turn h hc => ?_) ⟨rfl, ?_⟩ ha
  · exact ⟨(counted_iff h.1).mpr fun n hn => ⟨hc.1, h.2 _ n hn⟩, step_alone h.2 hc⟩
  · exact (counted_iff h.1).mpr fun n hn => ⟨hc.1, h.2 _ n hn⟩
  · intro u n hu
    cases u <;> cases hu

end GoiKey.PinTasks
