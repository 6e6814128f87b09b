import Mathlib.Data.List.Basic

/-!
Runs of a deterministic machine whose inputs carry every outside choice. A
history lists the steps of a run, the newest first, so that what a step may
look back on is the tail behind it.
-/

namespace Trace

/-- One step: the state it started from, what came in, what came out and the
state it left. -/
structure Entry (σ ι ω : Type) where
  before : σ
  input : ι
  output : ω
  after : σ

variable {σ ι ω : Type}

section Machine

variable (step : σ → ι → ω × σ)

def entry (s : σ) (i : ι) : Entry σ ι ω :=
  ⟨s, i, (step s i).1, (step s i).2⟩

/-- The entries are steps of the machine. -/
def Genuine (past : List (Entry σ ι ω)) : Prop := ∀ e ∈ past, e = entry step e.before e.input

/-- History and state after consuming the inputs, continuing a given past. -/
def extend (past : List (Entry σ ι ω)) (s : σ) : List ι → List (Entry σ ι ω) × σ
  | [] => (past, s)
  | i :: is => extend (entry step s i :: past) (step s i).2 is

def history (s : σ) (is : List ι) : List (Entry σ ι ω) := (extend step [] s is).1

def final (s : σ) (is : List ι) : σ := (extend step [] s is).2

/-- What came out, the oldest first. -/
def outputs (s : σ) : List ι → List ω
  | [] => []
  | i :: is => (step s i).1 :: outputs (step s i).2 is

/-- Every step of the run meets the condition, which may look at the history
before the step, the state it starts from and its input. -/
def GuardedFrom (C : List (Entry σ ι ω) → σ → ι → Prop) (past : List (Entry σ ι ω)) (s : σ) :
    List ι → Prop
  | [] => True
  | i :: is => C past s i ∧ GuardedFrom C (entry step s i :: past) (step s i).2 is

def Guarded (C : List (Entry σ ι ω) → σ → ι → Prop) (s : σ) (is : List ι) : Prop :=
  GuardedFrom step C [] s is

instance guardedFromDecidable (C : List (Entry σ ι ω) → σ → ι → Prop)
    [∀ past s i, Decidable (C past s i)] (past : List (Entry σ ι ω)) (s : σ) (is : List ι) :
    Decidable (GuardedFrom step C past s is) :=
  match is with
  | [] => .isTrue trivial
  | i :: is =>
    have := guardedFromDecidable C (entry step s i :: past) (step s i).2 is
    inferInstanceAs (Decidable (_ ∧ _))

instance guardedDecidable (C : List (Entry σ ι ω) → σ → ι → Prop)
    [∀ past s i, Decidable (C past s i)] (s : σ) (is : List ι) :
    Decidable (Guarded step C s is) :=
  guardedFromDecidable step C [] s is

end Machine

/-- The property holds of every step against the history before it. -/
def Always {ε : Type} (P : List ε → ε → Prop) : List ε → Prop
  | [] => True
  | e :: past => P past e ∧ Always P past

instance alwaysDecidable {ε : Type} (P : List ε → ε → Prop) [∀ past e, Decidable (P past e)]
    (h : List ε) : Decidable (Always P h) :=
  match h with
  | [] => .isTrue trivial
  | e :: past =>
    have := alwaysDecidable P past
    inferInstanceAs (Decidable (P past e ∧ Always P past))

theorem Always.imp {ε : Type} {P Q : List ε → ε → Prop} {h : List ε}
    (hp : Always P h) (hi : ∀ past e, P past e → Q past e) : Always Q h := by
  induction h with
  | nil => trivial
  | cons e past ih => exact ⟨hi past e hp.1, ih hp.2⟩

/-- The newest answer along a history. -/
def latest {ε β : Type} (f : List ε → ε → Option β) : List ε → Option β
  | [] => none
  | e :: past => (f past e).or (latest f past)

/-- The state a run ends in does not depend on the past it continues. -/
theorem extend_final (step : σ → ι → ω × σ) (past : List (Entry σ ι ω)) (s : σ) (is : List ι) :
    (extend step past s is).2 = final step s is := by
  have general : ∀ past past' s, (extend step past s is).2 = (extend step past' s is).2 := by
    induction is with
    | nil => exact fun _ _ _ => rfl
    | cons i is ih => exact fun past past' s => ih _ _ _
  exact general past [] s

theorem final_cons (step : σ → ι → ω × σ) (s : σ) (i : ι) (is : List ι) :
    final step s (i :: is) = final step (step s i).2 is :=
  extend_final step _ _ is

theorem history_snoc (step : σ → ι → ω × σ) (s : σ) (is : List ι) (i : ι) :
    history step s (is ++ [i]) = entry step (final step s is) i :: history step s is := by
  have general : ∀ past s, (extend step past s (is ++ [i])).1 =
      entry step (extend step past s is).2 i :: (extend step past s is).1 := by
    induction is with
    | nil => exact fun _ _ => rfl
    | cons j is ih => exact fun _ _ => ih _ _
  exact general [] s

theorem final_append (step : σ → ι → ω × σ) (s : σ) (is js : List ι) :
    final step s (is ++ js) = final step (final step s is) js := by
  induction is generalizing s with
  | nil => rfl
  | cons i is ih => rw [List.cons_append, final_cons, final_cons, ih]

theorem genuine_nil {step : σ → ι → ω × σ} : Genuine step [] := by simp [Genuine]

theorem Genuine.cons {step : σ → ι → ω × σ} {past : List (Entry σ ι ω)} (h : Genuine step past)
    (s : σ) (i : ι) : Genuine step (entry step s i :: past) := by
  intro e he
  rcases List.mem_cons.mp he with rfl | he
  · rfl
  · exact h e he

/-- The condition that asks for nothing. -/
theorem guarded_true (step : σ → ι → ω × σ) (s : σ) (is : List ι) : Guarded step (fun _ _ _ => True) s is := by
  have general : ∀ past s, GuardedFrom step (fun _ _ _ => True) past s is := by
    induction is with
    | nil => exact fun _ _ => trivial
    | cons i is ih => exact fun _ _ => ⟨trivial, ih _ _⟩
  exact general [] s

section Rules

variable {step : σ → ι → ω × σ} {I : List (Entry σ ι ω) → σ → Prop}
variable {C : List (Entry σ ι ω) → σ → ι → Prop} {P : List (Entry σ ι ω) → Entry σ ι ω → Prop}

theorem invariant_extend
    (hstep : ∀ past s i, I past s → C past s i → I (entry step s i :: past) (step s i).2)
    {past : List (Entry σ ι ω)} {s : σ} {is : List ι}
    (h : I past s) (hg : GuardedFrom step C past s is) :
    I (extend step past s is).1 (extend step past s is).2 := by
  induction is generalizing past s with
  | nil => exact h
  | cons i is ih => exact ih (hstep past s i h hg.1) hg.2

/-- The invariant rule: what holds at the start and survives each guarded step
holds after every guarded run. -/
theorem invariant
    (hstep : ∀ past s i, I past s → C past s i → I (entry step s i :: past) (step s i).2)
    {s : σ} {is : List ι} (h : I [] s) (hg : Guarded step C s is) :
    I (history step s is) (final step s is) :=
  invariant_extend hstep h hg

theorem always_extend
    (hstep : ∀ past s i, I past s → C past s i → I (entry step s i :: past) (step s i).2)
    (hone : ∀ past s i, I past s → C past s i → P past (entry step s i))
    {past : List (Entry σ ι ω)} {s : σ} {is : List ι}
    (h : I past s) (hp : Always P past) (hg : GuardedFrom step C past s is) :
    Always P (extend step past s is).1 := by
  induction is generalizing past s with
  | nil => exact hp
  | cons i is ih => exact ih (hstep past s i h hg.1) ⟨hone past s i h hg.1, hp⟩ hg.2

/-- The safety rule: under an invariant, a property of single guarded steps is
a property of every step of every guarded run. -/
theorem always
    (hstep : ∀ past s i, I past s → C past s i → I (entry step s i :: past) (step s i).2)
    (hone : ∀ past s i, I past s → C past s i → P past (entry step s i))
    {s : σ} {is : List ι} (h : I [] s) (hg : Guarded step C s is) :
    Always P (history step s is) :=
  always_extend hstep hone h trivial hg

theorem always_of_extend {past : List (Entry σ ι ω)} {s : σ} {is : List ι}
    (h : Always P (extend step past s is).1) : Always P past := by
  induction is generalizing past s with
  | nil => exact h
  | cons i is ih => exact (ih h).2

/-- Where the condition of a step says exactly when the property holds of it, it
does so for whole runs. -/
theorem always_iff_guarded
    (hstep : ∀ past s i, I past s → C past s i → I (entry step s i :: past) (step s i).2)
    (hone : ∀ past s i, I past s → (P past (entry step s i) ↔ C past s i))
    {s : σ} {is : List ι} (h : I [] s) :
    Always P (history step s is) ↔ Guarded step C s is := by
  constructor
  · have general : ∀ past s, I past s → Always P (extend step past s is).1 →
        GuardedFrom step C past s is := by
      induction is with
      | nil => exact fun _ _ _ _ => trivial
      | cons i is ih =>
        intro past s hi hp
        have hnow : Always P (entry step s i :: past) := always_of_extend hp
        have hc : C past s i := (hone past s i hi).mp hnow.1
        exact ⟨hc, ih _ _ (hstep past s i hi hc) hp⟩
    exact general [] s h
  · exact always hstep (fun past s i hi hc => (hone past s i hi).mpr hc) h

/-- The rule for two runs: what no single step tells apart, no run does. -/
theorem lockstep {R : σ → σ → Prop}
    (hstep : ∀ s t i, R s t → (step s i).1 = (step t i).1 ∧ R (step s i).2 (step t i).2)
    {s t : σ} (h : R s t) (is : List ι) :
    outputs step s is = outputs step t is ∧ R (final step s is) (final step t is) := by
  induction is generalizing s t with
  | nil => exact ⟨rfl, h⟩
  | cons i is ih =>
    obtain ⟨hout, hnext⟩ := hstep s t i h
    obtain ⟨hrest, hfinal⟩ := ih hnext
    simp only [final_cons]
    exact ⟨by rw [outputs, outputs, hout, hrest], hfinal⟩

end Rules

end Trace
