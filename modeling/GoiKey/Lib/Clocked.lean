import Mathlib.Data.BitVec
import Mathlib.Logic.Function.Basic

/-!
Synchronous machines: the state after a number of clocks, against a stream that
says what stands at the inputs on each of them.
-/

namespace Clocked

variable {σ τ ι κ β : Type}

section Machine

variable (step : σ → ι → σ)

/-- The state before clock `n` of a run. -/
def after (s : σ) (i : Nat → ι) : Nat → σ
  | 0 => s
  | n + 1 => step (after s i n) (i n)

/-- What came out on the first `n` clocks, the first of them first. -/
def outputs (out : σ → ι → Option β) (s : σ) (i : Nat → ι) : Nat → List β
  | 0 => []
  | n + 1 => outputs out s i n ++ (out (after step s i n) (i n)).toList

variable {step} {s : σ} {i : Nat → ι}

@[simp] theorem after_zero : after step s i 0 = s := rfl

@[simp] theorem after_succ (n : Nat) : after step s i (n + 1) = step (after step s i n) (i n) := rfl

theorem after_add (m n : Nat) :
    after step s i (m + n) = after step (after step s i m) (fun k => i (m + k)) n := by
  induction n with
  | zero => rfl
  | succ n ih => rw [← Nat.add_assoc, after_succ, after_succ, ih]

theorem outputs_succ (out : σ → ι → Option β) (n : Nat) :
    outputs step out s i (n + 1)
      = outputs step out s i n ++ (out (after step s i n) (i n)).toList := rfl

theorem outputs_add (out : σ → ι → Option β) (m n : Nat) :
    outputs step out s i (m + n) =
      outputs step out s i m ++ outputs step out (after step s i m) (fun k => i (m + k)) n := by
  induction n with
  | zero => rw [Nat.add_zero, outputs, List.append_nil]
  | succ n ih => rw [← Nat.add_assoc, outputs_succ, ih, outputs_succ, after_add, List.append_assoc]

theorem outputs_none {out : σ → ι → Option β} {m : Nat} (h : ∀ n < m, out (after step s i n) (i n) = none) :
    outputs step out s i m = [] := by
  induction m with
  | zero => rfl
  | succ m ih =>
    rw [outputs_succ, ih fun n hn => h n (Nat.lt_succ_of_lt hn), h m (Nat.lt_succ_self m), Option.toList_none,
      List.append_nil]

/-- The invariant rule: `I` may speak of the clocks that have passed. -/
theorem invariant {I : Nat → σ → Prop} (h : I 0 s)
    (hstep : ∀ n t, I n t → t = after step s i n → I (n + 1) (step t (i n))) (n : Nat) :
    I n (after step s i n) := by
  induction n with
  | zero => exact h
  | succ n ih => exact hstep n _ ih rfl

end Machine

/-- The rule for two machines, or two runs of one, over some clocks: what each of them keeps
together stays together. -/
theorem lockstep {step : σ → ι → σ} {step' : τ → κ → τ} {R : σ → τ → Prop}
    {s : σ} {t : τ} {i : Nat → ι} {j : Nat → κ} {m : Nat} (h : R s t)
    (hstep : ∀ n, n < m → R (after step s i n) (after step' t j n) →
      R (step (after step s i n) (i n)) (step' (after step' t j n) (j n))) {n : Nat} (hn : n ≤ m) :
    R (after step s i n) (after step' t j n) := by
  induction n with
  | zero => exact h
  | succ n ih => exact hstep n hn (ih (Nat.le_of_succ_le hn))

/-- Related states that give out the same give out the same for a whole run. -/
theorem lockstep_outputs {step : σ → ι → σ} {step' : τ → κ → τ} {R : σ → τ → Prop}
    {out : σ → ι → Option β} {out' : τ → κ → Option β}
    {s : σ} {t : τ} {i : Nat → ι} {j : Nat → κ}
    {m : Nat} (hrel : ∀ n, n < m → R (after step s i n) (after step' t j n))
    (hout : ∀ n, R (after step s i n) (after step' t j n) →
      out (after step s i n) (i n) = out' (after step' t j n) (j n)) :
    outputs step out s i m = outputs step' out' t j m := by
  induction m with
  | zero => rfl
  | succ m ih =>
    rw [outputs_succ, outputs_succ, ih fun n hn => hrel n (Nat.lt_succ_of_lt hn),
      hout m (hrel m (Nat.lt_succ_self m))]

/-- What ends only with a certain clock still holds when that clock comes. -/
theorem waits {P G : Nat → Prop} [DecidablePred G] (hwait : ∀ k, P k → ¬ G k → P (k + 1))
    {n m : Nat} (hn : P n) (hm : n ≤ m) (hG : G m) : ∃ k, n ≤ k ∧ P k ∧ G k := by
  obtain ⟨d, rfl⟩ := Nat.exists_eq_add_of_le hm
  induction d generalizing n with
  | zero => exact ⟨n, Nat.le_refl n, hn, hG⟩
  | succ d ih =>
    by_cases h : G n
    · exact ⟨n, Nat.le_refl n, hn, h⟩
    · have hG' : G (n + 1 + d) := by rwa [Nat.add_right_comm n 1 d, Nat.add_assoc]
      obtain ⟨k, hk, hP, hg⟩ := ih (hwait n hn h) (Nat.le_add_right _ _) hG'
      exact ⟨k, Nat.le_of_succ_le hk, hP, hg⟩

/-! Runs that come somewhere: what is asked of the states on the way is that they meet `B`. -/

/-- From `P` every run comes to `Q`. -/
def Leads (step : σ → ι → σ) (B P Q : σ → Prop) : Prop :=
  ∀ s, P s → ∀ i, ∃ n, (∀ k < n, B (after step s i k)) ∧ Q (after step s i n)

section Leads

variable {step : σ → ι → σ} {B P Q R : σ → Prop}

theorem Leads.of_imp (h : ∀ s, P s → Q s) : Leads step B P Q :=
  fun s hs _ => ⟨0, fun _ hk => absurd hk (Nat.not_lt_zero _), h s hs⟩

/-- One clock. -/
theorem Leads.edge (hB : ∀ s, P s → B s) (h : ∀ s i, P s → Q (step s i)) : Leads step B P Q := by
  intro s hs i
  refine ⟨1, fun k hk => ?_, h s (i 0) hs⟩
  obtain rfl : k = 0 := Nat.lt_one_iff.mp hk
  exact hB s hs

theorem Leads.trans (hPQ : Leads step B P Q) (hQR : Leads step B Q R) : Leads step B P R := by
  intro s hs i
  obtain ⟨m, hm, hq⟩ := hPQ s hs i
  obtain ⟨n, hn, hr⟩ := hQR _ hq fun k => i (m + k)
  refine ⟨m + n, fun k hk => ?_, by rw [after_add]; exact hr⟩
  rcases Nat.lt_or_ge k m with hlt | hge
  · exact hm k hlt
  · obtain ⟨d, rfl⟩ := Nat.exists_eq_add_of_le hge
    rw [after_add]
    exact hn d (by omega)

theorem Leads.imp {P' Q' : σ → Prop} (h : Leads step B P Q) (hP : ∀ s, P' s → P s) (hQ : ∀ s, Q s → Q' s) :
    Leads step B P' Q' := by
  intro s hs i
  obtain ⟨n, hn, hq⟩ := h s (hP s hs) i
  exact ⟨n, hn, hQ _ hq⟩

/-- The loop rule: `I` says what holds after so many rounds. -/
theorem Leads.loop {I : Nat → σ → Prop} {n : Nat} (h : ∀ j < n, Leads step B (I j) (I (j + 1))) :
    Leads step B (I 0) (I n) := by
  induction n with
  | zero => exact .of_imp fun _ hs => hs
  | succ n ih => exact (ih fun j hj => h j (Nat.lt_succ_of_lt hj)).trans (h n (Nat.lt_succ_self n))

/-- What may be assumed to exist. -/
theorem Leads.exists {α : Type} {P : α → σ → Prop} (h : ∀ a, Leads step B (P a) Q) :
    Leads step B (fun s => ∃ a, P a s) Q := by
  rintro s ⟨a, hs⟩ i
  exact h a s hs i

end Leads

/-! Runs that have to wait for what comes in. -/

/-- `A` holds of the inputs on every clock, and `G` does again and again. -/
def Given (A G : ι → Prop) (i : Nat → ι) : Prop := (∀ n, A (i n)) ∧ ∀ n, ∃ m, n ≤ m ∧ G (i m)

theorem Given.later {A G : ι → Prop} {i : Nat → ι} (h : Given A G i) (m : Nat) :
    Given A G fun k => i (m + k) := by
  refine ⟨fun n => h.1 _, fun n => ?_⟩
  obtain ⟨k, hk, hG⟩ := h.2 (m + n)
  obtain ⟨d, rfl⟩ := Nat.exists_eq_add_of_le (Nat.le_trans (Nat.le_add_right m n) hk)
  exact ⟨d, by omega, hG⟩

/-- From `P` every run on such inputs comes to `Q`. -/
def Reaches (step : σ → ι → σ) (A G : ι → Prop) (B P Q : σ → Prop) : Prop :=
  ∀ s, P s → ∀ i, Given A G i → ∃ n, (∀ k < n, B (after step s i k)) ∧ Q (after step s i n)

section Reaches

variable {step : σ → ι → σ} {A G : ι → Prop} {B P Q R : σ → Prop}

theorem Reaches.of_imp (h : ∀ s, P s → Q s) : Reaches step A G B P Q :=
  fun s hs _ _ => ⟨0, fun _ hk => absurd hk (Nat.not_lt_zero _), h s hs⟩

/-- One clock. -/
theorem Reaches.edge (hB : ∀ s, P s → B s) (h : ∀ s i, P s → A i → Q (step s i)) :
    Reaches step A G B P Q := by
  intro s hs i hi
  refine ⟨1, fun k hk => ?_, h s (i 0) hs (hi.1 0)⟩
  obtain rfl : k = 0 := Nat.lt_one_iff.mp hk
  exact hB s hs

theorem Reaches.trans (hPQ : Reaches step A G B P Q) (hQR : Reaches step A G B Q R) :
    Reaches step A G B P R := by
  intro s hs i hi
  obtain ⟨m, hm, hq⟩ := hPQ s hs i hi
  obtain ⟨n, hn, hr⟩ := hQR _ hq _ (hi.later m)
  refine ⟨m + n, fun k hk => ?_, by rw [after_add]; exact hr⟩
  rcases Nat.lt_or_ge k m with hlt | hge
  · exact hm k hlt
  · obtain ⟨d, rfl⟩ := Nat.exists_eq_add_of_le hge
    rw [after_add]
    exact hn d (by omega)

theorem Reaches.imp {P' Q' : σ → Prop} (h : Reaches step A G B P Q) (hP : ∀ s, P' s → P s)
    (hQ : ∀ s, Q s → Q' s) : Reaches step A G B P' Q' := by
  intro s hs i hi
  obtain ⟨n, hn, hq⟩ := h s (hP s hs) i hi
  exact ⟨n, hn, hQ _ hq⟩

theorem Reaches.weaken {P' : σ → Prop} (hP : ∀ s, P' s → P s) (h : Reaches step A G B P Q) :
    Reaches step A G B P' Q := fun s hs => h s (hP s hs)

theorem Reaches.mono {B' : σ → Prop} (h : Reaches step A G B P Q) (hB : ∀ s, B s → B' s) :
    Reaches step A G B' P Q := by
  intro s hs i hi
  obtain ⟨n, hn, hq⟩ := h s hs i hi
  exact ⟨n, fun k hk => hB _ (hn k hk), hq⟩

/-- A state that is left when `G` comes. -/
theorem Reaches.wait (hB : ∀ s, P s → B s) (hstay : ∀ s i, P s → A i → ¬ G i → P (step s i))
    (hleave : ∀ s i, P s → A i → G i → Q (step s i)) : Reaches step A G B P Q := by
  intro s hs i hi
  obtain ⟨m, -, hm⟩ := hi.2 0
  induction m generalizing s i with
  | zero => exact ⟨1, fun k hk => Nat.lt_one_iff.mp hk ▸ hB s hs, hleave s (i 0) hs (hi.1 0) hm⟩
  | succ m ih =>
    by_cases hG : G (i 0)
    · exact ⟨1, fun k hk => Nat.lt_one_iff.mp hk ▸ hB s hs, hleave s (i 0) hs (hi.1 0) hG⟩
    · have hnext : P (step s (i 0)) := hstay s (i 0) hs (hi.1 0) hG
      obtain ⟨n, hn, hq⟩ := ih _ hnext (fun k => i (1 + k)) (hi.later 1) (by rwa [Nat.add_comm 1 m])
      refine ⟨1 + n, fun k hk => ?_, by rw [after_add]; exact hq⟩
      cases k with
      | zero => exact hB s hs
      | succ k =>
        rw [Nat.add_comm k 1, after_add]
        exact hn k (by omega)

/-- The loop rule: `I` says what holds after so many rounds. -/
theorem Reaches.loop {I : Nat → σ → Prop} {n : Nat}
    (h : ∀ j < n, Reaches step A G B (I j) (I (j + 1))) : Reaches step A G B (I 0) (I n) := by
  induction n with
  | zero => exact .of_imp fun _ hs => hs
  | succ n ih => exact (ih fun j hj => h j (Nat.lt_succ_of_lt hj)).trans (h n (Nat.lt_succ_self n))

/-- The rule for a loop that ends because something runs out. -/
theorem Reaches.descend {I : Nat → σ → Prop} (h : ∀ n, Reaches step A G B (I n) fun s => Q s ∨ ∃ m < n, I m s)
    (n : Nat) : Reaches step A G B (I n) Q := by
  induction n using Nat.strong_induction_on with
  | _ n ih =>
    apply (h n).trans
    rintro s (hs | ⟨m, hm, hs⟩) i hi
    · exact ⟨0, fun _ hk => absurd hk (Nat.not_lt_zero _), hs⟩
    · exact ih m hm s hs i hi

theorem Reaches.exists {α : Type} {P : α → σ → Prop} (h : ∀ a, Reaches step A G B (P a) Q) :
    Reaches step A G B (fun s => ∃ a, P a s) Q := by
  rintro s ⟨a, hs⟩ i hi
  exact h a s hs i hi

/-- A fact that the states share. -/
theorem Reaches.fact {p : Prop} (hp : ∀ s, P s → p) (h : p → Reaches step A G B P Q) :
    Reaches step A G B P Q := fun s hs => h (hp s hs) s hs

/-- When `B` ends `Q` holds. -/
theorem Reaches.when (h : Reaches step A G B P Q) (hQ : ∀ s, Q s → ¬ B s) {s : σ} (hs : P s) {i : Nat → ι}
    (hi : Given A G i) {n : Nat} (hn : ∀ k < n, B (after step s i k)) (hend : ¬ B (after step s i n)) :
    Q (after step s i n) := by
  obtain ⟨m, hm, hq⟩ := h s hs i hi
  obtain hlt | rfl | hlt := Nat.lt_trichotomy m n
  · exact absurd (hn m hlt) (hQ _ hq)
  · exact hq
  · exact absurd (hm n hlt) hend

end Reaches

/-! A machine that takes up one thing after the other, and has to be waited for in between. -/

/-- The rule for a stream: `P` says what the machine is when it has taken up a list and is ready. -/
theorem takes {step : σ → ι → σ} {A G : ι → Prop} {acc : ι → Option β} {quiet : ι → Prop} {ready : σ → Prop}
    {P : List β → σ → Prop} (hnone : ∀ l s i, P l s → A i → acc i = none → quiet i → P l (step s i))
    (hsome : ∀ l b, Reaches step A G (fun s => ¬ready s)
      (fun s => ∃ t i, P l t ∧ A i ∧ acc i = some b ∧ s = step t i) (P (l ++ [b])))
    {s : σ} {i : Nat → ι} (hs : P [] s) (hi : Given A G i)
    (hready : ∀ n, acc (i n) ≠ none → ready (after step s i n)) {m : Nat}
    (hquiet : ∀ n < m, acc (i n) = none → quiet (i n)) {n : Nat} (hn : n ≤ m) :
    ∃ d, (∀ k < d, ¬ready (after step s i (n + k))) ∧
      P (outputs step (fun _ i => acc i) s i n) (after step s i (n + d)) := by
  induction n with
  | zero => exact ⟨0, fun _ hk => absurd hk (Nat.not_lt_zero _), hs⟩
  | succ n ih =>
    obtain ⟨d, hbusy, hP⟩ := ih (Nat.le_of_succ_le hn)
    rw [outputs_succ]
    cases d with
    | zero =>
      cases hacc : acc (i n) with
      | none =>
        refine ⟨0, fun _ hk => absurd hk (Nat.not_lt_zero _), ?_⟩
        rw [Option.toList_none, List.append_nil]
        exact hnone _ _ _ hP (hi.1 n) hacc (hquiet n hn hacc)
      | some b =>
        obtain ⟨d, hd, hQ⟩ := hsome _ b _ ⟨_, _, hP, hi.1 n, hacc, rfl⟩ _ (hi.later (n + 1))
        refine ⟨d, fun k hk => ?_, ?_⟩
        · rw [after_add]
          exact hd k hk
        · rw [after_add]
          exact hQ
    | succ d =>
      have hnot : acc (i n) = none := by
        by_contra hne
        exact hbusy 0 (Nat.succ_pos d) (hready n hne)
      rw [hnot, Option.toList_none, List.append_nil]
      refine ⟨d, fun k hk => ?_, ?_⟩
      · rw [Nat.add_right_comm, Nat.add_assoc]
        exact hbusy (k + 1) (Nat.succ_lt_succ hk)
      · rw [Nat.add_right_comm, Nat.add_assoc]
        exact hP

/-! A machine that exchanges one thing after the other, and is waited for in between. -/

theorem Given.first {A G : ι → Prop} {i : Nat → ι} (hi : Given A G i) {j : ι} (hj : A j) :
    Given A G fun k => k.casesOn j i := by
  refine ⟨fun n => ?_, fun n => ?_⟩
  · cases n with
    | zero => exact hj
    | succ n => exact hi.1 n
  · obtain ⟨m, hm, hG⟩ := hi.2 n
    exact ⟨m + 1, Nat.le_succ_of_le hm, hG⟩

theorem after_first (s : σ) (j : ι) (i : Nat → ι) (n : Nat) {step : σ → ι → σ} :
    after step s (fun k => k.casesOn j i) (n + 1) = after step (step s j) i n := by
  induction n with
  | zero => rfl
  | succ n ih =>
    rw [after_succ, ih]
    rfl

/-- The rule for exchanges: `P` says what the machine is after some of them, when nothing is
waited for. -/
theorem exchanged {step : σ → ι → σ} {A G : ι → Prop} {B S : σ → Prop} {ev : σ → ι → Option β}
    {P : List β → σ → Prop} (hstart : Reaches step A G B S (P []))
    (hnone : ∀ l s i, P l s → A i → ev s i = none → P l (step s i))
    (hsome : ∀ l b, Reaches step A G B (fun s => ∃ t i, P l t ∧ A i ∧ ev t i = some b ∧ s = step t i) (P (l ++ [b])))
    (hB : ∀ s i, B s → ev s i = none) {s : σ} (hs : S s) {i : Nat → ι} {n : Nat} (hi : ∀ k < n, A (i k)) :
    Reaches step A G B (fun t => t = after step s i n) (P (outputs step ev s i n)) := by
  induction n with
  | zero =>
    intro t ht
    rw [ht]
    exact hstart s hs
  | succ n ih =>
    rintro _ rfl j hj
    have hin : A (i n) := hi n (Nat.lt_succ_self n)
    obtain ⟨d, hbusy, hP⟩ := ih (fun k hk => hi k (Nat.lt_succ_of_lt hk)) _ rfl _ (hj.first hin)
    rw [outputs_succ, after_succ]
    cases d with
    | zero =>
      cases hev : ev (after step s i n) (i n) with
      | none =>
        refine ⟨0, fun _ hk => absurd hk (Nat.not_lt_zero _), ?_⟩
        rw [Option.toList_none, List.append_nil]
        exact hnone _ _ _ hP hin hev
      | some b => exact hsome _ b _ ⟨_, _, hP, hin, hev, rfl⟩ j hj
    | succ d =>
      have hev : ev (after step s i n) (i n) = none := hB _ _ (hbusy 0 (Nat.succ_pos d))
      rw [hev, Option.toList_none, List.append_nil]
      refine ⟨d, fun k hk => ?_, ?_⟩
      · rw [← after_first]
        exact hbusy (k + 1) (Nat.succ_lt_succ hk)
      · rw [← after_first]
        exact hP

/-! Calls: a unit that is started works until it is done. -/

section Call

variable (step : σ → ι → σ) (A G : ι → Prop) (B : σ → Prop) (start : ι → Prop)

/-- `u` is where the work ends that is started in `s`. -/
def Call (s u : σ) : Prop :=
  ∃ i n, Given A G i ∧ start (i 0) ∧ (∀ k < n, B (after step s i (k + 1))) ∧ u = after step s i (n + 1) ∧ ¬ B u

/-- Whatever comes in, the work that is started in `s` ends. -/
def Ends (s : σ) : Prop :=
  ∀ i, Given A G i → start (i 0) →
    ∃ n, (∀ k < n, B (after step s i (k + 1))) ∧ ¬ B (after step s i (n + 1))

/-- While the work goes on that is started in `s`, `I` holds. -/
def Throughout (I : σ → Prop) (s : σ) : Prop :=
  ∀ i, Given A G i → start (i 0) → ∀ n, (∀ k < n, B (after step s i (k + 1))) → ∀ k < n, I (after step s i (k + 1))

variable {step A G B start} {P Q : σ → Prop} {s u : σ}

theorem after_start (i : Nat → ι) (n : Nat) :
    after step s i (n + 1) = after step (step s (i 0)) (fun k => i (1 + k)) n := by
  rw [Nat.add_comm, after_add]
  rfl

theorem Call.leads (hc : Call step A G B start s u) (hstart : ∀ i, A i → start i → P (step s i))
    (h : Reaches step A G B P Q) (hQ : ∀ t, Q t → ¬ B t) : Q u := by
  obtain ⟨i, n, hi, hargs, hbusy, rfl, hidle⟩ := hc
  rw [after_start] at hidle ⊢
  apply h.when hQ (hstart _ (hi.1 0) hargs) (hi.later 1) (fun k hk => _) hidle
  intro k hk
  rw [← after_start]
  exact hbusy k hk

theorem Ends.of (hstart : ∀ i, A i → start i → P (step s i)) (h : Reaches step A G B P Q)
    (hQ : ∀ t, Q t → ¬ B t) : Ends step A G B start s := by
  intro i hi hargs
  obtain ⟨n, hbusy, hq⟩ := h _ (hstart _ (hi.1 0) hargs) _ (hi.later 1)
  refine ⟨n, fun k hk => ?_, ?_⟩
  · rw [after_start]
    exact hbusy k hk
  · rw [after_start]
    exact hQ _ hq

theorem Throughout.of {I : σ → Prop} (hstart : ∀ i, A i → start i → P (step s i))
    (h : Reaches step A G (fun t => B t ∧ I t) P Q) (hQ : ∀ t, Q t → ¬ B t) : Throughout step A G B start I s := by
  intro i hi hargs n hbusy k hk
  obtain ⟨m, hm, hq⟩ := h _ (hstart _ (hi.1 0) hargs) _ (hi.later 1)
  have hnm : n ≤ m := by
    by_contra hlt
    have hb := hbusy m (Nat.lt_of_not_le hlt)
    rw [after_start] at hb
    exact hQ _ hq hb
  rw [after_start]
  exact (hm k (Nat.lt_of_lt_of_le hk hnm)).2

theorem Ends.call {i : Nat → ι} (h : Ends step A G B start s) (hi : Given A G i) (hs : start (i 0)) :
    ∃ u, Call step A G B start s u := by
  obtain ⟨n, hbusy, hidle⟩ := h i hi hs
  exact ⟨_, i, n, hi, hs, hbusy, rfl, hidle⟩

/-- What goes on for ever has no end. -/
theorem Call.absurd (hc : Call step A G B start s u) (hstart : ∀ i, A i → start i → P (step s i))
    (h : ∀ s, P s → ∀ i, Given A G i → ∀ n, B (after step s i n)) : False := by
  obtain ⟨i, n, hi, hargs, -, rfl, hidle⟩ := hc
  rw [after_start] at hidle
  exact hidle (h _ (hstart _ (hi.1 0) hargs) _ (hi.later 1) n)

end Call

/-! A machine inside a larger one. -/

/-- Every run from here comes to `Q`. -/
def Comes (step : σ → ι → σ) (A : ι → Prop) (B Q : σ → Prop) (s : σ) : Prop :=
  ∀ i : Nat → ι, (∀ n, A (i n)) → ∃ n, (∀ k < n, B (after step s i k)) ∧ Q (after step s i n)

section Comes

variable {step : σ → ι → σ} {A : ι → Prop} {B Q R : σ → Prop}

theorem Reaches.comes {P : σ → Prop} (h : Reaches step A (fun _ => True) B P Q) (hs : P s) : Comes step A B Q s :=
  fun i hi => h s hs i ⟨hi, fun n => ⟨n, Nat.le_refl n, trivial⟩⟩

theorem Comes.here (h : Q s) : Comes step A B Q s := fun _ _ => ⟨0, fun _ hk => absurd hk (Nat.not_lt_zero _), h⟩

theorem Comes.trans (h : Comes step A B Q s) (hQR : ∀ s, Q s → Comes step A B R s) : Comes step A B R s := by
  intro i hi
  obtain ⟨m, hm, hq⟩ := h i hi
  obtain ⟨n, hn, hr⟩ := hQR _ hq (fun k => i (m + k)) fun k => hi (m + k)
  refine ⟨m + n, fun k hk => ?_, by rw [after_add]; exact hr⟩
  rcases Nat.lt_or_ge k m with hlt | hge
  · exact hm k hlt
  · obtain ⟨d, rfl⟩ := Nat.exists_eq_add_of_le hge
    rw [after_add]
    exact hn d (by omega)

/-- One clock on the way. -/
theorem Comes.clock (h : Comes step A B Q s) {j : ι} (hj : A j) : Q s ∨ B s ∧ Comes step A B Q (step s j) := by
  by_cases hs : Q s
  · exact .inl hs
  have hgo : ∀ i : Nat → ι, (∀ n, A (i n)) → B s ∧
      ∃ n, (∀ k < n, B (after step (step s j) i k)) ∧ Q (after step (step s j) i n) := by
    intro i hi
    obtain ⟨n, hn, hq⟩ := h (fun k => k.casesOn j i) fun n => by cases n with
      | zero => exact hj
      | succ n => exact hi n
    cases n with
    | zero => exact absurd hq hs
    | succ n =>
      rw [after_first] at hq
      refine ⟨hn 0 (Nat.succ_pos n), n, fun k hk => ?_, hq⟩
      rw [← after_first]
      exact hn (k + 1) (Nat.succ_lt_succ hk)
  exact .inr ⟨(hgo (fun _ => j) fun _ => hj).1, fun i hi => (hgo i hi).2⟩

/-- A machine takes the same clocks inside a larger one as on its own: `part` is its state, `port`
is what comes to it, and `W` holds of the rest for as long as it has not come to `Q`. -/
theorem Reaches.within {step' : τ → κ → τ} {A' G' : κ → Prop} {B' W : τ → Prop} {part : τ → σ} {port : τ → κ → ι}
    (hpart : ∀ t j, W t → A' j → part (step' t j) = step (part t) (port t j))
    (hport : ∀ t j, W t → A' j → A (port t j))
    (hstay : ∀ t j, W t → A' j → B (part t) → W (step' t j)) (hbusy : ∀ t, W t → B' t) :
    Reaches step' A' G' B' (fun t => W t ∧ Comes step A B Q (part t)) fun t => W t ∧ Q (part t) := by
  rintro t ⟨hW, hcomes⟩ j ⟨hj, -⟩
  classical
  let i : Nat → ι := fun k => if W (after step' t j k) then port (after step' t j k) (j k) else port t (j 0)
  have hi : ∀ k, A (i k) := by
    intro k
    change A (if _ then _ else _)
    split
    next hk => exact hport _ _ hk (hj k)
    · exact hport _ _ hW (hj 0)
  obtain ⟨n, hn, hq⟩ := hcomes i hi
  have hrun : ∀ k ≤ n, W (after step' t j k) ∧ part (after step' t j k) = after step (part t) i k := by
    intro k
    induction k with
    | zero => exact fun _ => ⟨hW, rfl⟩
    | succ k ih =>
      intro hk
      obtain ⟨hWk, hpk⟩ := ih (Nat.le_of_succ_le hk)
      have hik : i k = port (after step' t j k) (j k) := if_pos hWk
      rw [after_succ, after_succ, hik, ← hpk]
      refine ⟨hstay _ _ hWk (hj k) ?_, hpart _ _ hWk (hj k)⟩
      rw [hpk]
      exact hn k hk
  refine ⟨n, fun k hk => hbusy _ (hrun k (Nat.le_of_lt hk)).1, (hrun n (Nat.le_refl n)).1, ?_⟩
  rw [(hrun n (Nat.le_refl n)).2]
  exact hq

end Comes

end Clocked
