import GoiKey.Lib.Clocked

/-!
A loop of a program, and a machine that runs it.
-/

variable {τ : Type}

/-- `for i in range(n): body`. -/
def forLoop (body : Nat → τ → τ) (x : τ) : Nat → τ
  | 0 => x
  | n + 1 => body n (forLoop body x n)

theorem forLoop_succ (body : Nat → τ → τ) (x : τ) (n : Nat) :
    forLoop body x (n + 1) = body n (forLoop body x n) := rfl

/-- `while more: body`, for so many rounds at most. -/
def whileLoop (more : τ → Bool) (body : τ → τ) : Nat → τ → Option τ
  | 0, _ => none
  | f + 1, x => if more x then whileLoop more body f (body x) else some x

/-- The loop ends. -/
def Loops (more : τ → Bool) (body : τ → τ) (x y : τ) : Prop := ∃ f, whileLoop more body f x = some y

section Loops

variable {more : τ → Bool} {body : τ → τ} {x y : τ}

/-- A loop ends where no more is wanted. -/
theorem Loops.stops (h : Loops more body x y) : more y = false := by
  obtain ⟨f, hf⟩ := h
  induction f generalizing x with
  | zero => cases hf
  | succ f ih =>
    rw [whileLoop] at hf
    cases hmore : more x with
    | true =>
      rw [if_pos hmore] at hf
      exact ih hf
    | false =>
      rw [if_neg (by rw [hmore]; decide), Option.some.injEq] at hf
      rw [← hf, hmore]

/-- What every round keeps. -/
theorem Loops.invariant {I : τ → Prop} (hstep : ∀ x, more x = true → I x → I (body x)) (h : Loops more body x y)
    (hx : I x) : I y := by
  obtain ⟨f, hf⟩ := h
  induction f generalizing x with
  | zero => cases hf
  | succ f ih =>
    rw [whileLoop] at hf
    cases hmore : more x with
    | true =>
      rw [if_pos hmore] at hf
      exact ih (hstep x hmore hx) hf
    | false =>
      rw [if_neg (by rw [hmore]; decide), Option.some.injEq] at hf
      exact hf ▸ hx

end Loops

namespace Clocked

variable {σ ι : Type} {step : σ → ι → σ} {A G : ι → Prop} {B : σ → Prop}
variable {more : τ → Bool} {body : τ → τ} {C : τ → σ → Prop}

/-- A machine in which a round of the loop takes place comes to where the loop ends. -/
theorem Reaches.while (h : ∀ x, more x = true → Reaches step A G B (C x) (C (body x))) {x y : τ}
    (hl : Loops more body x y) : Reaches step A G B (C x) (fun s => more y = false ∧ C y s) := by
  obtain ⟨f, hf⟩ := hl
  induction f generalizing x with
  | zero => cases hf
  | succ f ih =>
    rw [whileLoop] at hf
    cases hmore : more x with
    | true =>
      rw [if_pos hmore] at hf
      exact (h x hmore).trans (ih hf)
    | false =>
      rw [if_neg (by rw [hmore]; decide), Option.some.injEq] at hf
      rw [← hf]
      exact .of_imp fun s hs => ⟨hmore, hs⟩

/-- What never ends from where a machine comes to never ends. -/
theorem Reaches.never {P Q : σ → Prop} (h : Reaches step A G B P Q)
    (hQ : ∀ s, Q s → ∀ i, Given A G i → ∀ n, B (after step s i n)) {s : σ} (hs : P s) {i : Nat → ι}
    (hi : Given A G i) (n : Nat) : B (after step s i n) := by
  obtain ⟨m, hm, hq⟩ := h s hs i hi
  rcases Nat.lt_or_ge n m with hlt | hge
  · exact hm n hlt
  · obtain ⟨d, rfl⟩ := Nat.exists_eq_add_of_le hge
    rw [after_add]
    exact hQ _ hq _ (hi.later m) d

/-- Where the loop does not end the machine does not come to an end either, if it takes time
for every round. -/
theorem Reaches.forever (h : ∀ x, more x = true → Reaches step A G B (C x) (C (body x)))
    (hapart : ∀ x s, more x = true → C x s → ¬ C (body x) s) {x : τ} (hl : ∀ y, ¬ Loops more body x y)
    {s : σ} (hs : C x s) {i : Nat → ι} (hi : Given A G i) (n : Nat) : B (after step s i n) := by
  have hmore : ∀ x, (∀ y, ¬ Loops more body x y) → more x = true := by
    intro x hl
    cases hx : more x with
    | true => rfl
    | false => exact absurd ⟨1, by rw [whileLoop, if_neg (by rw [hx]; decide)]⟩ (hl x)
  have hbody : ∀ x, (∀ y, ¬ Loops more body x y) → ∀ y, ¬ Loops more body (body x) y := by
    rintro x hx y ⟨f, hf⟩
    exact hx y ⟨f + 1, by rw [whileLoop, if_pos (hmore x hx), hf]⟩
  induction n using Nat.strong_induction_on generalizing x s i with
  | _ n ih =>
    obtain ⟨m, hm, hC⟩ := h x (hmore x hl) s hs i hi
    rcases Nat.lt_or_ge n m with hlt | hge
    · exact hm n hlt
    · obtain ⟨d, rfl⟩ := Nat.exists_eq_add_of_le hge
      have hpos : m ≠ 0 := by
        rintro rfl
        exact hapart x s (hmore x hl) hs hC
      rw [after_add]
      exact ih d (by omega) (hbody x hl) hC (hi.later m)

end Clocked
