import Mathlib.Init

/-! Two stateful computations that give the same value from related states. -/

/-- From related states both give the same value and leave related states. -/
def Simulates {σ τ α : Type} (R : σ → τ → Prop) (m : StateM σ α) (p : StateM τ α) : Prop :=
  ∀ s t, R s t → (m s).1 = (p t).1 ∧ R (m s).2 (p t).2

namespace Simulates

variable {σ τ α β : Type} {R : σ → τ → Prop} {m : StateM σ α} {p : StateM τ α}

theorem pure (a : α) : Simulates R (Pure.pure a) (Pure.pure a) := fun _ _ h => ⟨rfl, h⟩

theorem bind {f : α → StateM σ β} {g : α → StateM τ β} (h : Simulates R m p)
    (hf : ∀ a, Simulates R (f a) (g a)) : Simulates R (m >>= f) (p >>= g) := by
  intro s t hst
  obtain ⟨ha, hrest⟩ := h s t hst
  have hnext := hf (m s).1 _ _ hrest
  change (f (m s).1 (m s).2).1 = (g (p t).1 (p t).2).1 ∧
    R (f (m s).1 (m s).2).2 (g (p t).1 (p t).2).2
  rwa [← ha]

/-- Both look at their states first. -/
theorem get {f : σ → StateM σ α} {g : τ → StateM τ α}
    (h : ∀ s t, R s t → (f s s).1 = (g t t).1 ∧ R (f s s).2 (g t t).2) :
    Simulates R (MonadState.get >>= f) (MonadState.get >>= g) := h

theorem ite {c : Prop} [Decidable c] {m' : StateM σ α} {p' : StateM τ α} (h : c → Simulates R m p)
    (h' : ¬c → Simulates R m' p') : Simulates R (if c then m else m') (if c then p else p') := by
  split
  next hc => exact h hc
  next hc => exact h' hc

end Simulates
