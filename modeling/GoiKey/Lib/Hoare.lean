import Mathlib.Init

/-! Postconditions of the values that stateful computations return, whatever their state. -/

def Returns {σ α : Type} (Q : α → Prop) (m : StateM σ α) : Prop := ∀ s, Q (m s).1

namespace Returns

variable {σ α β : Type} {Q : α → Prop} {R : β → Prop} {m : StateM σ α}

theorem any (m : StateM σ α) : Returns (fun _ => True) m := fun _ => trivial

theorem pure {a : α} (h : Q a) : Returns (σ := σ) Q (Pure.pure a) := fun _ => h

theorem bind {f : α → StateM σ β} (h : Returns Q m) (hf : ∀ a, Q a → Returns R (f a)) :
    Returns R (m >>= f) := fun s => hf _ (h s) _

/-- Nothing has to be known of the first value. -/
theorem andThen {f : α → StateM σ β} (hf : ∀ a, Returns R (f a)) : Returns R (m >>= f) :=
  (any m).bind fun a _ => hf a

theorem imp {Q' : α → Prop} (h : Returns Q m) (hi : ∀ a, Q a → Q' a) : Returns Q' m :=
  fun s => hi _ (h s)

end Returns

/-! Pre- and postconditions of stateful computations. -/

/-- From a state that meets the precondition the value and the state left meet the other. -/
def Hoare {σ α : Type} (p : σ → Prop) (m : StateM σ α) (q : α → σ → Prop) : Prop :=
  ∀ s, p s → q (m s).1 (m s).2

namespace Hoare

variable {σ α β : Type} {p : σ → Prop} {q : α → σ → Prop} {m : StateM σ α}

theorem pure {a : α} (h : ∀ s, p s → q a s) : Hoare p (Pure.pure a) q := h

theorem bind {q : β → σ → Prop} {r : α → σ → Prop} {f : α → StateM σ β} (hm : Hoare p m r)
    (hf : ∀ a, Hoare (r a) (f a) q) : Hoare p (m >>= f) q :=
  fun s hs => hf _ _ (hm s hs)

theorem imp {p' : σ → Prop} {q' : α → σ → Prop} (hm : Hoare p m q)
    (hp : ∀ s, p' s → p s) (hq : ∀ a s, q a s → q' a s) : Hoare p' m q' :=
  fun s hs => hq _ _ (hm s (hp s hs))

theorem of_get {q : σ → σ → Prop} (h : ∀ s, p s → q s s) : Hoare p (get : StateM σ σ) q := h

theorem of_modify {f : σ → σ} {q : PUnit → σ → Prop} (h : ∀ s, p s → q ⟨⟩ (f s)) :
    Hoare p (modify f : StateM σ PUnit) q := h

theorem split {c : Prop} [Decidable c] {m' : StateM σ α} (hm : c → Hoare p m q)
    (hm' : ¬c → Hoare p m' q) : Hoare p (if c then m else m') q := by
  by_cases h : c
  · rw [if_pos h]
    exact hm h
  · rw [if_neg h]
    exact hm' h

theorem ite {c : Prop} [Decidable c] {m' : StateM σ α} (hm : Hoare p m q) (hm' : Hoare p m' q) :
    Hoare p (if c then m else m') q :=
  split (fun _ => hm) fun _ => hm'

end Hoare
