import Mathlib.Data.List.Basic

/-! What a computation over an input reads: the symbols it takes off the front and its value. -/

/-- It takes these symbols and yields this value, whatever follows them. -/
def Reads {σ α : Type} (m : StateM (List σ) α) (taken : List σ) (a : α) : Prop :=
  ∀ rest, m (taken ++ rest) = (a, rest)

namespace Reads

variable {σ α β : Type} {m : StateM (List σ) α} {xs ys : List σ} {a : α} {b : β}

theorem pure (a : α) : Reads (σ := σ) (Pure.pure a) [] a := fun _ => rfl

theorem bind {f : α → StateM (List σ) β} (h : Reads m xs a) (hf : Reads (f a) ys b) :
    Reads (m >>= f) (xs ++ ys) b := by
  intro rest
  have hm : m (xs ++ ys ++ rest) = (a, ys ++ rest) := by
    rw [List.append_assoc]
    exact h _
  change f (m (xs ++ ys ++ rest)).1 (m (xs ++ ys ++ rest)).2 = (b, rest)
  rw [hm]
  exact hf rest

/-- The last part of a reading takes nothing. -/
theorem bind_pure {f : α → StateM (List σ) β} (h : Reads m xs a) (hf : Reads (f a) [] b) :
    Reads (m >>= f) xs b := by
  have hb := h.bind hf
  rwa [List.append_nil] at hb

/-- A look at the whole input comes first. -/
theorem get {f : List σ → StateM (List σ) α}
    (h : ∀ rest, f (xs ++ rest) (xs ++ rest) = (a, rest)) : Reads (MonadState.get >>= f) xs a := h

end Reads

/-- It takes symbols off the front and looks at none behind those: while some of `x`
is left over, what it makes of `t` does not depend on `x`. -/
structure Forward {σ α : Type} (m : StateM (List σ) α) : Prop where
  suffix : ∀ s, (m s).2 <:+ s
  blind : ∀ t x y, x ≠ [] → x.length ≤ (m (t ++ x)).2.length →
    ∃ t', m (t ++ x) = ((m (t ++ x)).1, t' ++ x) ∧ m (t ++ y) = ((m (t ++ x)).1, t' ++ y)

namespace Forward

variable {σ α β : Type} {m : StateM (List σ) α} {t x taken : List σ} {a : α}

theorem pure (a : α) : Forward (σ := σ) (Pure.pure a) where
  suffix s := List.suffix_refl s
  blind t _ _ _ _ := ⟨t, rfl, rfl⟩

theorem bind {f : α → StateM (List σ) β} (hm : Forward m) (hf : ∀ a, Forward (f a)) :
    Forward (m >>= f) where
  suffix s := ((hf _).suffix _).trans (hm.suffix s)
  blind t x y hx hlen := by
    have hlast : (f (m (t ++ x)).1 (m (t ++ x)).2).2 <:+ (m (t ++ x)).2 := (hf _).suffix _
    obtain ⟨t', hmx, hmy⟩ := hm.blind t x y hx (Nat.le_trans hlen hlast.length_le)
    have hbindx : (m >>= f) (t ++ x) = f (m (t ++ x)).1 (t' ++ x) := by
      change f (m (t ++ x)).1 (m (t ++ x)).2 = _
      rw [hmx]
    have hbindy : (m >>= f) (t ++ y) = f (m (t ++ x)).1 (t' ++ y) := by
      change f (m (t ++ y)).1 (m (t ++ y)).2 = _
      rw [hmy]
    rw [hbindx] at hlen ⊢
    rw [hbindy]
    exact (hf _).blind t' x y hx hlen

/-- A reading that takes all of `t ++ y` takes some of whatever follows `t` instead of `y`. -/
theorem overrun {y : List σ} (hm : Forward m) (h : Reads m (t ++ y) a) (hy : y ≠ []) (hx : x ≠ []) :
    (m (t ++ x)).2.length < x.length := by
  by_contra hlen
  obtain ⟨t', -, hmy⟩ := hm.blind t x y hx (Nat.le_of_not_lt hlen)
  have hall := h []
  rw [List.append_nil, hmy] at hall
  have hnil : t' ++ y = [] := congrArg Prod.snd hall
  exact hy (List.append_eq_nil_iff.mp hnil).2

end Forward
