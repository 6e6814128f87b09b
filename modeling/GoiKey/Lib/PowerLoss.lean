import Mathlib.Data.List.Basic

/-!
Operations carried out one after another, and the states they leave when they stop
between any two of them.
-/

namespace PowerLoss

variable {σ ω α : Type} (apply : σ → ω → σ)

def run (s : σ) (ops : List ω) : σ := ops.foldl apply s

/-- The state when only the first `n` operations were carried out. -/
def cut (s : σ) (ops : List ω) (n : Nat) : σ := run apply s (ops.take n)

variable {apply} {s : σ} {ops ops' : List ω} {n : Nat}

theorem run_append : run apply s (ops ++ ops') = run apply (run apply s ops) ops' := List.foldl_append

theorem cut_full (h : ops.length ≤ n) : cut apply s ops n = run apply s ops := by
  rw [cut, List.take_of_length_le h]

theorem cut_before (h : n ≤ ops.length) : cut apply s (ops ++ ops') n = cut apply s ops n := by
  rw [cut, List.take_append_of_le_length h, cut]

theorem cut_after : cut apply s (ops ++ ops') (ops.length + n) = cut apply (run apply s ops) ops' n := by
  rw [cut, List.take_length_add_append, run_append, cut]

/-- What no operation touches is the same wherever they stop. -/
theorem run_frame {view : σ → α} (h : ∀ op ∈ ops, ∀ s, view (apply s op) = view s) :
    view (run apply s ops) = view s := by
  induction ops generalizing s with
  | nil => rfl
  | cons op ops ih =>
    have hrest := ih (s := apply s op) fun o ho => h o (List.mem_cons_of_mem _ ho)
    exact hrest.trans (h op List.mem_cons_self s)

theorem cut_frame {view : σ → α} (h : ∀ op ∈ ops, ∀ s, view (apply s op) = view s) :
    view (cut apply s ops n) = view s :=
  run_frame fun op ho => h op (List.mem_of_mem_take ho)

end PowerLoss
