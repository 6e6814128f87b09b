import Mathlib.Data.List.Basic

namespace Fields

variable {α : Type} [DecidableEq α]

/-- The text before and after the first separator, absent without one. -/
def cut (sep : α) : List α → Option (List α × List α)
  | [] => none
  | c :: cs => if c = sep then some ([], cs) else (cut sep cs).map (fun p => (c :: p.1, p.2))

@[simp] theorem cut_append {sep : α} {before : List α} (h : sep ∉ before) (after : List α) :
    cut sep (before ++ sep :: after) = some (before, after) := by
  induction before with
  | nil => simp [cut]
  | cons c cs ih =>
    simp only [List.mem_cons, not_or] at h
    have hc : c ≠ sep := fun he => h.1 he.symm
    simp [cut, hc, ih h.2]

/-- A text with separators of its own is cut at the first of them. -/
theorem cut_first (sep : α) (before after : List α) :
    ∃ first rest, cut sep (before ++ sep :: after) = some (first, rest) ∧
      first <+: before ∧ sep ∉ first := by
  induction before with
  | nil => exact ⟨[], after, by simp [cut], List.nil_prefix, List.not_mem_nil⟩
  | cons c cs ih =>
    by_cases hc : c = sep
    · exact ⟨[], cs ++ sep :: after, by simp [cut, hc], List.nil_prefix, List.not_mem_nil⟩
    · obtain ⟨first, rest, hcut, hfirst, hsep⟩ := ih
      refine ⟨c :: first, rest, by simp [cut, hc, hcut], List.cons_prefix_cons.mpr ⟨rfl, hfirst⟩, ?_⟩
      simp only [List.mem_cons, not_or]
      exact ⟨fun he => hc he.symm, hsep⟩

/-- A cut reassembles to the text it was made from, and its first part is free
of the separator. -/
theorem cut_some {sep : α} {cs before after : List α} (h : cut sep cs = some (before, after)) :
    cs = before ++ sep :: after ∧ sep ∉ before := by
  induction cs generalizing before with
  | nil => simp [cut] at h
  | cons c cs ih =>
    by_cases hc : c = sep
    · simp only [cut, if_pos hc, Option.some.injEq, Prod.mk.injEq] at h
      obtain ⟨rfl, rfl⟩ := h
      simp [hc]
    · simp only [cut, if_neg hc, Option.map_eq_some_iff, Prod.mk.injEq, Prod.exists] at h
      obtain ⟨b, a, hcut, rfl, rfl⟩ := h
      obtain ⟨hcs, hb⟩ := ih hcut
      refine ⟨by simp [hcs], ?_⟩
      simp only [List.mem_cons, not_or]
      exact ⟨fun he => hc he.symm, hb⟩

end Fields
