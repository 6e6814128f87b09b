import Mathlib.Data.List.Basic

/-! Objects as the list of their members, in the order they were written. -/

namespace Members

variable {κ ν : Type} [DecidableEq κ] {k key : κ} {v value : ν} {ms : List (κ × ν)}

def keys (ms : List (κ × ν)) : List κ := ms.map Prod.fst

/-- In its place when the key is there, else at the end. -/
def set (key : κ) (value : ν) : List (κ × ν) → List (κ × ν)
  | [] => [(key, value)]
  | m :: ms => if m.1 = key then (key, value) :: ms else m :: set key value ms

def remove (key : κ) (ms : List (κ × ν)) : List (κ × ν) := ms.filter (fun m => m.1 ≠ key)

def get? (key : κ) (ms : List (κ × ν)) : Option ν := (ms.find? (fun m => m.1 = key)).map Prod.snd

theorem mem_of_get? (h : get? k ms = some v) : (k, v) ∈ ms := by
  obtain ⟨m, hf, rfl⟩ := Option.map_eq_some_iff.mp h
  have hk : m.1 = k := by simpa using List.find?_some hf
  rw [← hk]
  exact List.mem_of_find?_eq_some hf

theorem get?_cons_self {m : κ × ν} (h : m.1 = k) : get? k (m :: ms) = some m.2 := by
  simp [get?, h]

theorem get?_cons_of_ne {m : κ × ν} (h : m.1 ≠ k) : get? k (m :: ms) = get? k ms := by
  simp [get?, h]

theorem get?_isSome_of_mem (h : k ∈ keys ms) : (get? k ms).isSome = true := by
  obtain ⟨m, hm, rfl⟩ := List.mem_map.mp h
  rw [get?, Option.isSome_map, List.find?_isSome]
  exact ⟨m, hm, decide_eq_true rfl⟩

theorem mem_keys_set : k ∈ keys (set key value ms) ↔ k = key ∨ k ∈ keys ms := by
  induction ms with
  | nil => simp [set, keys]
  | cons m ms ih =>
    unfold set
    by_cases hm : m.1 = key
    · rw [if_pos hm]
      simp [keys, hm]
    · rw [if_neg hm]
      have ih : k ∈ (set key value ms).map Prod.fst ↔ k = key ∨ k ∈ ms.map Prod.fst := ih
      simp only [keys, List.map_cons, List.mem_cons, ih]
      exact or_left_comm

theorem mem_keys_remove : k ∈ keys (remove key ms) ↔ k ≠ key ∧ k ∈ keys ms := by
  simp only [keys, remove, List.mem_map, List.mem_filter, decide_eq_true_eq]
  constructor
  · rintro ⟨m, ⟨hm, hk⟩, rfl⟩
    exact ⟨hk, m, hm, rfl⟩
  · rintro ⟨hk, m, hm, rfl⟩
    exact ⟨m, ⟨hm, hk⟩, rfl⟩

theorem get?_set_self : get? key (set key value ms) = some value := by
  induction ms with
  | nil => exact get?_cons_self rfl
  | cons m ms ih =>
    unfold set
    by_cases hm : m.1 = key
    · rw [if_pos hm]
      exact get?_cons_self rfl
    · rw [if_neg hm, get?_cons_of_ne hm, ih]

theorem get?_set_of_ne (h : k ≠ key) : get? k (set key value ms) = get? k ms := by
  induction ms with
  | nil => exact get?_cons_of_ne h.symm
  | cons m ms ih =>
    unfold set
    by_cases hm : m.1 = key
    · rw [if_pos hm, get?_cons_of_ne (hm.trans_ne h.symm)]
      exact get?_cons_of_ne h.symm
    · rw [if_neg hm]
      by_cases hk : m.1 = k
      · rw [get?_cons_self hk, get?_cons_self hk]
      · rw [get?_cons_of_ne hk, get?_cons_of_ne hk, ih]

theorem get?_remove_self : get? key (remove key ms) = none := by
  rw [get?, Option.map_eq_none_iff, List.find?_eq_none]
  intro m hm
  have hne := (List.mem_filter.mp hm).2
  simpa using hne

theorem get?_remove_of_ne (h : k ≠ key) : get? k (remove key ms) = get? k ms := by
  induction ms with
  | nil => rfl
  | cons m ms ih =>
    by_cases hm : m.1 = key
    · rw [remove, List.filter_cons_of_neg (by simpa using hm), ← remove, ih,
        get?_cons_of_ne (hm.trans_ne h.symm)]
    · rw [remove, List.filter_cons_of_pos (by simpa using hm), ← remove]
      by_cases hk : m.1 = k
      · rw [get?_cons_self hk, get?_cons_self hk]
      · rw [get?_cons_of_ne hk, get?_cons_of_ne hk, ih]

theorem length_set (h : get? key ms = none) : (set key value ms).length = ms.length + 1 := by
  induction ms with
  | nil => rfl
  | cons m ms ih =>
    unfold set
    by_cases hm : m.1 = key
    · rw [get?_cons_self hm] at h
      cases h
    · rw [get?_cons_of_ne hm] at h
      rw [if_neg hm, List.length_cons, List.length_cons, ih h]

/-- No key twice. -/
def Distinct (ms : List (κ × ν)) : Prop := (keys ms).Nodup

theorem mem_set {m : κ × ν} (h : m ∈ set key value ms) : m = (key, value) ∨ m ∈ ms := by
  induction ms with
  | nil => exact .inl (List.mem_singleton.mp h)
  | cons m' ms ih =>
    unfold set at h
    by_cases hm : m'.1 = key
    · rw [if_pos hm] at h
      rcases List.mem_cons.mp h with h | h
      · exact .inl h
      · exact .inr (List.mem_cons_of_mem _ h)
    · rw [if_neg hm] at h
      rcases List.mem_cons.mp h with rfl | h
      · exact .inr List.mem_cons_self
      · exact (ih h).imp id (List.mem_cons_of_mem _)

theorem Distinct.get?_of_mem (h : Distinct ms) (hm : (k, v) ∈ ms) : get? k ms = some v := by
  induction ms with
  | nil => cases hm
  | cons m ms ih =>
    obtain ⟨hnot, hrest⟩ := List.nodup_cons.mp h
    rcases List.mem_cons.mp hm with rfl | hm
    · exact get?_cons_self rfl
    · have hk : m.1 ≠ k := by
        rintro rfl
        exact hnot (List.mem_map.mpr ⟨_, hm, rfl⟩)
      rw [get?_cons_of_ne hk]
      exact ih hrest hm

theorem Distinct.set (h : Distinct ms) (key : κ) (value : ν) : Distinct (Members.set key value ms) := by
  induction ms with
  | nil => exact List.nodup_cons.mpr ⟨List.not_mem_nil, List.nodup_nil⟩
  | cons m ms ih =>
    obtain ⟨hnot, hrest⟩ := List.nodup_cons.mp h
    unfold Members.set
    by_cases hm : m.1 = key
    · rw [if_pos hm]
      exact List.nodup_cons.mpr ⟨hm ▸ hnot, hrest⟩
    · rw [if_neg hm]
      refine List.nodup_cons.mpr ⟨fun hin => ?_, ih hrest⟩
      exact (mem_keys_set.mp hin).elim hm hnot

theorem Distinct.remove (h : Distinct ms) (key : κ) : Distinct (Members.remove key ms) :=
  List.Sublist.nodup (List.Sublist.map Prod.fst List.filter_sublist) h

end Members
