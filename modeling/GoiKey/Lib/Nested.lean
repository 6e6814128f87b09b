import GoiKey.Lib.Members
import Mathlib.Data.Nat.Digits.Defs

/-! Objects of objects: an entry under two keys, and objects left empty go. -/

namespace Nested

variable {κ ν : Type} [DecidableEq κ] {k k' l l' : κ} {v : ν} {ms : List (κ × List (κ × ν))}

def get? (k l : κ) (ms : List (κ × List (κ × ν))) : Option ν :=
  (Members.get? k ms).bind (Members.get? l)

def inner (k : κ) (ms : List (κ × List (κ × ν))) : List (κ × ν) := (Members.get? k ms).getD []

def set (k l : κ) (v : ν) (ms : List (κ × List (κ × ν))) : List (κ × List (κ × ν)) :=
  Members.set k (Members.set l v (inner k ms)) ms

def remove [DecidableEq ν] (k l : κ) (ms : List (κ × List (κ × ν))) : List (κ × List (κ × ν)) :=
  if Members.remove l (inner k ms) = [] then Members.remove k ms
  else Members.set k (Members.remove l (inner k ms)) ms

def size (ms : List (κ × List (κ × ν))) : Nat := (ms.map fun m => m.2.length).sum

theorem get?_eq_inner (k l : κ) (ms : List (κ × List (κ × ν))) :
    get? k l ms = Members.get? l (inner k ms) := by
  unfold get? inner
  cases Members.get? k ms <;> rfl

theorem inner_set_self (inside : List (κ × ν)) : inner k (Members.set k inside ms) = inside := by
  rw [inner, Members.get?_set_self]
  rfl

theorem inner_set_of_ne {inside : List (κ × ν)} (h : k' ≠ k) :
    inner k' (Members.set k inside ms) = inner k' ms := by
  rw [inner, Members.get?_set_of_ne h, inner]

theorem get?_set_self : get? k l (set k l v ms) = some v := by
  rw [get?_eq_inner, set, inner_set_self, Members.get?_set_self]

theorem get?_set_of_ne (h : (k', l') ≠ (k, l)) : get? k' l' (set k l v ms) = get? k' l' ms := by
  rw [get?_eq_inner, get?_eq_inner, set]
  by_cases hk : k' = k
  · subst hk
    have hl : l' ≠ l := by
      rintro rfl
      exact h rfl
    rw [inner_set_self, Members.get?_set_of_ne hl]
  · rw [inner_set_of_ne hk]

/-- Under its first key a removal leaves what the inner removal leaves. -/
theorem inner_remove_self [DecidableEq ν] :
    inner k (remove k l ms) = Members.remove l (inner k ms) := by
  unfold remove
  split
  next h =>
    rw [h, inner, Members.get?_remove_self]
    rfl
  · rw [inner_set_self]

theorem inner_remove_of_ne [DecidableEq ν] (h : k' ≠ k) :
    inner k' (remove k l ms) = inner k' ms := by
  unfold remove
  split
  · rw [inner, Members.get?_remove_of_ne h, inner]
  · rw [inner_set_of_ne h]

theorem get?_remove_self [DecidableEq ν] : get? k l (remove k l ms) = none := by
  rw [get?_eq_inner, inner_remove_self, Members.get?_remove_self]

theorem get?_remove_of_ne [DecidableEq ν] (h : (k', l') ≠ (k, l)) :
    get? k' l' (remove k l ms) = get? k' l' ms := by
  rw [get?_eq_inner, get?_eq_inner]
  by_cases hk : k' = k
  · subst hk
    have hl : l' ≠ l := by
      rintro rfl
      exact h rfl
    rw [inner_remove_self, Members.get?_remove_of_ne hl]
  · rw [inner_remove_of_ne hk]

/-! How many entries there are. -/

theorem size_cons (a : κ) (inside : List (κ × ν)) (ms : List (κ × List (κ × ν))) :
    size ((a, inside) :: ms) = inside.length + size ms := by
  rw [size, List.map_cons, List.sum_cons, ← size]

/-- An object takes the place of the one under its key. -/
theorem size_set_inner (k : κ) (ms : List (κ × List (κ × ν))) (inside : List (κ × ν)) :
    size (Members.set k inside ms) + (inner k ms).length = size ms + inside.length := by
  induction ms with
  | nil =>
    rw [Members.set, size_cons]
    exact Nat.add_comm inside.length 0
  | cons m ms ih =>
    obtain ⟨a, old⟩ := m
    unfold Members.set
    by_cases ha : a = k
    · rw [if_pos ha, size_cons, size_cons, inner, Members.get?_cons_self ha, Option.getD_some]
      change inside.length + size ms + old.length = old.length + size ms + inside.length
      omega
    · rw [if_neg ha, size_cons, size_cons, inner, Members.get?_cons_of_ne ha, ← inner]
      omega

theorem size_remove_key_le : size (Members.remove k ms) ≤ size ms := by
  induction ms with
  | nil => exact Nat.le_refl _
  | cons m ms ih =>
    obtain ⟨a, old⟩ := m
    unfold Members.remove at ih ⊢
    by_cases ha : a = k
    · rw [List.filter_cons_of_neg (by simpa using ha), size_cons]
      omega
    · rw [List.filter_cons_of_pos (by simpa using ha), size_cons, size_cons]
      omega

theorem size_set (h : get? k l ms = none) : size (set k l v ms) = size ms + 1 := by
  have hlen : (Members.set l v (inner k ms)).length = (inner k ms).length + 1 :=
    Members.length_set (by rwa [← get?_eq_inner])
  have := size_set_inner k ms (Members.set l v (inner k ms))
  rw [hlen] at this
  rw [set]
  omega

theorem size_remove_le [DecidableEq ν] : size (remove k l ms) ≤ size ms := by
  unfold remove
  split
  · exact size_remove_key_le
  · have hset := size_set_inner k ms (Members.remove l (inner k ms))
    have hlen : (Members.remove l (inner k ms)).length ≤ (inner k ms).length := List.length_filter_le _ _
    omega

/-! The entries one by one. -/

def entries (ms : List (κ × List (κ × ν))) : List (κ × κ × ν) :=
  ms.flatMap fun m => m.2.map fun e => (m.1, e.1, e.2)

/-- No key twice, outside and inside. -/
structure Distinct (ms : List (κ × List (κ × ν))) : Prop where
  outer : Members.Distinct ms
  inside : ∀ m ∈ ms, Members.Distinct m.2

theorem mem_entries : (k, l, v) ∈ entries ms ↔ ∃ inside, (k, inside) ∈ ms ∧ (l, v) ∈ inside := by
  simp only [entries, List.mem_flatMap, List.mem_map, Prod.mk.injEq]
  constructor
  · rintro ⟨m, hm, e, he, rfl, rfl, rfl⟩
    exact ⟨m.2, hm, he⟩
  · rintro ⟨inside, hm, he⟩
    exact ⟨(k, inside), hm, (l, v), he, rfl, rfl, rfl⟩

theorem length_entries : (entries ms).length = size ms := by
  simp [entries, size, List.length_flatMap]

theorem Distinct.get?_iff (h : Distinct ms) : get? k l ms = some v ↔ (k, l, v) ∈ entries ms := by
  rw [mem_entries, get?, Option.bind_eq_some_iff]
  constructor
  · rintro ⟨inside, hk, hl⟩
    exact ⟨inside, Members.mem_of_get? hk, Members.mem_of_get? hl⟩
  · rintro ⟨inside, hk, hl⟩
    exact ⟨inside, h.outer.get?_of_mem hk, (h.inside _ hk).get?_of_mem hl⟩

/-- An entry is not listed twice. -/
theorem Distinct.nodup (h : Distinct ms) : ((entries ms).map fun e => (e.1, e.2.1)).Nodup := by
  obtain ⟨houter, hinside⟩ := h
  induction ms with
  | nil => exact List.nodup_nil
  | cons m ms ih =>
    obtain ⟨hnot, hrest⟩ := List.nodup_cons.mp houter
    have hin : ∀ m' ∈ ms, Members.Distinct m'.2 := fun m' hm => hinside m' (List.mem_cons_of_mem _ hm)
    have hfirst : ((m.2.map fun e => (m.1, e.1, e.2)).map fun e => (e.1, e.2.1)).Nodup := by
      have hm : (m.2.map Prod.fst).Nodup := hinside m List.mem_cons_self
      rw [List.map_map]
      have hkeys : ((fun e : κ × κ × ν => (e.1, e.2.1)) ∘ fun e : κ × ν => (m.1, e.1, e.2)) =
          (fun l => (m.1, l)) ∘ Prod.fst := rfl
      rw [hkeys, ← List.map_map]
      exact List.pairwise_map.mpr (hm.imp fun hab heq => hab (Prod.mk.inj heq).2)
    rw [entries, List.flatMap_cons, ← entries, List.map_append]
    refine List.nodup_append.mpr ⟨hfirst, ih hrest hin, ?_⟩
    rintro ⟨a, b⟩ ha ⟨a', b'⟩ hb heq
    cases heq
    obtain ⟨e, he, hab⟩ := List.mem_map.mp ha
    obtain ⟨e', he', rfl⟩ := List.mem_map.mp he
    obtain ⟨f, hf, hcd⟩ := List.mem_map.mp hb
    obtain ⟨m', hm', hf'⟩ := List.mem_flatMap.mp hf
    obtain ⟨f', -, rfl⟩ := List.mem_map.mp hf'
    cases hab
    have hsame : m'.1 = m.1 := (Prod.mk.inj hcd).1
    exact hnot (List.mem_map.mpr ⟨m', hm', hsame⟩)

theorem Distinct.inner (h : Distinct ms) (k : κ) : Members.Distinct (Nested.inner k ms) := by
  unfold Nested.inner
  cases hk : Members.get? k ms with
  | none => exact List.nodup_nil
  | some inside => exact h.inside _ (Members.mem_of_get? hk)

theorem Distinct.setInner (h : Distinct ms) {inside : List (κ × ν)} (hi : Members.Distinct inside) (k : κ) :
    Distinct (Members.set k inside ms) := by
  refine ⟨h.outer.set k inside, fun m hm => ?_⟩
  rcases Members.mem_set hm with rfl | hm
  · exact hi
  · exact h.inside m hm

theorem Distinct.set (h : Distinct ms) (k l : κ) (v : ν) : Distinct (Nested.set k l v ms) :=
  h.setInner ((h.inner k).set l v) k

theorem Distinct.remove [DecidableEq ν] (h : Distinct ms) (k l : κ) : Distinct (Nested.remove k l ms) := by
  unfold Nested.remove
  split
  · exact ⟨h.outer.remove k, fun m hm => h.inside m (List.mem_filter.mp hm).1⟩
  · exact h.setInner ((h.inner k).remove l) k

theorem mem_inner {e : κ × ν} (h : e ∈ Nested.inner k ms) : (k, e.1, e.2) ∈ entries ms := by
  unfold Nested.inner at h
  cases hk : Members.get? k ms with
  | none =>
    rw [hk] at h
    cases h
  | some inside =>
    rw [hk] at h
    exact mem_entries.mpr ⟨inside, Members.mem_of_get? hk, h⟩

theorem mem_entries_setInner {inside : List (κ × ν)} {e : κ × κ × ν}
    (h : e ∈ entries (Members.set k inside ms)) : (e.1 = k ∧ e.2 ∈ inside) ∨ e ∈ entries ms := by
  obtain ⟨k', l', v'⟩ := e
  obtain ⟨inside', hm, he⟩ := mem_entries.mp h
  rcases Members.mem_set hm with heq | hm
  · cases heq
    exact .inl ⟨rfl, he⟩
  · exact .inr (mem_entries.mpr ⟨inside', hm, he⟩)

theorem mem_entries_set {e : κ × κ × ν} (h : e ∈ entries (set k l v ms)) : e = (k, l, v) ∨ e ∈ entries ms := by
  obtain ⟨k', e⟩ := e
  rcases mem_entries_setInner h with ⟨hk, he⟩ | h
  · cases hk
    rcases Members.mem_set he with rfl | he
    · exact .inl rfl
    · exact .inr (mem_inner he)
  · exact .inr h

theorem mem_entries_remove [DecidableEq ν] {e : κ × κ × ν} (h : e ∈ entries (remove k l ms)) :
    e ∈ entries ms := by
  obtain ⟨k', e⟩ := e
  unfold remove at h
  split at h
  · obtain ⟨inside, hm, he⟩ := mem_entries.mp h
    exact mem_entries.mpr ⟨inside, (List.mem_filter.mp hm).1, he⟩
  · rcases mem_entries_setInner h with ⟨hk, he⟩ | h
    · cases hk
      exact mem_inner (List.mem_filter.mp he).1
    · exact h

end Nested
