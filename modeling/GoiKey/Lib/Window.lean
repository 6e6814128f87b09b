import Mathlib.Data.List.Basic

/-!
Strings that can be read off others: a fixed front, and behind it what stands at a
fixed place of the other string.
-/

namespace Window

variable {α : Type} {n : Nat} {S : List α → List α → Prop} {a a' b b' : List α}

/-- The front, and as much of the string from the place on as makes `n` in all. -/
def reading (front : List α) (place n : Nat) (b : List α) : List α :=
  front ++ (b.drop place).take (n - front.length)

/-- One front and one place do for all related pairs. -/
def Readable (n : Nat) (S : List α → List α → Prop) : Prop :=
  ∃ front place, ∀ a b, S a b → a = reading front place n b

theorem reading_front {front : List α} {place j : Nat} (hj : j < front.length) :
    (reading front place n b)[j]? = front[j]? := List.getElem?_append_left hj

theorem reading_behind {front : List α} {place j : Nat} (hj : front.length ≤ j) (hn : j < n) :
    (reading front place n b)[j]? = b[place + (j - front.length)]? := by
  rw [reading, List.getElem?_append_right hj, List.getElem?_take, if_pos (by omega),
    List.getElem?_drop]

/-- Where two strings differ, and from there on, all are read at one place. -/
theorem Readable.behind (h : Readable n S) {j : Nat} (ha : S a b) (ha' : S a' b') (hne : a[j]? ≠ a'[j]?) :
    ∃ place, ∀ a b, S a b → ∀ k, j + k < n → a[j + k]? = b[place + k]? := by
  obtain ⟨front, place, hread⟩ := h
  have hfront : front.length ≤ j := by
    by_contra hj
    apply hne
    rw [hread a b ha, hread a' b' ha', reading_front (Nat.lt_of_not_le hj),
      reading_front (Nat.lt_of_not_le hj)]
  refine ⟨place + (j - front.length), fun a b hab k hk => ?_⟩
  rw [hread a b hab, reading_behind (by omega) hk]
  congr 1
  omega

/-- Two strings that go with one are not read off it. -/
theorem Readable.unique (h : Readable n S) (ha : S a b) (ha' : S a' b) : a = a' := by
  obtain ⟨front, place, hread⟩ := h
  rw [hread a b ha, hread a' b ha']

end Window
