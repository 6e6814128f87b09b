import GoiKey.Lib.LoopPrograms
import GoiKey.Model.Requests
import GoiKey.Proofs.SkippedItems

/-! What the reads and skipValue take off the input, at the least. -/

namespace GoiKey

open LoopProg

variable {each : Parse Bool} {b : Bytes} {major limit : Nat}

/-- With anything there, the initial byte at least is taken. -/
theorem readTypeAndValue_less (hb : b ≠ []) : (readTypeAndValue b).2.length < b.length := by
  cases b with
  | nil => exact absurd rfl hb
  | cons c t =>
    have hless : t.length < (c :: t).length := Nat.lt_succ_self _
    unfold readTypeAndValue
    simp only
    split
    · exact hless
    split
    · exact hless
    split
    · exact hless
    split
    · exact hless
    · exact Nat.lt_of_le_of_lt (by simp) hless

theorem readTypeAndValue_shrinks : Shrinks readTypeAndValue := by
  intro b
  by_cases hb : b = []
  · subst hb
    exact Nat.le_refl _
  · exact Nat.le_of_lt (readTypeAndValue_less hb)

theorem readString_some {s : Bytes} (h : (readString major limit b).1 = some s) :
    (readString major limit b).2.length < b.length := by
  cases b with
  | nil => cases h
  | cons c t =>
    have hless := readTypeAndValue_less (List.cons_ne_nil c t)
    unfold readString at h ⊢
    split at h
    next m len rest hread =>
      rw [hread] at hless
      split at h
      next hfit =>
        simp only [if_pos hfit, List.length_drop]
        exact Nat.lt_of_le_of_lt (Nat.sub_le _ _) hless
      next => cases h
    next => cases h

theorem readString_none (h : (readString major limit b).1 = none) : (readString major limit b).2 = b := by
  unfold readString at h ⊢
  split at h
  next m len rest hread =>
    split at h
    next => cases h
    next hfit => rw [if_neg hfit]
  next rest hread => rfl

theorem readTextString_some {s : Str} (h : (readTextString limit b).1 = some s) :
    (readTextString limit b).2.length < b.length := by
  unfold readTextString at h ⊢
  split at h
  next => cases h
  next hl =>
    rw [if_neg hl]
    obtain ⟨t, ht, -⟩ := Option.map_eq_some_iff.mp h
    exact readString_some ht

theorem readTextString_none (h : (readTextString limit b).1 = none) : (readTextString limit b).2 = b := by
  unfold readTextString at h ⊢
  split at h
  next hl => rw [if_pos hl]
  next hl =>
    rw [if_neg hl]
    exact readString_none (Option.map_eq_none_iff.mp h)

/-! skipValue. -/

theorem skipTimes_shrinks (hs : Shrinks each) (n : Nat) : Shrinks (skipTimes each n) := by
  induction n with
  | zero => exact .pure true
  | succ n ih =>
    refine .bind hs fun ok => ?_
    cases ok with
    | true => exact ih
    | false => exact .pure false

theorem skipUntilBreak_shrinks (hs : Shrinks each) (n : Nat) : Shrinks (skipUntilBreak each n) := by
  induction n with
  | zero => exact .pure false
  | succ n ih =>
    intro b
    cases b with
    | nil => exact Nat.le_refl _
    | cons c t =>
      have hround : Shrinks (each >>= fun ok => if ok = true then skipUntilBreak each n else pure false) := by
        refine .bind hs fun ok => ?_
        cases ok with
        | true => exact ih
        | false => exact .pure false
      by_cases hc : c = 0xFF
      · subst hc
        exact Nat.le_succ _
      · have hstep : skipUntilBreak each (n + 1) (c :: t) =
            (each >>= fun ok => if ok = true then skipUntilBreak each n else pure false) (c :: t) := by
          simp only [skipUntilBreak, bind, StateT.bind, get, getThe, MonadStateOf.get, StateT.get, pure, if_neg hc]
        rw [hstep]
        exact hround _

theorem skipArgument_shrinks (hs : Shrinks each) (rounds major value : Nat) :
    Shrinks (skipArgument each rounds major value) := by
  unfold skipArgument
  split
  · exact .pure true
  split
  · split
    · exact skipUntilBreak_shrinks hs _
    · intro b
      by_cases hv : value > b.length
      · simp only [bind, StateT.bind, get, getThe, MonadStateOf.get, StateT.get, pure, if_pos hv]
        exact Nat.le_refl _
      · simp only [bind, StateT.bind, get, getThe, MonadStateOf.get, StateT.get, pure, if_neg hv]
        exact (List.length_drop (i := value) (l := b)).trans_le (Nat.sub_le _ _)
  split
  · split
    · exact skipUntilBreak_shrinks hs _
    split
    · exact .pure false
    · exact skipTimes_shrinks hs _
  split
  · split
    · refine skipUntilBreak_shrinks (.bind hs fun ok => ?_) _
      cases ok with
      | true => exact hs
      | false => exact .pure false
    split
    · exact .pure false
    · exact skipTimes_shrinks hs _
  · exact .pure false

/-- At a level that is still allowed, the initial byte at least is taken. -/
theorem skipLevels_less {levels : Nat} (hs : Shrinks (skipLevels levels)) {c : UInt8} {t : Bytes} :
    (skipLevels (levels + 1) (c :: t)).2.length < (c :: t).length := by
  by_cases hc : c = 0xFF
  · subst hc
    exact Nat.lt_succ_self _
  · have hless := readTypeAndValue_less (List.cons_ne_nil c t)
    rcases hread : readTypeAndValue (c :: t) with ⟨_ | ⟨major, v⟩, left⟩
    · rw [hread] at hless
      rw [skipLevels_noHead hc hread]
      exact hless
    · rw [hread] at hless
      rw [skipLevels_head hc hread]
      exact Nat.lt_of_le_of_lt (skipArgument_shrinks hs _ _ _ left) hless

theorem skipLevels_shrinks (levels : Nat) : Shrinks (skipLevels levels) := by
  induction levels with
  | zero => exact .pure false
  | succ levels ih =>
    intro b
    cases b with
    | nil => exact Nat.le_refl _
    | cons c t => exact Nat.le_of_lt (skipLevels_less ih)

/-- What skipValue skips is not nothing: its loops go on only behind where they were. -/
theorem skipLevels_advances {levels : Nat} (h : (skipLevels levels b).1 = true) :
    (skipLevels levels b).2.length < b.length := by
  cases levels with
  | zero => cases h
  | succ levels =>
    cases b with
    | nil => cases h
    | cons c t => exact skipLevels_less (skipLevels_shrinks levels)

theorem skip_shrinks : Shrinks skip := .bind (skipLevels_shrinks _) fun _ => .pure ()

theorem skip_less (hb : b ≠ []) : (skip b).2.length < b.length := by
  cases b with
  | nil => exact absurd rfl hb
  | cons c t => exact skipLevels_less (skipLevels_shrinks maxCborDepth)

/-! The other reads. -/

theorem readString_shrinks : Shrinks (readString major limit) := by
  intro b
  cases h : (readString major limit b).1 with
  | none => rw [readString_none h]
  | some s => exact Nat.le_of_lt (readString_some h)

theorem readTextString_shrinks : Shrinks (readTextString limit) := by
  intro b
  cases h : (readTextString limit b).1 with
  | none => rw [readTextString_none h]
  | some s => exact Nat.le_of_lt (readTextString_some h)

theorem readTyped_rest : (readTyped major b).2 = (readTypeAndValue b).2 := by
  rcases hread : readTypeAndValue b with ⟨_ | ⟨m, v⟩, rest⟩
  · simp only [readTyped, bind, StateT.bind, hread]
    rfl
  · simp only [readTyped, bind, StateT.bind, hread]
    split <;> rfl

theorem readTyped_shrinks : Shrinks (readTyped major) := by
  intro b
  rw [readTyped_rest]
  exact readTypeAndValue_shrinks b

theorem readTyped_less (hb : b ≠ []) : (readTyped major b).2.length < b.length := by
  rw [readTyped_rest]
  exact readTypeAndValue_less hb

theorem readFlag_shrinks {old : Bool} : Shrinks (readFlag old) := by
  refine .bind readTyped_shrinks fun v => ?_
  cases v with
  | some v => exact .pure _
  | none => exact .bind skip_shrinks fun _ => .pure _

theorem peekMajorType_shrinks : Shrinks peekMajorType := by
  intro b
  cases b with
  | nil => exact Nat.le_refl _
  | cons c t => exact Nat.le_refl _

end GoiKey
