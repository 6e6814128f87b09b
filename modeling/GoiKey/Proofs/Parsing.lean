import GoiKey.Lib.Hoare
import GoiKey.Model.Requests

/-! What holds of a request however it was encoded. -/

namespace GoiKey

variable {ρ : Type} {I : ρ → Prop}

theorem loop_returns {body : ρ → Parse ρ} (h : ∀ r, I r → Returns I (body r)) (n : Nat) {r : ρ}
    (hr : I r) : Returns I (loop body n r) := by
  induction n generalizing r with
  | zero => exact .pure hr
  | succ n ih => exact (h r hr).bind fun r hr => ih hr

theorem skipping_returns {r : ρ} (hr : I r) : Returns I (skipping r) :=
  .andThen fun _ => .pure hr

theorem keyedLoop_returns {onEntry : Nat → ρ → Parse ρ}
    (h : ∀ key r, I r → Returns I (onEntry key r)) (n : Nat) {r : ρ} (hr : I r) :
    Returns I (keyedLoop onEntry n r) := by
  refine loop_returns (fun r hr => ?_) n hr
  refine .andThen fun key => ?_
  cases key with
  | some key => exact h key r hr
  | none => exact skipping_returns hr

theorem textLoop_returns {keySize : Nat} {onEntry : Str → ρ → Parse ρ} {noKey : Parse Unit}
    (h : ∀ key r, I r → Returns I (onEntry key r)) (n : Nat) {r : ρ} (hr : I r) :
    Returns I (textLoop keySize onEntry noKey n r) := by
  refine loop_returns (fun r hr => ?_) n hr
  refine .andThen fun key => ?_
  cases key with
  | some key => exact h key r hr
  | none => exact .andThen fun _ => .pure hr

theorem readString_returns (major limit : Nat) :
    Returns (fun t => ∀ b ∈ t, b.length ≤ limit) (readString major limit) := by
  intro b t ht
  unfold readString at ht
  split at ht
  · split at ht
    next hfit =>
      cases ht
      rw [List.length_take]
      omega
    · cases ht
  · cases ht

/-- A C string of a buffer ends at its first NUL and leaves room for one. -/
structure InBuffer (maxLen : Nat) (s : Str) : Prop where
  notMem : (0 : UInt8) ∉ s
  length : s.length < maxLen

theorem inBuffer_nil {maxLen : Nat} (h : 0 < maxLen) : InBuffer maxLen [] := ⟨List.not_mem_nil, h⟩

theorem readTextString_returns (maxLen : Nat) :
    Returns (fun t => ∀ s ∈ t, InBuffer maxLen s) (readTextString maxLen) := by
  intro b s hs
  unfold readTextString at hs
  split at hs
  · cases hs
  next hlen =>
    have hread := readString_returns 3 (maxLen - 1) b
    rcases hr : readString 3 (maxLen - 1) b with ⟨t, rest⟩
    rw [hr] at hread
    simp only [hr] at hs
    obtain ⟨t, rfl, rfl⟩ := Option.map_eq_some_iff.mp hs
    have ht : t.length ≤ maxLen - 1 := hread t rfl
    have hcstr : (cstr t).length ≤ t.length := (List.takeWhile_prefix _).length_le
    exact ⟨notMem_cstr t, by omega⟩

/-! What a MakeCredential request can hold. -/

/-- The fields that end up in a record, in the buffers they are read into. -/
structure Buffered (r : MakeCredentialRequest) : Prop where
  targetRpId : InBuffer 128 r.targetRpId
  userIdRaw : r.userIdRaw.length ≤ 64
  userName : InBuffer 128 r.userName
  requestedCredProtect : 1 ≤ r.requestedCredProtect ∧ r.requestedCredProtect ≤ 3
  credBlobRaw : r.credBlobRaw.length ≤ 32

theorem readCreateExtension_returns (key : Str) {r : MakeCredentialRequest} (hr : Buffered r) :
    Returns Buffered (readCreateExtension key r) := by
  unfold readCreateExtension
  split
  · exact .andThen fun _ => .pure { hr with }
  split
  · refine .andThen fun v => ?_
    split
    · split
      next hv => exact .pure { hr with requestedCredProtect := hv }
      · exact skipping_returns hr
    · exact skipping_returns hr
  split
  · exact .andThen fun _ => .pure { hr with }
  split
  · refine (readString_returns 2 32).bind fun v hv => ?_
    split
    · exact .pure { hr with credBlobRaw := hv _ rfl }
    · exact skipping_returns { hr with credBlobRaw := Nat.zero_le _ }
  · exact skipping_returns hr

theorem readCreateField_returns (defaultCryptoAlg : Int) (key : Nat) {r : MakeCredentialRequest}
    (hr : Buffered r) : Returns Buffered (readCreateField defaultCryptoAlg key r) := by
  unfold readCreateField
  split
  · refine .andThen fun v => ?_
    split
    · exact .pure { hr with }
    · exact .pure hr
  · refine .andThen fun v => ?_
    split
    · refine textLoop_returns (fun sub r hr => ?_) _ hr
      split
      · refine (readTextString_returns 128).bind fun t ht => ?_
        split
        · exact .pure { hr with targetRpId := ht _ rfl }
        · exact .pure hr
      · exact skipping_returns hr
    · exact .pure hr
  · refine .andThen fun v => ?_
    split
    · refine textLoop_returns (fun sub r hr => ?_) _ hr
      split
      · refine (readString_returns 2 64).bind fun b hb => ?_
        split
        · exact .pure { hr with userIdRaw := hb _ rfl }
        · exact .pure hr
      split
      · refine (readTextString_returns 128).bind fun t ht => ?_
        split
        · exact .pure { hr with userName := ht _ rfl }
        · exact .pure hr
      · exact skipping_returns hr
    · exact .pure hr
  · refine .andThen fun v => ?_
    split
    · exact .andThen fun _ => .pure { hr with }
    · exact skipping_returns hr
  · refine .andThen fun v => ?_
    split
    · exact .andThen fun _ => .pure { hr with }
    · exact skipping_returns hr
  · refine .andThen fun v => ?_
    split
    · exact textLoop_returns (fun sub r hr => readCreateExtension_returns sub hr) _ hr
    · exact skipping_returns hr
  · refine .andThen fun v => ?_
    split
    · refine textLoop_returns (fun opt r hr => ?_) _ hr
      split
      · exact .andThen fun _ => .pure { hr with }
      · exact skipping_returns hr
    · exact skipping_returns hr
  · exact skipping_returns hr

theorem parseMakeCredential_buffered (defaultCryptoAlg : Int) (body : Bytes) :
    Buffered (parseMakeCredential defaultCryptoAlg body) := by
  have hnil : InBuffer 128 [] := inBuffer_nil (by decide)
  have hfirst : Buffered { selectedAlgId := defaultCryptoAlg } :=
    ⟨hnil, Nat.zero_le _, hnil, ⟨Nat.le_refl 1, Nat.le_add_left 1 2⟩, Nat.zero_le _⟩
  unfold parseMakeCredential
  refine Returns.andThen (R := Buffered) (fun v => ?_) body
  split
  · exact keyedLoop_returns (fun key r hr => readCreateField_returns _ key hr) _ hfirst
  · exact .pure hfirst

/-! The ids a GetAssertion request can list. -/

def ShortIds (ids : List Bytes) : Prop := ∀ id ∈ ids, id.length ≤ maxCredentialIdLen

theorem readDescriptor_returns (room n : Nat) {ids : List Bytes} (h : ShortIds ids) :
    Returns ShortIds (readDescriptor room n ids) := by
  refine textLoop_returns (fun key ids h => ?_) n h
  split
  · split
    · refine (readString_returns 2 maxCredentialIdLen).bind fun b hb => ?_
      split
      · refine .pure fun id hid => ?_
        rcases List.mem_append.mp hid with hid | hid
        · exact h id hid
        · rw [List.mem_singleton.mp hid]
          exact hb _ rfl
      · exact skipping_returns h
    · exact skipping_returns h
  · exact skipping_returns h

theorem readAssertField_returns (stray key : Nat) {r : GetAssertionRequest}
    (hr : ShortIds r.allowCredentialIds) :
    Returns (fun r => ShortIds r.allowCredentialIds) (readAssertField stray key r) := by
  unfold readAssertField
  split
  · refine .andThen fun t => ?_
    split <;> exact .pure hr
  · refine .andThen fun b => ?_
    split <;> exact .pure hr
  · refine .andThen fun v => ?_
    split
    · refine Returns.bind (Q := ShortIds) ?_ fun ids hids => .pure hids
      refine loop_returns (fun ids h => ?_) _ hr
      refine .andThen fun m => ?_
      split
      · exact readDescriptor_returns _ _ h
      · exact .pure h
    · exact .pure hr
  · refine .andThen fun t => ?_
    split
    · refine .andThen fun n => ?_
      refine textLoop_returns (I := fun r : GetAssertionRequest => ShortIds r.allowCredentialIds)
        (fun ext r hr => ?_) _ hr
      unfold readAssertExtension
      refine .andThen fun t => ?_
      split
      · refine .andThen fun n => ?_
        refine keyedLoop_returns (I := fun r : GetAssertionRequest => ShortIds r.allowCredentialIds)
          (fun key r hr => ?_) _ hr
        unfold readSalts
        split
        · refine .andThen fun b => ?_
          split <;> exact .pure hr
        · refine .andThen fun b => ?_
          split <;> exact .pure hr
        · exact skipping_returns hr
      split
      · exact .andThen fun _ => .pure hr
      split
      · exact .andThen fun _ => .pure hr
      · exact skipping_returns hr
    · exact skipping_returns hr
  · refine .andThen fun v => ?_
    split
    · refine textLoop_returns (I := fun r : GetAssertionRequest => ShortIds r.allowCredentialIds)
        (fun opt r hr => ?_) _ hr
      split
      · exact .andThen fun _ => .pure hr
      · exact skipping_returns hr
    · exact skipping_returns hr
  · exact skipping_returns hr

theorem parseMap_returns {onEntry : Nat → ρ → Parse ρ} {r₀ r : ρ} {body : Bytes}
    (hentry : ∀ key r, I r → Returns I (onEntry key r)) (hr₀ : I r₀)
    (h : parseMap onEntry r₀ body = some r) : I r := by
  unfold parseMap at h
  rw [← Option.mem_def] at h
  refine Returns.andThen (R := fun o : Option ρ => ∀ r ∈ o, I r) (fun v => ?_) body r h
  split
  · refine Returns.bind (keyedLoop_returns hentry _ hr₀) fun r hr => .pure fun q hq => ?_
    cases hq
    exact hr
  · refine .pure fun q hq => ?_
    cases hq

theorem parseGetAssertion_ids {stray : Nat} {body : Bytes} {r : GetAssertionRequest}
    (h : parseGetAssertion stray body = some r) : ShortIds r.allowCredentialIds :=
  parseMap_returns (I := fun r : GetAssertionRequest => ShortIds r.allowCredentialIds)
    (fun key _ hr => readAssertField_returns stray key hr) (fun _ hid => absurd hid List.not_mem_nil) h

end GoiKey
