import GoiKey.Proofs.CredentialActs
import GoiKey.Proofs.Memory

/-! Why a GetAssertion lists a credential, and what its list leaves to GetNextAssertion. -/

namespace GoiKey

variable {P : Platform} {env : Env} {d : Device} {i : Input} {k k' : Keystore} {cid : Str}

/-- A wrapped id of the party, a record of the party named by the request, or any
record of the party when the request names none. -/
inductive Matched (P : Platform) (env : Env) (k : Keystore) (rpId : Str) (ids : List Bytes) :
    Str → Prop where
  | wrapped {id : Bytes} {c : StoredCredential} (mem : id ∈ ids)
    (unwrapped : Unwrapped P env k id rpId c) : Matched P env k rpId ids (toHex id)
  | allowed {id : Bytes} {c : StoredCredential} (mem : id ∈ ids)
    (record : getPasskeyRecord P env k (toHex id) = some c)
    (party : rpFieldMatchesPlainRpId P c.rpId rpId = true) : Matched P env k rpId ids (toHex id)
  | found {r : PasskeyRecord} (mem : r ∈ k.passkeys)
    (party : rpFieldMatchesRpId P r.rp rpId = true) : Matched P env k rpId ids r.cid

theorem Unwrapped.ensured {id : Bytes} {rpId : Str} {c : StoredCredential} (h : Ensured env k k')
    (hu : Unwrapped P env k' id rpId c) : Unwrapped P env k id rpId c := by
  obtain ⟨hlong, htag, hopen⟩ := hu
  rw [getStatelessMasterSecret_ensured h] at htag hopen
  exact ⟨hlong, htag, hopen⟩

theorem matchAllowed_matched {rpId : Str} {ids : List Bytes}
    (h : cid ∈ (matchAllowed P env rpId ids k').1) (hens : Ensured env k k') :
    Matched P env k rpId ids cid := by
  induction ids generalizing k' with
  | nil => cases h
  | cons id ids ih =>
    have hu := unwrapStatelessCredential_ensured P env k' id rpId
    have later : cid ∈ (matchAllowed P env rpId ids
        (unwrapStatelessCredential P env k' id rpId).2).1 → Matched P env k rpId (id :: ids) cid := by
      intro hm
      cases ih hm (hens.trans hu) with
      | wrapped mem unwrapped => exact .wrapped (List.mem_cons_of_mem _ mem) unwrapped
      | allowed mem record party => exact .allowed (List.mem_cons_of_mem _ mem) record party
      | found mem party => exact .found mem party
    simp only [matchAllowed] at h
    split at h
    next hfound =>
      rcases List.mem_cons.mp h with rfl | h
      · rw [Bool.or_eq_true] at hfound
        rcases hfound with hw | hr
        · obtain ⟨c, hc⟩ := Option.isSome_iff_exists.mp hw
          exact .wrapped List.mem_cons_self ((unwrapStatelessCredential_some hc).ensured hens)
        · cases hc : getPasskeyRecord P env (unwrapStatelessCredential P env k' id rpId).2
              (toHex id) with
          | none =>
            rw [hc] at hr
            cases hr
          | some c =>
            rw [hc, Option.any_some] at hr
            rw [getPasskeyRecord_ensured (hens.trans hu)] at hc
            exact .allowed List.mem_cons_self hc hr
      · exact later h
    · exact later h

theorem matchedCredentials_matched {req : GetAssertionRequest}
    (h : cid ∈ (matchedCredentials P env k req).1) :
    Matched P env k req.targetRpId req.allowCredentialIds cid := by
  unfold matchedCredentials at h
  split at h
  · obtain ⟨r, hr, rfl⟩ := List.mem_map.mp h
    obtain ⟨hmem, hp⟩ := List.mem_filter.mp hr
    unfold readPasskeys at hmem
    split at hmem
    · exact .found hmem (Bool.and_eq_true_iff.mp hp).2
    · cases hmem
  · exact matchAllowed_matched h .refl

/-! One step. -/

theorem getAssertion_listed {req : GetAssertionRequest} {rp : RelyingParty}
    (h : .listed cid rp ∈ (getAssertion P env d req).acts) :
    rp = .rpId req.targetRpId ∧ Matched P env d.keys req.targetRpId req.allowCredentialIds cid := by
  have listed : ∀ creds, (∀ cid ∈ creds, cid ∈ (matchedCredentials P env d.keys req).1) →
      .listed cid rp ∈ listedActs creds req.targetRpId →
      rp = .rpId req.targetRpId ∧ Matched P env d.keys req.targetRpId req.allowCredentialIds cid := by
    intro creds hs hm
    obtain ⟨c, hc, he⟩ := List.mem_map.mp hm
    cases he
    exact ⟨rfl, matchedCredentials_matched (hs _ hc)⟩
  refine getAssertion_cases (Q := fun r => .listed cid rp ∈ r.acts → rp = .rpId req.targetRpId ∧
    Matched P env d.keys req.targetRpId req.allowCredentialIds cid) ?_ ?_ ?_ h
  · intro code k creds _ hs hm
    exact listed creds hs hm
  · intro code k k' cid' rest c uv _ _ hmatched _ _ _ hm
    rcases List.mem_append.mp hm with hm | hm
    · exact listed _ (by rw [hmatched]; simp) hm
    · simp at hm
  · intro k k' cid' rest c act time uv _ _ _ hmatched _ hw hm
    rcases List.mem_append.mp hm with hm | hm
    · rcases List.mem_append.mp hm with hm | hm
      · exact listed _ (by rw [hmatched]; simp) hm
      · simp at hm
    · have hk := (cachedOrWait_waited env d.bio d.uv).kinds
      rw [hw] at hk
      rcases List.mem_cons.mp hm with rfl | hm
      · simpa [Act.kind, fingerKinds] using (ofKinds_cons.mp hk).1.1
      · rcases assertCredential_acts hm with hm | ⟨msg, sig, hm, -⟩ <;> cases hm

/-- The list GetNextAssertion goes on with is one a GetAssertion found for its party. -/
theorem step_creds (P : Platform) (d : Device) (i : Input) (hm : cid ∈ (step P d i).2.next.creds) :
    (cid ∈ d.next.creds ∧ (step P d i).2.next.rpId = d.next.rpId) ∨
      ∃ req ∈ assertionRequest i, (step P d i).2.next.rpId = req.targetRpId ∧
        Matched P i.env d.keys req.targetRpId req.allowCredentialIds cid := by
  by_cases hg : i.event.code = some 0x02
  · rcases step_getAssertion (P := P) (d := d) hg with ⟨reply, hs⟩ | ⟨req, hreq, hs⟩ <;> rw [hs] at hm ⊢
    · exact .inl ⟨hm, rfl⟩
    · refine (?_ : _ ∨ _).imp id fun h => ⟨req, hreq, h⟩
      refine getAssertion_cases (Q := fun r => cid ∈ r.next.creds →
        (cid ∈ d.next.creds ∧ r.next.rpId = d.next.rpId) ∨ (r.next.rpId = req.targetRpId ∧
          Matched P i.env d.keys req.targetRpId req.allowCredentialIds cid)) ?_ ?_ ?_ hm
      · intro code k creds _ _ hm
        exact .inl ⟨hm, rfl⟩
      · intro code k k' cid' rest c uv _ _ hmatched _ _ _ hm
        exact .inr ⟨rfl, matchedCredentials_matched (by rw [hmatched]; exact hm)⟩
      · intro k k' cid' rest c act time uv _ _ _ hmatched _ _ hm
        exact .inr ⟨rfl, matchedCredentials_matched (by rw [hmatched]; exact hm)⟩
  · by_cases hn : i.event.code = some 0x08
    · rcases step_getNextAssertion (P := P) (d := d) hn with ⟨reply, hs⟩ | hs <;> rw [hs] at hm ⊢
      · exact .inl ⟨hm, rfl⟩
      · refine .inl (getNextAssertion_cases (Q := fun r => cid ∈ r.next.creds →
          cid ∈ d.next.creds ∧ r.next.rpId = d.next.rpId) ?_ ?_ ?_ hm)
        · intro hm
          exact ⟨hm, rfl⟩
        · intro k _ _ hm
          exact ⟨hm, rfl⟩
        · intro k cid' c _ _ _ hm
          exact ⟨hm, rfl⟩
    · rcases step_next (P := P) (d := d) hg hn with he | he <;> rw [he] at hm ⊢
      · exact .inl ⟨hm, rfl⟩
      · cases hm

end GoiKey
