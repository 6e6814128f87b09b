import GoiKey.Model.Bench
import GoiKey.Proofs.Memory

/-!
GetNextAssertion and the verification it relies on. GetAssertion writes its list
before it looks for a finger, and nothing takes the list back when none comes.
-/

namespace GoiKey

variable {P : Platform} {env : Env} {d : Device} {i : Input} {past : History}

/-- The verdict on the latest GetAssertion that set up a list. -/
def setUpVerdict (V : History → Entry → Bool) : History → Option Bool :=
  Trace.latest fun past e =>
    if e.output.acts.any (fun a => a.kind = .listSetUp) then some (V past e) else none

/-- Its verification was successful. -/
def setUpVerified : History → Option Bool :=
  setUpVerdict fun _ e => e.output.acts.any Act.verifies

/-- What GetNextAssertion signs continues a list whose GetAssertion had the user
verified. -/
def ContinuesVerified (past : History) (e : Entry) : Prop :=
  e.input.event.code = some 0x08 → e.output.acts.any (fun a => a.kind = .signed) = true →
    setUpVerified past = some true

instance (past : History) (e : Entry) : Decidable (ContinuesVerified past e) :=
  inferInstanceAs (Decidable (_ → _ → _))

/-- The request finds several credentials, and the first of them opens. -/
def FindsSeveral (P : Platform) (env : Env) (d : Device) (req : GetAssertionRequest) : Prop :=
  let found := matchedCredentials P env d.keys req
  req.Complete ∧ 1 < found.1.length ∧
    (found.1.head?.any fun cid =>
      (resolveCredential P env found.2 req.targetRpId cid).1.isSome) = true

instance (req : GetAssertionRequest) : Decidable (FindsSeveral P env d req) :=
  inferInstanceAs (Decidable (_ ∧ _ ∧ _))

def WaitResult.succeeded : WaitResult → Bool
  | .verified .. => true
  | _ => false

/-- No list of several credentials is set up by a GetAssertion whose wait for the
user fails. -/
def ListsVerified (P : Platform) (_ : History) (d : Device) (i : Input) : Prop :=
  ∀ req ∈ assertionRequest i, FindsSeveral P i.env d req →
    (cachedOrWait i.env d.bio d.uv).1.succeeded = true

instance (past : History) (d : Device) (i : Input) : Decidable (ListsVerified P past d i) :=
  inferInstanceAs (Decidable (∀ req ∈ assertionRequest i, _ → _))

/-- An unfinished list is one the verdict is for. -/
def UnfinishedFor (V : History → Entry → Bool) (past : History) (d : Device) : Prop :=
  d.next.idx < d.next.creds.length → setUpVerdict V past = some true

variable {V : History → Entry → Bool}

theorem setUpVerdict_cons (e : Entry) (past : History) :
    setUpVerdict V (e :: past) =
      if e.output.acts.any (fun a => a.kind = .listSetUp) then some (V past e)
      else setUpVerdict V past := by
  simp only [setUpVerdict, Trace.latest]
  split <;> simp

theorem Act.any_kind {ks : List ActKind} {acts : List Act} {k : ActKind}
    {b : BioStore} (h : OfKinds env b ks acts) (hk : k ∉ ks) : acts.any (fun a => a.kind = k) = false := by
  rw [List.any_eq_false]
  intro a ha hak
  exact hk (of_decide_eq_true hak ▸ (h a ha).1)

/-- Only GetAssertion sets a list up. -/
theorem listSetUp_code (h : .listSetUp ∈ i.event.kinds) : i.event.code = some 0x02 := by
  refine Event.kinds_cases ?_ ?_ ?_ ?_ h
  · intro code hc hk
    unfold commandKinds at hk
    split at hk <;> simp [fingerKinds] at hk
    exact hc
  · intro data _ hk
    simp [u2fKinds, fingerKinds] at hk
  · intro c _ hk
    simp [serialKinds] at hk
  · intro _ hk
    cases hk

theorem setUpVerdict_step (hc : i.event.code ≠ some 0x02) :
    setUpVerdict V (Trace.entry (step P) d i :: past) = setUpVerdict V past := by
  have hnone := Act.any_kind (step_kinds P d i) (mt listSetUp_code hc)
  rw [setUpVerdict_cons]
  exact if_neg (by rw [Trace.entry, hnone]; simp)

theorem getNextAssertion_next :
    (getNextAssertion P env d).next.idx < (getNextAssertion P env d).next.creds.length →
      d.next.idx < d.next.creds.length := by
  refine getNextAssertion_cases
    (Q := fun r => r.next.idx < r.next.creds.length → d.next.idx < d.next.creds.length) ?_ ?_ ?_
  · exact id
  · intro k _ h _
    exact h
  · intro k cid c _ _ _ h
    exact Nat.lt_of_succ_lt h

/-- GetAssertion leaves the list alone, or sets one up that it has verified or
that has nothing left to go on with. -/
theorem getAssertion_setUp {req : GetAssertionRequest}
    (hv : FindsSeveral P env d req → (cachedOrWait env d.bio d.uv).1.succeeded = true) :
    let r := getAssertion P env d req
    (r.next = d.next ∧ r.acts.any (fun a => a.kind = .listSetUp) = false) ∨
      (r.acts.any (fun a => a.kind = .listSetUp) = true ∧
        (r.acts.any Act.verifies = true ∨ r.next.creds.length ≤ r.next.idx)) := by
  refine getAssertion_cases (Q := fun r =>
    (r.next = d.next ∧ r.acts.any (fun a => a.kind = .listSetUp) = false) ∨
      (r.acts.any (fun a => a.kind = .listSetUp) = true ∧
        (r.acts.any Act.verifies = true ∨ r.next.creds.length ≤ r.next.idx))) ?_ ?_ ?_
  · intro code k creds _ _
    exact .inl ⟨rfl, Act.any_kind (listedActs_kinds env d.bio creds _) (by simp)⟩
  · intro code k k' cid rest c uv hreq _ hm hr hacts _
    refine .inr ⟨by simp [Act.kind], .inr ?_⟩
    cases rest with
    | nil => simp [setUpNext]
    | cons cid' rest =>
      have hs := hv ⟨hreq, by rw [hm]; simp, by rw [hm]; simp [hr]⟩
      cases hw : (cachedOrWait env d.bio d.uv).1 <;>
        simp [hw, WaitResult.succeeded, WaitResult.acts] at hs hacts
  · intro k k' cid rest c act time uv _ _ _ _ _ hw
    have hverifies : act.verifies = true := by
      have hwaited := cachedOrWait_waited env d.bio d.uv
      rw [hw] at hwaited
      exact hwaited.verifies
    exact .inr ⟨by simp [Act.kind], .inl (by simp [hverifies])⟩

/-- A verdict that is for every verified GetAssertion stays for the unfinished list. -/
theorem unfinishedFor_step (h : UnfinishedFor V past d) (hg : ListsVerified P past d i)
    (hv : i.event.code = some 0x02 → (step P d i).1.acts.any Act.verifies = true →
      V past (Trace.entry (step P) d i) = true) :
    UnfinishedFor V (Trace.entry (step P) d i :: past) (step P d i).2 := by
  intro hlt
  by_cases hc : i.event.code = some 0x02
  · rcases step_getAssertion (P := P) (d := d) hc with ⟨reply, hs⟩ | ⟨req, hreq, hs⟩
    · rw [setUpVerdict_cons, Trace.entry, hs]
      rw [hs] at hlt
      exact h hlt
    · have hacts : (step P d i).1.acts = (getAssertion P i.env d req).acts := by rw [hs]; rfl
      have hnext : (step P d i).2.next = (getAssertion P i.env d req).next := by rw [hs]; rfl
      rcases getAssertion_setUp (hg req hreq) with ⟨hsame, hno⟩ | ⟨hyes, hver | hle⟩
      · rw [setUpVerdict_cons, if_neg (by simp [Trace.entry, hacts, hno])]
        rw [hnext, hsame] at hlt
        exact h hlt
      · rw [setUpVerdict_cons, if_pos (by rw [Trace.entry, hacts]; exact hyes)]
        exact congrArg some (hv hc (by rw [hacts]; exact hver))
      · rw [hnext] at hlt
        exact absurd hlt (Nat.not_lt.mpr hle)
  · rw [setUpVerdict_step hc]
    by_cases hn : i.event.code = some 0x08
    · rcases step_getNextAssertion (P := P) (d := d) hn with ⟨reply, hs⟩ | hs <;> rw [hs] at hlt
      · exact h hlt
      · exact h (getNextAssertion_next hlt)
    · rcases step_next (P := P) (d := d) hc hn with he | he <;> rw [he] at hlt
      · exact h hlt
      · exact absurd hlt (by decide)

/-- GetNextAssertion only does anything for an unfinished list. -/
theorem getNextAssertion_unfinished {a : Act} (ha : a ∈ (getNextAssertion P env d).acts) :
    d.next.idx < d.next.creds.length := by
  refine getNextAssertion_cases (Q := fun r => a ∈ r.acts → d.next.idx < d.next.creds.length)
    ?_ ?_ ?_ ha
  · intro h
    cases h
  · intro k _ h _
    exact h
  · intro k cid c _ h _ _
    exact (List.getElem?_eq_some_iff.mp h).1

theorem setUpVerdict_of_act (h : UnfinishedFor V past d) (hc : i.event.code = some 0x08) {a : Act}
    (ha : a ∈ (step P d i).1.acts) : setUpVerdict V past = some true := by
  rcases step_getNextAssertion (P := P) (d := d) hc with ⟨reply, hs⟩ | hs <;> rw [hs] at ha
  · cases ha
  · exact h (getNextAssertion_unfinished ha)

/-- In a run whose GetAssertions all had their user verified when they left a
list to go on with, GetNextAssertion signs on the strength of a verification. -/
theorem getNextAssertion_continues_verified (P : Platform) (inputs : List Input)
    (hg : Trace.Guarded (step P) (ListsVerified P) initial inputs) :
    Trace.Always ContinuesVerified (run P inputs) := by
  refine Trace.always (I := UnfinishedFor fun _ e => e.output.acts.any Act.verifies) ?_ ?_ ?_ hg
  · intro past d i h hg
    exact unfinishedFor_step h hg fun _ hv => hv
  · intro past d i h _ hc hsigned
    obtain ⟨a, ha, -⟩ := List.any_eq_true.mp hsigned
    exact setUpVerdict_of_act h hc ha
  · intro h
    exact absurd h (by decide)

section Bench

open Bench

/-- Two credentials of one party, and the list of both set up with this finger. -/
def twoThenList (finger : Env) : List Input :=
  [⟨create site 1 true (-7), touchedEnv 1 60000 90⟩, ⟨create site 2 true (-7), touchedEnv 2 60000 90⟩,
    ⟨assertion site [], finger⟩, ⟨nextAssertion, idleEnv 4 60000⟩]

theorem getNextAssertion_continues_verified_bench :
    Trace.Always ContinuesVerified (run platform (twoThenList (touchedEnv 3 60000 90))) :=
  getNextAssertion_continues_verified platform _ (by decide +kernel)

/-- The second credential signs although the GetAssertion was cancelled. -/
theorem cancelled_getAssertion_continued :
    ¬ Trace.Always ContinuesVerified (run platform (twoThenList (cancelledEnv 3 60000))) := by
  decide +kernel

end Bench

end GoiKey
