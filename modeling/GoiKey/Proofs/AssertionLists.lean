import GoiKey.Proofs.NextAssertion

/-!
The walk of GetNextAssertion over whole runs: every answer is the one that GetAssertion gives
for the credential alone.
-/

namespace GoiKey

variable {P : Platform} {env : Env} {d : Device} {i : Input} {past : History} {req : GetAssertionRequest}

/-- What GetAssertion answers when it finds this credential alone and has its user verified. -/
def singleReply (P : Platform) (env : Env) (k : Keystore) (signCount : UInt32) (req : GetAssertionRequest)
    (cid : Str) : CborReply :=
  match (resolveCredential P env k req.targetRpId cid).1 with
  | none => .status 0x2E
  | some c => (assertCredential P env c (req.input cid 1) signCount).1

/-- A list that is walked: the request it was set up for, and how far the walk has come. -/
structure AssertionList where
  req : GetAssertionRequest
  creds : List Str
  idx : Nat

def AssertionList.advance (l : AssertionList) : AssertionList :=
  if l.idx < l.creds.length then { l with idx := l.idx + 1 } else l

/-- The device starts over: power lost, or the last PIN guess was wrong. -/
def startsOver (e : Entry) : Bool :=
  decide (e.input.event = .powerCycle) || decide (.pinGuess false ∈ e.output.acts ∧ .wiped ∈ e.output.acts)

/-- A GetNextAssertion that is taken up. -/
def nextRequested (i : Input) : Bool := i.event.code = some 0x08 && i.env.allocates .response

/-- The list that was set up last, and the GetNextAssertions since. -/
def assertionList (P : Platform) : History → Option AssertionList
  | [] => none
  | e :: past =>
    if startsOver e then none
    else
      match assertionRequest e.input with
      | some req =>
        if e.output.acts.any (fun a => a.kind = .listSetUp) then
          some ⟨req, (matchedCredentials P e.input.env e.before.keys req).1, 1⟩
        else assertionList P past
      | none => if nextRequested e.input then (assertionList P past).map AssertionList.advance else assertionList P past

/-- The globals hold that list. -/
def ListKnown (P : Platform) (l : Option AssertionList) (n : NextAssertion) : Prop :=
  match l with
  | none => n.creds = []
  | some l => n.creds = l.creds ∧ n.idx = l.idx ∧ n.rpId = l.req.targetRpId ∧
      ∀ c cid signCount env, assertCredential P env c (n.input cid) signCount =
        assertCredential P env c (l.req.input cid 1) signCount

/-- The answers to the commands of the walk. -/
def AnswersAlone (P : Platform) (past : History) (e : Entry) : Prop :=
  (nextRequested e.input = true → e.output.reply = .cbor (
    match (assertionList P past).bind fun l => (l.creds[l.idx]?).map fun cid => (l.req, cid) with
    | none => .status 0x2C
    | some (req, cid) => singleReply P e.input.env e.before.keys e.before.signCount req cid)) ∧
    ∀ req ∈ assertionRequest e.input, ∀ cid k, req.Complete →
      matchedCredentials P e.input.env e.before.keys req = ([cid], k) →
      (cachedOrWait e.input.env e.before.bio e.before.uv).1.succeeded = true →
      e.output.reply = .cbor (singleReply P e.input.env k e.before.signCount req cid)

/-! The input of an assertion. -/

/-- Without the extension the salts are not looked at. -/
theorem assertCredential_salts {c : StoredCredential} {a : AssertionInput} {n : UInt32} (s1 s2 : Bytes)
    (h : a.extReq = false) :
    assertCredential P env c { a with salt1 := s1, salt2 := s2 } n = assertCredential P env c a n := by
  rcases a with ⟨cid, rpId, clientHash, flags, extReq, salt1, salt2, largeBlobReq, credBlobReq, number⟩
  obtain rfl : extReq = false := h
  rfl

theorem setUpNext_input (old : NextAssertion) (req : GetAssertionRequest) (creds : List Str) (cid : Str)
    (c : StoredCredential) (n : UInt32) :
    assertCredential P env c ((setUpNext old req creds).input cid) n = assertCredential P env c (req.input cid 1) n := by
  cases hext : req.extensionRequested with
  | true =>
    have hsame : (setUpNext old req creds).input cid = req.input cid 1 := by
      simp only [setUpNext, NextAssertion.input, GetAssertionRequest.input, hext]
      rfl
    rw [hsame]
  | false =>
    have hsame : (setUpNext old req creds).input cid =
        { req.input cid 1 with salt1 := old.salt1, salt2 := old.salt2 } := by
      simp only [setUpNext, NextAssertion.input, GetAssertionRequest.input, hext]
      rfl
    rw [hsame]
    exact assertCredential_salts _ _ hext

/-! The commands. -/

theorem getAssertion_single {cid : Str} {k : Keystore} (hreq : req.Complete)
    (hm : matchedCredentials P env d.keys req = ([cid], k)) (hv : (cachedOrWait env d.bio d.uv).1.succeeded = true) :
    (getAssertion P env d req).reply = singleReply P env k d.signCount req cid := by
  have hcomplete : ¬(req.targetRpId = [] ∨ req.clientDataHash.length ≠ 32) := by
    simpa [GetAssertionRequest.Complete] using hreq
  rw [getAssertion, if_neg hcomplete, hm, singleReply]
  simp only
  rcases resolveCredential P env k req.targetRpId cid with ⟨c, k'⟩
  cases c with
  | none => rfl
  | some c =>
    simp only
    rcases hw : cachedOrWait env d.bio d.uv with ⟨r, uv⟩
    rw [hw] at hv
    cases r with
    | cancelled => exact absurd hv (by simp [WaitResult.succeeded])
    | timedOut => exact absurd hv (by simp [WaitResult.succeeded])
    | verified act time => rfl

theorem getAssertion_lists : let r := getAssertion P env d req
    r.next = if r.acts.any (fun a => a.kind = .listSetUp) then setUpNext d.next req (matchedCredentials P env d.keys req).1
      else d.next := by
  refine getAssertion_cases (Q := fun r => r.next =
    if r.acts.any (fun a => a.kind = .listSetUp) then setUpNext d.next req (matchedCredentials P env d.keys req).1
    else d.next) ?_ ?_ ?_
  · intro code k creds _ _
    have hno : (listedActs creds req.targetRpId).any (fun a => a.kind = .listSetUp) = false :=
      Act.any_kind (listedActs_kinds env d.bio creds _) (by simp)
    simp only [hno, Bool.false_eq_true, if_false]
  · intro code k k' cid rest c uv _ _ hm _ _ _
    rw [if_pos (by simp [Act.kind]), hm]
  · intro k k' cid rest c act time uv _ _ _ hm _ _
    rw [if_pos (by simp [Act.kind]), hm]

/-- A GetNextAssertion that finds something goes on by one. -/
theorem getNextAssertion_advances : (getNextAssertion P env d).next =
    if d.next.idx < d.next.creds.length then { d.next with idx := d.next.idx + 1 } else d.next := by
  unfold getNextAssertion
  cases hcid : d.next.creds[d.next.idx]? with
  | none => rw [if_neg (Nat.not_lt_of_ge (List.getElem?_eq_none_iff.mp hcid))]
  | some cid =>
    rw [if_pos (List.getElem?_eq_some_iff.mp hcid).1]
    simp only
    rcases resolveCredential P env d.keys d.next.rpId cid with ⟨c, k⟩
    cases c <;> rfl

theorem getNextAssertion_reply : (getNextAssertion P env d).reply =
    match d.next.creds[d.next.idx]? with
    | none => .status 0x2C
    | some cid =>
      match (resolveCredential P env d.keys d.next.rpId cid).1 with
      | none => .status 0x2E
      | some c => (assertCredential P env c (d.next.input cid) d.signCount).1 := by
  unfold getNextAssertion
  cases d.next.creds[d.next.idx]? with
  | none => rfl
  | some cid =>
    simp only
    rcases resolveCredential P env d.keys d.next.rpId cid with ⟨c, k⟩
    cases c <;> rfl

/-! The other commands. -/

/-- The list goes when the device starts over, and only then. -/
def KeepsList (d d' : Device) (acts : List Act) : Prop :=
  d'.next = if .pinGuess false ∈ acts ∧ .wiped ∈ acts then {} else d.next

theorem KeepsList.same {d' : Device} {acts : List Act} (h : d'.next = d.next)
    (ha : .pinGuess false ∉ acts ∨ .wiped ∉ acts) : KeepsList d d' acts := by
  rw [KeepsList, h, if_neg fun hboth => ha.elim (fun hp => hp hboth.1) fun hw => hw hboth.2]

theorem KeepsList.kinds {d' : Device} {acts : List Act} {b : BioStore} {ks : List ActKind} (h : d'.next = d.next)
    (hk : OfKinds env b ks acts) (hw : .wiped ∉ ks) : KeepsList d d' acts :=
  .same h (.inr fun ha => hw (hk _ ha).1)

theorem checkPin_keepsList {pin : Str} {accepted : Device → SerialResult}
    (ha : ∀ d : Device, (accepted d).acts = [] ∧ (accepted d).dev.next = d.next) :
    KeepsList d (checkPin P env d pin accepted).dev (checkPin P env d pin accepted).acts := by
  refine checkPin_cases (Q := fun r => KeepsList d r.dev r.acts) ?_ ?_ ?_ ?_
  · exact .same rfl (by simp)
  · intro _ _
    obtain ⟨hacts, hnext⟩ := ha { d with pins := resetFailedPinAttempts d.pins }
    exact .same hnext (by simp [hacts])
  · intro stored n _ _ _ _
    exact .same rfl (by simp)
  · intro stored _ _ _
    exact (if_pos (by simp)).symm

theorem replacePin_next (newPin : Str) (d : Device) : (replacePin P env newPin d).dev.next = d.next := by
  unfold replacePin
  split <;> rfl

theorem serialCommand_keepsList {c : SerialCommand} :
    KeepsList d (serialCommand P env d c).dev (serialCommand P env d c).acts := by
  refine serialCommand_cases (Q := fun r => KeepsList d r.dev r.acts) ?_ ?_ ?_ ?_ ?_ ?_ ?_ ?_
  · intro ms v s alg dflt
    exact .same rfl (by simp)
  · intro ms pin p _ _ _
    exact .same rfl (by simp)
  · intro pin _ _
    exact checkPin_keepsList fun _ => ⟨rfl, rfl⟩
  · intro currentPin newPin _ _
    exact checkPin_keepsList fun d => ⟨replacePin_acts newPin d, replacePin_next newPin d⟩
  · intro ms site k _ _
    exact .same rfl (.inl (by simp [deletedOf]))
  · intro ms _
    exact .same rfl (by simp)
  · intro ms id _ _
    exact .same rfl (by simp)
  · intro ms _ _
    exact .same rfl (by simp)

theorem step_keepsList (hg : i.event.code ≠ some 0x02) (hn : i.event.code ≠ some 0x08) (hp : i.event ≠ .powerCycle) :
    KeepsList d (step P d i).2 (step P d i).1.acts := by
  refine step_cases (Q := fun r => KeepsList d r.2 r.1.acts) ?_ ?_ ?_ ?_ ?_ ?_ ?_ ?_ ?_ ?_ ?_ ?_ ?_ ?_
  · intro reply
    exact .same rfl (by simp)
  · intro body he
    exact .kinds rfl makeCredential_kinds (by decide)
  · intro body req he _ _
    exact absurd (by rw [he]; rfl) hg
  · intro body he
    exact absurd (by rw [he]; rfl) hn
  · intro body he
    exact .kinds rfl clientPin_kinds (by decide)
  · intro body he
    refine .same authenticatorReset_next (.inl fun ha => ?_)
    exact absurd (authenticatorReset_kinds _ ha).1 (by decide)
  · intro code body he _
    exact .kinds rfl bioEnrollment_kinds (by decide)
  · intro code body he _
    exact .kinds rfl credentialManagement_kinds (by decide)
  · intro body he
    exact .kinds rfl largeBlobs_kinds (by decide)
  · intro body he
    exact .same rfl (by simp [runConfig])
  · intro data he
    exact .kinds rfl processU2fCommand_kinds (by decide)
  · intro c he
    exact serialCommand_keepsList
  · intro he
    refine .kinds ?_ updateFingerprintAsync_kinds (by decide)
    exact updateFingerprintAsync_cases (Q := fun r => r.dev.next = d.next)
      (fun _ _ _ => rfl) (fun _ _ _ _ _ _ _ _ => rfl)
  · intro he
    exact absurd he hp

/-! The run. -/

theorem assertionList_other (hreq : assertionRequest i = none) (hnext : nextRequested i = false) :
    assertionList P (Trace.entry (step P) d i :: past) =
      if startsOver (Trace.entry (step P) d i) then none else assertionList P past := by
  simp only [assertionList, Trace.entry, hreq, hnext, Bool.false_eq_true, if_false]
  rfl

/-- A command that is taken up. -/
theorem step_taken {code : UInt8} {body : Bytes} (he : i.event = .cbor (code :: body))
    (ha : i.env.allocates .response = true) : step P d i = cborCommand P i.env d code body := by
  simp only [step, he, processCborCommand, ha, if_true]

theorem assertionRequest_taken (h : assertionRequest i = some req) :
    i.event.code = some 0x02 ∧ step P d i = (getAssertion P i.env d req).run d := by
  unfold assertionRequest at h
  split at h
  next body he =>
    split at h
    next ha =>
      refine ⟨by rw [he]; rfl, ?_⟩
      rw [step_taken he ha]
      simp only [cborCommand, runGetAssertion, h]
    · exact absurd h (by simp)
  · exact absurd h (by simp)

theorem nextRequested_taken (h : nextRequested i = true) :
    i.event.code = some 0x08 ∧ step P d i = (getNextAssertion P i.env d).run d := by
  rw [nextRequested, Bool.and_eq_true, decide_eq_true_iff] at h
  refine ⟨h.1, ?_⟩
  cases he : i.event with
  | cbor data =>
    cases data with
    | nil => exact absurd h.1 (by rw [he]; simp [Event.code])
    | cons code body =>
      have hcode : code = 0x08 := by
        have hc := h.1
        rw [he] at hc
        exact Option.some.inj hc
      rw [step_taken he h.2, hcode]
      rfl
  | u2f data => exact absurd h.1 (by rw [he]; simp [Event.code])
  | serial c => exact absurd h.1 (by rw [he]; simp [Event.code])
  | fingerprintTask => exact absurd h.1 (by rw [he]; simp [Event.code])
  | powerCycle => exact absurd h.1 (by rw [he]; simp [Event.code])

/-- A command that never wipes does not start the device over. -/
theorem startsOver_of_kinds {ks : List ActKind} {b : BioStore} (hc : i.event.code ≠ none)
    (hk : OfKinds env b ks (step P d i).1.acts) (hw : .wiped ∉ ks) : startsOver (Trace.entry (step P) d i) = false := by
  have hcycle : i.event ≠ .powerCycle := by
    intro he
    exact hc (by rw [he]; rfl)
  have hwiped : Act.wiped ∉ (step P d i).1.acts := fun ha => hw (hk _ ha).1
  simp [startsOver, Trace.entry, hcycle, hwiped]

/-! The three ways a step goes. -/

theorem step_requests (h : ListKnown P (assertionList P past) d.next) (hreq : assertionRequest i = some req) :
    ListKnown P (assertionList P (Trace.entry (step P) d i :: past)) (step P d i).2.next ∧
      AnswersAlone P past (Trace.entry (step P) d i) := by
  obtain ⟨hcode, hstep⟩ := assertionRequest_taken (P := P) (d := d) hreq
  have hnext : nextRequested i = false := by
    rw [nextRequested, hcode]
    rfl
  have hkinds : OfKinds i.env d.bio (commandKinds 0x02) (step P d i).1.acts := by
    rw [hstep]
    exact getAssertion_kinds
  have hkeeps : startsOver (Trace.entry (step P) d i) = false :=
    startsOver_of_kinds (by rw [hcode]; simp) hkinds (by decide)
  refine ⟨?_, fun he => absurd (hnext.symm.trans he) Bool.false_ne_true, fun req' hreq' cid k hcomplete hm hv => ?_⟩
  · have hlists : (getAssertion P i.env d req).next = _ := getAssertion_lists
    simp only [assertionList, hkeeps, Bool.false_eq_true, if_false]
    simp only [Trace.entry, hreq, hstep]
    change ListKnown P _ (getAssertion P i.env d req).next
    rw [hlists]
    change ListKnown P (if (getAssertion P i.env d req).acts.any _ = true then _ else _) _
    split
    · exact ⟨rfl, rfl, rfl, fun c cid signCount env => setUpNext_input d.next req _ cid c signCount⟩
    · exact h
  · obtain rfl : req = req' := Option.some.inj (hreq.symm.trans hreq')
    change (step P d i).1.reply = _
    rw [hstep]
    exact congrArg Reply.cbor (getAssertion_single hcomplete hm hv)

theorem step_advances (h : ListKnown P (assertionList P past) d.next) (hnext : nextRequested i = true) :
    ListKnown P (assertionList P (Trace.entry (step P) d i :: past)) (step P d i).2.next ∧
      AnswersAlone P past (Trace.entry (step P) d i) := by
  obtain ⟨hcode, hstep⟩ := nextRequested_taken (P := P) (d := d) hnext
  have hreq : assertionRequest i = none := by
    unfold assertionRequest
    split
    next body he =>
      rw [he] at hcode
      exact absurd hcode (by simp [Event.code])
    · rfl
  have hkinds : OfKinds i.env d.bio (commandKinds 0x08) (step P d i).1.acts := by
    rw [hstep]
    exact getNextAssertion_kinds
  have hkeeps : startsOver (Trace.entry (step P) d i) = false :=
    startsOver_of_kinds (by rw [hcode]; simp) hkinds (by decide)
  have hlist : assertionList P (Trace.entry (step P) d i :: past) = (assertionList P past).map AssertionList.advance := by
    simp only [assertionList, hkeeps, Bool.false_eq_true, if_false]
    simp only [Trace.entry, hreq, hnext, if_true]
  have hreply : (Trace.entry (step P) d i).output.reply = .cbor (getNextAssertion P i.env d).reply := by
    change (step P d i).1.reply = _
    rw [hstep]
    rfl
  have hafter : (step P d i).2.next = (getNextAssertion P i.env d).next := by rw [hstep]; rfl
  rw [hlist, hafter]
  refine ⟨?_, fun _ => ?_, fun req' he => absurd (hreq.symm.trans he) (by simp)⟩
  · rw [getNextAssertion_advances]
    cases hl : assertionList P past with
    | none =>
      rw [hl] at h
      have hnil : d.next.creds = [] := h
      rw [if_neg (by rw [hnil]; exact Nat.not_lt_zero _)]
      exact h
    | some l =>
      rw [hl] at h
      obtain ⟨hcreds, hidx, hrp, hinput⟩ := h
      rw [Option.map_some, AssertionList.advance, ← hcreds, ← hidx]
      split
      · exact ⟨rfl, rfl, hrp, hinput⟩
      · exact ⟨hcreds, hidx, hrp, hinput⟩
  · rw [hreply, getNextAssertion_reply]
    cases hl : assertionList P past with
    | none =>
      rw [hl] at h
      have hnil : d.next.creds = [] := h
      rw [hnil]
      rfl
    | some l =>
      rw [hl] at h
      obtain ⟨hcreds, hidx, hrp, hinput⟩ := h
      rw [Option.bind_some, ← hcreds, ← hidx]
      cases d.next.creds[d.next.idx]? with
      | none => rfl
      | some cid =>
        simp only [Option.map_some, singleReply, ← hrp, hinput]
        rfl

theorem step_others (h : ListKnown P (assertionList P past) d.next) (hreq : assertionRequest i = none)
    (hnext : nextRequested i = false) :
    ListKnown P (assertionList P (Trace.entry (step P) d i :: past)) (step P d i).2.next ∧
      AnswersAlone P past (Trace.entry (step P) d i) := by
  refine ⟨?_, fun he => absurd (hnext.symm.trans he) Bool.false_ne_true, fun req he => absurd (hreq.symm.trans he) (by simp)⟩
  rw [assertionList_other hreq hnext]
  have hrefused : ∀ refusal : UInt8, step P d i = (⟨.cbor (.status refusal), []⟩, d) → i.event.code ≠ none →
      ListKnown P (if startsOver (Trace.entry (step P) d i) then none else assertionList P past) (step P d i).2.next := by
    intro refusal hstep hcode
    have hkinds : OfKinds i.env d.bio [] (step P d i).1.acts := by
      rw [hstep]
      exact fun _ ha => absurd ha (by simp)
    have hkeeps : startsOver (Trace.entry (step P) d i) = false := startsOver_of_kinds hcode hkinds (by simp)
    rw [hkeeps, hstep]
    exact h
  by_cases hg : i.event.code = some 0x02
  · obtain ⟨refusal, hstep⟩ | ⟨req, he, -⟩ := step_getAssertion (P := P) (d := d) hg
    · exact hrefused refusal hstep (by rw [hg]; simp)
    · exact absurd (hreq.symm.trans he) (by simp)
  by_cases hn : i.event.code = some 0x08
  · obtain ⟨body, he, ⟨refusal, hstep⟩ | ⟨ha, -⟩⟩ := step_code (P := P) (d := d) hn
    · exact hrefused refusal hstep (by rw [hn]; simp)
    · rw [nextRequested, decide_eq_true hn, ha] at hnext
      exact absurd hnext (by simp)
  by_cases hp : i.event = .powerCycle
  · have hover : startsOver (Trace.entry (step P) d i) = true := by
      simp [startsOver, Trace.entry, hp]
    rw [hover, if_pos rfl]
    change (step P d i).2.next.creds = []
    simp only [step, hp]
    rfl
  · have hkeeps : KeepsList d (step P d i).2 (step P d i).1.acts := step_keepsList hg hn hp
    have hcycle : startsOver (Trace.entry (step P) d i) =
        (decide (i.event = .powerCycle) ||
          decide (.pinGuess false ∈ (step P d i).1.acts ∧ .wiped ∈ (step P d i).1.acts)) := rfl
    rw [hcycle, decide_eq_false hp, Bool.false_or, hkeeps]
    by_cases hboth : Act.pinGuess false ∈ (step P d i).1.acts ∧ Act.wiped ∈ (step P d i).1.acts
    · rw [decide_eq_true hboth, if_pos rfl, if_pos hboth]
      exact rfl
    · rw [decide_eq_false hboth, if_neg Bool.false_ne_true, if_neg hboth]
      exact h

theorem step_list (h : ListKnown P (assertionList P past) d.next) :
    ListKnown P (assertionList P (Trace.entry (step P) d i :: past)) (step P d i).2.next ∧
      AnswersAlone P past (Trace.entry (step P) d i) := by
  cases hreq : assertionRequest i with
  | some req => exact step_requests h hreq
  | none =>
    cases hnext : nextRequested i with
    | true => exact step_advances h hnext
    | false => exact step_others h hreq hnext

theorem initial_list : ListKnown P (assertionList P []) initial.next := rfl

end GoiKey
