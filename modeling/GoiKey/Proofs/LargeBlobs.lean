import GoiKey.Proofs.Memory

/-! The large-blob array over whole runs: what a client knows that counts the fragments it had acknowledged. -/

namespace GoiKey

variable {P : Platform} {env : Env} {d : Device} {i : Input} {b : LargeBlob}

/-- The request of a large-blob command. -/
def Event.largeBlobs : Event → Option LargeBlobsRequest
  | .cbor (0x0C :: body) => parseLargeBlobs body
  | _ => none

theorem Event.largeBlobs_none {e : Event} (h : e.code ≠ some 0x0C) : e.largeBlobs = none := by
  unfold Event.largeBlobs
  split
  · exact absurd rfl h
  · rfl

/-- Its fragment, when it sets one. -/
def LargeBlobsRequest.fragment (req : LargeBlobsRequest) : Option Bytes :=
  if req.get.isSome then none else req.set

/-- The array stored last, and the one being written. -/
structure BlobView where
  array : Option Bytes := none
  writing : Option BlobWrite := none

/-- The array with a fragment behind it. -/
def BlobView.grown (v : BlobView) (req : LargeBlobsRequest) (fragment : Bytes) : BlobWrite :=
  if req.fragmentOffset = 0 then ⟨req.length.getD 0, fragment⟩
  else
    let w := v.writing.getD ⟨0, []⟩
    { w with received := w.received ++ fragment }

/-- A fragment was acknowledged: with the last one the array is stored. -/
def BlobView.append (v : BlobView) (req : LargeBlobsRequest) (fragment : Bytes) : BlobView :=
  let w := v.grown req fragment
  if w.received.length < w.expectedTotalLen then { v with writing := some w } else { array := some w.received }

/-- The fragment that was acknowledged. -/
def Acknowledged (e : Entry) (req : LargeBlobsRequest) (fragment : Bytes) : Prop :=
  e.input.event.largeBlobs = some req ∧ req.fragment = some fragment ∧ e.output.reply = .cbor (.items [.map 0])

def BlobView.next (v : BlobView) (e : Entry) : BlobView :=
  if .wiped ∈ e.output.acts then { v with array := none }
  else
    match e.input.event.largeBlobs with
    | none => v
    | some req =>
      match req.fragment with
      | none => v
      | some fragment => if e.output.reply = .cbor (.items [.map 0]) then v.append req fragment else v

def blobView : History → BlobView
  | [] => {}
  | e :: past => (blobView past).next e

/-- An array as the device stores it. -/
structure IntactArray (P : Platform) (array : Bytes) : Prop where
  long : 17 ≤ array.length
  short : array.length ≤ maxLargeBlobArray
  hash : array.drop (array.length - 16) = (P.sha256 (array.take (array.length - 16))).take 16

/-- The device agrees with the client. -/
structure KnownArray (P : Platform) (v : BlobView) (b : LargeBlob) : Prop where
  stored : b.stored = v.array
  writing : ∀ w, b.writing = some w → v.writing = some w
  short : ∀ w, b.writing = some w → w.received.length < w.expectedTotalLen ∧ w.expectedTotalLen ≤ maxLargeBlobArray
  sound : ∀ a, v.array = some a → IntactArray P a

/-- What a fragment does that is taken. -/
theorem largeBlobsAppend_cases {offset : Nat} {fragment : Bytes} {Q : CborReply × LargeBlob → Prop}
    (refused : ∀ code, Q (.status code, { b with writing := none }))
    (grown : ∀ w, b.writing = some w → offset = w.received.length → offset + fragment.length < w.expectedTotalLen →
      Q (.items [.map 0], { b with writing := some { w with received := w.received ++ fragment } }))
    (saved : ∀ w, b.writing = some w → offset = w.received.length → offset + fragment.length = w.expectedTotalLen →
      largeBlobIntact P (w.received ++ fragment) = true →
      Q (.items [.map 0], { stored := some (w.received ++ fragment), writing := none })) :
    Q (largeBlobsAppend P env b offset fragment) := by
  unfold largeBlobsAppend
  cases hw : b.writing with
  | none =>
    have hb : b = { b with writing := none } := by rw [← hw]
    have hq := refused 0x0A
    rwa [← hb] at hq
  | some w =>
    simp only
    split
    · exact refused _
    next hin =>
      obtain ⟨hoff, hle⟩ := not_or.mp hin
      have hoff : offset = w.received.length := not_not.mp hoff
      split
      next hlt => exact grown w hw hoff (by rw [List.length_append] at hlt; omega)
      next hge =>
        split
        · exact refused _
        next hintact =>
          split
          · refine saved w hw hoff ?_ (Bool.eq_true_of_not_eq_false fun h => hintact (by rw [h]; rfl))
            rw [List.length_append] at hge
            omega
          · exact refused _

/-! The other commands. -/

/-- What is stored goes when the device is wiped, and only then. -/
def Wipes (d d' : Device) (acts : List Act) : Prop := d'.blob.stored = if .wiped ∈ acts then none else d.blob.stored

theorem Wipes.kept {d' : Device} {acts : List Act} {b : BioStore} {ks : List ActKind} (h : d'.blob.stored = d.blob.stored)
    (hk : OfKinds env b ks acts) (hw : .wiped ∉ ks) : Wipes d d' acts := by
  have hacts : Act.wiped ∉ acts := fun ha => hw (hk _ ha).1
  rw [Wipes, if_neg hacts, h]

theorem Wipes.quiet {d' : Device} (h : d'.blob.stored = d.blob.stored) : Wipes d d' [] := h

theorem authenticatorReset_wipes :
    Wipes d (authenticatorReset env d).2 (authenticatorReset env d).1.acts := by
  unfold authenticatorReset
  rcases waitForFinger env d.bio env.polls d.uv with ⟨r, uv⟩
  cases r with
  | cancelled => exact .quiet rfl
  | timedOut => exact .quiet rfl
  | verified act time =>
    have hin : Act.wiped ∈ [act, Act.wiped] := List.mem_cons_of_mem _ List.mem_cons_self
    exact (if_pos hin).symm

theorem checkPin_wipes {pin : Str} {accepted : Device → SerialResult}
    (ha : ∀ d : Device, (accepted d).acts = [] ∧ (accepted d).dev.blob = d.blob) :
    Wipes d (checkPin P env d pin accepted).dev (checkPin P env d pin accepted).acts := by
  refine checkPin_cases (Q := fun r => Wipes d r.dev r.acts) ?_ ?_ ?_ ?_
  · exact .quiet rfl
  · intro _ _
    obtain ⟨hacts, hblob⟩ := ha { d with pins := resetFailedPinAttempts d.pins }
    rw [Wipes, hacts, hblob, if_neg (by simp)]
  · intro stored n _ _ _ _
    rw [Wipes, if_neg (by simp)]
  · intro stored _ _ _
    exact (if_pos (List.mem_cons_of_mem _ List.mem_cons_self)).symm

theorem replacePin_blob (newPin : Str) (d : Device) : (replacePin P env newPin d).dev.blob = d.blob := by
  unfold replacePin
  split <;> rfl

theorem serialCommand_wipes {c : SerialCommand} :
    Wipes d (serialCommand P env d c).dev (serialCommand P env d c).acts := by
  refine serialCommand_cases (Q := fun r => Wipes d r.dev r.acts) ?_ ?_ ?_ ?_ ?_ ?_ ?_ ?_
  · intro ms v s alg dflt
    exact .quiet rfl
  · intro ms pin p _ _ _
    exact .quiet rfl
  · intro pin _ _
    exact checkPin_wipes fun _ => ⟨rfl, rfl⟩
  · intro currentPin newPin _ _
    exact checkPin_wipes fun d => ⟨replacePin_acts newPin d, replacePin_blob newPin d⟩
  · intro ms site k _ _
    refine (if_neg fun ha => ?_).symm
    obtain ⟨r, -, hr⟩ := List.mem_map.mp ha
    exact absurd hr (by simp)
  · intro ms _
    exact .quiet rfl
  · intro ms id _ _
    exact .quiet rfl
  · intro ms _ _
    exact (if_pos List.mem_cons_self).symm

theorem step_wipes (hl : i.event.code ≠ some 0x0C) : Wipes d (step P d i).2 (step P d i).1.acts := by
  refine step_cases (Q := fun r => Wipes d r.2 r.1.acts) ?_ ?_ ?_ ?_ ?_ ?_ ?_ ?_ ?_ ?_ ?_ ?_ ?_ ?_
  · intro reply
    exact .quiet rfl
  · intro body he
    exact .kept rfl makeCredential_kinds (by decide)
  · intro body req he _ _
    exact .kept rfl getAssertion_kinds (by decide)
  · intro body he
    exact .kept rfl getNextAssertion_kinds (by decide)
  · intro body he
    exact .kept rfl clientPin_kinds (by decide)
  · intro body he
    exact authenticatorReset_wipes
  · intro code body he _
    exact .kept rfl bioEnrollment_kinds (by decide)
  · intro code body he _
    exact .kept rfl credentialManagement_kinds (by decide)
  · intro body he
    exact absurd (by rw [he]; rfl) hl
  · intro body he
    exact .quiet rfl
  · intro data he
    exact .kept rfl processU2fCommand_kinds (by decide)
  · intro c he
    exact serialCommand_wipes
  · intro he
    refine .kept ?_ updateFingerprintAsync_kinds (by decide)
    exact updateFingerprintAsync_cases (Q := fun r => r.dev.blob.stored = d.blob.stored)
      (fun _ _ _ => rfl) (fun _ _ _ _ _ _ _ _ => rfl)
  · intro he
    exact .quiet rfl

theorem KnownArray.other {v : BlobView} (h : KnownArray P v d.blob) (hl : i.event.code ≠ some 0x0C) :
    KnownArray P (v.next (Trace.entry (step P) d i)) (step P d i).2.blob := by
  have hnone := Event.largeBlobs_none hl
  have hnext : v.next (Trace.entry (step P) d i) =
      if .wiped ∈ (step P d i).1.acts then { v with array := none } else v := by
    simp only [BlobView.next, Trace.entry, hnone]
  have hstored : (step P d i).2.blob.stored = if .wiped ∈ (step P d i).1.acts then none else d.blob.stored := step_wipes hl
  have hwriting : ∀ w, (step P d i).2.blob.writing = some w → d.blob.writing = some w := by
    intro w hw
    obtain he | he := step_writing (P := P) (d := d) hl
    · rw [← he]
      exact hw
    · rw [he] at hw
      exact absurd hw (by simp)
  rw [hnext]
  split
  next hwiped =>
    rw [if_pos hwiped] at hstored
    exact ⟨hstored, fun w hw => h.writing w (hwriting w hw), fun w hw => h.short w (hwriting w hw),
      fun a ha => absurd ha (by simp)⟩
  next hwiped =>
    rw [if_neg hwiped] at hstored
    exact ⟨hstored.trans h.stored, fun w hw => h.writing w (hwriting w hw), fun w hw => h.short w (hwriting w hw),
      h.sound⟩

/-! A fragment. -/

theorem intactArray_of {a : Bytes} (h : largeBlobIntact P a = true) (hle : a.length ≤ maxLargeBlobArray) :
    IntactArray P a := by
  rw [largeBlobIntact, Bool.and_eq_true, decide_eq_true_iff, beq_iff_eq] at h
  exact ⟨h.1, hle, h.2.symm⟩

/-- The fragment stands at its offset. -/
def InOrder (v : BlobView) (req : LargeBlobsRequest) (fragment : Bytes) : Prop :=
  let w := v.grown req fragment
  w.received.length = req.fragmentOffset + fragment.length ∧ w.received.length ≤ w.expectedTotalLen ∧
    w.expectedTotalLen ≤ maxLargeBlobArray

theorem append_known (P : Platform) (env : Env) {v : BlobView} {req : LargeBlobsRequest} {fragment : Bytes}
    (hstored : b.stored = v.array)
    (hsound : ∀ a, v.array = some a → IntactArray P a)
    (hw : ∀ w, b.writing = some w → w.expectedTotalLen ≤ maxLargeBlobArray ∧
      v.grown req fragment = { w with received := w.received ++ fragment }) :
    let r := largeBlobsAppend P env b req.fragmentOffset fragment
    (if r.1 = .items [.map 0] then KnownArray P (v.append req fragment) r.2 ∧ InOrder v req fragment
      else KnownArray P v r.2) := by
  refine largeBlobsAppend_cases (Q := fun r =>
    if r.1 = .items [.map 0] then KnownArray P (v.append req fragment) r.2 ∧ InOrder v req fragment
    else KnownArray P v r.2) ?_ ?_ ?_
  · intro code
    rw [if_neg (by simp)]
    exact ⟨hstored, fun w h => absurd h (by simp), fun w h => absurd h (by simp), hsound⟩
  · intro w hwriting hoff hlt
    obtain ⟨hmax, hgrown⟩ := hw w hwriting
    have hlen : (w.received ++ fragment).length = req.fragmentOffset + fragment.length := by rw [List.length_append, hoff]
    rw [if_pos rfl, BlobView.append, InOrder, hgrown]
    simp only [hlen]
    rw [if_pos hlt]
    refine ⟨⟨hstored, fun u hu => ?_, fun u hu => ?_, hsound⟩, trivial, Nat.le_of_lt hlt, hmax⟩
    · obtain rfl := Option.some.inj hu
      rfl
    · obtain rfl := Option.some.inj hu
      exact ⟨by rw [hlen]; exact hlt, hmax⟩
  · intro w hwriting hoff hend hintact
    obtain ⟨hmax, hgrown⟩ := hw w hwriting
    have hlen : (w.received ++ fragment).length = req.fragmentOffset + fragment.length := by rw [List.length_append, hoff]
    rw [if_pos rfl, BlobView.append, InOrder, hgrown]
    simp only [hlen]
    rw [if_neg (by omega)]
    refine ⟨⟨rfl, fun u hu => absurd hu (by simp), fun u hu => absurd hu (by simp), fun a ha => ?_⟩, trivial,
      Nat.le_of_eq hend, hmax⟩
    obtain rfl := Option.some.inj ha
    exact intactArray_of hintact (by omega)

/-- The answer to a read, where the array can be read. -/
def ReadsArray (v : BlobView) (env : Env) (req : LargeBlobsRequest) (reply : Reply) : Prop :=
  ∀ count, req.get = some count → 0 < count → count ≤ maxFragmentLen → env.opens .largeblob .read = true →
    env.allocates .blobRead = true →
    reply = .cbor (.items [.map 1, .uint 1, .bytes (slice req.fragmentOffset count (v.array.getD emptyLargeBlobArray))])

theorem largeBlobsGet_reads {v : BlobView} (h : KnownArray P v b) {offset count : Nat} (h0 : 0 < count)
    (hmax : count ≤ maxFragmentLen) (hopen : env.opens .largeblob .read = true) (hmem : env.allocates .blobRead = true) :
    largeBlobsGet env b offset count =
      .items [.map 1, .uint 1, .bytes (slice offset count (v.array.getD emptyLargeBlobArray))] := by
  have hrefused : ¬(count = 0 ∨ maxFragmentLen < count) := by omega
  have hget : getLargeBlobArray env b = v.array.getD [] := by
    rw [getLargeBlobArray, hopen, hmem, ← h.stored]
    rfl
  rw [largeBlobsGet, if_neg hrefused]
  simp only [hget, hmem, Bool.not_true, Bool.false_eq_true, and_false, if_false]
  cases harray : v.array with
  | none => rfl
  | some a =>
    have hlong := (h.sound a harray).long
    have hne : a ≠ [] := by
      rintro rfl
      exact absurd hlong (by decide)
    simp only [Option.getD_some, if_neg hne]

theorem largeBlobsSet_known {v : BlobView} (h : KnownArray P v d.blob) (req : LargeBlobsRequest) (fragment : Bytes) :
    let r := largeBlobsSet P env d req fragment
    (if r.reply = .items [.map 0] then KnownArray P (v.append req fragment) r.blob ∧ InOrder v req fragment
      else KnownArray P v r.blob) := by
  unfold largeBlobsSet
  by_cases hoff : req.fragmentOffset = 0
  · rw [if_pos hoff]
    cases hlen : req.length with
    | none =>
      simp only
      rw [if_neg (by simp)]
      exact h
    | some total =>
      simp only
      split
      · simp only
        rw [if_neg (by simp)]
        exact h
      next hrange =>
        rcases fidoVerifyFingerprint env d.bio d.uv env.sensor env.now with ⟨act, uv⟩
        cases act with
        | none =>
          simp only
          rw [if_neg (by simp)]
          exact h
        | some act =>
          simp only
          split
          · rw [if_neg (by simp)]
            exact ⟨h.stored, fun w hw => absurd hw (by simp), fun w hw => absurd hw (by simp), h.sound⟩
          · have hdrop := append_known P env (b := { d.blob with writing := some ⟨total, []⟩ }) (v := v)
              h.stored h.sound (fun w hw => by
                obtain rfl := Option.some.inj hw
                refine ⟨?_, ?_⟩
                · change total ≤ maxLargeBlobArray
                  omega
                · change v.grown req fragment = ⟨total, [] ++ fragment⟩
                  rw [BlobView.grown, if_pos hoff, hlen]
                  rfl)
            rw [hoff] at hdrop
            exact hdrop
  · rw [if_neg hoff]
    refine append_known P env h.stored h.sound fun w hw => ⟨(h.short w hw).2, ?_⟩
    rw [BlobView.grown, if_neg hoff, h.writing w hw]
    rfl

/-- What a client can count on at a step: the fragments acknowledged are in order, and a read
gives what was written last. -/
def BlobServed (past : History) (e : Entry) : Prop :=
  (∀ req fragment, Acknowledged e req fragment → InOrder (blobView past) req fragment) ∧
    ∀ req, e.input.event.largeBlobs = some req → e.input.env.allocates .response = true →
      ReadsArray (blobView past) e.input.env req e.output.reply

theorem largeBlobs_known (P : Platform) (env : Env) {v : BlobView} (h : KnownArray P v d.blob) {body : Bytes} {req : LargeBlobsRequest}
    (hp : parseLargeBlobs body = some req) :
    let r := largeBlobs P env d body
    ReadsArray v env req (.cbor r.reply) ∧
      match req.fragment with
      | none => KnownArray P v r.blob
      | some fragment =>
        if r.reply = .items [.map 0] then KnownArray P (v.append req fragment) r.blob ∧ InOrder v req fragment
        else KnownArray P v r.blob := by
  unfold largeBlobs
  rw [hp]
  cases hget : req.get with
  | some count =>
    have hnone : req.fragment = none := by
      rw [LargeBlobsRequest.fragment, hget]
      rfl
    simp only [hget, hnone]
    refine ⟨fun n hn h0 hmax hopen hmem => ?_, h⟩
    obtain rfl : count = n := Option.some.inj (hget.symm.trans hn)
    rw [largeBlobsGet_reads h h0 hmax hopen hmem]
  | none =>
    have hread : ∀ reply, ReadsArray v env req reply := fun reply n hn => absurd (hget.symm.trans hn) (by simp)
    have hfragment : req.fragment = req.set := by
      rw [LargeBlobsRequest.fragment, hget]
      rfl
    cases hset : req.set with
    | none =>
      simp only [hget, hfragment, hset]
      exact ⟨hread _, h⟩
    | some fragment =>
      simp only [hget, hfragment, hset]
      exact ⟨hread _, largeBlobsSet_known h req fragment⟩

theorem step_blob {past : History} (h : KnownArray P (blobView past) d.blob) :
    KnownArray P (blobView (Trace.entry (step P) d i :: past)) (step P d i).2.blob ∧
      BlobServed past (Trace.entry (step P) d i) := by
  by_cases hl : i.event.code = some 0x0C
  · obtain ⟨body, he, -⟩ := step_code (P := P) (d := d) hl
    have hrequest : i.event.largeBlobs = parseLargeBlobs body := by
      rw [he]
      rfl
    have hstep : step P d i = if i.env.allocates .response then runLargeBlobs P i.env d body
        else (⟨.cbor (.status 0x01), []⟩, d) := by
      simp only [step, he, processCborCommand]
      rfl
    rw [blobView, BlobView.next]
    by_cases hresponse : i.env.allocates .response = true
    · have hacts : Act.wiped ∉ (largeBlobs P i.env d body).acts := fun ha =>
        absurd (largeBlobs_kinds _ ha).1 (by decide)
      rw [if_pos hresponse] at hstep
      simp only [BlobServed, Acknowledged, Trace.entry, hstep, runLargeBlobs, if_neg hacts, hrequest]
      cases hp : parseLargeBlobs body with
      | none =>
        have hrefused : largeBlobs P i.env d body = ⟨.status 0x12, [], d.uv, d.blob⟩ := by
          rw [largeBlobs, hp]
        rw [hrefused]
        exact ⟨h, fun _ _ hack => absurd hack.1 (by simp), fun _ hreq => absurd hreq (by simp)⟩
      | some req =>
        obtain ⟨hread, hknown⟩ := largeBlobs_known P i.env h hp
        refine ⟨?_, fun req' fragment hack => ?_, fun req' hreq _ => ?_⟩
        · cases hfragment : req.fragment with
          | none =>
            simp only [hfragment] at hknown ⊢
            exact hknown
          | some fragment =>
            simp only [hfragment, Reply.cbor.injEq] at hknown ⊢
            split at hknown
            next hok =>
              rw [if_pos hok]
              exact hknown.1
            next hno =>
              rw [if_neg hno]
              exact hknown
        · obtain ⟨hreq, hfragment, hok⟩ := hack
          obtain rfl := Option.some.inj hreq
          simp only [hfragment, if_pos (Reply.cbor.inj hok)] at hknown
          exact hknown.2
        · obtain rfl := Option.some.inj hreq
          exact hread
    · rw [if_neg hresponse] at hstep
      refine ⟨?_, fun req fragment hack => ?_, fun req _ ha => absurd ha hresponse⟩
      · simp only [Trace.entry, hstep, List.not_mem_nil, if_false]
        split
        · exact h
        · split
          · exact h
          · rw [if_neg (by simp)]
            exact h
      · have hok := hack.2.2
        simp only [Trace.entry, hstep] at hok
        exact absurd hok (by simp)
  · have hnone := Event.largeBlobs_none hl
    refine ⟨h.other hl, ?_, ?_⟩
    · rintro req fragment ⟨he, -⟩
      exact absurd (hnone.symm.trans he) (by simp)
    · intro req he
      exact absurd (hnone.symm.trans he) (by simp)

theorem initial_known : KnownArray P (blobView []) initial.blob :=
  ⟨rfl, fun w h => absurd h (by simp [initial]), fun w h => absurd h (by simp [initial]),
    fun a h => absurd h (by simp [blobView])⟩

end GoiKey
