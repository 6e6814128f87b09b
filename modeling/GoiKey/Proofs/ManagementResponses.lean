import GoiKey.Proofs.Responses

/-! The responses of the two management commands, and with them all responses that are maps. -/

namespace GoiKey

open CborGrammar

variable {P : Platform} {env : Env} {d : Device} {i : Input} {past : History} {is : List Item}
variable {k : Keystore} {rp cid : Str} {total : Option Nat}

/-! Credentials. -/

def rpMembers (P : Platform) (rp : Str) (total : Option Nat) : List (Item × Datum) :=
  [(.uint 3, flatMapOf [(.text (text "id"), .text rp)]), (.uint 4, (Item.bytes (P.sha256 rp)).datum)] ++
    total.toList.map fun n => (.uint 5, (Item.uint n).datum)

theorem rpMembers_bytes (P : Platform) (rp : Str) (total : Option Nat) :
    (treeOf (rpMembers P rp total)).bytes = written (rpItems P rp total) := by
  rw [treeOf_bytes]
  cases total <;> simp [rpMembers, rpItems, memberBytes, flatMapOf_bytes]

theorem rpItems_whole (hp : StorageSound P) (hrp : rp.length < 128) : WholeItems (rpItems P rp total) := by
  have hhash := hp.sha256_length rp
  have hrise : KeysRise [.uint 3, .uint 4, .uint 5] := by decide
  have hname : (Item.text (text "id")).Whole := by decide
  refine whole_of_tree ?_ (rpMembers_bytes P rp total) ?_ ?_
  · refine treeOf_canonical ?_ ?_ fun m hm => ?_
    · cases total <;> simp [rpMembers]
    · cases total with
      | none => exact hrise.sublist (List.sublist_append_left [_, _] [_])
      | some n => exact hrise
    · rcases List.mem_append.mp hm with hm | hm
      · simp only [List.mem_cons, List.not_mem_nil, or_false] at hm
        rcases hm with rfl | rfl
        · refine ⟨trivial, flatMapOf_canonical (by simp) (List.pairwise_singleton _ _) fun p hp => ?_⟩
          rw [List.mem_singleton.mp hp]
          exact ⟨hname, show rp.length < 2 ^ 64 by omega⟩
        · exact ⟨trivial, bytes_canonical (by omega)⟩
      · obtain ⟨n, -, rfl⟩ := List.mem_map.mp hm
        exact ⟨trivial, uint_canonical n⟩
  · cases total
    all_goals
      simp [rpItems, Item.Short, text]
      omega
  · cases total
    all_goals
      simp [rpItems, Item.cost, text]
      omega

/-- What a listing says of a credential, empty when its record is gone. -/
def listedUser (P : Platform) (env : Env) (k : Keystore) (cid : Str) : Bytes × Str :=
  let c := getPasskeyRecord P env k cid
  ((c.map StoredCredential.userIdHex).elim [] fun u => fromHex u (u.length / 2),
    (c.map StoredCredential.userName).getD [])

def credentialMembers (P : Platform) (env : Env) (k : Keystore) (cid : Str) (total : Option Nat) :
    List (Item × Datum) :=
  [(.uint 6, flatMapOf [(.text (text "id"), .bytes (listedUser P env k cid).1),
      (.text (text "name"), .text (listedUser P env k cid).2)]),
    (.uint 7, flatMapOf [(.text (text "id"), .bytes (fromHex cid (cid.length / 2))),
      (.text (text "type"), .text (text "public-key"))])] ++
  ((total.toList.map fun n => (.uint 9, (Item.uint n).datum)) ++
    [(.uint 0x0A, (Item.uint (((getPasskeyRecord P env k cid).map StoredCredential.credProtect).getD 1 %
      2 ^ 64).toNat).datum)])

theorem credentialMembers_bytes (P : Platform) (env : Env) (k : Keystore) (cid : Str)
    (total : Option Nat) : (treeOf (credentialMembers P env k cid total)).bytes =
      written (credentialItems P env k cid total) := by
  rw [treeOf_bytes]
  cases total <;> simp [credentialMembers, credentialItems, memberBytes, flatMapOf_bytes, listedUser]

theorem listedUser_sized (env : Env) (cid : Str) (hp : StorageSound P)
    (hs : ∀ r ∈ k.passkeys, RecordSized P r) :
    (listedUser P env k cid).1.length ≤ 64 ∧ (listedUser P env k cid).2.length < 128 := by
  unfold listedUser
  cases hc : getPasskeyRecord P env k cid with
  | none => exact ⟨Nat.zero_le _, Nat.zero_lt_succ _⟩
  | some c =>
    obtain ⟨hid, hname⟩ := getPasskeyRecord_sized hp hs hc
    refine ⟨?_, hname⟩
    change (fromHex c.userIdHex (c.userIdHex.length / 2)).length ≤ 64
    rw [fromHex_length]
    omega

theorem credentialItems_whole (hp : StorageSound P) (hs : ∀ r ∈ k.passkeys, RecordSized P r)
    (hcid : cid.length ≤ 2 * maxCredentialIdLen) : WholeItems (credentialItems P env k cid total) := by
  obtain ⟨hid, hname⟩ := listedUser_sized env cid hp hs
  have hraw : (fromHex cid (cid.length / 2)).length ≤ 224 := by
    unfold maxCredentialIdLen at hcid
    rw [fromHex_length]
    omega
  have hrise : KeysRise [.uint 6, .uint 7, .uint 9, .uint 0x0A] := by decide
  have hnames : ∀ s ∈ ["id", "type", "name", "public-key"], (Item.text (text s)).Whole := by decide
  refine whole_of_tree ?_ (credentialMembers_bytes P env k cid total) ?_ ?_
  · refine treeOf_canonical ?_ ?_ fun m hm => ?_
    · cases total <;> simp [credentialMembers]
    · cases total with
      | none =>
        exact hrise.sublist (((List.Sublist.refl [_]).cons _).cons_cons _ |>.cons_cons _)
      | some n => exact hrise
    · simp only [credentialMembers, List.mem_append, List.mem_cons, List.not_mem_nil, or_false] at hm
      rcases hm with (rfl | rfl) | hm | rfl
      · refine ⟨trivial, flatMapOf_canonical (by simp)
          (by decide : KeysRise [.text (text "id"), .text (text "name")]) fun p hp => ?_⟩
        simp only [List.mem_cons, List.not_mem_nil, or_false] at hp
        rcases hp with rfl | rfl
        · exact ⟨hnames "id" (by simp), show (listedUser P env k cid).1.length < 2 ^ 64 by omega⟩
        · exact ⟨hnames "name" (by simp), show (listedUser P env k cid).2.length < 2 ^ 64 by omega⟩
      · refine ⟨trivial, flatMapOf_canonical (by simp)
          (by decide : KeysRise [.text (text "id"), .text (text "type")]) fun p hp => ?_⟩
        simp only [List.mem_cons, List.not_mem_nil, or_false] at hp
        rcases hp with rfl | rfl
        · exact ⟨hnames "id" (by simp), show (fromHex cid (cid.length / 2)).length < 2 ^ 64 by omega⟩
        · exact ⟨hnames "type" (by simp), hnames "public-key" (by simp)⟩
      · obtain ⟨n, -, rfl⟩ := List.mem_map.mp hm
        exact ⟨trivial, uint_canonical n⟩
      · exact ⟨trivial, uint_canonical _⟩
  · unfold listedUser at hid hname
    cases total
    all_goals
      simp [credentialItems, Item.Short, text] at hid hname hraw ⊢
      omega
  · unfold listedUser at hid hname
    cases total
    all_goals
      simp [credentialItems, Item.cost, text] at hid hname hraw ⊢
      omega

/-- A short response of one map with nothing below it. -/
theorem flatMap_whole (ps : List (Item × Item)) (hlen : ps.length < 2 ^ 16)
    (hrise : KeysRise (ps.map Prod.fst)) (hps : ∀ p ∈ ps, p.1.Whole ∧ p.2.Whole)
    (hs : ∀ i ∈ ps.flatMap (fun p => [p.1, p.2]), i.Short)
    (hcost : ((ps.flatMap fun p => [p.1, p.2]).map Item.cost).sum < 8180) :
    WholeItems (.map ps.length :: ps.flatMap fun p => [p.1, p.2]) := by
  refine whole_of_tree (flatMapOf_canonical (by omega) hrise hps) (flatMapOf_bytes ps) ?_ ?_
  · intro i hi
    rcases List.mem_cons.mp hi with rfl | hi
    · exact Nat.le_of_lt_succ hlen
    · exact hs i hi
  · have hcount : (Item.map ps.length).cost = 9 := rfl
    rw [List.map_cons, List.sum_cons, hcount]
    omega

theorem noMembers_whole : WholeItems [.map 0] :=
  flatMap_whole [] (by decide) .nil (by simp) (by simp) (by simp)

/-- Members whose keys and values are numbers. -/
theorem numbers_whole (ns : List (Nat × Nat)) (hlen : ns.length < 100)
    (hrise : KeysRise (ns.map fun n => .uint n.1)) :
    WholeItems (.map ns.length :: ns.flatMap fun n => [.uint n.1, .uint n.2]) := by
  have hcost : ∀ ns : List (Nat × Nat),
      (((ns.map fun n => (Item.uint n.1, Item.uint n.2)).flatMap fun p => [p.1, p.2]).map Item.cost).sum =
        18 * ns.length := by
    intro ns
    induction ns with
    | nil => rfl
    | cons n ns ih =>
      simp only [List.map_cons, List.flatMap_cons, List.map_append, List.sum_append, ih, List.length_cons]
      simp [Item.cost]
      omega
  have hwhole := flatMap_whole (ns.map fun n => (Item.uint n.1, Item.uint n.2))
    (by rw [List.length_map]; omega) (by rwa [List.map_map]) ?_ ?_ (by rw [hcost]; omega)
  · rwa [List.length_map, List.flatMap_map] at hwhole
  · intro p hp
    obtain ⟨n, -, rfl⟩ := List.mem_map.mp hp
    exact ⟨trivial, trivial⟩
  · intro i hi
    obtain ⟨p, hp, hi⟩ := List.mem_flatMap.mp hi
    obtain ⟨n, -, rfl⟩ := List.mem_map.mp hp
    simp only [List.mem_cons, List.not_mem_nil, or_false] at hi
    rcases hi with rfl | rfl <;> trivial

theorem getCredsMetadata_whole (hr : getCredsMetadata env k = .items is) : WholeItems is := by
  unfold getCredsMetadata at hr
  simp only [CborReply.items.injEq] at hr
  subst hr
  exact numbers_whole [(1, _), (2, _)] (by simp) (by decide : KeysRise [.uint 1, .uint 2])

theorem enumerateCredentialsBegin_whole (hp : StorageSound P) (hd : StoredSized P d) {h : Bytes}
    (hr : (enumerateCredentialsBegin P env d h).reply = .items is) : WholeItems is := by
  have hfound := credentialsOfHash_sized env hd.records h
  unfold enumerateCredentialsBegin at hr
  simp only at hr
  generalize (credentialsOfHash P env d.keys h).map Prod.fst = cids at hfound hr
  cases cids with
  | nil => cases hr
  | cons cid rest =>
    have hcid := hfound cid List.mem_cons_self
    simp only at hr
    repeat' split at hr
    · cases hr
    · cases hr
    · cases hr
      exact credentialItems_whole hp hd.records hcid
    · cases hr
      exact credentialItems_whole hp hd.records hcid

theorem credentialManagement_whole (hp : StorageSound P) (hd : StoredSized P d) {body : Bytes}
    (hr : (credentialManagement P env d body).reply = .items is) : WholeItems is := by
  have hrps := storedRps_sized env hd.records
  unfold credentialManagement at hr
  cases hq : parseCredentialManagement body with
  | none =>
    rw [hq] at hr
    cases hr
  | some req =>
    rw [hq] at hr
    simp only at hr
    split at hr
    · exact getCredsMetadata_whole hr
    · unfold enumerateRpsBegin at hr
      split at hr
      · cases hr
      next rp rps he =>
        cases hr
        exact rpItems_whole hp (hrps rp (by rw [he]; exact List.mem_cons_self))
    · unfold enumerateRpsGetNextRp at hr
      split at hr
      · cases hr
      next rp hrp =>
        cases hr
        exact rpItems_whole hp (hd.rps rp (List.mem_of_getElem? hrp))
    · exact enumerateCredentialsBegin_whole hp hd hr
    · unfold enumerateCredentialsGetNextCredential at hr
      split at hr
      · cases hr
      next cid hcid =>
        cases hr
        exact credentialItems_whole hp hd.records (hd.creds cid (List.mem_of_getElem? hcid))
    · unfold deleteCredential at hr
      split at hr
      · cases hr
        exact noMembers_whole
      · cases hr
    · cases hr

/-! Fingers. -/

/-- A capture answers in numbers, and once with the template that is begun. -/
theorem captureStep_whole {e : BioEnroll} {answer : Nat → BioEnroll → List Item}
    (ha : ∀ code e, WholeItems (answer code e)) (hr : (captureStep env d e answer).reply = .items is) :
    WholeItems is := by
  unfold captureStep at hr
  split at hr
  · cases hr
  · cases hr
    exact ha _ _

theorem enrollBegin_whole (hr : (enrollBegin env d).reply = .items is) : WholeItems is := by
  unfold enrollBegin at hr
  simp only at hr
  split at hr
  · cases hr
  · refine captureStep_whole (fun code e => ?_) hr
    exact flatMap_whole [(.uint 4, .bytes [e.templateId]), (.uint 5, .uint code),
      (.uint 6, .uint e.samplesRemaining.toNat)] (by simp)
      (by decide : KeysRise [.uint 4, .uint 5, .uint 6]) (by simp [Item.Whole]) (by simp [Item.Short])
      (by simp [Item.cost])

theorem enrollCaptureNextSample_whole {req : BioEnrollmentRequest}
    (hr : (enrollCaptureNextSample env d req).reply = .items is) : WholeItems is := by
  unfold enrollCaptureNextSample at hr
  split at hr
  · cases hr
  · refine captureStep_whole (fun code e => ?_) hr
    exact numbers_whole [(5, code), (6, e.samplesRemaining.toNat)] (by simp)
      (by decide : KeysRise [.uint 5, .uint 6])

/-- One finger of the list. -/
def templateItems (env : Env) (b : BioStore) (id : UInt8) : List Item :=
  [.map 2, .uint 1, .bytes [id], .uint 2, .text (templateName env b id)]

def templateTree (env : Env) (b : BioStore) (id : UInt8) : Datum :=
  flatMapOf [(.uint 1, .bytes [id]), (.uint 2, .text (templateName env b id))]

theorem templateTree_bytes (env : Env) (b : BioStore) (ids : List UInt8) :
    (ids.map (templateTree env b)).flatMap Datum.bytes = written (ids.flatMap (templateItems env b)) := by
  induction ids with
  | nil => rfl
  | cons id ids ih =>
    rw [List.map_cons, List.flatMap_cons, List.flatMap_cons, written_append, ih, templateTree,
      flatMapOf_bytes]
    rfl

theorem namesFit_allFit {b : BioStore} {ids : List UInt8} {offset : Nat}
    (h : namesFit offset (ids.map (templateName env b)) = true) :
    AllFit 8191 offset (ids.flatMap (templateItems env b)) := by
  induction ids generalizing offset with
  | nil => trivial
  | cons id ids ih =>
    rw [List.map_cons, namesFit, Bool.and_eq_true, Bool.and_eq_true, decide_eq_true_eq,
      decide_eq_true_eq] at h
    obtain ⟨⟨hshort, hroom⟩, hrest⟩ := h
    rw [List.flatMap_cons, templateItems]
    have hmap : (Item.map 2).encoded.length = 1 := by decide
    have hone : (Item.uint 1).encoded.length = 1 := by decide
    have hid : (Item.bytes [id]).encoded.length = 2 := by simp [Item.encoded]; decide
    have htwo : (Item.uint 2).encoded.length = 1 := by decide
    have hsmall : (head 5 2).length = 1 := by decide
    simp only [List.cons_append, List.nil_append, AllFit, Item.fits, hmap, hone, hid, htwo, hsmall,
      Bool.and_eq_true, decide_eq_true_eq, List.length_cons, List.length_nil]
    refine ⟨⟨by omega, by omega⟩, by omega, ⟨by omega, by omega⟩, by omega, ⟨by omega, hshort⟩, ?_⟩
    exact ih (by rwa [show offset + 1 + 1 + 2 + 1 = offset + 5 from by omega])

theorem namesFit_short {names : List Str} {offset : Nat} (h : namesFit offset names = true) :
    ∀ name ∈ names, name.length ≤ 0xFF := by
  induction names generalizing offset with
  | nil => exact fun _ h => absurd h List.not_mem_nil
  | cons name names ih =>
    rw [namesFit, Bool.and_eq_true, Bool.and_eq_true, decide_eq_true_eq] at h
    intro n hn
    rcases List.mem_cons.mp hn with rfl | hn
    · exact h.1.1
    · exact ih h.2 n hn

/-- The list of fingers is whole as long as their names fit. -/
theorem templates_whole {b : BioStore} (hfit : TemplatesFit env b) :
    WholeItems (.map 1 :: .uint 7 :: .array (getAllBioTemplateIds env b).length ::
      (getAllBioTemplateIds env b).flatMap (templateItems env b)) := by
  obtain ⟨hlen, hnames⟩ := hfit
  have hshort := namesFit_short hnames
  have hkept : AllFit 8191 0 (.map 1 :: .uint 7 :: .array (getAllBioTemplateIds env b).length ::
      (getAllBioTemplateIds env b).flatMap (templateItems env b)) := by
    have hhead := head_length_le 4 (getAllBioTemplateIds env b).length
    have harray : (Item.array (getAllBioTemplateIds env b).length).encoded =
      head 4 (getAllBioTemplateIds env b).length := rfl
    have hbefore : (Item.map 1).encoded.length + (Item.uint 7).encoded.length = 2 := by decide
    refine ⟨by decide, by decide, ?_, ?_⟩
    · simp only [Item.fits, Bool.and_eq_true, decide_eq_true_eq]
      exact ⟨hlen, by omega⟩
    · exact namesFit_allFit hnames
  have hencoded := encode_eq_written_iff.mpr hkept
  refine ⟨hencoded, treeOf [(.uint 7, arrayOf ((getAllBioTemplateIds env b).map (templateTree env b)))],
    treeOf_canonical (by simp) (List.pairwise_singleton _ _) fun m hm => ?_, ?_⟩
  · rw [List.mem_singleton.mp hm]
    refine ⟨trivial, arrayOf_canonical (by rw [List.length_map]; omega) fun t ht => ?_⟩
    obtain ⟨id, hid, rfl⟩ := List.mem_map.mp ht
    refine flatMapOf_canonical (by simp) (by decide : KeysRise [.uint 1, .uint 2]) fun p hp => ?_
    have hname := hshort _ (List.mem_map_of_mem hid)
    simp only [List.mem_cons, List.not_mem_nil, or_false] at hp
    rcases hp with rfl | rfl
    · exact ⟨trivial, show [id].length < 2 ^ 64 by simp⟩
    · exact ⟨trivial, show (templateName env b id).length < 2 ^ 64 by omega⟩
  · rw [hencoded, treeOf_bytes]
    simp [memberBytes, arrayOf_bytes, templateTree_bytes]

theorem enumerateEnrollments_whole (hfit : TemplatesFit env d.bio)
    (hr : (enumerateEnrollments env d).reply = .items is) : WholeItems is := by
  unfold enumerateEnrollments at hr
  split at hr
  · cases hr
  · cases hr
  · simp only at hr
    split at hr
    · cases hr
    · cases hr
      exact templates_whole hfit

theorem bioEnrollment_whole {body : Bytes}
    (hfit : ∀ req, parseBioEnrollment body = some req → req.subCommand = some 0x04 →
      TemplatesFit env d.bio)
    (hr : (bioEnrollment env d body).reply = .items is) : WholeItems is := by
  unfold bioEnrollment at hr
  cases hq : parseBioEnrollment body with
  | none =>
    rw [hq] at hr
    cases hr
  | some req =>
    rw [hq] at hr
    simp only at hr
    split at hr
    · split at hr
      · cases hr
        exact numbers_whole [(1, 1)] (by simp) (List.pairwise_singleton _ _)
      · cases hr
    · cases hr
      exact numbers_whole [(2, 1), (3, d.enroll.samplesRequired.toNat), (8, 32)] (by simp)
        (by decide : KeysRise [.uint 2, .uint 3, .uint 8])
    next sub hsub =>
      split at hr
      · cases hr
      split at hr
      · cases hr
      split at hr
      · exact enrollBegin_whole hr
      · exact enrollCaptureNextSample_whole hr
      · cases hr
        exact noMembers_whole
      · exact enumerateEnrollments_whole (hfit req hq hsub) hr
      · unfold setFriendlyName at hr
        repeat' split at hr
        all_goals cases hr
        exact noMembers_whole
      · unfold removeEnrollment at hr
        repeat' split at hr
        all_goals cases hr
        exact noMembers_whole
      · cases hr

/-! WholeItems runs. -/

/-- Each of the commands answers with whole items, under the condition of the step. -/
theorem step_whole (hp : ResponsesSound P) (hd : StoredSized P d) (hg : Emittable P past d i) :
    EmitsWhole past (Trace.entry (step P) d i) := by
  intro code hcode hmap is hreply
  have hc : i.event.code = some code := hcode
  obtain ⟨body, he, ⟨refusal, hs⟩ | ⟨ha, hs⟩⟩ := step_code (P := P) (d := d) hc
  · change (step P d i).1.reply = _ at hreply
    rw [hs] at hreply
    cases hreply
  change (step P d i).1.reply = _ at hreply
  simp only [mapCommands, List.mem_cons, List.not_mem_nil, or_false] at hmap
  rcases hmap with rfl | rfl | rfl | rfl | rfl | rfl | rfl
  · have hreq : registrationRequest d i = some (parseMakeCredential d.defaultCryptoAlg body) := by
      simp [registrationRequest, he]
    rw [hs] at hreply
    have hr : (makeCredential P i.env d (parseMakeCredential d.defaultCryptoAlg body)).reply =
      .items is := by injection hreply
    have hwhole : WholeItems is ∧ ∀ authData ∈ keyedTwo is, MapsInOrder authData := by
      refine makeCredential_cases (Q := fun r => r.reply = .items is →
        WholeItems is ∧ ∀ authData ∈ keyedTwo is, MapsInOrder authData) ?_ ?_ hr
      · intro code uv _ h
        cases h
      · intro act time uv p _ _ _ _ h
        exact register_whole hp (hg.created _ hreq) h
    exact ⟨hwhole.1, fun _ => hwhole.2⟩
  · refine ⟨?_, fun h => absurd h (by decide)⟩
    rcases step_getAssertion (P := P) (d := d) hc with ⟨refusal, hs⟩ | ⟨req, hreq, hs⟩ <;>
      rw [hs] at hreply
    · cases hreply
    · exact getAssertion_whole hp hd hg hc hreq (by injection hreply)
  · refine ⟨?_, fun h => absurd h (by decide)⟩
    rw [hs] at hreply
    exact getNextAssertion_whole hp hd hg hc (by injection hreply)
  · refine ⟨?_, fun h => absurd h (by decide)⟩
    rw [hs] at hreply
    refine bioEnrollment_whole (fun req hq hsub => hg.enumerated ?_) (by injection hreply)
    simp [enumeratesTemplates, he, hq, hsub]
  · refine ⟨?_, fun h => absurd h (by decide)⟩
    rw [hs] at hreply
    refine bioEnrollment_whole (fun req hq hsub => hg.enumerated ?_) (by injection hreply)
    simp [enumeratesTemplates, he, hq, hsub]
  · refine ⟨?_, fun h => absurd h (by decide)⟩
    rw [hs] at hreply
    exact credentialManagement_whole hp.toStorageSound hd (by injection hreply)
  · refine ⟨?_, fun h => absurd h (by decide)⟩
    rw [hs] at hreply
    exact credentialManagement_whole hp.toStorageSound hd (by injection hreply)

/-- Whatever comes before, a registration with both extensions answers out of order. -/
theorem step_outOfOrder (hp : WrappingSound P) (hk : PublicKeysSized P) {req : MakeCredentialRequest}
    (hreq : req ∈ registrationRequest d i) (hboth : (req.hmacSecretRequested && req.credBlobRequested) = true)
    (hr : (step P d i).1.reply = .cbor (.items is)) : ∃ authData ∈ keyedTwo is, ¬ MapsInOrder authData := by
  unfold registrationRequest at hreq
  split at hreq
  next body he =>
    cases hreq
    have hc : i.event.code = some 0x01 := by rw [he]; rfl
    obtain ⟨body', he', ⟨refusal, hs⟩ | ⟨-, hs⟩⟩ := step_code (P := P) (d := d) hc <;> rw [hs] at hr
    · cases hr
    · obtain rfl : body = body' := by
        rw [he] at he'
        injection he' with he'
        exact (List.cons.inj he').2
      have hreply : (makeCredential P i.env d (parseMakeCredential d.defaultCryptoAlg body)).reply =
        .items is := by injection hr
      refine makeCredential_cases (Q := fun r => r.reply = .items is → _) ?_ ?_ hreply
      · intro code uv _ h
        cases h
      · intro act time uv p _ _ _ _ h
        exact register_outOfOrder hp hk hboth h
  · cases hreq

namespace Bench

/-- The bench, with signatures of the lengths of their formats. -/
def signing : Platform :=
  { platform with
    rsaSign der digest _ := some (padTo 256 (digest ++ der))
    mldsaSign ps sk msg _ :=
      some (padTo (if ps = 44 then 2420 else if ps = 65 then 3309 else 4627) (msg ++ sk)) }

theorem responsesSound_signing : ResponsesSound signing where
  toWrappingSound := {
    gcm := storageSound_bench.gcm
    cbc := storageSound_bench.cbc
    sha256_length := storageSound_bench.sha256_length
    hmac_length := storageSound_bench.hmac_length
    cbc_length := wrappingSound_bench.cbc_length
    p256 := wrappingSound_bench.p256
    fpgaP256 := wrappingSound_bench.fpgaP256
    fpgaEd25519 := wrappingSound_bench.fpgaEd25519 }
  publicKeys := {
    p256 := publicKeysSized_bench.p256
    fpgaP256 := publicKeysSized_bench.fpgaP256
    ed25519 := publicKeysSized_bench.ed25519
    fpgaEd25519 := publicKeysSized_bench.fpgaEd25519
    rsa := publicKeysSized_bench.rsa
    fpgaRsa := publicKeysSized_bench.fpgaRsa
    mldsa := publicKeysSized_bench.mldsa
    fpgaMldsa := publicKeysSized_bench.fpgaMldsa }
  ecdsaSign := by
    intro priv digest rnd r s h
    have htwo : ∀ b : Bytes, fromBigEndian (b.take 2) < 2 ^ 256 := by
      rintro (_ | ⟨x, _ | ⟨y, b⟩⟩)
      · decide
      · have := x.toNat_lt
        simp [fromBigEndian]
        omega
      · have := x.toNat_lt
        have := y.toNat_lt
        simp [fromBigEndian]
        omega
    cases h
    exact ⟨htwo _, htwo _⟩
  fpgaP256Sign := by
    intro blob digest rnd r s h
    cases h
  ed25519Sign := by
    intro priv pub msg
    simp [signing, platform, hash]
  fpgaEd25519Sign := by
    intro blob msg sig h
    cases h
  rsaSign := by
    intro der digest rnd sig h
    cases h
    exact (padTo_length _ _).trans_le (by decide)
  fpgaRsaSign := by
    intro blob digest sig h
    cases h
  mldsaSign := by
    intro ps sk msg rnd sig h
    cases h
    rw [padTo_length]
    repeat' split
    all_goals decide
  fpgaMldsaSign := by
    intro ps blob msg rnd sig h
    cases h
  chain := fun att h => absurd h (by simp [signing, platform])

/-- A discoverable credential, its assertion, and the list of parties. -/
def responding : List Input :=
  [⟨create site 1 true (-7), touchedEnv 1 60000 90⟩, ⟨assertion site [], touchedEnv 1 60000 90⟩,
    ⟨request 0x0A [.map 1, .uint 1, .uint 2], idleEnv 1 60000⟩]

end Bench

end GoiKey
