import GoiKey.Model.Bench
import GoiKey.Proofs.Extraction
import GoiKey.Proofs.Handlers
import GoiKey.Proofs.SavedRecords

/-!
The exclude list of MakeCredential: which of its ids are kept, which of those are
looked up, and what the answer 0x19 then means.
-/

namespace GoiKey

open CborGrammar

variable {P : Platform} {env : Env} {d v : Datum} {s : Str} {n : Nat} {k : Keystore} {rpId : Str}

/-! An exclude list of any length. -/

def listedFits (s : Str) (v : Datum) : Prop :=
  if s = text "id" then BytesIn (2 ^ 64 - 2) v else Skippable v

def createListedFits (n : Nat) (v : Datum) : Prop :=
  if n = 0x05 then ArrayOf (MapOf (Named 32 listedFits)) v else createFits n v

/-- A MakeCredential request its parser can follow, whatever ids it excludes. -/
def CreateReadable (d : Datum) : Prop := MapOf (Numbered createListedFits) d

/-- The ids of the exclude list. -/
def excludedIds (d : Datum) : List Bytes := (d.atKey 0x05).flatMap descriptorIds

/-- The ids there is a buffer for: the first 16 of those that fit into one. -/
def keptIds (ids : List Bytes) : List Bytes :=
  (ids.filter fun id => id.length ≤ maxCredentialIdLen).take maxExcludeCredentials

def keepShort (ids : List Bytes) (id : Bytes) : List Bytes :=
  if ids.length < maxExcludeCredentials ∧ id.length ≤ maxCredentialIdLen then ids ++ [id] else ids

theorem foldl_keepShort (l : List Bytes) {ids : List Bytes} (h : ids.length ≤ maxExcludeCredentials) :
    l.foldl keepShort ids = ids ++
      (l.filter fun id => id.length ≤ maxCredentialIdLen).take (maxExcludeCredentials - ids.length) := by
  induction l generalizing ids with
  | nil => simp
  | cons id l ih =>
    rw [List.foldl_cons, keepShort]
    by_cases hid : id.length ≤ maxCredentialIdLen
    · by_cases hroom : ids.length < maxExcludeCredentials
      · rw [if_pos ⟨hroom, hid⟩, ih (by simp; omega), List.filter_cons_of_pos (by simpa using hid),
          List.length_append, List.length_singleton, List.append_assoc]
        obtain ⟨m, hm⟩ : ∃ m, maxExcludeCredentials - ids.length = m + 1 :=
          ⟨maxExcludeCredentials - ids.length - 1, by omega⟩
        have hm' : maxExcludeCredentials - (ids.length + 1) = m := by omega
        rw [hm, hm', List.take_succ_cons]
        rfl
      · have hfull : maxExcludeCredentials - ids.length = 0 := by omega
        rw [if_neg fun h => hroom h.1, ih h, hfull, List.take_zero, List.take_zero]
    · rw [if_neg fun h => hid h.2, ih h, List.filter_cons_of_neg (by simpa using hid)]

/-! Reading it. -/

theorem readString_refuses {α : Type} {major limit : Nat} {h str : Bytes} {f : Option Bytes → Parse α}
    {a : α} (hm : major < 8) (hh : Head major str.length h) (hl : limit < str.length)
    (hf : Reads (f none) (h ++ str) a) : Reads (readString major limit >>= f) (h ++ str) a := by
  intro rest
  have hhead : readTypeAndValue (h ++ str ++ rest) = (some (major, str.length), str ++ rest) := by
    rw [List.append_assoc]
    exact readTypeAndValue_head hm hh _
  have hread : readString major limit (h ++ str ++ rest) = (none, h ++ str ++ rest) := by
    simp only [readString, hhead]
    rw [if_neg fun hfit => absurd hfit.2.1 (Nat.not_le.mpr hl)]
  change f (readString major limit (h ++ str ++ rest)).1 (readString major limit (h ++ str ++ rest)).2 = _
  rw [hread]
  exact hf rest

def shortDescriptorStep (s : Str) (v : Datum) (ids : List Bytes) : List Bytes :=
  if s = text "id" then (v.str? 2).toList.foldl keepShort ids else ids

theorem readListed_reads {h : Bytes} {es : List (Datum × Datum)} (ids : List Bytes)
    (hv : (Datum.map h es).Valid) (hes : ∀ e ∈ es, Named 32 listedFits e.1 e.2) :
    Reads (readDescriptor maxExcludeCredentials es.length ids) (Datum.entryBytes es)
      (es.foldl (namedStep shortDescriptorStep) ids) := by
  refine textLoop_reads hv hes (fun s v ids hv hf => ?_) ids
  unfold listedFits at hf
  unfold shortDescriptorStep
  split at hf
  next hs =>
    have hskip := hf.skippable hv (by decide)
    obtain ⟨h, id, rfl, hlen⟩ := hf
    rw [if_pos hs, if_pos hs]
    change Reads _ _ (keepShort ids id)
    unfold keepShort
    cases hv with
    | string type head =>
      by_cases hroom : ids.length < maxExcludeCredentials
      · rw [if_pos hroom]
        by_cases hid : id.length ≤ maxCredentialIdLen
        · rw [if_pos ⟨hroom, hid⟩]
          exact (readString_reads (by decide) head hid).bind_pure (.pure _)
        · rw [if_neg fun h => hid h.2]
          exact readString_refuses (by decide) head (Nat.not_le.mp hid) (skipping_reads hskip ids)
      · rw [if_neg hroom, if_neg fun h => hroom h.1]
        exact skipping_reads hskip ids
  next hs =>
    rw [if_neg hs, if_neg hs]
    exact skipping_reads hf ids

def listingStep (defaultCryptoAlg : Int) (n : Nat) (v : Datum) (r : MakeCredentialRequest) :
    MakeCredentialRequest :=
  if n = 0x05 then { r with
    excludeCredentialIds := v.items.foldl
      (fun ids d => d.entries.foldl (namedStep shortDescriptorStep) ids) r.excludeCredentialIds }
  else createStep defaultCryptoAlg n v r

theorem readCreateField_lists {defaultCryptoAlg : Int} (r : MakeCredentialRequest) (hv : v.Valid)
    (hf : createListedFits n v) :
    Reads (readCreateField defaultCryptoAlg n r) v.bytes (listingStep defaultCryptoAlg n v r) := by
  unfold createListedFits at hf
  unfold listingStep
  split at hf
  next h5 =>
    subst h5
    obtain ⟨h, items, rfl, hitems⟩ := hf
    refine readArray_reads hv (Reads.bind_pure (loop_reads_items (fun p hp ids => ?_) _) (.pure _))
    obtain ⟨h, es, rfl, hes⟩ := hitems p hp
    have hp := hv.item hp
    exact readMap_reads hp (readListed_reads ids hp hes)
  next h5 =>
    rw [if_neg h5]
    exact readCreateField_reads r hv hf

/-! What the parser makes of it. -/

/-- The other fields do not depend on the list. -/
theorem createEntries_apart (defaultCryptoAlg : Int) (es : List (Datum × Datum))
    (r : MakeCredentialRequest) (ids l : List Bytes) :
    { es.foldl (numberedStep (createStep defaultCryptoAlg)) { r with excludeCredentialIds := ids } with
      excludeCredentialIds := l } =
    { es.foldl (numberedStep (createStep defaultCryptoAlg)) r with excludeCredentialIds := l } := by
  rw [createEntries _ _ [], createEntries _ _ []]
  rfl

/-- A field that is not the list leaves it. -/
theorem createStep_list {defaultCryptoAlg : Int} (v : Datum) (r : MakeCredentialRequest) (hn : n ≠ 0x05) :
    (createStep defaultCryptoAlg n v r).excludeCredentialIds = r.excludeCredentialIds := by
  unfold createStep
  split
  · rfl
  · rw [rpEntries r []]
  · rw [userEntries r []]
  · rfl
  · exact absurd rfl hn
  · rw [createExtensionEntries r []]
  · rw [optionEntries r []]
  · rfl

theorem listingEntries (defaultCryptoAlg : Int) (h : Bytes) (es : List (Datum × Datum))
    (r : MakeCredentialRequest) :
    es.foldl (numberedStep (listingStep defaultCryptoAlg)) r =
      { es.foldl (numberedStep (createStep defaultCryptoAlg)) r with
        excludeCredentialIds := (excludedIds (.map h es)).foldl keepShort r.excludeCredentialIds } := by
  induction es generalizing r with
  | nil => rfl
  | cons e es ih =>
    rw [List.foldl_cons, ih, List.foldl_cons]
    cases hk : e.1.uint? with
    | none =>
      have hids : excludedIds (.map h (e :: es)) = excludedIds (.map h es) := by simp [excludedIds, hk]
      have hnone : ∀ step, numberedStep step r e = r := fun step => by simp [numberedStep, hk]
      rw [hids, hnone, hnone]
    | some n =>
      have hsome : ∀ step, numberedStep step r e = step n e.2 r := fun step => by simp [numberedStep, hk]
      rw [hsome, hsome]
      by_cases hn : n = 0x05
      · subst hn
        have hids : excludedIds (.map h (e :: es)) = descriptorIds e.2 ++ excludedIds (.map h es) := by
          simp [excludedIds, hk]
        have hlist : (listingStep defaultCryptoAlg 0x05 e.2 r).excludeCredentialIds =
            (descriptorIds e.2).foldl keepShort r.excludeCredentialIds :=
          descriptors (fun _ _ _ => rfl) _ _
        rw [hids, List.foldl_append, hlist]
        exact (createEntries_apart _ es r _ _).trans (createEntries_apart _ es r _ _).symm
      · have hids : excludedIds (.map h (e :: es)) = excludedIds (.map h es) := by
          simp [excludedIds, hk, hn]
        rw [hids, listingStep, if_neg hn, createStep_list _ _ hn]

/-- The request is what its map binds, with the ids there is room for. -/
theorem parseMakeCredential_readable (defaultCryptoAlg : Int) (hd : d.Valid) (hf : CreateReadable d) :
    ∃ a, parseMakeCredential defaultCryptoAlg d.bytes =
      { boundCreate { selectedAlgId := a } d with excludeCredentialIds := keptIds (excludedIds d) } := by
  obtain ⟨h, es, rfl, hes⟩ := hf
  have hall : parseMakeCredential defaultCryptoAlg ((Datum.map h es).bytes ++ []) =
      es.foldl (numberedStep (listingStep defaultCryptoAlg)) { selectedAlgId := defaultCryptoAlg } := by
    unfold parseMakeCredential
    exact congrArg Prod.fst (readMap_reads hd
      (keyedLoop_reads hd hes (fun n v r hv hf => readCreateField_lists r hv hf) _) [])
  rw [List.append_nil, listingEntries, createEntries, foldl_keepShort _ (Nat.zero_le _)] at hall
  exact ⟨((Datum.map h es).atKey 0x04).foldl (fun a v => chosenAlgorithm defaultCryptoAlg v a)
    defaultCryptoAlg, hall⟩

/-! What an id can be the id of. -/

/-- The first live record under this id is one of the party, and opens. -/
def Resident (P : Platform) (k : Keystore) (rpId : Str) (id : Bytes) : Prop :=
  ∃ env c, getPasskeyRecord P env k (toHex id) = some c ∧ rpFieldMatchesPlainRpId P c.rpId rpId = true

/-- It is wrapped under the secret on record, for the party. -/
def Wrapped (P : Platform) (k : Keystore) (rpId : Str) (id : Bytes) : Prop :=
  ∃ env c, k.slSecret.isSome = true ∧ env.nvsOpen = true ∧
    (unwrapStatelessCredential P env k id rpId).1 = some c

def Usable (P : Platform) (k : Keystore) (rpId : Str) (id : Bytes) : Prop :=
  Resident P k rpId id ∨ Wrapped P k rpId id

def requestedRpId (d : Datum) : Str := latest (strings 3 (member 0x02 "id" d)) []

/-- None of the three parameters a registration needs is missing. -/
structure Complete (d : Datum) : Prop where
  rpId : requestedRpId d ≠ []
  userId : latest (strings 2 (member 0x03 "id" d)) [] ≠ []
  clientDataHash : (latest (strings 2 (d.atKey 0x01)) []).length = 32

/-- The answer is 0x19 for a usable id on the list, and only for one. -/
def ExcludedExactly (P : Platform) (dev : Device) (env : Env) (d : Datum) : Prop :=
  (step P dev ⟨.cbor (0x01 :: d.bytes), env⟩).1.reply = .cbor (.status 0x19) ↔
    ∃ id ∈ excludedIds d, Usable P dev.keys (requestedRpId d) id

/-! What the lookup finds. -/

/-- Where a record can be read, it reads the same. -/
theorem getPasskeyRecord_working {env' : Env} (ho : env'.opens .passkeys .read = true)
    (ha : env'.allocates .plaintext = true) (cid : Str) :
    getPasskeyRecord P env k cid =
      if env.opens .passkeys .read = true ∧ env.allocates .plaintext = true then
        getPasskeyRecord P env' k cid
      else none := by
  cases hopens : env.opens .passkeys .read with
  | false => rw [getPasskeyRecord_unopened hopens, if_neg (by simp)]
  | true =>
    rw [getPasskeyRecord_opened hopens]
    cases hroom : env.allocates .plaintext with
    | false =>
      rw [if_neg (by simp)]
      cases k.passkeys.find? fun r => r.status == 1 && r.cid == cid with
      | none => rfl
      | some r =>
        rw [Option.bind_some, decryptRecord, decryptStoragePayload_refused hroom]
        rfl
    | true =>
      have hsame : ∀ r, decryptRecord P env r = decryptRecord P env' r := fun r =>
        decryptStoragePayload_congr (hroom.trans ha.symm)
      rw [if_pos ⟨rfl, rfl⟩, getPasskeyRecord_opened ho]
      simp only [hsame]

/-- To be read, a record needs its file and memory. -/
theorem getPasskeyRecord_needs {cid : Str} {c : StoredCredential}
    (h : getPasskeyRecord P env k cid = some c) :
    env.opens .passkeys .read = true ∧ env.allocates .plaintext = true := by
  have hread : getPasskeyRecord P env k cid =
      if env.opens .passkeys .read = true ∧ env.allocates .plaintext = true then
        getPasskeyRecord P (Bench.idleEnv 0 0) k cid
      else none := getPasskeyRecord_working rfl rfl cid
  by_contra hno
  rw [hread, if_neg hno] at h
  cases h

theorem resident_of_found {id : Bytes}
    (h : (getPasskeyRecord P env k (toHex id)).any
      (fun c => rpFieldMatchesPlainRpId P c.rpId rpId) = true) :
    env.opens .passkeys .read = true ∧ env.allocates .plaintext = true ∧ Resident P k rpId id := by
  cases hc : getPasskeyRecord P env k (toHex id) with
  | none =>
    rw [hc] at h
    cases h
  | some c =>
    rw [hc] at h
    obtain ⟨ho, ha⟩ := getPasskeyRecord_needs hc
    exact ⟨ho, ha, env, c, hc, h⟩

theorem excludes_iff {req : MakeCredentialRequest} :
    excludes P env k req = true ↔ env.opens .passkeys .read = true ∧ env.allocates .plaintext = true ∧
      ∃ id ∈ req.excludeCredentialIds, Resident P k req.targetRpId id := by
  unfold excludes
  rw [List.any_eq_true]
  constructor
  · rintro ⟨id, hid, hfound⟩
    obtain ⟨ho, ha, hr⟩ := resident_of_found hfound
    exact ⟨ho, ha, id, hid, hr⟩
  · rintro ⟨ho, ha, id, hid, env', c, hc, hmatch⟩
    obtain ⟨ho', ha'⟩ := getPasskeyRecord_needs hc
    refine ⟨id, hid, ?_⟩
    rw [getPasskeyRecord_working ho' ha', if_pos ⟨ho, ha⟩, hc]
    exact hmatch

/-! The answer. -/

theorem register_notExcluded (k : Keystore) (signCount : UInt32) (req : MakeCredentialRequest) :
    (register P env k signCount req).1 ≠ .status 0x19 := by
  intro h
  rcases register_status h with hcode | hcode <;> cases hcode

theorem makeCredential_excluded_iff {dev : Device} {req : MakeCredentialRequest} :
    (makeCredential P env dev req).reply = .status 0x19 ↔
      (req.targetRpId ≠ [] ∧ req.userIdRaw ≠ [] ∧ req.clientDataHash.length = 32) ∧
        excludes P env dev.keys req = true := by
  unfold makeCredential
  split
  next hmissing =>
    refine iff_of_false (by simp) fun h => ?_
    rcases hmissing with hrp | huser | hhash
    · exact h.1.1 hrp
    · exact h.1.2.1 huser
    · exact hhash h.1.2.2
  next hcomplete =>
    simp only [not_or, not_not] at hcomplete
    split
    next hexcluded => exact iff_of_true rfl ⟨hcomplete, hexcluded⟩
    next hexcluded =>
      refine iff_of_false ?_ fun h => hexcluded h.2
      split
      · simp
      · simp
      · exact register_notExcluded _ _ _

theorem step_excluded_iff {dev : Device} (hd : d.Valid) (hf : CreateReadable d) :
    (step P dev ⟨.cbor (0x01 :: d.bytes), env⟩).1.reply = .cbor (.status 0x19) ↔
      env.allocates .response = true ∧ Complete d ∧ env.opens .passkeys .read = true ∧
        env.allocates .plaintext = true ∧
        ∃ id ∈ keptIds (excludedIds d), Resident P dev.keys (requestedRpId d) id := by
  obtain ⟨a, ha⟩ := parseMakeCredential_readable dev.defaultCryptoAlg hd hf
  cases hroom : env.allocates .response with
  | false => simp [step, processCborCommand, hroom]
  | true =>
    have hreply : (step P dev ⟨.cbor (0x01 :: d.bytes), env⟩).1.reply =
        .cbor (makeCredential P env dev (parseMakeCredential dev.defaultCryptoAlg d.bytes)).reply := by
      simp only [step, processCborCommand, hroom, if_true]
      rfl
    rw [hreply, Reply.cbor.injEq, makeCredential_excluded_iff, excludes_iff, ha]
    constructor
    · rintro ⟨⟨hrp, huser, hhash⟩, ho, hp, hfound⟩
      exact ⟨rfl, ⟨hrp, huser, hhash⟩, ho, hp, hfound⟩
    · rintro ⟨-, ⟨hrp, huser, hhash⟩, ho, hp, hfound⟩
      exact ⟨⟨hrp, huser, hhash⟩, ho, hp, hfound⟩

/-- The answer is right unless a usable id goes unnoticed: wrapped, beyond those that are kept,
or in a file that cannot be read now. -/
theorem excluded_exactly_iff {dev : Device} (hd : d.Valid) (hf : CreateReadable d) :
    ExcludedExactly P dev env d ↔
      ((∃ id ∈ excludedIds d, Usable P dev.keys (requestedRpId d) id) →
        env.allocates .response = true ∧ Complete d ∧ env.opens .passkeys .read = true ∧
        env.allocates .plaintext = true ∧
        ∃ id ∈ keptIds (excludedIds d), Resident P dev.keys (requestedRpId d) id) := by
  unfold ExcludedExactly
  rw [step_excluded_iff hd hf]
  constructor
  · exact fun h => h.mpr
  · intro h
    refine ⟨?_, h⟩
    rintro ⟨-, -, -, -, id, hid, hr⟩
    exact ⟨id, List.mem_of_mem_filter (List.mem_of_mem_take hid), .inl hr⟩

/-! One id on the list. -/

def descriptor (h id : Bytes) : Datum := .map [initialByte 5 1] [(shortText "id", .string 2 h id)]

/-- The sample registration, excluding this id. -/
def excludeSample (h id : Bytes) : Datum :=
  .map [initialByte 5 5] ((createSample (shortText "bob")).entries ++
    [(numberKey 5, .array [initialByte 4 1] [descriptor h id])])

theorem excludeSample_valid {h id : Bytes} (hh : Head 2 id.length h) : (excludeSample h id).Valid := by
  have hsample : (createSample (shortText "bob")).Valid := createSample_valid (shortText_valid (by decide))
  have hid : (descriptor h id).Valid := by
    refine .map (.short (by simp)) ?_ ?_
    · exact List.forall_mem_singleton.mpr (shortText_valid (by decide))
    · exact List.forall_mem_singleton.mpr (.string (.inl rfl) hh)
  cases hsample with
  | map head keys values =>
    refine .map (.short ?_) ?_ ?_
    · rw [List.length_append]
      exact (by decide : 4 + 1 < 24)
    · exact List.forall_mem_append.mpr ⟨keys, List.forall_mem_singleton.mpr (numberKey_valid (by decide))⟩
    · exact List.forall_mem_append.mpr ⟨values, List.forall_mem_singleton.mpr
        (.array (.short (by simp)) (List.forall_mem_singleton.mpr hid))⟩

theorem excludeSample_readable {h id : Bytes} (hid : id.length ≤ 2 ^ 64 - 2) :
    CreateReadable (excludeSample h id) := by
  obtain ⟨h', es, hsample, hes⟩ := createSample_fits.map
  cases hsample
  refine ⟨_, _, rfl, List.forall_mem_append.mpr ⟨fun e he => ?_, List.forall_mem_singleton.mpr ?_⟩⟩
  · obtain ⟨hhead, hnumber, hother⟩ := hes e he
    refine ⟨hhead, fun n hn => ?_, hother⟩
    have hkeys : ∀ e ∈ (createSample (shortText "bob")).entries, e.1.uint? ≠ some 0x05 := by
      simp [createSample, Datum.entries, numberKey, Datum.uint?]
    have h5 : n ≠ 0x05 := by
      rintro rfl
      exact hkeys e he hn
    rw [createListedFits, if_neg h5]
    exact hnumber n hn
  · refine numbered_numberKey ?_
    rw [createListedFits, if_pos rfl]
    refine ⟨_, _, rfl, List.forall_mem_singleton.mpr ⟨_, _, rfl, List.forall_mem_singleton.mpr ?_⟩⟩
    refine named_shortText (by decide) (by decide) ?_
    rw [listedFits, if_pos rfl]
    exact ⟨_, _, rfl, hid⟩

/-- A device with one resident credential at "a.b", under the id of 16 ones. -/
def residentDevice : Device :=
  { keys := (savePasskeyRecord Bench.platform (Bench.idleEnv 1 0) {} (toHex (List.replicate 16 1))
      { rpId := Bench.site, userIdHex := text "01", userName := text "bob"
        privateKeyHex := toHex (List.replicate 32 1), algId := -7 }).getD {} }

theorem excluded_exactly_resident :
    ExcludedExactly Bench.platform residentDevice (Bench.idleEnv 2 0)
      (excludeSample [initialByte 2 16] (List.replicate 16 1)) := by
  have hcomplete : Complete (excludeSample [initialByte 2 16] (List.replicate 16 1)) :=
    ⟨by decide, by decide, by decide⟩
  have hkept : List.replicate 16 1 ∈
      keptIds (excludedIds (excludeSample [initialByte 2 16] (List.replicate 16 1))) := by decide
  have hfound : (getPasskeyRecord Bench.platform (Bench.idleEnv 2 0) residentDevice.keys
      (toHex (List.replicate 16 1))).any (fun c => rpFieldMatchesPlainRpId Bench.platform c.rpId
        (requestedRpId (excludeSample [initialByte 2 16] (List.replicate 16 1)))) = true := by
    decide +kernel
  have hvalid : (excludeSample [initialByte 2 16] (List.replicate 16 1)).Valid :=
    excludeSample_valid (.short (by decide))
  have hreadable : CreateReadable (excludeSample [initialByte 2 16] (List.replicate 16 1)) :=
    excludeSample_readable (by simp)
  exact (excluded_exactly_iff hvalid hreadable).mpr fun _ =>
      ⟨rfl, hcomplete, rfl, rfl, _, hkept, (resident_of_found hfound).2.2⟩

/-- An id wrapped for "a.b" under the secret of 32 ones. -/
def wrappedSample : Bytes :=
  ((wrapStatelessCredential Bench.platform (Bench.idleEnv 1 0) {} Bench.site [1] (text "bob")
    (toHex (List.replicate 32 1)) (-7)).1).getD []

/-- The credential of a wrapped id is registered once more. -/
theorem wrappedId_notExcluded :
    (excludeSample [0x58, 0xC0] wrappedSample).Valid ∧ CreateReadable (excludeSample [0x58, 0xC0] wrappedSample) ∧
      ¬ ExcludedExactly Bench.platform { keys := { slSecret := some (List.replicate 32 1) } }
        (Bench.touchedEnv 2 0 80) (excludeSample [0x58, 0xC0] wrappedSample) := by
  have hlen : wrappedSample.length = 192 := by decide +kernel
  have hhead : Head 2 wrappedSample.length [0x58, 0xC0] := by
    have hwidth : argumentWidth 24 = some [(0xC0 : UInt8)].length := rfl
    rw [hlen]
    exact .long hwidth
  refine ⟨excludeSample_valid hhead, excludeSample_readable (by rw [hlen]; decide), fun h => ?_⟩
  have hlisted : wrappedSample ∈ excludedIds (excludeSample [0x58, 0xC0] wrappedSample) := by decide +kernel
  have hopens : (unwrapStatelessCredential Bench.platform (Bench.idleEnv 1 0)
      { slSecret := some (List.replicate 32 1) } wrappedSample
      (requestedRpId (excludeSample [0x58, 0xC0] wrappedSample))).1.isSome = true := by decide +kernel
  obtain ⟨c, hc⟩ := Option.isSome_iff_exists.mp hopens
  have hanswer := h.mpr ⟨_, hlisted, .inr ⟨_, c, rfl, rfl, hc⟩⟩
  revert hanswer
  decide +kernel

end GoiKey
