import GoiKey.Proofs.BoundValues

/-!
What the parsers of MakeCredential and GetAssertion make of a request's map, as long
as every read finds what it is made for.
-/

namespace GoiKey

open CborGrammar

variable {d v : Datum} {s : Str} {n : Nat}

/-! What each read has to find. -/

/-- Only a head, and not of a map. -/
def NotMap (d : Datum) : Prop := d.isHead = true ∧ d.major ≠ 5

def rpFits (s : Str) (v : Datum) : Prop := if s = text "id" then TextIn 128 v else Skippable v

def userFits (s : Str) (v : Datum) : Prop :=
  if s = text "id" then BytesIn 64 v
  else if s = text "name" then TextIn 128 v
  else Skippable v

def parameterFits (s : Str) (v : Datum) : Prop := if s = text "alg" then v.isHead = true else Skippable v

def descriptorFits (s : Str) (v : Datum) : Prop :=
  if s = text "id" then BytesIn maxCredentialIdLen v else Skippable v

def createExtensionFits (s : Str) (v : Datum) : Prop :=
  if s = text "hmac-secret" ∨ s = text "largeBlobKey" then IsFlag v
  else if s = text "credProtect" then ∃ n h, v = .number 0 n h ∧ 1 ≤ n ∧ n ≤ 3
  else if s = text "credBlob" then BytesIn 32 v
  else Skippable v

def optionFits (s : Str) (v : Datum) : Prop := if s = text "rk" then IsFlag v else Skippable v

def createFits (n : Nat) (v : Datum) : Prop :=
  match n with
  | 0x01 => BytesIn 32 v
  | 0x02 => MapOf (Named 32 rpFits) v ∨ NotMap v
  | 0x03 => MapOf (Named 32 userFits) v ∨ NotMap v
  | 0x04 => ArrayOf (MapOf (Named 32 parameterFits)) v
  | 0x05 => ArrayOf (MapOf (Named 32 descriptorFits)) v
  | 0x06 => MapOf (Named 32 createExtensionFits) v
  | 0x07 => MapOf (Named 32 optionFits) v
  | _ => Skippable v

/-- A MakeCredential request that its parser can follow, and has room for. -/
structure CreateFits (d : Datum) : Prop where
  map : MapOf (Numbered createFits) d
  few : ((d.atKey 0x05).flatMap descriptorIds).length ≤ maxExcludeCredentials

def saltFits (n : Nat) (v : Datum) : Prop := if n = 1 ∨ n = 2 then BytesIn 32 v else Skippable v

/-- Not a map, and skipped as it is not. -/
def OtherType (d : Datum) : Prop := d.major ≠ 5 ∧ Skippable d

def assertExtensionFits (s : Str) (v : Datum) : Prop :=
  if s = text "hmac-secret" then MapOf (Numbered saltFits) v ∨ OtherType v
  else if s = text "largeBlobKey" ∨ s = text "credBlob" then IsFlag v
  else Skippable v

def assertOptionFits (s : Str) (v : Datum) : Prop :=
  if s = text "up" ∨ s = text "uv" then IsFlag v else Skippable v

def assertFits (n : Nat) (v : Datum) : Prop :=
  match n with
  | 0x01 => TextIn 128 v
  | 0x02 => BytesIn 32 v
  | 0x03 => ArrayOf (fun d => MapOf (Named 32 descriptorFits) d ∨ NotMap d) v ∨
      (v.isHead = true ∧ v.major ≠ 4)
  | 0x04 => MapOf (Named 32 assertExtensionFits) v ∨ OtherType v
  | 0x05 => MapOf (Named 32 assertOptionFits) v
  | _ => Skippable v

/-- A GetAssertion request that its parser can follow, and has room for. -/
structure AssertFits (d : Datum) : Prop where
  map : MapOf (Numbered assertFits) d
  few : ((d.atKey 0x03).flatMap descriptorIds).length ≤ maxAllowCredentials

/-! Single entries. -/

theorem BytesIn.skippable {limit : Nat} (hd : d.Valid) (hb : BytesIn limit d) (hl : limit < 2 ^ 64 - 1) :
    Skippable d := by
  obtain ⟨h, s, rfl, hs⟩ := hb
  cases hd with
  | string type head => exact .string type head (by omega)

/-- A head that is not of a map ends the reading of one. -/
theorem NotMap.reads {ρ : Type} {f : Option Nat → Parse ρ} {r : ρ} (hd : d.Valid) (hn : NotMap d)
    (hf : f none = pure r) : Reads (readTyped 5 >>= f) d.bytes r := by
  obtain ⟨v, hhead, -⟩ := hd.head hn.1
  have hread := readTyped_reads 5 hd.major_lt hhead
  rw [if_neg hn.2] at hread
  refine hread.bind_pure ?_
  rw [hf]
  exact .pure r

section Create

variable {defaultCryptoAlg : Int} (r : MakeCredentialRequest)

theorem readHash_reads (hv : v.Valid) (hf : createFits 0x01 v) :
    Reads (readCreateField defaultCryptoAlg 0x01 r) v.bytes (createStep defaultCryptoAlg 0x01 v r) := by
  obtain ⟨b, hb, -, hread⟩ := BytesIn.reads hv hf
  change Reads _ v.bytes { r with clientDataHash := latest (v.str? 2).toList r.clientDataHash }
  rw [hb]
  exact hread.bind_pure (.pure _)

theorem readRp_reads (hv : v.Valid) (hf : createFits 0x02 v) :
    Reads (readCreateField defaultCryptoAlg 0x02 r) v.bytes (createStep defaultCryptoAlg 0x02 v r) := by
  rcases hf with ⟨h, es, rfl, hes⟩ | hn
  · refine readMap_reads hv (textLoop_reads hv hes (fun s v r hv hf => ?_) r)
    unfold rpFits at hf
    unfold rpStep
    split at hf
    next hs =>
      obtain ⟨t, ht, hread⟩ := hf.reads hv
      rw [if_pos hs, if_pos hs, ht]
      exact hread.bind_pure (.pure _)
    next hs =>
      rw [if_neg hs, if_neg hs]
      exact skipping_reads hf r
  · change Reads _ v.bytes (v.entries.foldl (namedStep rpStep) r)
    rw [entries_of_major hn.2]
    exact hn.reads hv rfl

theorem readUser_reads (hv : v.Valid) (hf : createFits 0x03 v) :
    Reads (readCreateField defaultCryptoAlg 0x03 r) v.bytes (createStep defaultCryptoAlg 0x03 v r) := by
  rcases hf with ⟨h, es, rfl, hes⟩ | hn
  · refine readMap_reads hv (textLoop_reads hv hes (fun s v r hv hf => ?_) r)
    unfold userFits at hf
    unfold userStep
    split at hf
    next hs =>
      obtain ⟨b, hb, -, hread⟩ := hf.reads hv
      rw [if_pos hs, if_pos hs, hb]
      exact hread.bind_pure (.pure _)
    next hs =>
      rw [if_neg hs, if_neg hs]
      split at hf
      next hname =>
        obtain ⟨t, ht, hread⟩ := hf.reads hv
        rw [if_pos hname, if_pos hname, ht]
        exact hread.bind_pure (.pure _)
      next hname =>
        rw [if_neg hname, if_neg hname]
        exact skipping_reads hf r
  · change Reads _ v.bytes (v.entries.foldl (namedStep userStep) r)
    rw [entries_of_major hn.2]
    exact hn.reads hv rfl

/-- Whatever the "alg" is, its head is all of it. -/
theorem algorithm_reads {int : Nat → Int} (alg : Int) (hv : v.Valid) (hh : v.isHead = true) :
    Reads (do
      match ← readTypeAndValue with
      | some (0, v) => return int v
      | some (1, v) => return -1 - int v
      | _ => return alg) v.bytes (algorithmOf int v alg) := by
  obtain ⟨n, hhead, -⟩ := hv.head hh
  have hread := readTypeAndValue_head hv.major_lt hhead
  cases hv with
  | number type head simple =>
    rcases type with rfl | rfl | rfl
    · exact (readTypeAndValue_head (by decide) head).bind_pure (.pure _)
    · exact (readTypeAndValue_head (by decide) head).bind_pure (.pure _)
    · exact hread.bind_pure (.pure _)
  | string type head =>
    rcases type with rfl | rfl
    · exact hread.bind_pure (.pure _)
    · exact hread.bind_pure (.pure _)
  | array head each => exact hread.bind_pure (.pure _)
  | map head keys values => exact hread.bind_pure (.pure _)
  | chunks type heads => cases hh
  | openArray each => cases hh
  | openMap keys values => cases hh
  | tag head each => cases hh

theorem readAlgorithm_reads {h : Bytes} {es : List (Datum × Datum)} (hv : (Datum.map h es).Valid)
    (hes : ∀ e ∈ es, Named 32 parameterFits e.1 e.2) :
    Reads (readAlgorithm es.length) (Datum.entryBytes es) (es.foldl (namedStep algorithmStep) 0) := by
  refine textLoop_reads hv hes (fun s v alg hv hf => ?_) 0
  unfold parameterFits at hf
  unfold algorithmStep
  split at hf
  next hs =>
    rw [if_pos hs, if_pos hs]
    exact algorithm_reads alg hv hf
  next hs =>
    rw [if_neg hs, if_neg hs]
    exact skipping_reads hf alg

theorem readParams_reads (hv : v.Valid) (hf : createFits 0x04 v) :
    Reads (readCreateField defaultCryptoAlg 0x04 r) v.bytes (createStep defaultCryptoAlg 0x04 v r) := by
  obtain ⟨h, items, rfl, hitems⟩ := hf
  refine readArray_reads hv (Reads.bind_pure (loop_reads_items (fun p hp c => ?_) _) (.pure _))
  obtain ⟨h, es, rfl, hes⟩ := hitems p hp
  have hp := hv.item hp
  exact readMap_reads hp ((readAlgorithm_reads hp hes).bind_pure (.pure _))

theorem readDescriptor_reads {h : Bytes} {es : List (Datum × Datum)} (room : Nat) (ids : List Bytes)
    (hv : (Datum.map h es).Valid) (hes : ∀ e ∈ es, Named 32 descriptorFits e.1 e.2) :
    Reads (readDescriptor room es.length ids) (Datum.entryBytes es)
      (es.foldl (namedStep (descriptorStep room)) ids) := by
  refine textLoop_reads hv hes (fun s v ids hv hf => ?_) ids
  unfold descriptorFits at hf
  unfold descriptorStep
  split at hf
  next hs =>
    obtain ⟨id, hid, -, hread⟩ := hf.reads hv
    rw [if_pos hs, if_pos hs, hid]
    change Reads _ v.bytes (keep room ids id)
    unfold keep
    split
    next hroom => exact hread.bind_pure (.pure _)
    next hroom => exact skipping_reads (hf.skippable hv (by decide)) ids
  next hs =>
    rw [if_neg hs, if_neg hs]
    exact skipping_reads hf ids

theorem readExclude_reads (hv : v.Valid) (hf : createFits 0x05 v) :
    Reads (readCreateField defaultCryptoAlg 0x05 r) v.bytes (createStep defaultCryptoAlg 0x05 v r) := by
  obtain ⟨h, items, rfl, hitems⟩ := hf
  refine readArray_reads hv (Reads.bind_pure (loop_reads_items (fun p hp ids => ?_) _) (.pure _))
  obtain ⟨h, es, rfl, hes⟩ := hitems p hp
  have hp := hv.item hp
  exact readMap_reads hp (readDescriptor_reads _ ids hp hes)

theorem readCreateExtension_reads (hv : v.Valid) (hf : createExtensionFits s v) :
    Reads (readCreateExtension s r) v.bytes (createExtensionStep s v r) := by
  unfold createExtensionFits at hf
  unfold readCreateExtension createExtensionStep
  split
  next hs =>
    rw [if_pos (.inl hs)] at hf
    exact (hf.reads hv _).bind_pure (.pure _)
  next hsecret =>
  split
  next hs =>
    subst hs
    rw [if_neg (by decide), if_pos rfl] at hf
    obtain ⟨n, h, rfl, hn⟩ := hf
    cases hv with
    | number type head simple =>
      have hread := readTyped_reads 0 (by omega) head
      rw [if_pos rfl] at hread
      refine hread.bind_pure ?_
      change Reads (if 1 ≤ n ∧ n ≤ 3 then pure { r with requestedCredProtect := n } else skipping r) []
        { r with requestedCredProtect := n }
      rw [if_pos hn]
      exact .pure _
  next hprotect =>
  split
  next hs =>
    rw [if_pos (.inr hs)] at hf
    exact (hf.reads hv _).bind_pure (.pure _)
  next hkey =>
  rw [if_neg (not_or.mpr ⟨hsecret, hkey⟩), if_neg hprotect] at hf
  split at hf
  next hs =>
    obtain ⟨b, hb, -, hread⟩ := hf.reads hv
    rw [if_pos hs, if_pos hs, hb]
    exact hread.bind_pure (.pure _)
  next hs =>
    rw [if_neg hs, if_neg hs]
    exact skipping_reads hf r

theorem readOption_reads (hv : v.Valid) (hf : createFits 0x07 v) :
    Reads (readCreateField defaultCryptoAlg 0x07 r) v.bytes (createStep defaultCryptoAlg 0x07 v r) := by
  obtain ⟨h, es, rfl, hes⟩ := hf
  refine readMap_reads hv (textLoop_reads hv hes (fun s v r hv hf => ?_) r)
  unfold optionFits at hf
  unfold optionStep
  split at hf
  next hs =>
    rw [if_pos hs, if_pos hs]
    exact (hf.reads hv _).bind_pure (.pure _)
  next hs =>
    rw [if_neg hs, if_neg hs]
    exact skipping_reads hf r

/-- Every field of the root takes its value off the input, and only that. -/
theorem readCreateField_reads (hv : v.Valid) (hf : createFits n v) :
    Reads (readCreateField defaultCryptoAlg n r) v.bytes (createStep defaultCryptoAlg n v r) := by
  by_cases h1 : n = 0x01
  · subst h1
    exact readHash_reads r hv hf
  by_cases h2 : n = 0x02
  · subst h2
    exact readRp_reads r hv hf
  by_cases h3 : n = 0x03
  · subst h3
    exact readUser_reads r hv hf
  by_cases h4 : n = 0x04
  · subst h4
    exact readParams_reads r hv hf
  by_cases h5 : n = 0x05
  · subst h5
    exact readExclude_reads r hv hf
  by_cases h6 : n = 0x06
  · subst h6
    obtain ⟨h, es, rfl, hes⟩ := hf
    exact readMap_reads hv (textLoop_reads hv hes (fun s v r hv hf => readCreateExtension_reads r hv hf) r)
  by_cases h7 : n = 0x07
  · subst h7
    exact readOption_reads r hv hf
  · have hskip : Skippable v := by
      unfold createFits at hf
      split at hf <;> first | exact hf | contradiction
    have hread : readCreateField defaultCryptoAlg n r = skipping r := by
      unfold readCreateField
      split <;> first | rfl | contradiction
    have hstep : createStep defaultCryptoAlg n v r = r := by
      unfold createStep
      split <;> first | rfl | contradiction
    rw [hread, hstep]
    exact skipping_reads hskip r

end Create

section Assert

variable {stray : Nat} (r : GetAssertionRequest)

theorem readCount_reads {h : Bytes} {es : List (Datum × Datum)} {f : Nat → Parse GetAssertionRequest}
    {r : GetAssertionRequest} (hv : (Datum.map h es).Valid)
    (hf : Reads (f es.length) (Datum.entryBytes es) r) :
    Reads (readCount stray >>= f) (Datum.map h es).bytes r := by
  cases hv with
  | map head keys values =>
    have hread : Reads (readCount stray) h es.length :=
      (readTypeAndValue_head (by omega) head).bind_pure (.pure _)
    exact hread.bind hf

theorem readSalts_reads (hv : v.Valid) (hf : saltFits n v) :
    Reads (readSalts n r) v.bytes (saltStep n v r) := by
  unfold saltFits at hf
  by_cases h1 : n = 1
  · subst h1
    rw [if_pos (.inl rfl)] at hf
    obtain ⟨b, hb, -, hread⟩ := hf.reads hv
    change Reads _ v.bytes { r with hmacSalt1 := latest (v.str? 2).toList r.hmacSalt1 }
    rw [hb]
    exact hread.bind_pure (.pure _)
  by_cases h2 : n = 2
  · subst h2
    rw [if_pos (.inr rfl)] at hf
    obtain ⟨b, hb, -, hread⟩ := hf.reads hv
    change Reads _ v.bytes { r with hmacSalt2 := latest (v.str? 2).toList r.hmacSalt2 }
    rw [hb]
    exact hread.bind_pure (.pure _)
  · rw [if_neg (not_or.mpr ⟨h1, h2⟩)] at hf
    have hread : readSalts n r = skipping r := by
      unfold readSalts
      split <;> first | rfl | contradiction
    have hstep : saltStep n v r = r := by
      unfold saltStep
      split <;> first | rfl | contradiction
    rw [hread, hstep]
    exact skipping_reads hf r

theorem readAssertExtension_reads (hv : v.Valid) (hf : assertExtensionFits s v) :
    Reads (readAssertExtension stray s r) v.bytes (assertExtensionStep s v r) := by
  unfold assertExtensionFits at hf
  unfold readAssertExtension assertExtensionStep
  refine peek_reads hv ?_
  by_cases hsecret : s = text "hmac-secret"
  · rw [if_pos hsecret] at hf
    rcases hf with ⟨h, es, rfl, hes⟩ | ⟨hother, hskip⟩
    · rw [if_pos ⟨hsecret, rfl⟩, if_pos ⟨hsecret, rfl⟩]
      exact readCount_reads hv (keyedLoop_reads hv hes (fun n v r hv hf => readSalts_reads r hv hf) _)
    · have hno : ¬ (s = text "hmac-secret" ∧ v.major = 5) := fun h => hother h.2
      have hkey : s ≠ text "largeBlobKey" := hsecret ▸ by decide
      have hblob : s ≠ text "credBlob" := hsecret ▸ by decide
      rw [if_neg hno, if_neg hno, if_neg hkey, if_neg hkey, if_neg hblob, if_neg hblob]
      exact skipping_reads hskip r
  · have hno : ¬ (s = text "hmac-secret" ∧ v.major = 5) := fun h => hsecret h.1
    rw [if_neg hsecret] at hf
    rw [if_neg hno, if_neg hno]
    split
    next hkey =>
      rw [if_pos (.inl hkey)] at hf
      exact (hf.reads hv _).bind_pure (.pure _)
    next hkey =>
    split
    next hblob =>
      rw [if_pos (.inr hblob)] at hf
      exact (hf.reads hv _).bind_pure (.pure _)
    next hblob =>
      rw [if_neg (not_or.mpr ⟨hkey, hblob⟩)] at hf
      exact skipping_reads hf r

theorem readAllow_reads (hv : v.Valid) (hf : assertFits 0x03 v) :
    Reads (readAssertField stray 0x03 r) v.bytes (assertStep 0x03 v r) := by
  rcases hf with ⟨h, items, rfl, hitems⟩ | ⟨hhead, hother⟩
  · refine readArray_reads hv (Reads.bind_pure (loop_reads_items (fun p hp ids => ?_) _) (.pure _))
    have hpv := hv.item hp
    rcases hitems p hp with ⟨h, es, rfl, hes⟩ | hn
    · exact readMap_reads hpv (readDescriptor_reads _ ids hpv hes)
    · rw [entries_of_major hn.2]
      exact hn.reads hpv rfl
  · obtain ⟨n, hn, -⟩ := hv.head hhead
    have hread := readTyped_reads 4 hv.major_lt hn
    rw [if_neg hother] at hread
    have hnone : v.items = [] := by
      cases v <;> first | rfl | exact absurd rfl hother
    change Reads _ v.bytes { r with allowCredentialIds := v.items.foldl _ r.allowCredentialIds }
    rw [hnone]
    exact hread.bind_pure (.pure _)

theorem readAssertExtensions_reads (hv : v.Valid) (hf : assertFits 0x04 v) :
    Reads (readAssertField stray 0x04 r) v.bytes (assertStep 0x04 v r) := by
  refine peek_reads hv ?_
  rcases hf with ⟨h, es, rfl, hes⟩ | ⟨hother, hskip⟩
  · rw [if_pos (show (Datum.map h es).major = 5 from rfl)]
    exact readCount_reads hv
      (textLoop_reads hv hes (fun s v r hv hf => readAssertExtension_reads r hv hf) r)
  · rw [if_neg hother]
    change Reads _ v.bytes (v.entries.foldl (namedStep assertExtensionStep) r)
    rw [entries_of_major hother]
    exact skipping_reads hskip r

/-- The options are read and change nothing. -/
theorem readAssertOptions_reads (hv : v.Valid) (hf : assertFits 0x05 v) :
    Reads (readAssertField stray 0x05 r) v.bytes (assertStep 0x05 v r) := by
  obtain ⟨h, es, rfl, hes⟩ := hf
  have hstep : ∀ r e, namedStep (fun _ _ r => r) r e = (r : GetAssertionRequest) := by
    intro r e
    unfold namedStep
    cases e.1.str? 3 <;> rfl
  have hsame : es.foldl (namedStep fun _ _ r => r) r = r := List.foldl_fixed' (hstep r) es
  have hread : Reads (readAssertField stray 0x05 r) (Datum.map h es).bytes
      (es.foldl (namedStep fun _ _ r => r) r) := by
    refine readMap_reads hv (textLoop_reads hv hes (fun s v r hv hf => ?_) r)
    unfold assertOptionFits at hf
    split at hf
    next hs =>
      rw [if_pos hs]
      exact (hf.reads hv _).bind_pure (.pure _)
    next hs =>
      rw [if_neg hs]
      exact skipping_reads hf r
  rwa [hsame] at hread

/-- Every field of the root takes its value off the input, and only that. -/
theorem readAssertField_reads (hv : v.Valid) (hf : assertFits n v) :
    Reads (readAssertField stray n r) v.bytes (assertStep n v r) := by
  by_cases h1 : n = 0x01
  · subst h1
    obtain ⟨t, ht, hread⟩ := TextIn.reads hv hf
    change Reads _ v.bytes { r with targetRpId := latest (v.str? 3).toList r.targetRpId }
    rw [ht]
    exact hread.bind_pure (.pure _)
  by_cases h2 : n = 0x02
  · subst h2
    obtain ⟨b, hb, -, hread⟩ := BytesIn.reads hv hf
    change Reads _ v.bytes { r with clientDataHash := latest (v.str? 2).toList r.clientDataHash }
    rw [hb]
    exact hread.bind_pure (.pure _)
  by_cases h3 : n = 0x03
  · subst h3
    exact readAllow_reads r hv hf
  by_cases h4 : n = 0x04
  · subst h4
    exact readAssertExtensions_reads r hv hf
  by_cases h5 : n = 0x05
  · subst h5
    exact readAssertOptions_reads r hv hf
  · have hskip : Skippable v := by
      unfold assertFits at hf
      split at hf <;> first | exact hf | contradiction
    have hread : readAssertField stray n r = skipping r := by
      unfold readAssertField
      split <;> first | rfl | contradiction
    have hstep : assertStep n v r = r := by
      unfold assertStep
      split <;> first | rfl | contradiction
    rw [hread, hstep]
    exact skipping_reads hskip r

end Assert

/-! Whole requests. -/

/-- Each round of the loop takes one entry off the input, so none begins inside a value. -/
def InStep {ρ : Type} (onEntry : Nat → ρ → Parse ρ) (d : Datum) : Prop :=
  ∀ e ∈ d.entries, ∀ r, ∃ r', Reads (keyedRound onEntry r) (e.1.bytes ++ e.2.bytes) r'

/-- Refused for a missing parameter, or as its map says; the algorithm apart. -/
structure CreateExtracted (defaultCryptoAlg : Int) (d : Datum) : Prop where
  values : let r := parseMakeCredential defaultCryptoAlg d.bytes
    (r.targetRpId = [] ∨ r.userIdRaw = [] ∨ r.clientDataHash.length ≠ 32) ∨
      r = boundCreate { selectedAlgId := r.selectedAlgId } d
  inStep : InStep (readCreateField defaultCryptoAlg) d

structure AssertExtracted (stray : Nat) (d : Datum) : Prop where
  values : ∀ r ∈ parseGetAssertion stray d.bytes,
    (r.targetRpId = [] ∨ r.clientDataHash.length ≠ 32) ∨ r = boundAssert {} d
  inStep : InStep (readAssertField stray) d

theorem inStep_of_fits {ρ : Type} {onEntry : Nat → ρ → Parse ρ} {step : Nat → Datum → ρ → ρ}
    {fits : Nat → Datum → Prop} (hd : d.Valid) (hf : MapOf (Numbered fits) d)
    (hon : ∀ n v r, v.Valid → fits n v → Reads (onEntry n r) v.bytes (step n v r)) : InStep onEntry d := by
  obtain ⟨h, es, rfl, hes⟩ := hf
  cases hd with
  | map head keys values =>
    exact fun e he r => ⟨_, keyedRound_reads (keys e he) (values e he) (hes e he) hon r⟩

theorem parseMakeCredential_fits (defaultCryptoAlg : Int) (hd : d.Valid) (hf : CreateFits d) :
    ∃ a, parseMakeCredential defaultCryptoAlg d.bytes = boundCreate { selectedAlgId := a } d := by
  obtain ⟨⟨h, es, rfl, hes⟩, hfew⟩ := hf
  have hall : parseMakeCredential defaultCryptoAlg ((Datum.map h es).bytes ++ []) =
      es.foldl (numberedStep (createStep defaultCryptoAlg)) { selectedAlgId := defaultCryptoAlg } := by
    unfold parseMakeCredential
    exact congrArg Prod.fst (readMap_reads hd
      (keyedLoop_reads hd hes (fun n v r hv hf => readCreateField_reads r hv hf) _) [])
  rw [List.append_nil, createEntries, foldl_keep _ (by simpa using hfew)] at hall
  exact ⟨((Datum.map h es).atKey 0x04).foldl (fun a v => chosenAlgorithm defaultCryptoAlg v a)
    defaultCryptoAlg, hall⟩

theorem parseGetAssertion_fits (stray : Nat) (hd : d.Valid) (hf : AssertFits d) :
    parseGetAssertion stray d.bytes = some (boundAssert {} d) := by
  obtain ⟨⟨h, es, rfl, hes⟩, hfew⟩ := hf
  have hall : parseGetAssertion stray ((Datum.map h es).bytes ++ []) =
      some (es.foldl (numberedStep assertStep) {}) := by
    have hloop : Reads (keyedLoop (readAssertField stray) es.length {}) (Datum.entryBytes es)
        (es.foldl (numberedStep assertStep) {}) :=
      keyedLoop_reads hd hes (fun n v r hv hf => readAssertField_reads r hv hf) _
    refine congrArg Prod.fst (readMap_reads hd (Reads.bind_pure hloop ?_) [])
    exact .pure _
  rw [List.append_nil, assertEntries, foldl_keep _ (by simpa using hfew)] at hall
  exact hall

/-! Requests of a page "a.b". -/

def numberKey (n : Nat) : Datum := .number 0 n [initialByte 0 n]

def shortText (s : String) : Datum := .string 3 [initialByte 3 (text s).length] (text s)

def sampleHash : Datum := .string 2 [0x58, 0x20] (List.replicate 32 7)

/-- For the user 01 of some name, as a resident credential. -/
def createSample (name : Datum) : Datum :=
  .map [initialByte 5 4]
    [(numberKey 1, sampleHash),
     (numberKey 2, .map [initialByte 5 1] [(shortText "id", shortText "a.b")]),
     (numberKey 3, .map [initialByte 5 2] [(shortText "id", .string 2 [initialByte 2 1] [1]), (shortText "name", name)]),
     (numberKey 7, .map [initialByte 5 1] [(shortText "rk", .number 7 21 [initialByte 7 21])])]

def assertSample : Datum := .map [initialByte 5 2] [(numberKey 1, shortText "a.b"), (numberKey 2, sampleHash)]

/-- A name of 128 bytes, one more than its buffer takes. -/
def longName : Datum := .string 3 [0x78, 0x80] (List.replicate 128 0x61)

theorem numberKey_valid {n : Nat} (hn : n < 24) : (numberKey n).Valid :=
  .number (.inl rfl) (.short hn) fun h => absurd h (by decide)

theorem shortText_valid {s : String} (hs : (text s).length < 24) : (shortText s).Valid :=
  .string (.inr rfl) (.short hs)

theorem sampleHash_valid : sampleHash.Valid := by
  have hwidth : argumentWidth 24 = some [(0x20 : UInt8)].length := rfl
  exact .string (.inl rfl) (.long hwidth)

theorem longName_valid : longName.Valid := by
  have hwidth : argumentWidth 24 = some [(0x80 : UInt8)].length := rfl
  have hhead : Head 3 (List.replicate 128 (0x61 : UInt8)).length [0x78, 0x80] := by
    rw [List.length_replicate]
    exact .long hwidth
  exact .string (.inr rfl) hhead

theorem createSample_valid {name : Datum} (hname : name.Valid) : (createSample name).Valid := by
  have hkey : ∀ {n : Nat}, n < 24 → (numberKey n).Valid := numberKey_valid
  have hid : (shortText "id").Valid := shortText_valid (by decide)
  refine .map (.short (by simp)) ?_ ?_
  · simp only [List.forall_mem_cons, List.not_mem_nil, false_implies, implies_true, and_true]
    exact ⟨hkey (by decide), hkey (by decide), hkey (by decide), hkey (by decide)⟩
  · simp only [List.forall_mem_cons, List.not_mem_nil, false_implies, implies_true, and_true]
    refine ⟨sampleHash_valid, ?_, ?_, ?_⟩
    · refine .map (.short (by simp)) ?_ ?_
      · exact List.forall_mem_singleton.mpr hid
      · exact List.forall_mem_singleton.mpr (shortText_valid (by decide))
    · refine .map (.short (by simp)) ?_ ?_
      · exact List.forall_mem_cons.mpr ⟨hid, List.forall_mem_singleton.mpr (shortText_valid (by decide))⟩
      · exact List.forall_mem_cons.mpr
          ⟨.string (.inl rfl) (.short (by decide)), List.forall_mem_singleton.mpr hname⟩
    · refine .map (.short (by simp)) ?_ ?_
      · exact List.forall_mem_singleton.mpr (shortText_valid (by decide))
      · exact List.forall_mem_singleton.mpr (.number (by decide) (.short (by decide)) (by decide))

theorem assertSample_valid : assertSample.Valid := by
  refine .map (.short (by decide)) ?_ ?_
  · exact List.forall_mem_cons.mpr
      ⟨numberKey_valid (by decide), List.forall_mem_singleton.mpr (numberKey_valid (by decide))⟩
  · exact List.forall_mem_cons.mpr
      ⟨shortText_valid (by decide), List.forall_mem_singleton.mpr sampleHash_valid⟩

theorem numbered_numberKey {fits : Nat → Datum → Prop} (h : fits n v) : Numbered fits (numberKey n) v := by
  refine ⟨rfl, ?_, ?_⟩
  · rintro m ⟨⟩
    exact h
  · rintro ⟨⟩

theorem textIn_shortText {size : Nat} {s : String} (hs : (text s).length < size)
    (h0 : (0 : UInt8) ∉ text s) : TextIn size (shortText s) := ⟨_, _, rfl, hs, h0⟩

theorem named_shortText {size : Nat} {fits : Str → Datum → Prop} {s : String} (hs : (text s).length < size)
    (h0 : (0 : UInt8) ∉ text s) (h : fits (text s) v) : Named size fits (shortText s) v := by
  refine ⟨textIn_shortText hs h0, ?_⟩
  rintro t ⟨⟩
  exact h

theorem sampleHash_fits : BytesIn 32 sampleHash := ⟨_, _, rfl, by simp⟩

theorem createSample_fits : CreateFits (createSample (shortText "bob")) := by
  have hrp : createFits 2 (.map [initialByte 5 1] [(shortText "id", shortText "a.b")]) := by
    refine .inl ⟨_, _, rfl, List.forall_mem_singleton.mpr ?_⟩
    refine named_shortText (by decide) (by decide) ?_
    rw [rpFits, if_pos rfl]
    exact textIn_shortText (by decide) (by decide)
  have huser : createFits 3 (.map [initialByte 5 2]
      [(shortText "id", .string 2 [initialByte 2 1] [1]), (shortText "name", shortText "bob")]) := by
    refine .inl ⟨_, _, rfl, List.forall_mem_cons.mpr ⟨?_, List.forall_mem_singleton.mpr ?_⟩⟩
    · refine named_shortText (by decide) (by decide) ?_
      rw [userFits, if_pos rfl]
      exact ⟨_, _, rfl, by decide⟩
    · refine named_shortText (by decide) (by decide) ?_
      rw [userFits, if_neg (by decide), if_pos rfl]
      exact textIn_shortText (by decide) (by decide)
  have hoptions : createFits 7 (.map [initialByte 5 1] [(shortText "rk", .number 7 21 [initialByte 7 21])]) := by
    refine ⟨_, _, rfl, List.forall_mem_singleton.mpr ?_⟩
    refine named_shortText (by decide) (by decide) ?_
    rw [optionFits, if_pos rfl]
    exact ⟨_, _, rfl, fun _ => rfl⟩
  refine ⟨⟨_, _, rfl, ?_⟩, by decide⟩
  simp only [List.forall_mem_cons, List.not_mem_nil, false_implies, implies_true, and_true]
  exact ⟨numbered_numberKey sampleHash_fits, numbered_numberKey hrp, numbered_numberKey huser, numbered_numberKey hoptions⟩

theorem assertSample_fits : AssertFits assertSample := by
  refine ⟨⟨_, _, rfl, List.forall_mem_cons.mpr ⟨?_, List.forall_mem_singleton.mpr ?_⟩⟩, by decide⟩
  · exact numbered_numberKey (textIn_shortText (by decide) (by decide))
  · exact numbered_numberKey sampleHash_fits

/-- Where every read finds what it is made for, the requests are what their maps say. -/
theorem requests_extracted (defaultCryptoAlg : Int) (stray : Nat) (hd : d.Valid) :
    (CreateFits d → CreateExtracted defaultCryptoAlg d) ∧ (AssertFits d → AssertExtracted stray d) := by
  constructor
  · intro hf
    obtain ⟨a, ha⟩ := parseMakeCredential_fits defaultCryptoAlg hd hf
    refine ⟨.inr ?_, inStep_of_fits hd hf.map fun n v r hv hf => readCreateField_reads r hv hf⟩
    rw [ha]
    rfl
  · intro hf
    refine ⟨fun r hr => .inr ?_, inStep_of_fits hd hf.map fun n v r hv hf => readAssertField_reads r hv hf⟩
    rw [parseGetAssertion_fits stray hd hf] at hr
    exact (Option.some.inj hr).symm

theorem requests_extracted_samples :
    CreateExtracted (-7) (createSample (shortText "bob")) ∧ AssertExtracted 0 assertSample :=
  ⟨(requests_extracted (-7) 0 (createSample_valid (shortText_valid (by decide)))).1 createSample_fits,
    (requests_extracted (-7) 0 assertSample_valid).2 assertSample_fits⟩

/-- After a name that is too long its bytes are read as the keys to come, and the
options are never seen. -/
theorem longName_misread : (createSample longName).Valid ∧ ¬ CreateExtracted (-7) (createSample longName) := by
  refine ⟨createSample_valid longName_valid, fun h => ?_⟩
  have hrefused : ¬ ((parseMakeCredential (-7) (createSample longName).bytes).targetRpId = [] ∨
      (parseMakeCredential (-7) (createSample longName).bytes).userIdRaw = [] ∨
      (parseMakeCredential (-7) (createSample longName).bytes).clientDataHash.length ≠ 32) := by
    decide +kernel
  have hrk : (parseMakeCredential (-7) (createSample longName).bytes).optionRK = false := by decide +kernel
  have hbound := congrArg MakeCredentialRequest.optionRK (h.values.resolve_left hrefused)
  rw [hrk] at hbound
  exact absurd hbound (by decide)

end GoiKey
