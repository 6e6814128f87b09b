import GoiKey.Proofs.TypedReads

/-!
The values a request's map binds to the keys of a command, read off the tree, and
how they add up entry by entry.
-/

namespace GoiKey

open CborGrammar

variable {α : Type} {h : Bytes} {es : List (Datum × Datum)} {e : Datum × Datum} {d : Datum}

/-- The last of these, or the one from before them. -/
def latest (l : List α) (before : α) : α := l.foldl (fun _ a => a) before

@[simp] theorem latest_nil (before : α) : latest [] before = before := rfl

@[simp] theorem latest_cons (a : α) (l : List α) (before : α) : latest (a :: l) before = latest l a := rfl

@[simp] theorem latest_append (l l' : List α) (before : α) :
    latest (l ++ l') before = latest l' (latest l before) := List.foldl_append

/-- The strings of a type among these. -/
def strings (major : Nat) (l : List Datum) : List Bytes := l.filterMap (Datum.str? major)

/-- The values under a name, in the maps under a key. -/
def member (k : Nat) (name : String) (d : Datum) : List Datum :=
  (d.atKey k).flatMap (Datum.atName (text name))

/-- The ids of an array of credential descriptors. -/
def descriptorIds (d : Datum) : List Bytes := strings 2 (d.items.flatMap (Datum.atName (text "id")))

/-- A MakeCredential request with the values its map binds; where it binds nothing,
what was there before. -/
def boundCreate (before : MakeCredentialRequest) (d : Datum) : MakeCredentialRequest where
  optionRK := latest ((member 0x07 "rk" d).map Datum.isTrue) before.optionRK
  targetRpId := latest (strings 3 (member 0x02 "id" d)) before.targetRpId
  clientDataHash := latest (strings 2 (d.atKey 0x01)) before.clientDataHash
  userIdRaw := latest (strings 2 (member 0x03 "id" d)) before.userIdRaw
  userName := latest (strings 3 (member 0x03 "name" d)) before.userName
  hmacSecretRequested := latest ((member 0x06 "hmac-secret" d).map Datum.isTrue) before.hmacSecretRequested
  selectedAlgId := before.selectedAlgId
  requestedCredProtect :=
    latest ((member 0x06 "credProtect" d).filterMap Datum.uint?) before.requestedCredProtect
  largeBlobKeyRequested :=
    latest ((member 0x06 "largeBlobKey" d).map Datum.isTrue) before.largeBlobKeyRequested
  credBlobRequested := latest ((member 0x06 "credBlob" d).map fun _ => true) before.credBlobRequested
  credBlobRaw := latest (strings 2 (member 0x06 "credBlob" d)) before.credBlobRaw
  excludeCredentialIds := before.excludeCredentialIds ++ (d.atKey 0x05).flatMap descriptorIds

/-- A GetAssertion request with the values its map binds. -/
def boundAssert (before : GetAssertionRequest) (d : Datum) : GetAssertionRequest where
  targetRpId := latest (strings 3 (d.atKey 0x01)) before.targetRpId
  clientDataHash := latest (strings 2 (d.atKey 0x02)) before.clientDataHash
  allowCredentialIds := before.allowCredentialIds ++ (d.atKey 0x03).flatMap descriptorIds
  extensionRequested := latest
    (((member 0x04 "hmac-secret" d).filter fun v => v.major == 5).map fun _ => true) before.extensionRequested
  hmacSalt1 := latest (strings 2 ((member 0x04 "hmac-secret" d).flatMap (Datum.atKey 1))) before.hmacSalt1
  hmacSalt2 := latest (strings 2 ((member 0x04 "hmac-secret" d).flatMap (Datum.atKey 2))) before.hmacSalt2
  largeBlobKeyRequested :=
    latest ((member 0x04 "largeBlobKey" d).map Datum.isTrue) before.largeBlobKeyRequested
  credBlobRequested := latest ((member 0x04 "credBlob" d).map Datum.isTrue) before.credBlobRequested

/-! Entry by entry. -/

@[simp] theorem strings_nil (major : Nat) : strings major [] = [] := rfl

@[simp] theorem strings_append (major : Nat) (l l' : List Datum) :
    strings major (l ++ l') = strings major l ++ strings major l' := List.filterMap_append

@[simp] theorem strings_cons (major : Nat) (d : Datum) (l : List Datum) :
    strings major (d :: l) = (d.str? major).toList ++ strings major l := by
  cases hd : d.str? major <;> simp [strings, hd]

@[simp] theorem atKey_nil (k : Nat) : (Datum.map h []).atKey k = [] := rfl

@[simp] theorem atKey_cons (k : Nat) : (Datum.map h (e :: es)).atKey k =
    (if e.1.uint? = some k then [e.2] else []) ++ (Datum.map h es).atKey k := by
  simp [Datum.atKey, Datum.bound, Datum.entries]

@[simp] theorem atName_nil (name : Bytes) : (Datum.map h []).atName name = [] := rfl

@[simp] theorem atName_cons (name : Bytes) : (Datum.map h (e :: es)).atName name =
    (if e.1.str? 3 = some name then [e.2] else []) ++ (Datum.map h es).atName name := by
  simp [Datum.atName, Datum.bound, Datum.entries]

@[simp] theorem atKey_entries (k : Nat) : (Datum.map h d.entries).atKey k = d.atKey k := rfl

@[simp] theorem atName_entries (name : Bytes) : (Datum.map h d.entries).atName name = d.atName name := rfl

@[simp] theorem member_nil (k : Nat) (name : String) : member k name (.map h []) = [] := rfl

@[simp] theorem member_cons (k : Nat) (name : String) : member k name (.map h (e :: es)) =
    (if e.1.uint? = some k then e.2.atName (text name) else []) ++ member k name (.map h es) := by
  unfold member
  rw [atKey_cons, List.flatMap_append]
  split <;> simp

/-! MakeCredential. -/

section Create

def rpStep (s : Str) (v : Datum) (r : MakeCredentialRequest) : MakeCredentialRequest :=
  if s = text "id" then { r with targetRpId := latest (v.str? 3).toList r.targetRpId } else r

def userStep (s : Str) (v : Datum) (r : MakeCredentialRequest) : MakeCredentialRequest :=
  if s = text "id" then { r with userIdRaw := latest (v.str? 2).toList r.userIdRaw }
  else if s = text "name" then { r with userName := latest (v.str? 3).toList r.userName }
  else r

def createExtensionStep (s : Str) (v : Datum) (r : MakeCredentialRequest) : MakeCredentialRequest :=
  if s = text "hmac-secret" then { r with hmacSecretRequested := v.isTrue }
  else if s = text "credProtect" then
    { r with requestedCredProtect := latest v.uint?.toList r.requestedCredProtect }
  else if s = text "largeBlobKey" then { r with largeBlobKeyRequested := v.isTrue }
  else if s = text "credBlob" then
    { r with credBlobRaw := latest (v.str? 2).toList r.credBlobRaw, credBlobRequested := true }
  else r

/-- The algorithm that a number names, its value as an `int`. -/
def algorithmOf (int : Nat → Int) (v : Datum) (alg : Int) : Int :=
  match v with
  | .number 0 v _ => int v
  | .number 1 v _ => -1 - int v
  | _ => alg

def algorithmStep (s : Str) (v : Datum) (alg : Int) : Int :=
  if s = text "alg" then algorithmOf toInt32 v alg else alg

/-- The algorithm chosen among the parameters of an array. -/
def chosenAlgorithm (defaultCryptoAlg : Int) (d : Datum) (selected : Int) : Int :=
  (d.items.foldl (fun c p => AlgorithmChoice.offer c defaultCryptoAlg
    (p.entries.foldl (namedStep algorithmStep) 0)) { selectedAlgId := selected }).selectedAlgId

/-- One more id, while there is room for it. -/
def keep (room : Nat) (ids : List Bytes) (id : Bytes) : List Bytes :=
  if ids.length < room then ids ++ [id] else ids

def descriptorStep (room : Nat) (s : Str) (v : Datum) (ids : List Bytes) : List Bytes :=
  if s = text "id" then (v.str? 2).toList.foldl (keep room) ids else ids

def optionStep (s : Str) (v : Datum) (r : MakeCredentialRequest) : MakeCredentialRequest :=
  if s = text "rk" then { r with optionRK := v.isTrue } else r

def createStep (defaultCryptoAlg : Int) (n : Nat) (v : Datum) (r : MakeCredentialRequest) :
    MakeCredentialRequest :=
  match n with
  | 0x01 => { r with clientDataHash := latest (v.str? 2).toList r.clientDataHash }
  | 0x02 => v.entries.foldl (namedStep rpStep) r
  | 0x03 => v.entries.foldl (namedStep userStep) r
  | 0x04 => { r with selectedAlgId := chosenAlgorithm defaultCryptoAlg v r.selectedAlgId }
  | 0x05 => { r with
      excludeCredentialIds := v.items.foldl
        (fun ids d => d.entries.foldl (namedStep (descriptorStep maxExcludeCredentials)) ids)
        r.excludeCredentialIds }
  | 0x06 => v.entries.foldl (namedStep createExtensionStep) r
  | 0x07 => v.entries.foldl (namedStep optionStep) r
  | _ => r

/-- The ids of one descriptor after another, whatever is done with each. -/
theorem idEntries {step : Str → Datum → List Bytes → List Bytes} {f : List Bytes → Bytes → List Bytes}
    (hstep : ∀ s v ids, step s v ids = if s = text "id" then (v.str? 2).toList.foldl f ids else ids)
    (h : Bytes) (es : List (Datum × Datum)) (ids : List Bytes) :
    es.foldl (namedStep step) ids = (strings 2 ((Datum.map h es).atName (text "id"))).foldl f ids := by
  induction es generalizing ids with
  | nil => rfl
  | cons e es ih =>
    rw [List.foldl_cons, ih]
    unfold namedStep
    cases hk : e.1.str? 3 with
    | none => simp [hk]
    | some s =>
      by_cases hs : s = text "id"
      · simp [hk, hs, hstep]
      · simp [hk, hs, hstep]

theorem descriptors {step : Str → Datum → List Bytes → List Bytes} {f : List Bytes → Bytes → List Bytes}
    (hstep : ∀ s v ids, step s v ids = if s = text "id" then (v.str? 2).toList.foldl f ids else ids)
    (items : List Datum) (ids : List Bytes) :
    items.foldl (fun ids d => d.entries.foldl (namedStep step) ids) ids =
      (strings 2 (items.flatMap (Datum.atName (text "id")))).foldl f ids := by
  induction items generalizing ids with
  | nil => rfl
  | cons d items ih =>
    rw [List.foldl_cons, ih, idEntries hstep [], List.flatMap_cons, strings_append, List.foldl_append]
    rfl

theorem descriptorStep_eq (room : Nat) (s : Str) (v : Datum) (ids : List Bytes) :
    descriptorStep room s v ids
      = if s = text "id" then (v.str? 2).toList.foldl (keep room) ids else ids := rfl

/-- There was room for all of them. -/
theorem foldl_keep {room : Nat} (l : List Bytes) {ids : List Bytes} (hroom : ids.length + l.length ≤ room) :
    l.foldl (keep room) ids = ids ++ l := by
  induction l generalizing ids with
  | nil => simp
  | cons id l ih =>
    rw [List.length_cons] at hroom
    rw [List.foldl_cons, keep, if_pos (by omega), ih (by simp; omega)]
    simp

variable (r : MakeCredentialRequest)

theorem rpEntries (h : Bytes) (es : List (Datum × Datum)) : es.foldl (namedStep rpStep) r =
    { r with targetRpId := latest (strings 3 ((Datum.map h es).atName (text "id"))) r.targetRpId } := by
  induction es generalizing r with
  | nil => rfl
  | cons e es ih =>
    rw [List.foldl_cons, ih]
    unfold namedStep
    cases hk : e.1.str? 3 with
    | none => simp [hk]
    | some s =>
      by_cases hs : s = text "id"
      · simp [hk, hs, rpStep]
      · simp [hk, hs, rpStep]

theorem userEntries (h : Bytes) (es : List (Datum × Datum)) : es.foldl (namedStep userStep) r =
    { r with
      userIdRaw := latest (strings 2 ((Datum.map h es).atName (text "id"))) r.userIdRaw
      userName := latest (strings 3 ((Datum.map h es).atName (text "name"))) r.userName } := by
  induction es generalizing r with
  | nil => rfl
  | cons e es ih =>
    rw [List.foldl_cons, ih]
    unfold namedStep
    cases hk : e.1.str? 3 with
    | none => simp [hk]
    | some s =>
      by_cases hid : s = text "id"
      · simp +decide [hk, hid, userStep]
      by_cases hname : s = text "name"
      · simp +decide [hk, hname, userStep]
      · simp [hk, hid, hname, userStep]

theorem createExtensionEntries (h : Bytes) (es : List (Datum × Datum)) :
    es.foldl (namedStep createExtensionStep) r =
      { r with
        hmacSecretRequested := latest
          (((Datum.map h es).atName (text "hmac-secret")).map Datum.isTrue) r.hmacSecretRequested
        requestedCredProtect := latest
          (((Datum.map h es).atName (text "credProtect")).filterMap Datum.uint?) r.requestedCredProtect
        largeBlobKeyRequested := latest
          (((Datum.map h es).atName (text "largeBlobKey")).map Datum.isTrue) r.largeBlobKeyRequested
        credBlobRequested := latest
          (((Datum.map h es).atName (text "credBlob")).map fun _ => true) r.credBlobRequested
        credBlobRaw := latest (strings 2 ((Datum.map h es).atName (text "credBlob"))) r.credBlobRaw } := by
  induction es generalizing r with
  | nil => rfl
  | cons e es ih =>
    rw [List.foldl_cons, ih]
    unfold namedStep
    cases hk : e.1.str? 3 with
    | none => simp [hk]
    | some s =>
      by_cases hsecret : s = text "hmac-secret"
      · simp +decide [hk, hsecret, createExtensionStep]
      by_cases hprotect : s = text "credProtect"
      · cases hv : e.2.uint? <;> simp +decide [hk, hv, hprotect, createExtensionStep]
      by_cases hkey : s = text "largeBlobKey"
      · simp +decide [hk, hkey, createExtensionStep]
      by_cases hblob : s = text "credBlob"
      · simp +decide [hk, hblob, createExtensionStep]
      · simp [hk, hsecret, hprotect, hkey, hblob, createExtensionStep]

theorem optionEntries (h : Bytes) (es : List (Datum × Datum)) : es.foldl (namedStep optionStep) r =
    { r with optionRK := latest (((Datum.map h es).atName (text "rk")).map Datum.isTrue) r.optionRK } := by
  induction es generalizing r with
  | nil => rfl
  | cons e es ih =>
    rw [List.foldl_cons, ih]
    unfold namedStep
    cases hk : e.1.str? 3 with
    | none => simp [hk]
    | some s =>
      by_cases hs : s = text "rk"
      · simp [hk, hs, optionStep]
      · simp [hk, hs, optionStep]

/-- By induction on the entries: each field is the last value bound to it, and the
lists grow while there is room. -/
theorem createEntries (defaultCryptoAlg : Int) (h : Bytes) (es : List (Datum × Datum)) :
    es.foldl (numberedStep (createStep defaultCryptoAlg)) r =
      { boundCreate r (.map h es) with
        selectedAlgId := ((Datum.map h es).atKey 0x04).foldl
          (fun a v => chosenAlgorithm defaultCryptoAlg v a) r.selectedAlgId
        excludeCredentialIds := (((Datum.map h es).atKey 0x05).flatMap descriptorIds).foldl
          (keep maxExcludeCredentials) r.excludeCredentialIds } := by
  induction es generalizing r with
  | nil => simp [boundCreate]
  | cons e es ih =>
    rw [List.foldl_cons, ih]
    unfold numberedStep
    cases hk : e.1.uint? with
    | none => simp [boundCreate, hk]
    | some n =>
      rw [Option.elim_some]
      unfold createStep
      split
      · simp [boundCreate, hk]
      · rw [rpEntries r []]
        simp [boundCreate, hk]
      · rw [userEntries r []]
        simp [boundCreate, hk]
      · simp [boundCreate, hk]
      · rw [descriptors (descriptorStep_eq _)]
        simp [boundCreate, hk, descriptorIds]
      · rw [createExtensionEntries r []]
        simp [boundCreate, hk]
        rw [List.replicate_add, latest_append]
      · rw [optionEntries r []]
        simp [boundCreate, hk]
      next h1 h2 h3 h4 h5 h6 h7 =>
        simp [boundCreate, hk, Ne.intro h1, Ne.intro h2, Ne.intro h3, Ne.intro h4, Ne.intro h5, Ne.intro h6,
          Ne.intro h7]

end Create

/-! GetAssertion. -/

section Assert

def saltStep (n : Nat) (v : Datum) (r : GetAssertionRequest) : GetAssertionRequest :=
  match n with
  | 1 => { r with hmacSalt1 := latest (v.str? 2).toList r.hmacSalt1 }
  | 2 => { r with hmacSalt2 := latest (v.str? 2).toList r.hmacSalt2 }
  | _ => r

def assertExtensionStep (s : Str) (v : Datum) (r : GetAssertionRequest) : GetAssertionRequest :=
  if s = text "hmac-secret" ∧ v.major = 5 then
    v.entries.foldl (numberedStep saltStep) { r with extensionRequested := true }
  else if s = text "largeBlobKey" then { r with largeBlobKeyRequested := v.isTrue }
  else if s = text "credBlob" then { r with credBlobRequested := v.isTrue }
  else r

def assertStep (n : Nat) (v : Datum) (r : GetAssertionRequest) : GetAssertionRequest :=
  match n with
  | 0x01 => { r with targetRpId := latest (v.str? 3).toList r.targetRpId }
  | 0x02 => { r with clientDataHash := latest (v.str? 2).toList r.clientDataHash }
  | 0x03 => { r with
      allowCredentialIds := v.items.foldl
        (fun ids d => d.entries.foldl (namedStep (descriptorStep maxAllowCredentials)) ids)
        r.allowCredentialIds }
  | 0x04 => v.entries.foldl (namedStep assertExtensionStep) r
  | _ => r

variable (r : GetAssertionRequest)

theorem saltEntries (h : Bytes) (es : List (Datum × Datum)) : es.foldl (numberedStep saltStep) r =
    { r with
      hmacSalt1 := latest (strings 2 ((Datum.map h es).atKey 1)) r.hmacSalt1
      hmacSalt2 := latest (strings 2 ((Datum.map h es).atKey 2)) r.hmacSalt2 } := by
  induction es generalizing r with
  | nil => rfl
  | cons e es ih =>
    rw [List.foldl_cons, ih]
    unfold numberedStep
    cases hk : e.1.uint? with
    | none => simp [hk]
    | some n =>
      rw [Option.elim_some]
      unfold saltStep
      split
      · simp [hk]
      · simp [hk]
      next h1 h2 => simp [hk, Ne.intro h1, Ne.intro h2]

/-- Only a map has entries. -/
theorem entries_of_major (hd : d.major ≠ 5) : d.entries = [] := by
  cases d <;> first | rfl | exact absurd rfl hd

theorem assertExtensionEntries (h : Bytes) (es : List (Datum × Datum)) :
    es.foldl (namedStep assertExtensionStep) r =
      { r with
        extensionRequested := latest ((((Datum.map h es).atName (text "hmac-secret")).filter
          fun v => v.major == 5).map fun _ => true) r.extensionRequested
        hmacSalt1 := latest (strings 2
          (((Datum.map h es).atName (text "hmac-secret")).flatMap (Datum.atKey 1))) r.hmacSalt1
        hmacSalt2 := latest (strings 2
          (((Datum.map h es).atName (text "hmac-secret")).flatMap (Datum.atKey 2))) r.hmacSalt2
        largeBlobKeyRequested := latest
          (((Datum.map h es).atName (text "largeBlobKey")).map Datum.isTrue) r.largeBlobKeyRequested
        credBlobRequested := latest
          (((Datum.map h es).atName (text "credBlob")).map Datum.isTrue) r.credBlobRequested } := by
  induction es generalizing r with
  | nil => rfl
  | cons e es ih =>
    rw [List.foldl_cons, ih]
    unfold namedStep
    cases hk : e.1.str? 3 with
    | none => simp [hk]
    | some s =>
      rw [Option.elim_some]
      by_cases hsecret : s = text "hmac-secret"
      · by_cases hmap : e.2.major = 5
        · rw [assertExtensionStep, if_pos ⟨hsecret, hmap⟩, saltEntries _ []]
          simp +decide [hk, hsecret, hmap]
        · have hnone := entries_of_major hmap
          simp +decide [hk, hsecret, hmap, assertExtensionStep, Datum.atKey, Datum.bound, hnone]
      by_cases hkey : s = text "largeBlobKey"
      · simp +decide [hk, hkey, assertExtensionStep]
      by_cases hblob : s = text "credBlob"
      · simp +decide [hk, hblob, assertExtensionStep]
      · simp [hk, hsecret, hkey, hblob, assertExtensionStep]

theorem assertEntries (h : Bytes) (es : List (Datum × Datum)) :
    es.foldl (numberedStep assertStep) r =
      { boundAssert r (.map h es) with
        allowCredentialIds := (((Datum.map h es).atKey 0x03).flatMap descriptorIds).foldl
          (keep maxAllowCredentials) r.allowCredentialIds } := by
  induction es generalizing r with
  | nil => simp [boundAssert]
  | cons e es ih =>
    rw [List.foldl_cons, ih]
    unfold numberedStep
    cases hk : e.1.uint? with
    | none => simp [boundAssert, hk]
    | some n =>
      rw [Option.elim_some]
      unfold assertStep
      split
      · simp [boundAssert, hk]
      · simp [boundAssert, hk]
      · rw [descriptors (descriptorStep_eq _)]
        simp [boundAssert, hk, descriptorIds]
      · rw [assertExtensionEntries r []]
        simp [boundAssert, hk]
        rw [List.replicate_add, latest_append]
      next h1 h2 h3 h4 =>
        simp [boundAssert, hk, Ne.intro h1, Ne.intro h2, Ne.intro h3, Ne.intro h4]

end Assert

end GoiKey
