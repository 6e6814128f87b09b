import GoiKey.Model.Requests
import GoiKey.Proofs.Advances

/-!
The request parsers once more, as programs whose loops can be looked into, and that
they are the parsers.
-/

namespace GoiKey.Looped

open LoopProg

variable {ρ : Type}

abbrev Program := Prog UInt8

/-! What is read. -/

def head : Taking UInt8 (Option (Nat × Nat)) := ⟨readTypeAndValue, readTypeAndValue_shrinks⟩

def typed (major : Nat) : Taking UInt8 (Option Nat) := ⟨readTyped major, readTyped_shrinks⟩

def byteString (maxLen : Nat) : Taking UInt8 (Option Bytes) := ⟨readByteString maxLen, readString_shrinks⟩

def textString (maxLen : Nat) : Taking UInt8 (Option Str) := ⟨readTextString maxLen, readTextString_shrinks⟩

def skipped : Taking UInt8 Unit := ⟨skip, skip_shrinks⟩

def nothing : Taking UInt8 Unit := ⟨return, .pure ()⟩

def flag (old : Bool) : Taking UInt8 Bool := ⟨readFlag old, readFlag_shrinks⟩

def peeked : Taking UInt8 Nat := ⟨peekMajorType, peekMajorType_shrinks⟩

/-- A head of a major type; a round that finds another goes on with this. -/
def headKey (major : Nat) (otherwise : Taking UInt8 Unit) : Key UInt8 Nat where
  read := typed major
  missed := some otherwise
  feeds b := !b.isEmpty
  found b v h := by
    have hb : b ≠ [] := by
      rintro rfl
      cases h
    exact ⟨readTyped_less hb, by simpa using hb⟩
  replaced b m hm h := by
    obtain rfl := Option.some.inj hm
    have hrest := otherwise.shrinks (readTyped major b).2
    constructor
    · intro hless
      have hlen : 0 < b.length := Nat.lt_of_le_of_lt (Nat.zero_le _) hless
      simpa using List.ne_nil_of_length_pos hlen
    · intro hb
      exact Nat.lt_of_le_of_lt hrest (readTyped_less (by simpa using hb))
  leaves h := by cases h

/-- A text key; a round that finds none skips a value. -/
def textKey (size : Nat) : Key UInt8 Str where
  read := textString size
  missed := some skipped
  feeds b := !b.isEmpty
  found b v h := by
    have hless : (readTextString size b).2.length < b.length := readTextString_some h
    have hlen : 0 < b.length := Nat.lt_of_le_of_lt (Nat.zero_le _) hless
    exact ⟨hless, by simpa using List.ne_nil_of_length_pos hlen⟩
  replaced b m hm h := by
    obtain rfl := Option.some.inj hm
    have hrest : (readTextString size b).2 = b := readTextString_none h
    change ((skip (readTextString size b).2).2.length < b.length ↔ _)
    rw [hrest]
    constructor
    · intro hless
      have hlen : 0 < b.length := Nat.lt_of_le_of_lt (Nat.zero_le _) hless
      simpa using List.ne_nil_of_length_pos hlen
    · intro hb
      exact skip_less (by simpa using hb)
  leaves h := by cases h

/-- A text key; a round that finds none does nothing. -/
def bareTextKey (size : Nat) : Key UInt8 Str where
  read := textString size
  missed := some nothing
  feeds b := (readTextString size b).1.isSome
  found b v h := by
    have hkey : (readTextString size b).1 = some v := h
    refine ⟨readTextString_some h, ?_⟩
    rw [hkey]
    rfl
  replaced b m hm h := by
    obtain rfl := Option.some.inj hm
    have hnone : (readTextString size b).1 = none := h
    change ((readTextString size b).2.length < b.length ↔ (readTextString size b).1.isSome = true)
    rw [readTextString_none hnone, hnone]
    simp
  leaves h := by cases h

/-- Any head; a round that finds none leaves the loop. -/
def coseLabel : Key UInt8 (Nat × Nat) where
  read := head
  missed := none
  feeds _ := true
  found b v h := by
    have hb : b ≠ [] := by
      rintro rfl
      cases h
    exact ⟨readTypeAndValue_less hb, rfl⟩
  replaced b m hm := by cases hm
  leaves _ _ := rfl

/-! The parsers. -/

def skipping (r : ρ) : Program ρ := do
  .read skipped
  return r

def loop {κ : Type} (key : Key UInt8 κ) (onEntry : κ → ρ → Program ρ) (n : Nat) (r : ρ) : Program ρ :=
  .loop key onEntry n r fun _ r => return r

def keyedLoop (onEntry : Nat → ρ → Program ρ) : Nat → ρ → Program ρ := loop (headKey 0 skipped) onEntry

def parseMap (onEntry : Nat → ρ → Program ρ) (r : ρ) : Program (Option ρ) := do
  match ← .read (typed 5) with
  | some n => return some (← keyedLoop onEntry n r)
  | none => return none

def readDescriptor (room : Nat) (n : Nat) (ids : List Bytes) : Program (List Bytes) :=
  loop (textKey 32) (fun key ids => do
    if key = text "id" then
      if ids.length < room then
        match ← .read (byteString maxCredentialIdLen) with
        | some id => return ids ++ [id]
        | none => skipping ids
      else skipping ids
    else skipping ids) n ids

/-! MakeCredential. -/

def readAlgorithm (n : Nat) : Program Int :=
  loop (textKey 32) (fun key alg => do
    if key = text "alg" then
      match ← .read head with
      | some (0, v) => return toInt32 v
      | some (1, v) => return -1 - toInt32 v
      | _ => return alg
    else skipping alg) n 0

def readAlgorithms (defaultCryptoAlg : Int) (n : Nat) (c : AlgorithmChoice) : Program AlgorithmChoice :=
  loop (headKey 5 skipped) (fun m c => do return c.offer defaultCryptoAlg (← readAlgorithm m)) n c

def readCreateExtension (key : Str) (r : MakeCredentialRequest) : Program MakeCredentialRequest := do
  if key = text "hmac-secret" then
    return { r with hmacSecretRequested := ← .read (flag r.hmacSecretRequested) }
  else if key = text "credProtect" then
    match ← .read (typed 0) with
    | some v =>
      if 1 ≤ v ∧ v ≤ 3 then return { r with requestedCredProtect := v } else skipping r
    | none => skipping r
  else if key = text "largeBlobKey" then
    return { r with largeBlobKeyRequested := ← .read (flag r.largeBlobKeyRequested) }
  else if key = text "credBlob" then
    match ← .read (byteString 32) with
    | some b => return { r with credBlobRaw := b, credBlobRequested := true }
    | none => skipping { r with credBlobRaw := [], credBlobRequested := true }
  else skipping r

def readCreateField (defaultCryptoAlg : Int) (key : Nat) (r : MakeCredentialRequest) :
    Program MakeCredentialRequest := do
  match key with
  | 0x01 =>
    match ← .read (byteString 32) with
    | some b => return { r with clientDataHash := b }
    | none => return r
  | 0x02 =>
    match ← .read (typed 5) with
    | some n =>
      loop (bareTextKey 32) (fun sub r => do
        if sub = text "id" then
          match ← .read (textString 128) with
          | some t => return { r with targetRpId := t }
          | none => return r
        else skipping r) n r
    | none => return r
  | 0x03 =>
    match ← .read (typed 5) with
    | some n =>
      loop (bareTextKey 32) (fun sub r => do
        if sub = text "id" then
          match ← .read (byteString 64) with
          | some b => return { r with userIdRaw := b }
          | none => return r
        else if sub = text "name" then
          match ← .read (textString 128) with
          | some t => return { r with userName := t }
          | none => return r
        else skipping r) n r
    | none => return r
  | 0x04 =>
    match ← .read (typed 4) with
    | some n =>
      let c ← readAlgorithms defaultCryptoAlg n { selectedAlgId := r.selectedAlgId }
      return { r with selectedAlgId := c.selectedAlgId }
    | none => skipping r
  | 0x05 =>
    match ← .read (typed 4) with
    | some n =>
      let ids ← loop (headKey 5 skipped) (fun m ids => readDescriptor maxExcludeCredentials m ids)
        n r.excludeCredentialIds
      return { r with excludeCredentialIds := ids }
    | none => skipping r
  | 0x06 =>
    match ← .read (typed 5) with
    | some n => loop (textKey 32) readCreateExtension n r
    | none => skipping r
  | 0x07 =>
    match ← .read (typed 5) with
    | some n =>
      loop (textKey 32) (fun opt r => do
        if opt = text "rk" then return { r with optionRK := ← .read (flag r.optionRK) }
        else skipping r) n r
    | none => skipping r
  | _ => skipping r

def parseMakeCredential (defaultCryptoAlg : Int) : Program MakeCredentialRequest := do
  let r : MakeCredentialRequest := { selectedAlgId := defaultCryptoAlg }
  match ← .read (typed 5) with
  | some n => keyedLoop (readCreateField defaultCryptoAlg) n r
  | none => return r

/-! GetAssertion. -/

def readCount (stray : Nat) : Program Nat := do
  match ← .read head with
  | some (_, v) => return v
  | none => return stray

def readSalts (key : Nat) (r : GetAssertionRequest) : Program GetAssertionRequest := do
  match key with
  | 1 =>
    match ← .read (byteString 32) with
    | some b => return { r with hmacSalt1 := b }
    | none => return r
  | 2 =>
    match ← .read (byteString 32) with
    | some b => return { r with hmacSalt2 := b }
    | none => return r
  | _ => skipping r

def readAssertExtension (stray : Nat) (key : Str) (r : GetAssertionRequest) :
    Program GetAssertionRequest := do
  if key = text "hmac-secret" ∧ (← .read peeked) = 5 then
    let n ← readCount stray
    keyedLoop readSalts n { r with extensionRequested := true }
  else if key = text "largeBlobKey" then
    return { r with largeBlobKeyRequested := ← .read (flag r.largeBlobKeyRequested) }
  else if key = text "credBlob" then
    return { r with credBlobRequested := ← .read (flag r.credBlobRequested) }
  else skipping r

def readAssertField (stray : Nat) (key : Nat) (r : GetAssertionRequest) :
    Program GetAssertionRequest := do
  match key with
  | 0x01 =>
    match ← .read (textString 128) with
    | some t => return { r with targetRpId := t }
    | none => return r
  | 0x02 =>
    match ← .read (byteString 32) with
    | some b => return { r with clientDataHash := b }
    | none => return r
  | 0x03 =>
    match ← .read (typed 4) with
    | some n =>
      let ids ← loop (headKey 5 nothing) (fun m ids => readDescriptor maxAllowCredentials m ids)
        n r.allowCredentialIds
      return { r with allowCredentialIds := ids }
    | none => return r
  | 0x04 =>
    if (← .read peeked) = 5 then
      let n ← readCount stray
      loop (textKey 32) (readAssertExtension stray) n r
    else skipping r
  | 0x05 =>
    match ← .read (typed 5) with
    | some n =>
      loop (textKey 32) (fun opt r => do
        if opt = text "up" ∨ opt = text "uv" then
          let _ ← .read (flag true)
          return r
        else skipping r) n r
    | none => skipping r
  | _ => skipping r

def parseGetAssertion (stray : Nat) : Program (Option GetAssertionRequest) := parseMap (readAssertField stray) {}

/-! AuthenticatorClientPIN. -/

/-- One coordinate; another length than 32 costs the value after it. -/
def readCoordinate : Program (Option Bytes) := do
  match ← .read (byteString 32) with
  | some b => if b.length = 32 then return some b else skipping none
  | none => skipping none

def coseKeyEntry (label : Nat × Nat) (r : Option Bytes × Option Bytes) : Program (Option Bytes × Option Bytes) := do
  match label with
  | (1, 1) => return ((← readCoordinate) <|> r.1, r.2)
  | (1, 2) => return (r.1, (← readCoordinate) <|> r.2)
  | _ => skipping r

/-- The two coordinates of a key, if its loop was not left. -/
def coordinates (left : Bool) (r : Option Bytes × Option Bytes) : Option Bytes :=
  if left then none else do return (← r.1) ++ (← r.2)

def parseCoseKeyPubXY : Program (Option Bytes) := do
  match ← .read (typed 5) with
  | some n => .loop coseLabel coseKeyEntry n (none, none) fun left r => return coordinates left r
  | none => return none

def readAny (old : Nat) : Program Nat := do
  match ← .read head with
  | some (_, v) => return v
  | none => skipping old

def readBytesOr (maxLen : Nat) (old : Bytes) : Program Bytes := do
  match ← .read (byteString maxLen) with
  | some b => return b
  | none => skipping old

def readPinField (key : Nat) (r : ClientPinRequest) : Program ClientPinRequest := do
  match key with
  | 0x01 =>
    let _ ← readAny 0
    return r
  | 0x02 => return { r with subCommand := ← readAny r.subCommand }
  | 0x03 => return { r with keyAgreement := ← parseCoseKeyPubXY }
  | 0x04 => return { r with pinAuth := ← readBytesOr 32 r.pinAuth }
  | 0x05 => return { r with newPinEnc := ← readBytesOr 64 r.newPinEnc }
  | 0x06 => return { r with pinHashEnc := ← readBytesOr 64 r.pinHashEnc }
  | 0x09 => return { r with permissions := ← readAny r.permissions }
  | 0x0A =>
    match ← .read (textString 256) with
    | some _ => return r
    | none => skipping r
  | _ => skipping r

def parseClientPin : Program (Option ClientPinRequest) := parseMap readPinField {}

/-! AuthenticatorLargeBlobs. -/

def readBlobField (key : Nat) (r : LargeBlobsRequest) : Program LargeBlobsRequest := do
  match key with
  | 0x01 =>
    match ← .read (typed 0) with
    | some v => return { r with get := some v }
    | none => skipping r
  | 0x02 =>
    match ← .read (byteString maxFragmentLen) with
    | some b => return { r with set := some b }
    | none => skipping r
  | 0x03 =>
    match ← .read (typed 0) with
    | some v => return { r with fragmentOffset := v }
    | none => skipping r
  | 0x04 =>
    match ← .read (typed 0) with
    | some v => return { r with length := some v }
    | none => skipping r
  | _ => skipping r

def parseLargeBlobs : Program (Option LargeBlobsRequest) := parseMap readBlobField {}

/-! AuthenticatorCredentialManagement. -/

def readManagementParam (key : Nat) (r : CredentialManagementRequest) : Program CredentialManagementRequest := do
  match key with
  | 0x01 =>
    match ← .read (byteString 32) with
    | some b => return { r with targetRpIdHash := overlay r.targetRpIdHash b }
    | none => return r
  | 0x02 =>
    match ← .read (typed 5) with
    | some n =>
      loop (textKey 16) (fun sub r => do
        if sub = text "id" then
          match ← .read (byteString 64) with
          | some b => return { r with targetCredId := b }
          | none => return r
        else skipping r) n r
    | none => skipping r
  | _ => skipping r

def readManagementField (key : Nat) (r : CredentialManagementRequest) : Program CredentialManagementRequest := do
  match key with
  | 0x01 =>
    match ← .read head with
    | some (_, v) => return { r with subCommand := v }
    | none => return r
  | 0x02 =>
    match ← .read (typed 5) with
    | some n => keyedLoop readManagementParam n r
    | none => skipping r
  | 0x03 =>
    let _ ← .read head
    return r
  | 0x04 =>
    let _ ← .read (byteString 64)
    return r
  | _ => skipping r

def parseCredentialManagement : Program (Option CredentialManagementRequest) := parseMap readManagementField {}

/-! AuthenticatorConfig. -/

def readConfigField (key : Nat) (r : ConfigRequest) : Program ConfigRequest := do
  match key with
  | 0x01 =>
    match ← .read head with
    | some (_, v) => return { r with subCommand := v }
    | none => return r
  | 0x02 =>
    match ← .read (typed 5) with
    | some n =>
      keyedLoop (fun param r => do
        if param = 0x02 then
          match ← .read head with
          | some (_, v) => return { r with minPinLenParam := v }
          | none => return r
        else skipping r) n r
    | none => skipping r
  | _ => skipping r

def parseConfig : Program (Option ConfigRequest) := parseMap readConfigField {}

/-! AuthenticatorBioEnrollment. -/

def readBioParam (key : Nat) (r : BioEnrollmentRequest) : Program BioEnrollmentRequest := do
  match key with
  | 0x01 =>
    match ← .read (byteString 16) with
    | some b => return { r with templateId := some b }
    | none => skipping r
  | 0x02 =>
    match ← .read (textString 64) with
    | some t => return { r with friendlyName := some t }
    | none => skipping r
  | _ => skipping r

def readBioField (key : Nat) (r : BioEnrollmentRequest) : Program BioEnrollmentRequest := do
  match key with
  | 0x02 =>
    match ← .read head with
    | some (_, v) => return { r with subCommand := some v }
    | none => skipping r
  | 0x03 =>
    match ← .read (typed 5) with
    | some n => keyedLoop readBioParam n r
    | none => skipping r
  | 0x05 => return { r with pinUvAuthParam := ← readBytesOr 32 r.pinUvAuthParam }
  | 0x06 => return { r with getModality := ← .read (flag r.getModality) }
  | 0x01 | 0x04 =>
    let _ ← readAny 0
    return r
  | _ => skipping r

def parseBioEnrollment : Program (Option BioEnrollmentRequest) := parseMap readBioField {}

/-! They are the parsers. -/

theorem skipping_run (r : ρ) : (skipping r).run = GoiKey.skipping r := by
  simp only [skipping, Prog.run_bind, Prog.run_read, Prog.run_pure]
  rfl

/-- A round that does not leave its loop. -/
def plainRound {κ : Type} (read : Parse (Option κ)) (otherwise : Parse Unit) (body : κ → ρ → Parse ρ) (r : ρ) :
    Parse ρ := do
  match ← read with
  | some x => body x r
  | none =>
    otherwise
    return r

theorem keyedLoop_eq (f : Nat → ρ → Parse ρ) :
    GoiKey.keyedLoop f = GoiKey.loop (plainRound (readTyped 0) skip f) := by
  refine congrArg GoiKey.loop (funext fun r => bind_congr fun key => ?_)
  cases key <;> rfl

theorem textLoop_eq (size : Nat) (f : Str → ρ → Parse ρ) (noKey : Parse Unit) :
    GoiKey.textLoop size f noKey = GoiKey.loop (plainRound (readTextString size) noKey f) := by
  refine congrArg GoiKey.loop (funext fun r => bind_congr fun key => ?_)
  cases key <;> rfl

section Loops

variable {κ : Type} {key : Key UInt8 κ} {m : Taking UInt8 Unit}

theorem rounds_loop (hm : key.missed = some m) (body : κ → ρ → Parse ρ) (n : Nat) (r : ρ) :
    rounds key body n r =
      (fun r => (false, r)) <$> GoiKey.loop (plainRound key.read.run m.run body) n r := by
  induction n generalizing r with
  | zero => rfl
  | succ n ih =>
    simp only [rounds, GoiKey.loop, plainRound, map_bind, bind_assoc, hm]
    refine bind_congr fun x => ?_
    cases x with
    | some x => exact bind_congr ih
    | none =>
      simp only [bind_assoc, pure_bind]
      exact bind_congr fun _ => ih r

theorem loop_run (hm : key.missed = some m) {onEntry : κ → ρ → Program ρ} {f : κ → ρ → Parse ρ}
    (h : ∀ x r, (onEntry x r).run = f x r) (n : Nat) (r : ρ) :
    (loop key onEntry n r).run = GoiKey.loop (plainRound key.read.run m.run f) n r := by
  simp only [loop, Prog.run, rounds_loop hm, bind_map_left, h]
  exact bind_pure (m := Parse) _

end Loops

theorem headLoop_run (major : Nat) (m : Taking UInt8 Unit) {onEntry : Nat → ρ → Program ρ}
    {f : Nat → ρ → Parse ρ} (h : ∀ v r, (onEntry v r).run = f v r) (n : Nat) (r : ρ) :
    (loop (headKey major m) onEntry n r).run =
      GoiKey.loop (plainRound (readTyped major) m.run f) n r := by
  have hmissed : (headKey major m).missed = some m := rfl
  exact loop_run hmissed h n r

theorem keyedLoop_run {onEntry : Nat → ρ → Program ρ} {f : Nat → ρ → Parse ρ}
    (h : ∀ key r, (onEntry key r).run = f key r) (n : Nat) (r : ρ) :
    (keyedLoop onEntry n r).run = GoiKey.keyedLoop f n r := by
  rw [keyedLoop_eq]
  exact headLoop_run 0 skipped h n r

theorem textLoop_run {size : Nat} {onEntry : Str → ρ → Program ρ} {f : Str → ρ → Parse ρ}
    (h : ∀ key r, (onEntry key r).run = f key r) (n : Nat) (r : ρ) :
    (loop (textKey size) onEntry n r).run = GoiKey.textLoop size f skip n r := by
  have hmissed : (textKey size).missed = some skipped := rfl
  rw [textLoop_eq]
  exact loop_run hmissed h n r

theorem bareTextLoop_run {size : Nat} {onEntry : Str → ρ → Program ρ} {f : Str → ρ → Parse ρ}
    (h : ∀ key r, (onEntry key r).run = f key r) (n : Nat) (r : ρ) :
    (loop (bareTextKey size) onEntry n r).run = GoiKey.textLoop size f (return) n r := by
  have hmissed : (bareTextKey size).missed = some nothing := rfl
  rw [textLoop_eq]
  exact loop_run hmissed h n r

theorem read_run {α : Type} {t : Taking UInt8 α} {k : α → Program ρ} {f : α → Parse ρ}
    (h : ∀ x, (k x).run = f x) : (Prog.read t >>= k).run = t.run >>= f := by
  rw [Prog.run_bind, Prog.run_read]
  exact bind_congr h

theorem parseMap_run {onEntry : Nat → ρ → Program ρ} {f : Nat → ρ → Parse ρ}
    (h : ∀ key r, (onEntry key r).run = f key r) (r : ρ) (body : Bytes) :
    ((parseMap onEntry r).run body).1 = GoiKey.parseMap f r body := by
  have hrun : (parseMap onEntry r).run = (do
      match ← readTyped 5 with
      | some n => return some (← GoiKey.keyedLoop f n r)
      | none => return none) := by
    simp only [parseMap, Prog.run_bind, Prog.run_read]
    refine bind_congr fun n => ?_
    cases n with
    | none => rfl
    | some n =>
      simp only [Prog.run_bind, keyedLoop_run h]
      rfl
  rw [hrun]
  rfl

theorem readDescriptor_run (room n : Nat) (ids : List Bytes) :
    (readDescriptor room n ids).run = GoiKey.readDescriptor room n ids := by
  refine textLoop_run (fun key ids => ?_) n ids
  split
  · split
    · simp only [Prog.run_bind, Prog.run_read]
      refine bind_congr fun id => ?_
      cases id with
      | none => exact skipping_run ids
      | some id => rfl
    · exact skipping_run ids
  · exact skipping_run ids

theorem readAlgorithm_run (n : Nat) : (readAlgorithm n).run = GoiKey.readAlgorithm n := by
  refine textLoop_run (fun key alg => ?_) n 0
  split
  · refine read_run fun v => ?_
    match v with
    | none => rfl
    | some (0, v) => rfl
    | some (1, v) => rfl
    | some (_ + 2, v) => rfl
  · exact skipping_run alg

theorem readAlgorithms_run (defaultCryptoAlg : Int) (n : Nat) (c : AlgorithmChoice) :
    (readAlgorithms defaultCryptoAlg n c).run = GoiKey.readAlgorithms defaultCryptoAlg n c := by
  have heq : GoiKey.readAlgorithms defaultCryptoAlg n = GoiKey.loop (plainRound (readTyped 5) skip
      fun m c => do return c.offer defaultCryptoAlg (← GoiKey.readAlgorithm m)) n := by
    refine congrArg (GoiKey.loop · n) (funext fun c => bind_congr fun m => ?_)
    cases m <;> rfl
  rw [heq]
  refine headLoop_run 5 skipped (fun m c => ?_) n c
  rw [Prog.run_bind, readAlgorithm_run]
  rfl

theorem readCreateExtension_run (key : Str) (r : MakeCredentialRequest) :
    (readCreateExtension key r).run = GoiKey.readCreateExtension key r := by
  unfold readCreateExtension GoiKey.readCreateExtension
  split
  · exact read_run fun _ => rfl
  split
  · refine read_run fun v => ?_
    cases v with
    | none => exact skipping_run r
    | some v =>
      simp only
      split
      · rfl
      · exact skipping_run r
  split
  · exact read_run fun _ => rfl
  split
  · refine read_run fun b => ?_
    cases b with
    | none => exact skipping_run _
    | some b => rfl
  · exact skipping_run r

theorem readCreateField_run (defaultCryptoAlg : Int) (key : Nat) (r : MakeCredentialRequest) :
    (readCreateField defaultCryptoAlg key r).run = GoiKey.readCreateField defaultCryptoAlg key r := by
  unfold readCreateField GoiKey.readCreateField
  split
  · refine read_run fun b => ?_
    cases b <;> rfl
  · refine read_run fun n => ?_
    cases n with
    | none => rfl
    | some n =>
      refine bareTextLoop_run (fun sub r => ?_) n r
      split
      · refine read_run fun t => ?_
        cases t <;> rfl
      · exact skipping_run r
  · refine read_run fun n => ?_
    cases n with
    | none => rfl
    | some n =>
      refine bareTextLoop_run (fun sub r => ?_) n r
      split
      · refine read_run fun b => ?_
        cases b <;> rfl
      split
      · refine read_run fun t => ?_
        cases t <;> rfl
      · exact skipping_run r
  · refine read_run fun n => ?_
    cases n with
    | none => exact skipping_run r
    | some n =>
      simp only [Prog.run_bind, readAlgorithms_run]
      rfl
  · refine read_run fun n => ?_
    cases n with
    | none => exact skipping_run r
    | some n =>
      rw [Prog.run_bind, headLoop_run 5 skipped (readDescriptor_run maxExcludeCredentials)]
      refine congrArg (· >>= _) (congrArg (GoiKey.loop · n _) (funext fun ids => bind_congr fun m => ?_))
      cases m <;> rfl
  · refine read_run fun n => ?_
    cases n with
    | none => exact skipping_run r
    | some n => exact textLoop_run readCreateExtension_run n r
  · refine read_run fun n => ?_
    cases n with
    | none => exact skipping_run r
    | some n =>
      refine textLoop_run (fun opt r => ?_) n r
      split
      · exact read_run fun _ => rfl
      · exact skipping_run r
  · first | exact skipping_run r | (split <;> first | exact skipping_run r | contradiction)

theorem parseMakeCredential_run (defaultCryptoAlg : Int) (body : Bytes) :
    ((parseMakeCredential defaultCryptoAlg).run body).1 = GoiKey.parseMakeCredential defaultCryptoAlg body := by
  refine congrArg Prod.fst (congrFun (read_run fun n => ?_) body)
  cases n with
  | none => rfl
  | some n => exact keyedLoop_run (readCreateField_run defaultCryptoAlg) n _

theorem readCount_run (stray : Nat) : (readCount stray).run = GoiKey.readCount stray := by
  refine read_run fun v => ?_
  cases v <;> rfl

theorem readSalts_run (key : Nat) (r : GetAssertionRequest) : (readSalts key r).run = GoiKey.readSalts key r := by
  unfold readSalts GoiKey.readSalts
  split
  · refine read_run fun b => ?_
    cases b <;> rfl
  · refine read_run fun b => ?_
    cases b <;> rfl
  · first | exact skipping_run r | (split <;> first | exact skipping_run r | contradiction)

theorem readAssertExtension_run (stray : Nat) (key : Str) (r : GetAssertionRequest) :
    (readAssertExtension stray key r).run = GoiKey.readAssertExtension stray key r := by
  unfold readAssertExtension GoiKey.readAssertExtension
  refine read_run fun major => ?_
  split
  · rw [Prog.run_bind, readCount_run]
    exact bind_congr fun n => keyedLoop_run readSalts_run n _
  split
  · exact read_run fun _ => rfl
  split
  · exact read_run fun _ => rfl
  · exact skipping_run r

theorem readAssertField_run (stray key : Nat) (r : GetAssertionRequest) :
    (readAssertField stray key r).run = GoiKey.readAssertField stray key r := by
  unfold readAssertField GoiKey.readAssertField
  split
  · refine read_run fun t => ?_
    cases t <;> rfl
  · refine read_run fun b => ?_
    cases b <;> rfl
  · refine read_run fun n => ?_
    cases n with
    | none => rfl
    | some n =>
      rw [Prog.run_bind, headLoop_run 5 nothing (readDescriptor_run maxAllowCredentials)]
      refine congrArg (· >>= _) (congrArg (GoiKey.loop · n _) (funext fun ids => bind_congr fun m => ?_))
      cases m <;> rfl
  · refine read_run fun major => ?_
    split
    · rw [Prog.run_bind, readCount_run]
      exact bind_congr fun n => textLoop_run (readAssertExtension_run stray) n r
    · exact skipping_run r
  · refine read_run fun n => ?_
    cases n with
    | none => exact skipping_run r
    | some n =>
      refine textLoop_run (fun opt r => ?_) n r
      split
      · exact read_run fun _ => rfl
      · exact skipping_run r
  · first | exact skipping_run r | (split <;> first | exact skipping_run r | contradiction)

theorem parseGetAssertion_run (stray : Nat) (body : Bytes) :
    ((parseGetAssertion stray).run body).1 = GoiKey.parseGetAssertion stray body :=
  parseMap_run (readAssertField_run stray) {} body

theorem readAny_run (old : Nat) : (readAny old).run = GoiKey.readAny old := by
  refine read_run fun v => ?_
  cases v with
  | none => exact skipping_run old
  | some v => rfl

theorem readBytesOr_run (maxLen : Nat) (old : Bytes) :
    (readBytesOr maxLen old).run = GoiKey.readBytesOr maxLen old := by
  refine read_run fun b => ?_
  cases b with
  | none => exact skipping_run old
  | some b => rfl

theorem readCoordinate_run (f : Option Bytes → Parse (Option Bytes)) : (readCoordinate.run >>= f) = (do
      match ← readByteString 32 with
      | some b => if b.length = 32 then f (some b) else do skip; f none
      | none => skip; f none) := by
  rw [readCoordinate, read_run fun _ => rfl, bind_assoc]
  refine bind_congr fun b => ?_
  cases b with
  | none => rfl
  | some b =>
    simp only
    split <;> rfl

theorem coseKeyRounds_eq (n : Nat) (x y : Option Bytes) : coseKeyRounds n x y =
    rounds coseLabel (fun label r => (coseKeyEntry label r).run) n (x, y) >>= fun out =>
      return coordinates out.1 out.2 := by
  induction n generalizing x y with
  | zero => rfl
  | succ n ih =>
    unfold coseKeyRounds rounds
    rw [bind_assoc]
    -- any other label costs the value after it
    have hskip : (do skip; coseKeyRounds n x y : Parse (Option Bytes)) = skip >>= fun _ =>
        rounds coseLabel (fun label r => (coseKeyEntry label r).run) n (x, y) >>= fun out =>
          return coordinates out.1 out.2 := bind_congr fun _ => ih x y
    refine bind_congr fun label => ?_
    rcases label with _ | ⟨_ | _ | major, _ | _ | _ | key⟩
    · rfl
    · exact hskip
    · exact hskip
    · exact hskip
    · exact hskip
    · exact hskip
    · simp only [coseKeyEntry, Prog.run_bind, bind_assoc, readCoordinate_run]
      refine bind_congr fun b => ?_
      cases b with
      | none => exact bind_congr fun _ => ih x y
      | some b =>
        simp only
        split
        · exact ih (some b) y
        · exact bind_congr fun _ => ih x y
    · simp only [coseKeyEntry, Prog.run_bind, bind_assoc, readCoordinate_run]
      refine bind_congr fun b => ?_
      cases b with
      | none => exact bind_congr fun _ => ih x y
      | some b =>
        simp only
        split
        · exact ih x (some b)
        · exact bind_congr fun _ => ih x y
    · exact hskip
    · exact hskip
    · exact hskip
    · exact hskip
    · exact hskip

theorem parseCoseKeyPubXY_run : parseCoseKeyPubXY.run = GoiKey.parseCoseKeyPubXY := by
  refine read_run fun n => ?_
  cases n with
  | none => rfl
  | some n => exact (coseKeyRounds_eq n none none).symm

theorem readPinField_run (key : Nat) (r : ClientPinRequest) : (readPinField key r).run = GoiKey.readPinField key r := by
  unfold readPinField GoiKey.readPinField
  split
  · rw [Prog.run_bind, readAny_run]
    rfl
  · rw [Prog.run_bind, readAny_run]
    rfl
  · rw [Prog.run_bind, parseCoseKeyPubXY_run]
    rfl
  · rw [Prog.run_bind, readBytesOr_run]
    rfl
  · rw [Prog.run_bind, readBytesOr_run]
    rfl
  · rw [Prog.run_bind, readBytesOr_run]
    rfl
  · rw [Prog.run_bind, readAny_run]
    rfl
  · refine read_run fun t => ?_
    cases t with
    | none => exact skipping_run r
    | some t => rfl
  · first | exact skipping_run r | (split <;> first | exact skipping_run r | contradiction)

theorem parseClientPin_run (body : Bytes) : (parseClientPin.run body).1 = GoiKey.parseClientPin body :=
  parseMap_run readPinField_run {} body

theorem readBlobField_run (key : Nat) (r : LargeBlobsRequest) :
    (readBlobField key r).run = GoiKey.readBlobField key r := by
  unfold readBlobField GoiKey.readBlobField
  split
  on_goal 5 => first | exact skipping_run r | (split <;> first | exact skipping_run r | contradiction)
  all_goals
    refine read_run fun v => ?_
    cases v with
    | none => exact skipping_run r
    | some v => rfl

theorem parseLargeBlobs_run (body : Bytes) : (parseLargeBlobs.run body).1 = GoiKey.parseLargeBlobs body :=
  parseMap_run readBlobField_run {} body

theorem readManagementParam_run (key : Nat) (r : CredentialManagementRequest) :
    (readManagementParam key r).run = GoiKey.readManagementParam key r := by
  unfold readManagementParam GoiKey.readManagementParam
  split
  · refine read_run fun b => ?_
    cases b <;> rfl
  · refine read_run fun n => ?_
    cases n with
    | none => exact skipping_run r
    | some n =>
      refine textLoop_run (fun sub r => ?_) n r
      split
      · refine read_run fun b => ?_
        cases b <;> rfl
      · exact skipping_run r
  · first | exact skipping_run r | (split <;> first | exact skipping_run r | contradiction)

theorem readManagementField_run (key : Nat) (r : CredentialManagementRequest) :
    (readManagementField key r).run = GoiKey.readManagementField key r := by
  unfold readManagementField GoiKey.readManagementField
  split
  · refine read_run fun v => ?_
    cases v <;> rfl
  · refine read_run fun n => ?_
    cases n with
    | none => exact skipping_run r
    | some n => exact keyedLoop_run readManagementParam_run n r
  · exact read_run fun _ => rfl
  · exact read_run fun _ => rfl
  · first | exact skipping_run r | (split <;> first | exact skipping_run r | contradiction)

theorem parseCredentialManagement_run (body : Bytes) :
    (parseCredentialManagement.run body).1 = GoiKey.parseCredentialManagement body :=
  parseMap_run readManagementField_run {} body

theorem readConfigField_run (key : Nat) (r : ConfigRequest) :
    (readConfigField key r).run = GoiKey.readConfigField key r := by
  unfold readConfigField GoiKey.readConfigField
  split
  · refine read_run fun v => ?_
    cases v <;> rfl
  · refine read_run fun n => ?_
    cases n with
    | none => exact skipping_run r
    | some n =>
      refine keyedLoop_run (fun param r => ?_) n r
      split
      · refine read_run fun v => ?_
        cases v <;> rfl
      · exact skipping_run r
  · first | exact skipping_run r | (split <;> first | exact skipping_run r | contradiction)

theorem parseConfig_run (body : Bytes) : (parseConfig.run body).1 = GoiKey.parseConfig body :=
  parseMap_run readConfigField_run {} body

theorem readBioParam_run (key : Nat) (r : BioEnrollmentRequest) :
    (readBioParam key r).run = GoiKey.readBioParam key r := by
  unfold readBioParam GoiKey.readBioParam
  split
  on_goal 3 => first | exact skipping_run r | (split <;> first | exact skipping_run r | contradiction)
  all_goals
    refine read_run fun v => ?_
    cases v with
    | none => exact skipping_run r
    | some v => rfl

theorem readBioField_run (key : Nat) (r : BioEnrollmentRequest) :
    (readBioField key r).run = GoiKey.readBioField key r := by
  unfold readBioField GoiKey.readBioField
  split
  · refine read_run fun v => ?_
    cases v with
    | none => exact skipping_run r
    | some v => rfl
  · refine read_run fun n => ?_
    cases n with
    | none => exact skipping_run r
    | some n => exact keyedLoop_run readBioParam_run n r
  · rw [Prog.run_bind, readBytesOr_run]
    rfl
  · exact read_run fun _ => rfl
  · rw [Prog.run_bind, readAny_run]
    rfl
  · rw [Prog.run_bind, readAny_run]
    rfl
  · first | exact skipping_run r | (split <;> first | exact skipping_run r | contradiction)

theorem parseBioEnrollment_run (body : Bytes) :
    (parseBioEnrollment.run body).1 = GoiKey.parseBioEnrollment body :=
  parseMap_run readBioField_run {} body

end GoiKey.Looped

/-!
The rounds that the loops of the request parsers make, against the bytes of the request.
-/

namespace GoiKey

open LoopProg

/-- The parsers of the commands, with what they take from outside the request. -/
inductive RequestParser where
  | makeCredential (defaultCryptoAlg : Int)
  | getAssertion (stray : Nat)
  | clientPin
  | largeBlobs
  | credentialManagement
  | config
  | bioEnrollment

/-- Every round of every loop over a request. -/
def RequestParser.rounds : RequestParser → Bytes → List (Round UInt8)
  | .makeCredential defaultCryptoAlg => (Looped.parseMakeCredential defaultCryptoAlg).trace
  | .getAssertion stray => (Looped.parseGetAssertion stray).trace
  | .clientPin => Looped.parseClientPin.trace
  | .largeBlobs => Looped.parseLargeBlobs.trace
  | .credentialManagement => Looped.parseCredentialManagement.trace
  | .config => Looped.parseConfig.trace
  | .bioEnrollment => Looped.parseBioEnrollment.trace

/-- Every round gets further or leaves its loop, the loops of skipValue included, and
the request's bytes bound their number. -/
structure LoopsBounded (body : Bytes) (rounds : List (Round UInt8)) : Prop where
  advance : ∀ round ∈ rounds, round.Advances
  count : kept rounds ≤ body.length
  skips : ∀ levels b, (skipLevels levels b).1 = true → (skipLevels levels b).2.length < b.length

theorem loopsBounded_iff {α : Type} (p : Looped.Program α) (body : Bytes) :
    LoopsBounded body (p.trace body) ↔ ∀ round ∈ p.trace body, round.Fed := by
  constructor
  · intro h round hround
    exact (p.round_advances_iff body round hround).mp (h.advance round hround)
  · intro hfed
    have hcount := p.kept_le body hfed
    refine ⟨fun round hround => ?_, by omega, fun levels b h => skipLevels_advances h⟩
    exact (p.round_advances_iff body round hround).mpr (hfed round hround)

/-- The loops over a request are bounded exactly if every round begins with something
that it gets on with. -/
theorem request_loops_bounded_iff (p : RequestParser) (body : Bytes) :
    LoopsBounded body (p.rounds body) ↔ ∀ round ∈ p.rounds body, round.Fed := by
  cases p with
  | makeCredential defaultCryptoAlg => exact loopsBounded_iff _ body
  | getAssertion stray => exact loopsBounded_iff _ body
  | clientPin => exact loopsBounded_iff _ body
  | largeBlobs => exact loopsBounded_iff _ body
  | credentialManagement => exact loopsBounded_iff _ body
  | config => exact loopsBounded_iff _ body
  | bioEnrollment => exact loopsBounded_iff _ body

/-- At the end of the input each round skips nothing and goes on. -/
theorem roundsTrace_end {ρ : Type} (body : Nat → ρ → Parse ρ) (inner : Nat → ρ → Bytes → List (Round UInt8))
    (n : Nat) (r : ρ) : kept (roundsTrace (Looped.headKey 0 Looped.skipped) body inner n r []) = n := by
  induction n with
  | zero => rfl
  | succ n ih =>
    have hstep : roundsTrace (Looped.headKey 0 Looped.skipped) body inner (n + 1) r [] =
        ⟨fun b => !b.isEmpty, [], [], false⟩ ::
          roundsTrace (Looped.headKey 0 Looped.skipped) body inner n r [] := rfl
    rw [hstep, kept, List.countP_cons]
    simp only [kept] at ih
    rw [ih]
    rfl

/-- A map that ends behind its head is worth as many rounds as it says. -/
theorem parseMap_end {ρ : Type} (onEntry : Nat → ρ → Looped.Program ρ) (r : ρ) {body : Bytes} {n : Nat}
    (h : readTyped 5 body = (some n, [])) : kept ((Looped.parseMap onEntry r).trace body) = n := by
  have htrace : (Looped.parseMap onEntry r).trace body =
      roundsTrace (Looped.headKey 0 Looped.skipped) (fun x r => (onEntry x r).run)
        (fun x r => (onEntry x r).trace) n r [] ++ [] := by
    have hread : (Looped.typed 5).run body = (some n, []) := h
    simp only [Looped.parseMap, Prog.read, bind, Prog.bind, Prog.trace, hread]
    rfl
  rw [htrace, List.append_nil, roundsTrace_end]

/-- One byte, the head of a map of indefinite length, is worth 2^64 - 1 rounds. -/
theorem request_loops_unbounded :
    kept (RequestParser.clientPin.rounds [0xBF]) = 2 ^ 64 - 1 ∧
      ¬ LoopsBounded [0xBF] (RequestParser.clientPin.rounds [0xBF]) := by
  have hrounds : kept (RequestParser.clientPin.rounds [0xBF]) = 2 ^ 64 - 1 := by
    have hread : readTyped 5 [0xBF] = (some indefiniteLength, []) := rfl
    exact parseMap_end Looped.readPinField {} hread
  refine ⟨hrounds, fun h => ?_⟩
  have hcount := h.count
  rw [hrounds] at hcount
  exact absurd hcount (by decide)

end GoiKey
