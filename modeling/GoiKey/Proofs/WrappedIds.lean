import GoiKey.Model.Bench
import GoiKey.Proofs.Parsing
import GoiKey.Proofs.SigningKeys
import GoiKey.Proofs.TypedReads
import Mathlib.Data.List.TakeDrop

/-! The ids of credentials without a record: what comes back out of them. -/

namespace GoiKey

open CborGrammar

variable {P : Platform} {env env' : Env} {k k' : Keystore} {key : KeyPair} {credId : Bytes}
variable {rpId rpId' : Str} {userId : Bytes} {userName : Str} {priv : Bytes} {algId : Int}

/-- A block cipher keeps the length of what it encrypts, and the keys short enough to wrap
have the lengths of their formats. -/
structure WrappingSound (P : Platform) : Prop extends StorageSound P where
  cbc_length : ∀ key iv plain, plain.length % 16 = 0 → (P.cbcEncrypt key iv plain).length = plain.length
  p256 : ∀ seed priv pub, P.ecdsaGenkey seed = some (priv, pub) → priv.length = 32
  fpgaP256 : ∀ seed blob pub, P.fpgaP256Genkey seed = some (blob, pub) → blob.length = fpgaBlobLen
  fpgaEd25519 : ∀ seed blob pub, P.fpgaEd25519Genkey seed = some (blob, pub) →
    blob.length = fpgaBlobLen

/-- The id gives back what was wrapped, to its party only, and goes through the buffers
an assertion reads it into. -/
structure Carried (P : Platform) (env : Env) (k : Keystore) (req : MakeCredentialRequest)
    (key : KeyPair) (credId : Bytes) : Prop where
  returned : ∃ c, (unwrapStatelessCredential P env k credId req.targetRpId).1 = some c ∧
    c.privateKeyHex = key.privateKeyHex ∧ c.algId = req.selectedAlgId ∧
    c.userIdHex = toHex req.userIdRaw ∧ c.userName = req.userName
  refused : ∀ rpId, rpId ≠ req.targetRpId → (unwrapStatelessCredential P env k credId rpId).1 = none
  fits : credId.length ≤ maxCredentialIdLen
  listed : ∀ h, Head 2 credId.length h →
    Reads (readByteString maxCredentialIdLen) (h ++ credId) (some credId)

/-! Lengths. -/

theorem lengthByte_toNat (n : Nat) : (lengthByte n).toNat = min n 32 := by
  unfold lengthByte
  split
  next h => simp [Nat.min_eq_right (Nat.le_of_lt h)]
  next h =>
    have hn : n < 256 := by omega
    simp [Nat.mod_eq_of_lt hn, Nat.min_eq_left (Nat.not_lt.mp h)]

theorem byteAt_of_slice {b : Bytes} {i : Nat} {c : UInt8} (h : slice i 1 b = [c]) : byteAt b i = c := by
  unfold slice at h
  rw [List.take_one] at h
  unfold byteAt
  cases hd : (b.drop i).head? with
  | none => simp [hd] at h
  | some x =>
    simp only [hd, Option.toList_some, List.cons.injEq, and_true] at h
    rw [List.head?_drop] at hd
    rw [List.getD_eq_getElem?_getD, hd, h, Option.getD_some]

theorem slice_slice {start len n : Nat} {b : Bytes} (h : n ≤ len) :
    slice start n b = (slice start len b).take n := by
  unfold slice
  rw [List.take_take, Nat.min_eq_left h]

theorem take_padTo_take {n : Nat} (b : Bytes) : (padTo n (b.take n)).take (min b.length n) = b.take n := by
  unfold padTo
  rw [List.take_take, Nat.min_eq_left (Nat.min_le_right _ _), List.take_append_of_le_length (by simp)]
  rcases Nat.le_total b.length n with h | h
  · rw [Nat.min_eq_left h, List.take_of_length_le (by simp), List.take_of_length_le h]
  · rw [Nat.min_eq_right h, List.take_take, Nat.min_self]

theorem statelessPlaintext_length :
    (statelessPlaintext P rpId userId userName (toHex priv) algId).length
      = (108 + priv.length + 15) / 16 * 16 := by
  simp [statelessPlaintext]

theorem statelessPlaintext_blocks (P : Platform) (rpId : Str) (userId : Bytes) (userName : Str)
    (priv : Bytes) (algId : Int) :
    (statelessPlaintext P rpId userId userName (toHex priv) algId).length % 16 = 0 := by
  rw [statelessPlaintext_length]
  exact Nat.mul_mod_left _ _

/-! One wrapping and one unwrapping. -/

/-- What an id holds, cut to the room it has for names. -/
def reopened (rpId : Str) (userId : Bytes) (userName : Str) (priv : Bytes) (algId : Int) :
    StoredCredential where
  rpId := rpId
  userIdHex := toHex (userId.take 32)
  userName := cstr (userName.take 32)
  privateKeyHex := toHex priv
  algId := algId

theorem openStateless_packed {plaintext : Bytes} {encryptedLen : Nat}
    (hf : Packed P plaintext rpId userId userName priv algId) (hl : priv.length < 65536)
    (ha : toInt32 (fromBigEndian (algBytes algId)) = algId) (hlen : 108 + priv.length ≤ encryptedLen) :
    openStateless P encryptedLen plaintext rpId'
      = if P.sha256 rpId = P.sha256 rpId' then some (reopened rpId' userId userName priv algId)
        else none := by
  have huser : slice 41 (min (lengthByte userId.length).toNat 32) plaintext = userId.take 32 := by
    rw [lengthByte_toNat, Nat.min_assoc, Nat.min_self, slice_slice (Nat.min_le_right _ 32), hf.userId,
      take_padTo_take]
  have hname : slice 74 (min (lengthByte userName.length).toNat 32) plaintext = userName.take 32 := by
    rw [lengthByte_toNat, Nat.min_assoc, Nat.min_self, slice_slice (Nat.min_le_right _ 32), hf.userName,
      take_padTo_take]
  unfold openStateless
  rw [if_neg (by simp [hf.magic]), hf.rpIdHash]
  by_cases hhash : P.sha256 rpId = P.sha256 rpId'
  · rw [if_neg (by simp [hhash]), if_pos hhash, byteAt_of_slice hf.userIdLen,
      byteAt_of_slice hf.userNameLen, hf.privLen, fromBigEndian_bigEndian hl]
    simp only
    rw [if_neg (by omega), huser, hname, hf.priv, hf.algId, ha]
    rfl
  · rw [if_pos hhash, if_neg hhash]

theorem unwrapStatelessCredential_wrapped (hp : WrappingSound P) (hl : priv.length < 65536)
    (ha : toInt32 (fromBigEndian (algBytes algId)) = algId)
    (hw : (wrapStatelessCredential P env k rpId userId userName (toHex priv) algId).1 = some credId)
    (hs : (getStatelessMasterSecret env' k').1 = (getStatelessMasterSecret env k).1) :
    (unwrapStatelessCredential P env' k' credId rpId').1
      = if env'.allocates .plaintext = true ∧ P.sha256 rpId = P.sha256 rpId' then
          some (reopened rpId' userId userName priv algId)
        else none := by
  have hwraps := wrapStatelessCredential_wraps hp.toStorageSound hw
  have hblocks := statelessPlaintext_blocks P rpId userId userName priv algId
  have hlen : credId.length - 48 = (108 + priv.length + 15) / 16 * 16 := by
    rw [hwraps.length, hp.cbc_length _ _ _ hblocks, statelessPlaintext_length]
    omega
  have htag : statelessTagOk P (getStatelessMasterSecret env k).1 credId = true := by
    unfold statelessTagOk
    simp only
    rw [hwraps.tag, hwraps.iv, hwraps.encrypted]
    exact beq_self_eq_true _
  have hopen : openStateless P (credId.length - 48)
      (statelessPlaintext P rpId userId userName (toHex priv) algId) rpId'
        = if P.sha256 rpId = P.sha256 rpId' then some (reopened rpId' userId userName priv algId)
          else none :=
    openStateless_packed (statelessPlaintext_packed hp.toStorageSound rpId userId userName priv algId)
      hl ha (by omega)
  unfold unwrapStatelessCredential
  rw [if_neg (by omega)]
  simp only
  rw [if_neg (by omega), hs, if_neg (by simp [htag]), hwraps.iv, hwraps.encrypted,
    hp.cbc _ _ _ hblocks]
  cases env'.allocates .plaintext with
  | false => rfl
  | true => simpa using hopen

/-! The credentials MakeCredential wraps. -/

/-- A key it wraps is one of the two short kinds. -/
theorem KeyOrigin.short (hp : WrappingSound P) (h : KeyOrigin P algId key)
    (ha : algId ≠ -257 ∧ isMlDsa algId = false) :
    ∃ b : Bytes, key.privateKeyHex = toHex b ∧ (b.length = 32 ∨ b.length = 64) ∧
      toInt32 (fromBigEndian (algBytes algId)) = algId := by
  cases h with
  | p256 made => exact ⟨_, rfl, .inl (hp.p256 _ _ _ made), by decide⟩
  | fpgaP256 made => exact ⟨_, rfl, .inr (hp.fpgaP256 _ _ _ made), by decide⟩
  | ed25519 length => exact ⟨_, rfl, .inl length, by decide⟩
  | fpgaEd25519 made => exact ⟨_, rfl, .inr (hp.fpgaEd25519 _ _ _ made), by decide⟩
  | rsa made => exact absurd rfl ha.1
  | fpgaRsa made => exact absurd rfl ha.1
  | mldsa alg made => rw [alg] at ha; cases ha.2
  | fpgaMldsa alg made => rw [alg] at ha; cases ha.2

theorem wrappable_of_not_resident {req : MakeCredentialRequest} (h : residentKey req = false) :
    req.selectedAlgId ≠ -257 ∧ isMlDsa req.selectedAlgId = false := by
  simp only [residentKey, Bool.or_eq_false_iff, beq_eq_false_iff_ne] at h
  exact ⟨h.1.2, h.2⟩

/-- A wrapped id has the room that ids are read into. -/
theorem wrapped_length (hp : WrappingSound P) {req : MakeCredentialRequest} (hr : residentKey req = false)
    (hm : MadeKey P env req.selectedAlgId key)
    (hw : (wrapStatelessCredential P env k req.targetRpId req.userIdRaw req.userName
      key.privateKeyHex req.selectedAlgId).1 = some credId) : credId.length ≤ maxCredentialIdLen := by
  obtain ⟨priv, hpriv, hshort, -⟩ := (madeKey_origin hm).short hp (wrappable_of_not_resident hr)
  rw [hpriv] at hw
  have hblocks := statelessPlaintext_blocks P req.targetRpId req.userIdRaw req.userName priv
    req.selectedAlgId
  rw [(wrapStatelessCredential_wraps hp.toStorageSound hw).length, hp.cbc_length _ _ _ hblocks,
    statelessPlaintext_length]
  unfold maxCredentialIdLen
  omega

/-- The names come back whole when they fit their 32 bytes; everything else always does,
while there is memory to unwrap into. -/
theorem wrappedId_carried_iff (hp : WrappingSound P) {defaultCryptoAlg : Int} {body : Bytes}
    {req : MakeCredentialRequest} (hreq : parseMakeCredential defaultCryptoAlg body = req)
    (hr : residentKey req = false) (hk : generateCredentialKey P env req.selectedAlgId = some key)
    (hw : (wrapStatelessCredential P env k req.targetRpId req.userIdRaw req.userName
      key.privateKeyHex req.selectedAlgId).1 = some credId)
    (hs : (getStatelessMasterSecret env' k').1 = (getStatelessMasterSecret env k).1)
    (hideal : ∀ rpId, P.sha256 rpId = P.sha256 req.targetRpId → rpId = req.targetRpId) :
    Carried P env' k' req key credId ↔ env'.allocates .plaintext = true ∧
      req.userIdRaw.length ≤ 32 ∧ req.userName.length ≤ 32 := by
  have hbuffered := parseMakeCredential_buffered defaultCryptoAlg body
  rw [hreq] at hbuffered
  have hlen := wrapped_length hp hr (.inl hk) hw
  obtain ⟨priv, hpriv, hshort, halg⟩ := (madeKey_origin (.inl hk)).short hp (wrappable_of_not_resident hr)
  rw [hpriv] at hw
  have hunwrap : ∀ rpId', (unwrapStatelessCredential P env' k' credId rpId').1
      = if env'.allocates .plaintext = true ∧ P.sha256 req.targetRpId = P.sha256 rpId' then
          some (reopened rpId' req.userIdRaw req.userName priv req.selectedAlgId)
        else none :=
    fun rpId' => unwrapStatelessCredential_wrapped hp (by omega) halg hw hs
  have hname : cstr (req.userName.take 32) = req.userName.take 32 :=
    cstr_of_notMem fun h => hbuffered.userName.notMem (List.mem_of_mem_take h)
  constructor
  · rintro ⟨⟨c, hc, -, -, huser, huserName⟩, -, -, -⟩
    rw [hunwrap] at hc
    split at hc
    next hmem =>
      cases hc
      refine ⟨hmem.1, (List.take_eq_self_iff _).mp (toHex_injective huser), ?_⟩
      exact (List.take_eq_self_iff _).mp (hname.symm.trans huserName)
    · cases hc
  · rintro ⟨hmem, huser, huserName⟩
    refine ⟨⟨reopened req.targetRpId req.userIdRaw req.userName priv req.selectedAlgId, ?_, hpriv.symm,
      rfl, ?_, ?_⟩, ?_, hlen, ?_⟩
    · rw [hunwrap, if_pos ⟨hmem, rfl⟩]
    · exact congrArg toHex ((List.take_eq_self_iff _).mpr huser)
    · exact hname.trans ((List.take_eq_self_iff _).mpr huserName)
    · intro rpId' hne
      rw [hunwrap, if_neg fun h => hne (hideal rpId' h.2.symm)]
    · exact fun h hh => readString_reads (by decide) hh hlen

/-! The same on the bench, where no other party has the hash of the site. -/

def secludedPlatform : Platform :=
  { Bench.platform with
    sha256 := fun b => if b = Bench.site then List.replicate 32 0xFF else 0 :: (Bench.hash b).tail }

theorem wrappingSound_secluded : WrappingSound secludedPlatform where
  gcm := storageSound_bench.gcm
  cbc := storageSound_bench.cbc
  sha256_length := by
    intro b
    change (if b = Bench.site then _ else _ : Bytes).length = 32
    split
    · rfl
    · simp [Bench.hash]
  hmac_length := storageSound_bench.hmac_length
  cbc_length := fun _ _ _ _ => rfl
  p256 := by
    intro seed priv pub h
    cases h
    exact padTo_length _ _
  fpgaP256 := by
    intro seed blob pub h
    cases h
  fpgaEd25519 := by
    intro seed blob pub h
    cases h

theorem secluded_site (rpId : Str)
    (h : secludedPlatform.sha256 rpId = secludedPlatform.sha256 Bench.site) : rpId = Bench.site := by
  by_contra hne
  unfold secludedPlatform at h
  simp only [if_neg hne, if_true] at h
  exact absurd (List.cons.inj h).1 (by decide)

def registrationBody (user : Bytes) (name : Str) : Bytes :=
  encode 8192 [.map 4, .uint 1, .bytes Bench.clientDataHash, .uint 2, .map 1, .text (text "id"),
    .text Bench.site, .uint 3, .map 2, .text (text "id"), .bytes user, .text (text "name"), .text name,
    .uint 7, .map 1, .text (text "rk"), .bool false]

/-- A registration at the site for this user. -/
def registration (user : Bytes) (name : Str) : MakeCredentialRequest :=
  parseMakeCredential (-7) (registrationBody user name)

def benchKey : KeyPair := ⟨toHex (List.replicate 32 1), Bench.point (List.replicate 32 1)⟩

def registeredId (user : Bytes) (name : Str) : Bytes :=
  ((wrapStatelessCredential secludedPlatform (Bench.idleEnv 1 0) {} (registration user name).targetRpId
    (registration user name).userIdRaw (registration user name).userName benchKey.privateKeyHex
    (registration user name).selectedAlgId).1).getD []

theorem wrappedId_carried_ann :
    Carried secludedPlatform (Bench.idleEnv 2 0) { slSecret := some (List.replicate 32 1) }
      (registration [7] (text "ann")) benchKey (registeredId [7] (text "ann")) := by
  have hreq : parseMakeCredential (-7) (registrationBody [7] (text "ann"))
      = registration [7] (text "ann") := rfl
  have hsite : (registration [7] (text "ann")).targetRpId = Bench.site := by decide +kernel
  have hk : generateCredentialKey secludedPlatform (Bench.idleEnv 1 0)
      (registration [7] (text "ann")).selectedAlgId = some benchKey := by decide +kernel
  have hw : (wrapStatelessCredential secludedPlatform (Bench.idleEnv 1 0) {}
      (registration [7] (text "ann")).targetRpId (registration [7] (text "ann")).userIdRaw
      (registration [7] (text "ann")).userName benchKey.privateKeyHex
      (registration [7] (text "ann")).selectedAlgId).1 = some (registeredId [7] (text "ann")) := rfl
  have hideal : ∀ rpId, secludedPlatform.sha256 rpId
      = secludedPlatform.sha256 (registration [7] (text "ann")).targetRpId →
        rpId = (registration [7] (text "ann")).targetRpId := fun rpId h =>
    (secluded_site rpId (h.trans (congrArg _ hsite))).trans hsite.symm
  exact (wrappedId_carried_iff wrappingSound_secluded hreq (by decide +kernel) hk hw (by decide +kernel)
    hideal).mpr (by decide +kernel)

/-- A user id of 33 bytes is one MakeCredential takes, and comes back without its last. -/
theorem longUserId_cut :
    (registration (List.replicate 33 0x55) (text "ann")).userIdRaw.length = 33 ∧
      residentKey (registration (List.replicate 33 0x55) (text "ann")) = false ∧
      ¬ Carried secludedPlatform (Bench.idleEnv 2 0) { slSecret := some (List.replicate 32 1) }
        (registration (List.replicate 33 0x55) (text "ann")) benchKey
        (registeredId (List.replicate 33 0x55) (text "ann")) := by
  have hcut : (unwrapStatelessCredential secludedPlatform (Bench.idleEnv 2 0)
      { slSecret := some (List.replicate 32 1) } (registeredId (List.replicate 33 0x55) (text "ann"))
      (registration (List.replicate 33 0x55) (text "ann")).targetRpId).1.map
        StoredCredential.userIdHex = some (toHex (List.replicate 32 0x55)) := by decide +kernel
  refine ⟨by decide +kernel, by decide +kernel, ?_⟩
  rintro ⟨⟨c, hc, -, -, huser, -⟩, -, -, -⟩
  rw [hc, Option.map_some, huser] at hcut
  exact absurd hcut (by decide +kernel)

end GoiKey
