import GoiKey.Model.Bench
import GoiKey.Model.Storage

/-! What is written down opens to what it was: stored payloads, records and wrapped ids. -/

namespace GoiKey

variable {P : Platform} {env env' : Env} {key plain : Bytes} {c : StoredCredential}

/-- The ciphers undo themselves, and the hashes have their lengths. -/
structure StorageSound (P : Platform) : Prop where
  gcm : ∀ key iv plain cipher tag, P.gcmEncrypt key iv plain = some (cipher, tag) →
    P.gcmDecrypt key iv cipher tag = some plain
  cbc : ∀ key iv plain, plain.length % 16 = 0 → P.cbcDecrypt key iv (P.cbcEncrypt key iv plain) = plain
  sha256_length : ∀ b, (P.sha256 b).length = 32
  hmac_length : ∀ key b, (P.hmacSha256 key b).length = 32

theorem storageSound_bench : StorageSound Bench.platform where
  gcm := by
    intro key iv plain cipher tag h
    cases h
    exact if_pos rfl
  cbc := fun _ _ _ _ => rfl
  sha256_length := fun _ => bigEndian_length _ _
  hmac_length := fun _ _ => bigEndian_length _ _

/-! Stored payloads. -/

theorem notMem_toHex {x : UInt8} (hx : ¬ Hex.IsDigit x) (b : Bytes) : x ∉ toHex b :=
  Hex.notMem_encode hx b

theorem notMem_toHex_separators (b : Bytes) : newline ∉ toHex b ∧ 0 ∉ toHex b :=
  ⟨notMem_toHex (by unfold Hex.IsDigit; decide) b, notMem_toHex (by unfold Hex.IsDigit; decide) b⟩

theorem fromHex_length (s : Str) (n : Nat) : (fromHex s n).length = n := padTo_length _ _

theorem fromHex_toHex_of_length {b : Bytes} {n : Nat} (h : b.length = n) : fromHex (toHex b) n = b := by
  rw [← h, fromHex_toHex]

theorem encryptStoragePayload_some {plain key : Bytes} (h : encryptStoragePayload P env plain key ≠ []) :
    ∃ cipher tag, P.gcmEncrypt key (env.draw .nonce 12) plain = some (cipher, tag) ∧
      encryptStoragePayload P env plain key =
        toHex (env.draw .nonce 12) ++ 0x3A :: (toHex cipher ++ 0x3A :: toHex tag) := by
  unfold encryptStoragePayload at h ⊢
  simp only at h ⊢
  split at h
  · exact absurd rfl h
  next ha =>
    rw [if_neg ha]
    split at h
    · exact absurd rfl h
    next cipher tag henc => exact ⟨cipher, tag, henc, rfl⟩

/-- What a stored text hands to the cipher: iv, cipher text and tag. -/
def storedParts (payload : Str) : Option (Bytes × Bytes × Bytes) :=
  match Fields.cut 0x3A payload with
  | none => none
  | some (ivHex, rest) =>
    match Fields.cut 0x3A rest with
    | none => none
    | some (cipherHex, tagHex) =>
      if ivHex.length ≠ 24 ∨ tagHex.length ≠ 32 ∨ cipherHex.length / 2 = 0 then none
      else some (fromHex ivHex 12, fromHex cipherHex (cipherHex.length / 2), fromHex tagHex 16)

theorem decryptStoragePayload_parts {payload : Str} : decryptStoragePayload P env payload key =
    if env.allocates .plaintext then
      ((storedParts payload).bind fun p => P.gcmDecrypt key p.1 p.2.1 p.2.2).elim [] cstr
    else [] := by
  unfold decryptStoragePayload storedParts
  cases Fields.cut 0x3A payload with
  | none => simp
  | some first =>
    obtain ⟨ivHex, rest⟩ := first
    simp only
    cases Fields.cut 0x3A rest with
    | none => simp
    | some second =>
      obtain ⟨cipherHex, tagHex⟩ := second
      simp only
      split
      · simp
      · cases env.allocates .plaintext with
        | false => simp
        | true =>
          simp only [Bool.not_true, Bool.false_eq_true, if_false, if_true, Option.bind_some]
          cases P.gcmDecrypt key (fromHex ivHex 12) (fromHex cipherHex (cipherHex.length / 2))
            (fromHex tagHex 16) <;> rfl

theorem storedParts_toHex {iv cipher tag : Bytes} (hiv : iv.length = 12) :
    storedParts (toHex iv ++ 0x3A :: (toHex cipher ++ 0x3A :: toHex tag)) =
      if tag.length ≠ 16 ∨ cipher = [] then none else some (iv, cipher, tag) := by
  have hcolon : ¬ Hex.IsDigit 0x3A := by unfold Hex.IsDigit; decide
  rw [storedParts, Fields.cut_append (notMem_toHex hcolon _)]
  simp only
  rw [Fields.cut_append (notMem_toHex hcolon _)]
  simp only [Hex.encode_length, hiv]
  by_cases hbad : tag.length ≠ 16 ∨ cipher = []
  · rw [if_pos hbad, if_pos]
    rcases hbad with htag | rfl
    · exact .inr (.inl (by omega))
    · exact .inr (.inr rfl)
  · have hgood : tag.length = 16 ∧ 0 < cipher.length := by
      rwa [not_or, not_ne_iff, ← ne_eq, ← List.length_pos_iff] at hbad
    rw [if_neg hbad, if_neg (by omega), fromHex_toHex_of_length hiv,
      Nat.mul_div_cancel_left _ Nat.two_pos, fromHex_toHex, fromHex_toHex_of_length hgood.1]

theorem decrypt_encrypt (hp : StorageSound P) :
    decryptStoragePayload P env' (encryptStoragePayload P env plain key) key = [] ∨
      decryptStoragePayload P env' (encryptStoragePayload P env plain key) key = cstr plain := by
  by_cases hnil : encryptStoragePayload P env plain key = []
  · rw [hnil]
    exact .inl rfl
  obtain ⟨cipher, tag, henc, hpayload⟩ := encryptStoragePayload_some hnil
  rw [hpayload, decryptStoragePayload_parts, storedParts_toHex (Env.draw_length _ _ _)]
  split
  swap
  · exact .inl rfl
  split
  · exact .inl rfl
  · rw [Option.bind_some, hp.gcm _ _ _ _ _ henc]
    exact .inr rfl

/-- Only the memory for the text decides whether a payload can be read. -/
theorem decryptStoragePayload_congr {payload : Str} (h : env.allocates .plaintext = env'.allocates .plaintext) :
    decryptStoragePayload P env payload key = decryptStoragePayload P env' payload key := by
  rw [decryptStoragePayload_parts, decryptStoragePayload_parts, h]

theorem decryptStoragePayload_refused {payload : Str} (ha : env.allocates .plaintext = false) :
    decryptStoragePayload P env payload key = [] := by
  rw [decryptStoragePayload_parts, ha]
  exact if_neg Bool.false_ne_true

/-! Records. -/

/-- The text of a record before its key ends is free of line feeds and NULs. -/
structure Writable (c : StoredCredential) : Prop where
  userIdHex : newline ∉ c.userIdHex ∧ 0 ∉ c.userIdHex
  userName : newline ∉ c.userName ∧ 0 ∉ c.userName
  privateKeyHex : newline ∉ c.privateKeyHex ∧ 0 ∉ c.privateKeyHex

theorem cstr_append {a : Bytes} (h : 0 ∉ a) (b : Bytes) : cstr (a ++ b) = a ++ cstr b := by
  refine List.takeWhile_append_of_pos fun x hx => ?_
  simp only [bne_iff_ne, ne_eq]
  rintro rfl
  exact h hx

theorem cstr_cons {x : UInt8} (h : x ≠ 0) (b : Bytes) : cstr (x :: b) = x :: cstr b := by
  simp [cstr, h]

/-- What is read behind the key does not touch it. -/
theorem parsePayloadTail_key {key rest : Str} (h : newline ∉ key) :
    (parsePayloadTail c (key ++ newline :: rest)).privateKeyHex = key ∧
      (parsePayloadTail c (key ++ newline :: rest)).algId = c.algId := by
  unfold parsePayloadTail
  rw [Fields.cut_append h]
  simp only
  repeat' split
  all_goals exact ⟨rfl, rfl⟩

/-- A record opens to the key it was written with. -/
theorem parsePayload_recordPayload (rpId : Str) (algId : Int) (hc : Writable c) :
    ∃ c', parsePayload rpId algId (cstr (recordPayload c)) = some c' ∧
      c'.privateKeyHex = c.privateKeyHex ∧ c'.algId = algId := by
  have hn : newline ≠ 0 := by decide
  have hplain : ∃ rest, cstr (recordPayload c) = c.userIdHex ++ newline :: (c.userName ++
      newline :: (c.privateKeyHex ++ newline :: rest)) := by
    refine ⟨cstr (decimal c.credProtect.toNat ++ newline ::
      (c.largeBlobKeyHex ++ newline :: c.credBlobHex)), ?_⟩
    rw [recordPayload, cstr_append hc.userIdHex.2, cstr_cons hn, cstr_append hc.userName.2,
      cstr_cons hn, cstr_append hc.privateKeyHex.2, cstr_cons hn]
  obtain ⟨rest, hrest⟩ := hplain
  rw [hrest, parsePayload, Fields.cut_append hc.userIdHex.1]
  simp only
  rw [Fields.cut_append hc.userName.1]
  simp only
  exact ⟨_, rfl, (parsePayloadTail_key hc.privateKeyHex.1).1,
    (parsePayloadTail_key hc.privateKeyHex.1).2⟩

/-! Wrapped ids. -/

theorem slice_middle {start len : Nat} {a b : Bytes} (rest : Bytes) (ha : a.length = start)
    (hb : b.length = len) : slice start len (a ++ (b ++ rest)) = b := by
  subst ha hb
  simp [slice]

theorem fromBigEndian_bigEndian_mod (n v : Nat) : fromBigEndian (bigEndian n v) = v % 256 ^ n := by
  have general : ∀ n v acc, (bigEndian n v).foldl (fun v (c : UInt8) => v * 256 + c.toNat) acc
      = acc * 256 ^ n + v % 256 ^ n := by
    intro n
    induction n with
    | zero => simp [bigEndian, Nat.mod_one]
    | succ n ih =>
      intro v acc
      rw [bigEndian, List.foldl_cons, ih]
      have hbyte : (beByte v n).toNat = v / 256 ^ n % 256 := by simp [beByte]
      rw [hbyte, pow_succ, Nat.mod_mul, Nat.add_mul, Nat.mul_assoc, Nat.mul_comm 256 (256 ^ n),
        Nat.mul_comm (v / 256 ^ n % 256), Nat.add_assoc, Nat.add_comm (v % 256 ^ n)]
  rw [fromBigEndian, general, Nat.zero_mul, Nat.zero_add]

theorem fromBigEndian_bigEndian {n v : Nat} (h : v < 256 ^ n) : fromBigEndian (bigEndian n v) = v := by
  rw [fromBigEndian_bigEndian_mod, Nat.mod_eq_of_lt h]

theorem padTo_of_le {n : Nat} {b : Bytes} (h : b.length ≤ n) : ∃ rest, padTo n b = b ++ rest :=
  ⟨(zeros n).take (n - b.length), by rw [padTo, List.take_append, List.take_of_length_le h]⟩

@[simp] theorem algBytes_length (algId : Int) : (algBytes algId).length = 4 := bigEndian_length _ _

/-- The fields of a wrapped plain text, each where it is looked for. -/
structure Packed (P : Platform) (plaintext : Bytes) (rpId : Str) (userId : Bytes) (userName : Str)
    (priv : Bytes) (algId : Int) : Prop where
  magic : slice 0 4 plaintext = text "STAT"
  algId : slice 4 4 plaintext = algBytes algId
  rpIdHash : slice 8 32 plaintext = P.sha256 rpId
  userIdLen : slice 40 1 plaintext = [lengthByte userId.length]
  userId : slice 41 32 plaintext = padTo 32 (userId.take 32)
  userNameLen : slice 73 1 plaintext = [lengthByte userName.length]
  userName : slice 74 32 plaintext = padTo 32 (userName.take 32)
  privLen : slice 106 2 plaintext = bigEndian 2 priv.length
  priv : slice 108 priv.length plaintext = priv

theorem slice_parts {start len : Nat} (before : List Bytes) {part : Bytes} (after : List Bytes)
    (hb : before.flatten.length = start) (hp : part.length = len) :
    slice start len (before ++ part :: after).flatten = part := by
  rw [List.flatten_append, List.flatten_cons]
  exact slice_middle _ hb hp

theorem statelessPlaintext_packed (hp : StorageSound P) (rpId : Str) (userId : Bytes) (userName : Str)
    (priv : Bytes) (algId : Int) :
    Packed P (statelessPlaintext P rpId userId userName (toHex priv) algId) rpId userId userName priv
      algId := by
  have hlen : (toHex priv).length / 2 = priv.length := by simp
  have hstat : (text "STAT").length = 4 := by decide
  set stat := text "STAT"
  set user := padTo 32 (userId.take 32)
  set name := padTo 32 (userName.take 32)
  have huser : user.length = 32 := padTo_length _ _
  have hname : name.length = 32 := padTo_length _ _
  have hparts : ∃ rest, statelessPlaintext P rpId userId userName (toHex priv) algId =
      [stat, algBytes algId, P.sha256 rpId, [lengthByte userId.length], user,
        [lengthByte userName.length], name, bigEndian 2 priv.length, priv, rest].flatten := by
    obtain ⟨rest, hrest⟩ := padTo_of_le (n := (108 + priv.length + 15) / 16 * 16)
      (b := [stat, algBytes algId, P.sha256 rpId, [lengthByte userId.length], user,
        [lengthByte userName.length], name, bigEndian 2 priv.length, priv].flatten) (by
      simp only [List.flatten_cons, List.flatten_nil, List.length_append, List.length_cons,
        List.length_nil, hstat, algBytes_length, hp.sha256_length, huser, hname, bigEndian_length]
      omega)
    refine ⟨rest, ?_⟩
    unfold statelessPlaintext
    simp only [hlen, fromHex_toHex]
    simpa [user, name, stat] using hrest
  obtain ⟨rest, hplain⟩ := hparts
  rw [hplain]
  constructor
  · exact slice_parts [] _ rfl hstat
  · exact slice_parts [stat] _ (by simp [hstat]) (algBytes_length _)
  · exact slice_parts [stat, algBytes algId] _ (by simp [hstat]) (hp.sha256_length _)
  · exact slice_parts [stat, algBytes algId, P.sha256 rpId] _ (by simp [hstat, hp.sha256_length]) rfl
  · exact slice_parts [stat, algBytes algId, P.sha256 rpId, [lengthByte userId.length]] _
      (by simp [hstat, hp.sha256_length]) huser
  · exact slice_parts [stat, algBytes algId, P.sha256 rpId, [lengthByte userId.length], user] _
      (by simp [hstat, hp.sha256_length, huser]) rfl
  · exact slice_parts [stat, algBytes algId, P.sha256 rpId, [lengthByte userId.length], user,
      [lengthByte userName.length]] _ (by simp [hstat, hp.sha256_length, huser]) hname
  · exact slice_parts [stat, algBytes algId, P.sha256 rpId, [lengthByte userId.length], user,
      [lengthByte userName.length], name] _
      (by simp [hstat, hp.sha256_length, huser, hname]) (bigEndian_length _ _)
  · exact slice_parts [stat, algBytes algId, P.sha256 rpId, [lengthByte userId.length], user,
      [lengthByte userName.length], name, bigEndian 2 priv.length] _
      (by simp [hstat, hp.sha256_length, huser, hname]) rfl

/-- The plain text of a wrapped id gives its key and algorithm back. -/
theorem openStateless_statelessPlaintext (hp : StorageSound P) {rpId rpId' : Str} {userId : Bytes}
    {userName : Str} {priv : Bytes} {algId : Int} {encryptedLen : Nat} (hl : priv.length < 65536)
    (ha : toInt32 (fromBigEndian (algBytes algId)) = algId)
    (h : openStateless P encryptedLen
      (statelessPlaintext P rpId userId userName (toHex priv) algId) rpId' = some c) :
    c.privateKeyHex = toHex priv ∧ c.algId = algId ∧ c.rpId = rpId' ∧
      P.sha256 rpId = P.sha256 rpId' := by
  have hf := statelessPlaintext_packed hp rpId userId userName priv algId
  unfold openStateless at h
  split at h
  · cases h
  split at h
  · cases h
  next hhash =>
    rw [hf.rpIdHash, ne_eq, not_not] at hhash
    rw [hf.privLen, fromBigEndian_bigEndian hl] at h
    simp only at h
    split at h
    · cases h
    · cases h
      exact ⟨by rw [hf.priv], by rw [hf.algId, ha], rfl, hhash⟩

/-- What unwrapping takes apart in an id. -/
structure Wraps (P : Platform) (secret id iv encrypted : Bytes) : Prop where
  length : id.length = 48 + encrypted.length
  tag : slice (16 + (id.length - 48)) 32 id = P.hmacSha256 (statelessHmacKey P secret) (iv ++ encrypted)
  iv : slice 0 16 id = iv
  encrypted : slice 16 (id.length - 48) id = encrypted

theorem wrapStatelessCredential_wraps (hp : StorageSound P) {k : Keystore} {id : Bytes} {rpId : Str}
    {userId : Bytes} {userName privateKeyHex : Str} {algId : Int}
    (hw : (wrapStatelessCredential P env k rpId userId userName privateKeyHex algId).1 = some id) :
    Wraps P (getStatelessMasterSecret env k).1 id (env.draw .wrapIv 16)
      (P.cbcEncrypt (statelessAesKey P (getStatelessMasterSecret env k).1) (env.draw .wrapIv 16)
        (statelessPlaintext P rpId userId userName privateKeyHex algId)) := by
  unfold wrapStatelessCredential at hw
  simp only at hw
  split at hw
  · cases hw
  · cases hw
    set iv := env.draw .wrapIv 16
    set encrypted := P.cbcEncrypt (statelessAesKey P (getStatelessMasterSecret env k).1) iv
      (statelessPlaintext P rpId userId userName privateKeyHex algId)
    set hmac := P.hmacSha256 (statelessHmacKey P (getStatelessMasterSecret env k).1) (iv ++ encrypted)
    have hiv : iv.length = 16 := Env.draw_length _ _ _
    have hmaclen : hmac.length = 32 := hp.hmac_length _ _
    have hlen : (iv ++ encrypted ++ hmac).length = 48 + encrypted.length := by
      simp [hiv, hmaclen]
      omega
    constructor
    · exact hlen
    · have hlast : slice (16 + ((iv ++ encrypted ++ hmac).length - 48)) 32
          (iv ++ encrypted ++ (hmac ++ [])) = hmac :=
        slice_middle _ (by rw [hlen]; simp [hiv]) hmaclen
      rwa [List.append_nil] at hlast
    · rw [List.append_assoc]
      exact slice_middle (a := []) _ rfl hiv
    · rw [hlen, List.append_assoc]
      exact slice_middle _ hiv (by omega)

/-- What is unwrapped under the secret it was wrapped under is what was wrapped. -/
theorem unwrap_wrapped (hp : StorageSound P) {k : Keystore} {id : Bytes} {rpId rpId' : Str}
    {userId : Bytes} {userName : Str} {priv : Bytes} {algId : Int} {encryptedLen : Nat}
    (hl : priv.length < 65536) (ha : toInt32 (fromBigEndian (algBytes algId)) = algId)
    (hw : (wrapStatelessCredential P env k rpId userId userName (toHex priv) algId).1 = some id)
    (h : openStateless P encryptedLen (P.cbcDecrypt
      (statelessAesKey P (getStatelessMasterSecret env k).1) (slice 0 16 id)
      (slice 16 (id.length - 48) id)) rpId' = some c) :
    c.privateKeyHex = toHex priv ∧ c.algId = algId ∧ c.rpId = rpId' ∧
      P.sha256 rpId = P.sha256 rpId' := by
  have hwraps := wrapStatelessCredential_wraps hp hw
  have hblocks : (statelessPlaintext P rpId userId userName (toHex priv) algId).length % 16 = 0 := by
    simp [statelessPlaintext]
  rw [hwraps.iv, hwraps.encrypted, hp.cbc _ _ _ hblocks] at h
  exact openStateless_statelessPlaintext hp hl ha h

end GoiKey
