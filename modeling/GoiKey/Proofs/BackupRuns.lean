import GoiKey.Proofs.Backups
import GoiKey.Proofs.Lines

/-!
Backups as blobs and as runs: the bytes of a blob read back, the chunks of an import
put together, and what a commit may restore.
-/

namespace GoiKey.Backups

open VaultMap

variable {P : Platform} {J : ArchiveJson} {hmacSha1 : Bytes → Bytes → Bytes} {B : BackupEnv}
variable {env : Env} {key : Bytes} {passphrase hexIn : Str}

/-! The bytes of a blob. -/

/-- A backup that was made. -/
structure MadeBackup where
  passphrase : Str
  salt : Bytes
  nonce : Bytes
  plain : Str
  salt_length : salt.length = 16
  nonce_length : nonce.length = 12

def MadeBackup.sealing (P : Platform) (r : MadeBackup) : Sealing :=
  ⟨P.pbkdf2 r.passphrase r.salt backupIterations, r.nonce, r.plain⟩

def MadeBackup.blob (P : Platform) (r : MadeBackup) : Option Bytes :=
  (P.gcmEncrypt (r.sealing P).key r.nonce r.plain).map fun parts =>
    blobOf r.salt backupIterations r.nonce parts.2 parts.1 r.plain.length

/-- The fields of a blob, each where it is looked for. -/
structure BlobFields (blob salt : Bytes) (iterations : Nat) (nonce tag cipher : Bytes) (ptLen : Nat) :
    Prop where
  magicAt : slice 0 4 blob = text "VBK1"
  versionAt : slice 4 1 blob = [1]
  saltAt : slice 5 16 blob = salt
  iterationsAt : slice 21 4 blob = bigEndian 4 iterations
  nonceAt : slice 25 12 blob = nonce
  tagAt : slice 37 16 blob = tag
  ptLenAt : slice 53 4 blob = bigEndian 4 ptLen
  cipherAt : slice 57 cipher.length blob = cipher
  whole : blob.length = backupHeaderLen + cipher.length

theorem blobOf_fields {salt nonce tag : Bytes} (cipher : Bytes) (iterations ptLen : Nat) (hs : salt.length = 16)
    (hn : nonce.length = 12) (ht : tag.length = 16) :
    BlobFields (blobOf salt iterations nonce tag cipher ptLen) salt iterations nonce tag cipher ptLen := by
  have hm : (text "VBK1").length = 4 := by decide
  set magic := text "VBK1"
  have hi : (bigEndian 4 iterations).length = 4 := bigEndian_length _ _
  have hl : (bigEndian 4 ptLen).length = 4 := bigEndian_length _ _
  have hblob : blobOf salt iterations nonce tag cipher ptLen =
      [magic, [1], salt, bigEndian 4 iterations, nonce, tag, bigEndian 4 ptLen, cipher].flatten := by
    simp [blobOf, magic]
  rw [hblob]
  refine ⟨?_, ?_, ?_, ?_, ?_, ?_, ?_, ?_, ?_⟩
  · exact slice_parts [] [_, _, _, _, _, _, _] rfl hm
  · exact slice_parts [magic] [_, _, _, _, _, _] (by simp [hm]) rfl
  · exact slice_parts [magic, [1]] [_, _, _, _, _] (by simp [hm]) hs
  · exact slice_parts [magic, [1], salt] [_, _, _, _] (by simp [hm, hs]) hi
  · exact slice_parts [magic, [1], salt, bigEndian 4 iterations] [_, _, _] (by simp [hm, hs]) hn
  · exact slice_parts [magic, [1], salt, bigEndian 4 iterations, nonce] [_, _] (by simp [hm, hs, hn]) ht
  · exact slice_parts [magic, [1], salt, bigEndian 4 iterations, nonce, tag] [_] (by simp [hm, hs, hn, ht]) hl
  · exact slice_parts [magic, [1], salt, bigEndian 4 iterations, nonce, tag, bigEndian 4 ptLen] []
      (by simp [hm, hs, hn, ht]) rfl
  · simp [hm, hs, hn, ht, backupHeaderLen]
    omega

theorem drop_eq_slice (start len : Nat) (b : Bytes) :
    b.drop start = slice start len b ++ b.drop (start + len) := by
  rw [slice, ← List.drop_drop, List.take_append_drop]

/-- A blob is made of its fields. -/
theorem BlobFields.eq_blobOf {blob salt nonce tag cipher : Bytes} {iterations ptLen : Nat}
    (h : BlobFields blob salt iterations nonce tag cipher ptLen) :
    blob = blobOf salt iterations nonce tag cipher ptLen := by
  have hend : slice 57 cipher.length blob = blob.drop 57 := by
    rw [slice, List.take_of_length_le]
    rw [List.length_drop, h.whole, backupHeaderLen]
    omega
  calc blob = blob.drop 0 := rfl
    _ = blobOf salt iterations nonce tag cipher ptLen := by
      rw [drop_eq_slice 0 4, drop_eq_slice (0 + 4) 1, drop_eq_slice (0 + 4 + 1) 16,
        drop_eq_slice (0 + 4 + 1 + 16) 4, drop_eq_slice (0 + 4 + 1 + 16 + 4) 12,
        drop_eq_slice (0 + 4 + 1 + 16 + 4 + 12) 16, drop_eq_slice (0 + 4 + 1 + 16 + 4 + 12 + 16) 4]
      simp only [Nat.reduceAdd]
      rw [← hend, h.magicAt, h.versionAt, h.saltAt, h.iterationsAt, h.nonceAt, h.tagAt, h.ptLenAt, h.cipherAt, blobOf]
      rfl

theorem bigEndian_fromBigEndian {b : Bytes} (h : b.length = 4) : bigEndian 4 (fromBigEndian b) = b := by
  obtain ⟨w, x, y, z, rfl⟩ : ∃ w x y z, b = [w, x, y, z] := by
    match b, h with
    | [w, x, y, z], _ => exact ⟨w, x, y, z, rfl⟩
  have hw := w.toNat_lt
  have hx := x.toNat_lt
  have hy := y.toNat_lt
  have hz := z.toNat_lt
  have hbyte : ∀ (n : Nat) (c : UInt8), n % 256 = c.toNat → UInt8.ofNat n = c := by
    intro n c hc
    apply UInt8.toNat_inj.mp
    rw [UInt8.toNat_ofNat']
    exact hc
  simp only [bigEndian, beByte, fromBigEndian, List.foldl_cons, List.foldl_nil]
  rw [hbyte _ w (by omega), hbyte _ x (by omega), hbyte _ y (by omega), hbyte _ z (by omega)]

/-! Opening. -/

/-- What it takes for a text to open. -/
structure Opened (P : Platform) (hexIn passphrase plain : Str) (blob : Bytes) (iterations ctLen : Nat) :
    Prop where
  even : hexIn.length % 2 = 0
  magicAt : slice 0 4 blob = text "VBK1"
  versionAt : slice 4 1 blob = [1]
  iterationsAt : fromBigEndian (slice 21 4 blob) = iterations
  ctLenAt : fromBigEndian (slice 53 4 blob) = ctLen
  whole : backupHeaderLen + ctLen = hexIn.length / 2
  opens : P.gcmDecrypt (P.pbkdf2 passphrase (slice 5 16 blob) iterations) (slice 25 12 blob)
    (slice 57 ctLen blob) (slice 37 16 blob) = some plain

def decoded (hexIn : Str) : Bytes := fromHex hexIn (hexIn.length / 2)

theorem backupDecryptBlob_opened {plain : Str} (h : backupDecryptBlob P B hexIn passphrase = .ok plain) :
    Opened P hexIn passphrase plain (decoded hexIn) (fromBigEndian (slice 21 4 (decoded hexIn)))
      (fromBigEndian (slice 53 4 (decoded hexIn))) := by
  unfold backupDecryptBlob at h
  simp only at h
  split at h
  · cases h
  next hform =>
    split at h
    · cases h
    split at h
    · cases h
    next hmagic =>
      split at h
      · cases h
      next hversion =>
        split at h
        · cases h
        split at h
        · cases h
        next hlength =>
          unfold deriveBackupKey at h
          split at h
          · cases h
          next k hk =>
            split at h
            · cases h
            split at h
            · cases h
            next p hp =>
              cases h
              split at hk
              · cases hk
                simp only [ne_eq, not_or, not_not, Nat.not_lt] at hform hmagic hversion hlength
                exact ⟨by omega, hmagic, hversion, rfl, rfl, hlength, hp⟩
              · cases hk

/-- The surroundings of a backup in which everything works. -/
structure BlobWorks (B : BackupEnv) : Prop where
  derives : B.derives = true
  cipherBuffer : B.cipherBuffer = true
  blobBuffer : B.blobBuffer = true
  plainBuffer : B.plainBuffer = true

theorem backupDecryptBlob_of_opened (hB : BlobWorks B) {plain : Str} (iterations ctLen : Nat)
    (h : Opened P hexIn passphrase plain (decoded hexIn) iterations ctLen)
    (hi : iterations ≠ 0 ∧ iterations ≤ 2000000) : backupDecryptBlob P B hexIn passphrase = .ok plain := by
  have hform : ¬(hexIn.length % 2 ≠ 0 ∨ hexIn.length / 2 < backupHeaderLen) := by
    have := h.even
    have := h.whole
    omega
  have hrange : ¬(iterations = 0 ∨ 2000000 < iterations) := by omega
  have hd : fromHex hexIn (hexIn.length / 2) = decoded hexIn := rfl
  have hk : ∀ salt iterations, deriveBackupKey P B passphrase salt iterations =
      some (P.pbkdf2 passphrase salt iterations) := fun _ _ => if_pos hB.derives
  unfold backupDecryptBlob
  simp only [if_neg hform, hd, hB.blobBuffer, hB.plainBuffer, Bool.not_true, Bool.false_eq_true, if_false,
    h.magicAt, h.versionAt, h.iterationsAt, h.ctLenAt, h.whole, ne_eq, not_true, if_neg hrange, hk, h.opens]

/-- The text of a backup opens under its passphrase. -/
theorem backupDecryptBlob_blob (hp : RecordsSound P) (hB : BlobWorks B) {r : MadeBackup} {blob : Bytes}
    (hblob : r.blob P = some blob) (hlen : blob.length < 2 ^ 32) :
    backupDecryptBlob P B (toHex blob) r.passphrase = .ok r.plain := by
  obtain ⟨⟨cipher, tag⟩, henc, hmade⟩ := Option.map_eq_some_iff.mp hblob
  obtain ⟨hcipher, htag⟩ := hp.gcm_length _ _ _ _ _ henc
  have hf := blobOf_fields cipher backupIterations r.plain.length r.salt_length r.nonce_length htag
  simp only at hmade
  rw [hmade] at hf
  have hdecoded : decoded (toHex blob) = blob := by
    rw [decoded, Hex.encode_length, Nat.mul_div_cancel_left _ (by omega), fromHex_toHex]
  have hsmall : r.plain.length < 256 ^ 4 := by
    have := hf.whole
    omega
  refine backupDecryptBlob_of_opened hB backupIterations r.plain.length ?_ (by unfold backupIterations; omega)
  rw [hdecoded]
  refine ⟨by rw [Hex.encode_length]; omega, hf.magicAt, hf.versionAt, ?_, ?_, ?_, ?_⟩
  · rw [hf.iterationsAt]
    exact fromBigEndian_bigEndian (by decide)
  · rw [hf.ptLenAt]
    exact fromBigEndian_bigEndian hsmall
  · rw [Hex.encode_length, Nat.mul_div_cancel_left _ (by omega), hf.whole, hcipher]
  · rw [hf.saltAt, hf.nonceAt, hf.tagAt, ← hcipher, hf.cipherAt]
    exact hp.gcm _ _ _ _ _ henc

end GoiKey.Backups
