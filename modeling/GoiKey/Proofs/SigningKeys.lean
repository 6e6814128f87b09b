import GoiKey.Proofs.Credentials
import GoiKey.Proofs.RoundTrips

/-!
Keys and the signers they go to. Which signer a key is for is told from its
length, so a signature verifies because no two makers of an algorithm's keys
agree on one.
-/

namespace GoiKey

variable {P : Platform} {env env' : Env} {key : KeyPair} {algId : Int} {msg sig : Bytes}
variable {verify : Int → Bytes → Bytes → Bytes → Bool}

/-- What the linked primitives promise: their keys have their lengths, and what
they sign verifies under the public key, with the algorithm, it was made for. -/
structure SignersSound (P : Platform) (verify : Int → Bytes → Bytes → Bytes → Bool) : Prop where
  p256 : ∀ seed priv pub, P.ecdsaGenkey seed = some (priv, pub) → priv.length = 32 ∧
    ∀ msg rnd r s, P.ecdsaSign priv (P.sha256 msg) rnd = some (r, s) →
      verify (-7) pub msg (derEncodeSignature r s) = true
  fpgaP256 : ∀ seed blob pub, P.fpgaP256Genkey seed = some (blob, pub) →
    blob.length = fpgaBlobLen ∧
    ∀ msg rnd r s, P.fpgaP256Sign blob (P.sha256 msg) rnd = some (r, s) →
      verify (-7) (0x04 :: pub) msg (derEncodeSignature r s) = true
  ed25519 : ∀ priv msg, priv.length = 32 →
    verify (-8) (P.ed25519Public priv) msg (P.ed25519Sign priv (P.ed25519Public priv) msg) = true
  fpgaEd25519 : ∀ seed blob pub, P.fpgaEd25519Genkey seed = some (blob, pub) →
    blob.length = fpgaBlobLen ∧
    ∀ msg sig, P.fpgaEd25519Sign blob msg = some sig → verify (-8) pub msg sig = true
  rsa : ∀ seed der n, P.rsaGenkey seed = some (der, n) → der.length ≠ fpgaRsaBlobLen ∧
    ∀ msg rnd sig, P.rsaSign der (P.sha256 msg) rnd = some sig →
      verify (-257) (n ++ rsaExponent) msg sig = true
  fpgaRsa : ∀ seed blob n, P.fpgaRsaGenkey seed = some (blob, n) →
    blob.length = fpgaRsaBlobLen ∧
    ∀ msg sig, P.fpgaRsaSign blob (P.sha256 msg) = some sig →
      verify (-257) (n ++ rsaExponent) msg sig = true
  mldsa : ∀ algId seed sk pk, isMlDsa algId = true →
    P.mldsaKeypair (mldsaParameterSet algId) seed = some (sk, pk) →
    sk.length = mldsaSecretLen (mldsaParameterSet algId) ∧
    ∀ msg rnd sig, P.mldsaSign (mldsaParameterSet algId) sk msg rnd = some sig →
      verify algId pk msg sig = true
  fpgaMldsa : ∀ algId seed blob pk, isMlDsa algId = true →
    P.fpgaMldsaGenkey (mldsaParameterSet algId) seed = some (blob, pk) →
    blob.length = fpgaMldsaBlobLen (mldsaParameterSet algId) ∧
    ∀ msg rnd sig, P.fpgaMldsaSign (mldsaParameterSet algId) blob msg rnd = some sig →
      verify algId pk msg sig = true

/-- The maker of a key pair. -/
inductive KeyOrigin (P : Platform) : Int → KeyPair → Prop where
  | p256 {seed priv pub : Bytes} (made : P.ecdsaGenkey seed = some (priv, pub)) :
    KeyOrigin P (-7) ⟨toHex priv, pub⟩
  | fpgaP256 {seed blob pub : Bytes} (made : P.fpgaP256Genkey seed = some (blob, pub)) :
    KeyOrigin P (-7) ⟨toHex blob, 0x04 :: pub⟩
  | ed25519 {priv : Bytes} (length : priv.length = 32) :
    KeyOrigin P (-8) ⟨toHex priv, P.ed25519Public priv⟩
  | fpgaEd25519 {seed blob pub : Bytes} (made : P.fpgaEd25519Genkey seed = some (blob, pub)) :
    KeyOrigin P (-8) ⟨toHex blob, pub⟩
  | rsa {seed der n : Bytes} (made : P.rsaGenkey seed = some (der, n)) :
    KeyOrigin P (-257) ⟨toHex der, n ++ rsaExponent⟩
  | fpgaRsa {seed blob n : Bytes} (made : P.fpgaRsaGenkey seed = some (blob, n)) :
    KeyOrigin P (-257) ⟨toHex blob, n ++ rsaExponent⟩
  | mldsa {algId : Int} {seed sk pk : Bytes} (alg : isMlDsa algId = true)
    (made : P.mldsaKeypair (mldsaParameterSet algId) seed = some (sk, pk)) :
    KeyOrigin P algId ⟨toHex sk, pk⟩
  | fpgaMldsa {algId : Int} {seed blob pk : Bytes} (alg : isMlDsa algId = true)
    (made : P.fpgaMldsaGenkey (mldsaParameterSet algId) seed = some (blob, pk)) :
    KeyOrigin P algId ⟨toHex blob, pk⟩

theorem generateCredentialKeyP256_origin (h : generateCredentialKeyP256 P env = some key) :
    KeyOrigin P (-7) key := by
  have software : (generateKeypairP256 P (env.random .key)).map
      (fun p => KeyPair.mk (toHex p.1) p.2) = some key → KeyOrigin P (-7) key := by
    intro h
    obtain ⟨⟨priv, pub⟩, hgen, rfl⟩ := Option.map_eq_some_iff.mp h
    exact .p256 hgen
  unfold generateCredentialKeyP256 at h
  simp only at h
  split at h
  · split at h
    next blob pub hgen =>
      cases h
      exact .fpgaP256 hgen
    · exact software h
  · exact software h

theorem generateEd25519KeyPair_origin (h : generateEd25519KeyPair P env = some key) :
    KeyOrigin P (-8) key := by
  unfold generateEd25519KeyPair at h
  simp only at h
  split at h
  · split at h
    next blob pub hgen =>
      cases h
      exact .fpgaEd25519 hgen
    · cases h
      exact .ed25519 (padTo_length _ _)
  · cases h
    exact .ed25519 (padTo_length _ _)

theorem generateRsa2048KeyPair_origin (h : generateRsa2048KeyPair P env = some key) :
    KeyOrigin P (-257) key := by
  have software : (P.rsaGenkey (env.random .key)).map
      (fun p => KeyPair.mk (toHex p.1) (p.2 ++ rsaExponent)) = some key →
        KeyOrigin P (-257) key := by
    intro h
    obtain ⟨⟨der, n⟩, hgen, rfl⟩ := Option.map_eq_some_iff.mp h
    exact .rsa hgen
  unfold generateRsa2048KeyPair at h
  simp only at h
  split at h
  · split at h
    next blob n hgen =>
      cases h
      exact .fpgaRsa hgen
    · exact software h
  · exact software h

theorem generateMlDsaKeyPairEx_origin (ha : isMlDsa algId = true)
    (h : generateMlDsaKeyPairEx P env algId = some key) : KeyOrigin P algId key := by
  have software : (P.mldsaKeypair (mldsaParameterSet algId) (env.random .key)).map
      (fun p => KeyPair.mk (toHex p.1) p.2) = some key → KeyOrigin P algId key := by
    intro h
    obtain ⟨⟨sk, pk⟩, hgen, rfl⟩ := Option.map_eq_some_iff.mp h
    exact .mldsa ha hgen
  unfold generateMlDsaKeyPairEx at h
  simp only at h
  split at h
  · cases h
  · split at h
    · split at h
      next blob pk hgen =>
        cases h
        exact .fpgaMldsa ha hgen
      · exact software h
    · exact software h

theorem madeKey_origin (h : MadeKey P env algId key) : KeyOrigin P algId key := by
  rcases h with h | ⟨rfl, h⟩
  · unfold generateCredentialKey at h
    split at h
    next ha =>
      subst ha
      split at h
      · exact generateCredentialKeyP256_origin h
      · cases h
    split at h
    next ha =>
      subst ha
      split at h
      · exact generateEd25519KeyPair_origin h
      · cases h
    split at h
    next ha =>
      subst ha
      split at h
      · exact generateRsa2048KeyPair_origin h
      · cases h
    split at h
    next ha =>
      split at h
      · exact generateMlDsaKeyPairEx_origin ha h
      · cases h
    · cases h
  · exact generateCredentialKeyP256_origin h

/-- Keys are kept as the hex of their bytes. -/
theorem KeyOrigin.hex (h : KeyOrigin P algId key) : ∃ b, key.privateKeyHex = toHex b := by
  cases h <;> exact ⟨_, rfl⟩

/-! What generateAlgSignature comes down to for each algorithm. -/

theorem generateAlgSignature_es256 {hex : Str} (h : generateAlgSignature P env (-7) hex msg = some sig) :
    generateFido2Signature P env hex (P.sha256 msg) = some sig := by
  unfold generateAlgSignature at h
  split at h
  · cases h
  · exact h

theorem generateAlgSignature_ed25519 {b : Bytes}
    (h : generateAlgSignature P env (-8) (toHex b) msg = some sig) :
    (b.length = fpgaBlobLen ∧ P.fpgaEd25519Sign b msg = some sig) ∨
      (b.length ≠ fpgaBlobLen ∧
        sig = P.ed25519Sign (fromHex (toHex b) 32) (P.ed25519Public (fromHex (toHex b) 32)) msg) := by
  unfold generateAlgSignature at h
  split at h
  · cases h
  · rw [if_neg (by decide), if_pos rfl] at h
    split at h
    next hlen =>
      have hlen : b.length = fpgaBlobLen := by simpa using hlen
      split at h
      · rw [fromHex_toHex_of_length hlen] at h
        exact .inl ⟨hlen, h⟩
      · cases h
    next hlen =>
      cases h
      exact .inr ⟨by simpa using hlen, rfl⟩

theorem generateAlgSignature_rsa {b : Bytes}
    (h : generateAlgSignature P env (-257) (toHex b) msg = some sig) :
    (b.length = fpgaRsaBlobLen ∧ P.fpgaRsaSign b (P.sha256 msg) = some sig) ∨
      (b.length ≠ fpgaRsaBlobLen ∧ P.rsaSign b (P.sha256 msg) (env.random .signing) = some sig) := by
  unfold generateAlgSignature at h
  split at h
  · cases h
  · rw [if_neg (by decide), if_neg (by decide), if_pos rfl] at h
    split at h
    next hlen =>
      have hlen : b.length = fpgaRsaBlobLen := by simpa using hlen
      split at h
      · rw [fromHex_toHex_of_length hlen] at h
        exact .inl ⟨hlen, h⟩
      · cases h
    next hlen =>
      rw [fromHex_toHex_of_length (by simp)] at h
      exact .inr ⟨by simpa using hlen, h⟩

theorem isMlDsa_iff : isMlDsa algId = true ↔ algId = -48 ∨ algId = -49 ∨ algId = -50 := by
  simp [isMlDsa, or_assoc]

theorem generateAlgSignature_mldsa {b : Bytes} (ha : isMlDsa algId = true)
    (h : generateAlgSignature P env algId (toHex b) msg = some sig) :
    (b.length = fpgaMldsaBlobLen (mldsaParameterSet algId) ∧
        P.fpgaMldsaSign (mldsaParameterSet algId) b msg (env.random .signing) = some sig) ∨
      (b.length ≠ fpgaMldsaBlobLen (mldsaParameterSet algId) ∧
        P.mldsaSign (mldsaParameterSet algId) b msg (env.random .signing) = some sig) := by
  have ha := isMlDsa_iff.mp ha
  have hne : algId ≠ -7 ∧ algId ≠ -8 ∧ algId ≠ -257 := by omega
  unfold generateAlgSignature at h
  split at h
  · cases h
  · rw [if_neg hne.1, if_neg hne.2.1, if_neg hne.2.2] at h
    have hlen : (toHex b).length / 2 = b.length := by simp
    simp only [hlen, fromHex_toHex] at h
    split at h
    · cases h
    · split at h
      next hblob =>
        split at h
        · exact .inl ⟨hblob, h⟩
        · cases h
      next hblob => exact .inr ⟨hblob, h⟩

theorem generateFido2Signature_blob {b digest : Bytes} (hb : b.length = fpgaBlobLen)
    (h : generateFido2Signature P env (toHex b) digest = some sig) :
    ∃ r s, P.fpgaP256Sign b digest (env.random .signing) = some (r, s) ∧ sig = derEncodeSignature r s := by
  unfold generateFido2Signature at h
  rw [if_pos (by simp [hb])] at h
  split at h
  · rw [fromHex_toHex_of_length hb] at h
    obtain ⟨⟨r, s⟩, hsign, rfl⟩ := Option.map_eq_some_iff.mp h
    exact ⟨r, s, hsign, rfl⟩
  · cases h

theorem generateFido2Signature_scalar {b digest : Bytes} (hb : b.length = 32)
    (h : generateFido2Signature P env (toHex b) digest = some sig) :
    ∃ r s, P.ecdsaSign b digest (env.random .signing) = some (r, s) ∧ sig = derEncodeSignature r s := by
  unfold generateFido2Signature at h
  rw [if_neg (by simp [hb, fpgaBlobLen])] at h
  split at h
  · cases h
  · rw [fromHex_toHex_of_length hb, signECDSA_P256] at h
    obtain ⟨⟨r, s⟩, hsign, rfl⟩ := Option.map_eq_some_iff.mp h
    exact ⟨r, s, hsign, rfl⟩

/-- A key signs, for its own algorithm, what verifies under its public key. -/
theorem KeyOrigin.verifies (h : KeyOrigin P algId key) (hs : SignersSound P verify)
    (hsig : generateAlgSignature P env algId key.privateKeyHex msg = some sig) :
    verify algId key.publicKey msg sig = true := by
  cases h with
  | p256 made =>
    obtain ⟨hlen, hv⟩ := hs.p256 _ _ _ made
    obtain ⟨r, s, hsign, rfl⟩ :=
      generateFido2Signature_scalar hlen (generateAlgSignature_es256 hsig)
    exact hv _ _ _ _ hsign
  | fpgaP256 made =>
    obtain ⟨hlen, hv⟩ := hs.fpgaP256 _ _ _ made
    obtain ⟨r, s, hsign, rfl⟩ := generateFido2Signature_blob hlen (generateAlgSignature_es256 hsig)
    exact hv _ _ _ _ hsign
  | ed25519 length =>
    rcases generateAlgSignature_ed25519 hsig with ⟨hblob, -⟩ | ⟨-, rfl⟩
    · rw [length] at hblob
      exact absurd hblob (by decide)
    · rw [fromHex_toHex_of_length length]
      exact hs.ed25519 _ _ length
  | fpgaEd25519 made =>
    obtain ⟨hlen, hv⟩ := hs.fpgaEd25519 _ _ _ made
    rcases generateAlgSignature_ed25519 hsig with ⟨-, hsign⟩ | ⟨hblob, -⟩
    · exact hv _ _ hsign
    · exact absurd hlen hblob
  | rsa made =>
    obtain ⟨hlen, hv⟩ := hs.rsa _ _ _ made
    rcases generateAlgSignature_rsa hsig with ⟨hblob, -⟩ | ⟨-, hsign⟩
    · exact absurd hblob hlen
    · exact hv _ _ _ hsign
  | fpgaRsa made =>
    obtain ⟨hlen, hv⟩ := hs.fpgaRsa _ _ _ made
    rcases generateAlgSignature_rsa hsig with ⟨-, hsign⟩ | ⟨hblob, -⟩
    · exact hv _ _ hsign
    · exact absurd hlen hblob
  | mldsa alg made =>
    obtain ⟨hlen, hv⟩ := hs.mldsa _ _ _ _ alg made
    rcases generateAlgSignature_mldsa alg hsig with ⟨hblob, -⟩ | ⟨-, hsign⟩
    · rw [hlen] at hblob
      rcases isMlDsa_iff.mp alg with rfl | rfl | rfl <;> exact absurd hblob (by decide)
    · exact hv _ _ _ hsign
  | fpgaMldsa alg made =>
    obtain ⟨hlen, hv⟩ := hs.fpgaMldsa _ _ _ _ alg made
    rcases generateAlgSignature_mldsa alg hsig with ⟨-, hsign⟩ | ⟨hblob, -⟩
    · exact hv _ _ _ hsign
    · exact absurd hlen hblob

/-- Only keys short enough are wrapped, and their algorithm fits its four bytes. -/
theorem KeyOrigin.wrappable (h : KeyOrigin P algId key) (hs : SignersSound P verify)
    (ha : algId ≠ -257 ∧ isMlDsa algId = false) :
    ∃ b : Bytes, key.privateKeyHex = toHex b ∧ b.length < 65536 ∧
      toInt32 (fromBigEndian (algBytes algId)) = algId := by
  cases h with
  | p256 made => exact ⟨_, rfl, by rw [(hs.p256 _ _ _ made).1]; decide, by decide⟩
  | fpgaP256 made => exact ⟨_, rfl, by rw [(hs.fpgaP256 _ _ _ made).1]; decide, by decide⟩
  | ed25519 length => exact ⟨_, rfl, by rw [length]; decide, by decide⟩
  | fpgaEd25519 made => exact ⟨_, rfl, by rw [(hs.fpgaEd25519 _ _ _ made).1]; decide, by decide⟩
  | rsa made => exact absurd rfl ha.1
  | fpgaRsa made => exact absurd rfl ha.1
  | mldsa alg made => rw [alg] at ha; cases ha.2
  | fpgaMldsa alg made => rw [alg] at ha; cases ha.2

end GoiKey
