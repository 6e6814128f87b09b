import GoiKey.Lib.Window
import GoiKey.Model.Crypto
import GoiKey.Proofs.SigningKeys

/-!
The key of the hmac-secret extension is the front of the stored private key. For
ML-DSA keys made in software that is rho, with which the public key begins too.
-/

namespace GoiKey

variable {P : Platform} {algId : Int} {key : KeyPair}

/-- What hmacSecretOutput takes as its key, in GetAssertion and GetNextAssertion. -/
def hmacKey (privateKeyHex : Str) : Bytes := fromHex privateKeyHex 32

theorem hmacSecretOutput_key (c : StoredCredential) (a : AssertionInput) (h1 : a.salt1.length = 32)
    (h2 : a.salt2.length ≠ 32) :
    hmacSecretOutput P c a = P.hmacSha256 (hmacKey c.privateKeyHex) a.salt1 := by
  unfold hmacSecretOutput hmacKey
  rw [if_neg h2, if_pos h1]

/-- The units of the accelerator that are attached. -/
structure Units where
  asym : Bool := false
  rsa : Bool := false
  pq : Bool := false
  deriving DecidableEq, Repr

/-- Surroundings with these units. -/
def Units.Fit (u : Units) (env : Env) : Prop :=
  env.hasAsym = u.asym ∧ env.hasRsa = u.rsa ∧ env.hasPq = u.pq

/-- The HMAC key and the published COSE key of a key pair the device generates. -/
def Registers (P : Platform) (u : Units) (algId : Int) (hmac cose : Bytes) : Prop :=
  ∃ env key, u.Fit env ∧ generateCredentialKey P env algId = some key ∧
    hmac = hmacKey key.privateKeyHex ∧ cose = coseKey algId key.publicKey

/-- The HMAC key can be read off every registration with the algorithm. -/
def Published (P : Platform) (u : Units) (algId : Int) : Prop :=
  Window.Readable 32 (Registers P u algId)

theorem hmacKey_toHex (b : Bytes) : hmacKey (toHex b) = padTo 32 b := by
  simp [hmacKey, fromHex]

/-! What is known of the generators. -/

def basePoint : Bytes := fromHex (text "6b17d1f2e12c4247f8bce6e563a440f277037d812deb33a0f4a13945d898c2964fe342e2fe1a7f9b8ee7eb4a7c0f9e162bce33576b315ececbb6406837bf51f5") 64

def doubledPoint : Bytes := fromHex (text "7cf27b188d034f7e8a52380304b51ac3c08969e277f21b35a60b48fc4766997807775510db8ed040293d9ac69f7430dbba7dade63ce982299e04b79d227873d1") 64

/-- RFC 8032's public key of the seed of zeros. -/
def zeroSeedPublic : Bytes := fromHex (text "3b6a27bcceb6a42d62a3a8d02a6f0d73653215771de243a63ac048a18b59da29") 32

/-- The DER text of an RSA key: sequence, version, modulus and what follows it. -/
def rsaDer (len : Nat) (n rest : Bytes) : Bytes :=
  [0x30, 0x82] ++ bigEndian 2 len ++ [0x02, 0x01, 0x00, 0x02, 0x82, 0x01, 0x01, 0x00] ++ n ++ rest

/-- A unit wraps one key under a nonce of its own each time. -/
def Renews (gen : Bytes → Option (Bytes × Bytes)) : Prop :=
  ∃ seed seed' blob blob' pub, gen seed = some (blob, pub) ∧ gen seed' = some (blob', pub) ∧
    32 ≤ blob.length ∧ 32 ≤ blob'.length ∧ blob.take 32 ≠ blob'.take 32

/-- Keys that the generators can come up with. -/
structure KeysVary (P : Platform) : Prop where
  p256 : ∃ seed, P.ecdsaGenkey seed = some (bigEndian 32 1, 0x04 :: basePoint)
  p256_double : ∃ seed, P.ecdsaGenkey seed = some (bigEndian 32 2, 0x04 :: doubledPoint)
  ed25519 : P.ed25519Public (zeros 32) = zeroSeedPublic
  rsa : ∃ seed len n rest, P.rsaGenkey seed = some (rsaDer len n rest, n) ∧ n.length = 256 ∧ 0 ∉ n
  rsa_lengths : ∃ seed seed' len len' n n' rest rest',
    P.rsaGenkey seed = some (rsaDer len n rest, n) ∧ P.rsaGenkey seed' = some (rsaDer len' n' rest', n') ∧
      UInt8.ofNat len ≠ UInt8.ofNat len'
  fpgaP256 : Renews P.fpgaP256Genkey
  fpgaEd25519 : Renews P.fpgaEd25519Genkey
  fpgaRsa : Renews P.fpgaRsaGenkey
  fpgaMldsa : ∀ algId, isMlDsa algId = true → Renews (P.fpgaMldsaGenkey (mldsaParameterSet algId))

/-- `crypto_sign_keypair` packs what it makes with one rho. -/
def PacksRho (P : Platform) : Prop :=
  ∀ ps seed sk pk, P.mldsaKeypair ps seed = some (sk, pk) →
    ∃ rho tr k t0 s1 s2 t1, rho.length = 32 ∧ sk = packSk rho tr k t0 s1 s2 ∧ pk = packPk rho t1

/-! Keys of each kind. -/

/-- Surroundings with the units and one seed. -/
def Units.env (u : Units) (seed : Bytes) : Env :=
  { Bench.idleEnv 0 0 with random := fun _ => seed, hasAsym := u.asym, hasRsa := u.rsa, hasPq := u.pq }

theorem Units.env_fit (u : Units) (seed : Bytes) : u.Fit (u.env seed) := ⟨rfl, rfl, rfl⟩

theorem Registers.of_generated {u : Units} (seed : Bytes) {blob pub : Bytes}
    (h : generateCredentialKey P (u.env seed) algId = some ⟨toHex blob, pub⟩) :
    Registers P u algId (padTo 32 blob) (coseKey algId pub) :=
  ⟨u.env seed, _, u.env_fit seed, h, (hmacKey_toHex blob).symm, rfl⟩

theorem padTo_take {n : Nat} {b : Bytes} (h : n ≤ b.length) : padTo n b = b.take n :=
  List.take_append_of_le_length h

theorem padTo_front {n : Nat} {front rest : Bytes} (h : front.length = n) : padTo n (front ++ rest) = front := by
  rw [padTo_take (by simp [h]), ← h, List.take_left]

theorem not_readable_of_renews {u : Units} {gen : Bytes → Option (Bytes × Bytes)} (pubOf : Bytes → Bytes)
    (hgen : Renews gen) (hreg : ∀ seed blob pub, gen seed = some (blob, pub) →
      Registers P u algId (padTo 32 blob) (coseKey algId (pubOf pub))) : ¬Published P u algId := by
  obtain ⟨seed, seed', blob, blob', pub, hblob, hblob', hlen, hlen', hne⟩ := hgen
  intro h
  apply hne
  rw [← padTo_take hlen, ← padTo_take hlen']
  exact h.unique (hreg seed blob pub hblob) (hreg seed' blob' pub hblob')

/-- A pair of values stands nowhere in the two strings. -/
theorem nowhere {a b : Bytes} {x y : UInt8} (h : ∀ p < a.length, a[p]? = some x → b[p]? ≠ some y) (p : Nat)
    (ha : a[p]? = some x) : b[p]? ≠ some y := by
  obtain ⟨hp, -⟩ := List.getElem?_eq_some_iff.mp ha
  exact h p hp ha

theorem p256_not_published (hv : KeysVary P) {u : Units} (hu : u.asym = false) : ¬Published P u (-7) := by
  have hreg : ∀ seed priv pub, P.ecdsaGenkey seed = some (priv, pub) →
      Registers P u (-7) (padTo 32 priv) (coseKey (-7) pub) := by
    intro seed priv pub hgen
    refine Registers.of_generated seed ?_
    simp [generateCredentialKey, generateCredentialKeyP256, generateKeypairP256, Units.env, Bench.idleEnv, hu, hgen]
  obtain ⟨seed, hone⟩ := hv.p256
  obtain ⟨seed', htwo⟩ := hv.p256_double
  have h1 := hreg _ _ _ hone
  have h2 := hreg _ _ _ htwo
  intro h
  -- both scalars are zeros up to their last byte
  obtain ⟨place, hread⟩ := h.behind (j := 31) h1 h2 (by decide)
  have hp1 := hread _ _ h1 0 (by decide)
  have hp2 := hread _ _ h2 0 (by decide)
  exact nowhere (by decide +kernel) place hp1.symm hp2.symm

theorem ed25519_not_published (hv : KeysVary P) {u : Units} (hu : u.asym = false) :
    ¬Published P u (-8) := by
  have hreg : ∀ seed, Registers P u (-8) (padTo 32 (padTo 32 seed))
      (coseKey (-8) (P.ed25519Public (padTo 32 seed))) := by
    intro seed
    refine Registers.of_generated seed ?_
    simp [generateCredentialKey, generateEd25519KeyPair, Units.env, Bench.idleEnv, hu]
  have h0 := hreg (zeros 32)
  have h1 := hreg (bigEndian 32 1)
  rw [show padTo 32 (zeros 32) = zeros 32 from rfl, hv.ed25519] at h0
  intro h
  obtain ⟨place, hread⟩ := h.behind (j := 31) h0 h1 (by decide)
  -- the public key of the zeros has no zero in it
  have hnone : (coseKey (-8) zeroSeedPublic).all (fun b => b != 0) = true := by decide +kernel
  have hzero := List.mem_of_getElem? (hread _ _ h0 0 (by decide)).symm
  nomatch List.all_eq_true.mp hnone _ hzero

/-- Where the zeros of a published RSA key are. -/
theorem coseKey_rsa_zero {n : Bytes} (hlen : n.length = 256) (hn : (0 : UInt8) ∉ n) {p : Nat}
    (h : (coseKey (-257) (n ++ rsaExponent))[p]? = some 0) : p = 6 ∨ p = 10 ∨ p = 270 := by
  have hcose : coseKey (-257) (n ++ rsaExponent) =
      [0xA4, 0x01, 0x03, 0x03, 0x39, 0x01, 0x00, 0x20, 0x59, 0x01, 0x00] ++
        (n ++ [0x21, 0x43, 0x01, 0x00, 0x01]) := by
    have hfront : padTo 256 (n ++ rsaExponent) = n := padTo_front hlen
    have hback : (n ++ rsaExponent).drop 256 = rsaExponent := by rw [← hlen, List.drop_left]
    change _ ++ padTo 256 (n ++ rsaExponent) ++ [0x21, 0x43] ++ padTo 3 ((n ++ rsaExponent).drop 256) = _
    rw [hfront, hback]
    simp only [List.append_assoc]
    rfl
  rw [hcose] at h
  have hfront : ∀ q < 11, ([0xA4, 0x01, 0x03, 0x03, 0x39, 0x01, 0x00, 0x20, 0x59, 0x01, 0x00] : Bytes)[q]? =
      some 0 → q = 6 ∨ q = 10 := by decide
  have hback : ∀ q < 5, ([0x21, 0x43, 0x01, 0x00, 0x01] : Bytes)[q]? = some 0 → q = 3 := by decide
  by_cases hp : p < 11
  · rw [List.getElem?_append_left hp] at h
    exact (hfront p hp h).elim .inl fun hq => .inr (.inl hq)
  · rw [List.getElem?_append_right (by simpa using hp)] at h
    change (n ++ [0x21, 0x43, 0x01, 0x00, 0x01])[p - 11]? = some 0 at h
    by_cases hm : p - 11 < n.length
    · rw [List.getElem?_append_left hm] at h
      exact absurd (List.mem_of_getElem? h) hn
    · rw [List.getElem?_append_right (by simpa using hm)] at h
      have hlt : p - 11 - n.length < 5 := (List.getElem?_eq_some_iff.mp h).1
      have hq := hback _ hlt h
      exact .inr (.inr (by omega))

theorem padTo_rsaDer {len : Nat} {n rest : Bytes} {j : Nat} (hj : j < 12) :
    (padTo 32 (rsaDer len n rest))[j]? = ([0x30, 0x82] ++ bigEndian 2 len ++
      [0x02, 0x01, 0x00, 0x02, 0x82, 0x01, 0x01, 0x00])[j]? := by
  rw [padTo, List.getElem?_take, if_pos (by omega), rsaDer, List.getElem?_append_left]
  · rw [List.append_assoc, List.getElem?_append_left (by simpa using hj)]
  · simp
    omega

theorem rsa_not_published (hv : KeysVary P) {u : Units} (hu : u.rsa = false) : ¬Published P u (-257) := by
  have hreg : ∀ seed der n, P.rsaGenkey seed = some (der, n) →
      Registers P u (-257) (padTo 32 der) (coseKey (-257) (n ++ rsaExponent)) := by
    intro seed der n hgen
    refine Registers.of_generated seed ?_
    simp [generateCredentialKey, generateRsa2048KeyPair, Units.env, Bench.idleEnv, hu, hgen]
  obtain ⟨seed, len, n, rest, hgen, hlen, hn⟩ := hv.rsa
  obtain ⟨seed', seed'', l, l', m, m', r, r', hgen', hgen'', hne⟩ := hv.rsa_lengths
  have h0 := hreg _ _ _ hgen
  intro h
  -- the low byte of the length varies, so at most what stands in front of it is fixed
  obtain ⟨place, hread⟩ := h.behind (j := 3) (hreg _ _ _ hgen') (hreg _ _ _ hgen'') (by
    rw [padTo_rsaDer (by decide), padTo_rsaDer (by decide)]
    simpa [bigEndian, beByte] using hne)
  -- two zeros of the DER text are five bytes apart, those of the COSE key are not
  have hversion := hread _ _ h0 3 (by decide)
  have hsign := hread _ _ h0 8 (by decide)
  rw [padTo_rsaDer (by decide)] at hversion hsign
  have hp := coseKey_rsa_zero hlen hn (p := place + 3) (hversion.symm.trans rfl)
  have hq := coseKey_rsa_zero hlen hn (p := place + 8) (hsign.symm.trans rfl)
  omega

/-! Keys of the accelerator. -/

theorem fpgaP256_not_published (hv : KeysVary P) {u : Units} (hu : u.asym = true) : ¬Published P u (-7) := by
  refine not_readable_of_renews (fun pub => 0x04 :: pub) hv.fpgaP256 fun seed blob pub hgen => ?_
  refine Registers.of_generated seed ?_
  simp [generateCredentialKey, generateCredentialKeyP256, Units.env, Bench.idleEnv, hu, hgen]

theorem fpgaEd25519_not_published (hv : KeysVary P) {u : Units} (hu : u.asym = true) :
    ¬Published P u (-8) := by
  refine not_readable_of_renews id hv.fpgaEd25519 fun seed blob pub hgen => ?_
  refine Registers.of_generated seed ?_
  simp [generateCredentialKey, generateEd25519KeyPair, Units.env, Bench.idleEnv, hu, hgen]

theorem fpgaRsa_not_published (hv : KeysVary P) {u : Units} (hu : u.rsa = true) : ¬Published P u (-257) := by
  refine not_readable_of_renews (fun n => n ++ rsaExponent) hv.fpgaRsa fun seed blob n hgen => ?_
  refine Registers.of_generated seed ?_
  simp [generateCredentialKey, generateRsa2048KeyPair, Units.env, Bench.idleEnv, hu, hgen]

/-! ML-DSA. -/

theorem isMlDsa_cases (h : isMlDsa algId = true) : algId = -48 ∨ algId = -49 ∨ algId = -50 := isMlDsa_iff.mp h

theorem generateCredentialKey_mldsa {env : Env} (ha : isMlDsa algId = true) :
    generateCredentialKey P env algId =
      if env.allocates .publicKey && env.allocates .secretKey then generateMlDsaKeyPairEx P env algId
      else none := by
  unfold generateCredentialKey
  rcases isMlDsa_cases ha with rfl | rfl | rfl <;> rfl

theorem fpgaMldsa_not_published (hv : KeysVary P) (ha : isMlDsa algId = true) {u : Units} (hu : u.pq = true) :
    ¬Published P u algId := by
  refine not_readable_of_renews id (hv.fpgaMldsa algId ha) fun seed blob pub hgen => ?_
  refine Registers.of_generated seed ?_
  have hps : mldsaParameterSet algId ≠ 0 := by rcases isMlDsa_cases ha with rfl | rfl | rfl <;> decide
  rw [generateCredentialKey_mldsa ha]
  simp [generateMlDsaKeyPairEx, Units.env, Bench.idleEnv, hu, hgen, hps]

/-- Behind its head the COSE key is the public key. -/
theorem coseKey_mldsa (ha : isMlDsa algId = true) (pk : Bytes) :
    ((coseKey algId pk).drop 10).take 32 = padTo 32 pk := by
  have hcose : ∃ head : Bytes, head.length = 10 ∧ ∃ len, 32 ≤ len ∧ coseKey algId pk = head ++ padTo len pk := by
    rcases isMlDsa_cases ha with rfl | rfl | rfl
    · exact ⟨_, rfl, 1312, by decide, rfl⟩
    · exact ⟨_, rfl, 1952, by decide, rfl⟩
    · exact ⟨_, rfl, 2592, by decide, rfl⟩
  obtain ⟨head, hhead, len, hlen, hkey⟩ := hcose
  rw [hkey, ← hhead, List.drop_left, padTo, padTo, List.take_take, Nat.min_eq_left hlen]
  rw [List.take_append, List.take_append, zeros, zeros, List.take_replicate, List.take_replicate]
  congr 2
  omega

theorem generateMlDsaKeyPairEx_software {env : Env} (hpq : env.hasPq = false)
    (h : generateMlDsaKeyPairEx P env algId = some key) :
    ∃ sk pk, P.mldsaKeypair (mldsaParameterSet algId) (env.random .key) = some (sk, pk) ∧
      key = ⟨toHex sk, pk⟩ := by
  unfold generateMlDsaKeyPairEx at h
  simp only [hpq, Bool.false_eq_true, if_false] at h
  split at h
  · cases h
  · obtain ⟨⟨sk, pk⟩, hmade, rfl⟩ := Option.map_eq_some_iff.mp h
    exact ⟨sk, pk, hmade, rfl⟩

/-- A software key has rho in front, and so does what is published of it. -/
theorem mldsa_published (hpack : PacksRho P) (ha : isMlDsa algId = true) {u : Units} (hu : u.pq = false) :
    Published P u algId := by
  refine ⟨[], 10, ?_⟩
  rintro _ _ ⟨env, key, hfit, hgen, rfl, rfl⟩
  rw [generateCredentialKey_mldsa ha] at hgen
  split at hgen
  · have hpq : env.hasPq = false := hfit.2.2.trans hu
    obtain ⟨sk, pk, hmade, rfl⟩ := generateMlDsaKeyPairEx_software hpq hgen
    obtain ⟨rho, tr, k, t0, s1, s2, t1, hrho, rfl, rfl⟩ := hpack _ _ _ _ hmade
    rw [hmacKey_toHex, Window.reading, List.nil_append]
    change _ = ((coseKey algId (packPk rho t1)).drop 10).take 32
    rw [coseKey_mldsa ha, packSk, packPk, padTo_front hrho, padTo_front hrho]
  · cases hgen

/-- The algorithms of generateCredentialKey. -/
def Supported (algId : Int) : Prop := algId = -7 ∨ algId = -8 ∨ algId = -257 ∨ isMlDsa algId = true

/-- The key is published by ML-DSA registrations with software keys, and by no others. -/
theorem hmacKey_published_iff (P : Platform) (hv : KeysVary P) (hpack : PacksRho P) (u : Units) (algId : Int)
    (halg : Supported algId) : ¬Published P u algId ↔ ¬(isMlDsa algId = true ∧ u.pq = false) := by
  rcases halg with rfl | rfl | rfl | ha
  · refine ⟨fun _ h => (nomatch h.1), fun _ => ?_⟩
    cases hu : u.asym with
    | false => exact p256_not_published hv hu
    | true => exact fpgaP256_not_published hv hu
  · refine ⟨fun _ h => (nomatch h.1), fun _ => ?_⟩
    cases hu : u.asym with
    | false => exact ed25519_not_published hv hu
    | true => exact fpgaEd25519_not_published hv hu
  · refine ⟨fun _ h => (nomatch h.1), fun _ => ?_⟩
    cases hu : u.rsa with
    | false => exact rsa_not_published hv hu
    | true => exact fpgaRsa_not_published hv hu
  · constructor
    · exact fun hnot h => hnot (mldsa_published hpack ha h.2)
    · intro h
      cases hu : u.pq with
      | false => exact absurd ⟨ha, hu⟩ h
      | true => exact fpgaMldsa_not_published hv ha hu

section Bench

open Bench

/-- A modulus without a zero in it. -/
def fullModulus : Bytes := List.replicate 256 0xC3

/-- The scalars 1 and 2. -/
def firstPoints (seed : Bytes) : Option (Bytes × Bytes) :=
  if seed = [1] then some (bigEndian 32 1, 0x04 :: basePoint)
  else if seed = [2] then some (bigEndian 32 2, 0x04 :: doubledPoint)
  else none

def ed25519Of (priv : Bytes) : Bytes := if priv = zeros 32 then zeroSeedPublic else hash priv

def rsaOf (seed : Bytes) : Option (Bytes × Bytes) :=
  if seed = [1] then some (rsaDer 1187 fullModulus [], fullModulus)
  else if seed = [2] then some (rsaDer 1188 fullModulus [], fullModulus)
  else none

/-- Generators that come up with the keys above. -/
def keyMaker : Platform :=
  { platform with
    ecdsaGenkey := firstPoints
    ed25519Public := ed25519Of
    rsaGenkey := rsaOf
    fpgaP256Genkey := fun seed => some (padTo 64 seed, zeros 64)
    fpgaEd25519Genkey := fun seed => some (padTo 64 seed, zeros 32)
    fpgaRsaGenkey := fun seed => some (padTo 672 seed, zeros 256)
    mldsaKeypair := fun ps seed =>
      some (packSk (padTo 32 seed) (zeros 64) (zeros 32) (zeros (mldsaSecretLen ps - 128)) [] [],
        packPk (padTo 32 seed) (zeros (mldsaPublicLen ps - 32)))
    fpgaMldsaGenkey := fun ps seed => some (padTo (fpgaMldsaBlobLen ps) seed, zeros (mldsaPublicLen ps)) }

theorem renews_padTo {n : Nat} (hn : 32 ≤ n) (pub : Bytes) :
    Renews fun seed => some (padTo n seed, pub) := by
  refine ⟨[1], [2], _, _, pub, rfl, rfl, ?_, ?_, fun h => ?_⟩
  · simpa using hn
  · simpa using hn
  · have hfirst := congrArg List.head? h
    obtain ⟨m, rfl⟩ : ∃ m, n = m + 1 := ⟨n - 1, by omega⟩
    simp [padTo] at hfirst

theorem keyMaker_varies : KeysVary keyMaker where
  p256 := ⟨[1], by simp [keyMaker, firstPoints]⟩
  p256_double := ⟨[2], by simp [keyMaker, firstPoints]⟩
  ed25519 := by simp [keyMaker, ed25519Of]
  rsa := by
    refine ⟨[1], 1187, fullModulus, [], by simp [keyMaker, rsaOf], List.length_replicate, fun h => ?_⟩
    nomatch List.eq_of_mem_replicate h
  rsa_lengths := by
    refine ⟨[1], [2], 1187, 1188, fullModulus, fullModulus, [], [], ?_, ?_, by decide⟩
    · simp [keyMaker, rsaOf]
    · simp [keyMaker, rsaOf]
  fpgaP256 := renews_padTo (by decide) _
  fpgaEd25519 := renews_padTo (by decide) _
  fpgaRsa := renews_padTo (by decide) _
  fpgaMldsa algId ha := by
    refine renews_padTo ?_ _
    rcases isMlDsa_cases ha with rfl | rfl | rfl <;> decide

theorem keyMaker_packs : PacksRho keyMaker := by
  intro ps seed sk pk h
  cases h
  exact ⟨_, _, _, _, _, _, _, padTo_length 32 seed, rfl, rfl⟩

theorem hmacKey_published_iff_p256 :
    ¬Published keyMaker {} (-7) ↔ ¬(isMlDsa (-7) = true ∧ ({} : Units).pq = false) :=
  hmacKey_published_iff keyMaker keyMaker_varies keyMaker_packs {} (-7) (.inl rfl)

theorem mldsa44_published : Published keyMaker {} (-48) := mldsa_published keyMaker_packs rfl rfl

end Bench

end GoiKey
