import GoiKey.Lib.AuthenticatorData
import GoiKey.Model.Bench
import GoiKey.Proofs.CredentialActs
import GoiKey.Proofs.Encoder
import GoiKey.Proofs.WrappedIds

/-! The authenticator data of a response, read as its flags say it is laid out. -/

namespace GoiKey

open CborGrammar

variable {P : Platform} {env : Env} {k : Keystore} {d : Device} {i : Input} {algId : Int}
variable {key : KeyPair} {credId publicKey : Bytes} {req : MakeCredentialRequest}

/-! COSE keys. -/

inductive CoseValue where
  | int (v : Int)
  | bytes (b : Bytes)
  deriving DecidableEq, Repr

def coseInt : Datum → Option Int
  | .number 0 v _ => some v
  | .number 1 v _ => some (-1 - v)
  | _ => none

def coseValue : Datum → Option CoseValue
  | .string 2 _ s => some (.bytes s)
  | d => (coseInt d).map .int

/-- The labels and values of a COSE key, in the order of its map. -/
def coseParameters (d : Datum) : List (Option Int × Option CoseValue) :=
  d.entries.map fun e => (coseInt e.1, coseValue e.2)

def labelled (parameters : List (Int × CoseValue)) : List (Option Int × Option CoseValue) :=
  parameters.map fun p => (some p.1, some p.2)

/-- The parameters of a public key: key type, algorithm, and the curve and coordinates,
the modulus and exponent or the encoded key. -/
inductive CoseKeyOf : Int → Bytes → List (Int × CoseValue) → Prop where
  | es256 {x y : Bytes} (hx : x.length = 32) (hy : y.length = 32) :
    CoseKeyOf (-7) (0x04 :: (x ++ y))
      [(1, .int 2), (3, .int (-7)), (-1, .int 1), (-2, .bytes x), (-3, .bytes y)]
  | eddsa {pub : Bytes} (hpub : pub.length = 32) :
    CoseKeyOf (-8) pub [(1, .int 1), (3, .int (-8)), (-1, .int 6), (-2, .bytes pub)]
  | rs256 {n e : Bytes} (hn : n.length = 256) (he : e.length = 3) :
    CoseKeyOf (-257) (n ++ e) [(1, .int 3), (3, .int (-257)), (-1, .bytes n), (-2, .bytes e)]
  | mldsa {algId : Int} {pub : Bytes} (alg : isMlDsa algId = true)
    (hpub : pub.length = mldsaPublicLen (mldsaParameterSet algId)) :
    CoseKeyOf algId pub [(1, .int 7), (3, .int algId), (-1, .bytes pub)]

/-- The key generators make public keys of the lengths of their formats. -/
structure PublicKeysSized (P : Platform) : Prop where
  p256 : ∀ seed priv pub, P.ecdsaGenkey seed = some (priv, pub) →
    ∃ x y : Bytes, x.length = 32 ∧ y.length = 32 ∧ pub = 0x04 :: (x ++ y)
  fpgaP256 : ∀ seed blob pub, P.fpgaP256Genkey seed = some (blob, pub) → pub.length = 64
  ed25519 : ∀ priv : Bytes, priv.length = 32 → (P.ed25519Public priv).length = 32
  fpgaEd25519 : ∀ seed blob pub, P.fpgaEd25519Genkey seed = some (blob, pub) → pub.length = 32
  rsa : ∀ seed der n, P.rsaGenkey seed = some (der, n) → n.length = 256
  fpgaRsa : ∀ seed blob n, P.fpgaRsaGenkey seed = some (blob, n) → n.length = 256
  mldsa : ∀ algId seed sk pk, isMlDsa algId = true →
    P.mldsaKeypair (mldsaParameterSet algId) seed = some (sk, pk) →
    pk.length = mldsaPublicLen (mldsaParameterSet algId)
  fpgaMldsa : ∀ algId seed blob pk, isMlDsa algId = true →
    P.fpgaMldsaGenkey (mldsaParameterSet algId) seed = some (blob, pk) →
    pk.length = mldsaPublicLen (mldsaParameterSet algId)

/-- The public key is of its algorithm's format. -/
theorem KeyOrigin.cose (hk : PublicKeysSized P) (h : KeyOrigin P algId key) :
    ∃ parameters, CoseKeyOf algId key.publicKey parameters := by
  cases h with
  | p256 made =>
    obtain ⟨x, y, hx, hy, rfl⟩ := hk.p256 _ _ _ made
    exact ⟨_, .es256 hx hy⟩
  | @fpgaP256 seed blob pub made =>
    have hlen := hk.fpgaP256 _ _ _ made
    have h := CoseKeyOf.es256 (x := pub.take 32) (y := pub.drop 32) (by simp [hlen]) (by simp [hlen])
    rw [List.take_append_drop] at h
    exact ⟨_, h⟩
  | ed25519 length => exact ⟨_, .eddsa (hk.ed25519 _ length)⟩
  | fpgaEd25519 made => exact ⟨_, .eddsa (hk.fpgaEd25519 _ _ _ made)⟩
  | rsa made => exact ⟨_, .rs256 (hk.rsa _ _ _ made) rfl⟩
  | fpgaRsa made => exact ⟨_, .rs256 (hk.fpgaRsa _ _ _ made) rfl⟩
  | mldsa alg made => exact ⟨_, .mldsa alg (hk.mldsa _ _ _ _ alg made)⟩
  | fpgaMldsa alg made => exact ⟨_, .mldsa alg (hk.fpgaMldsa _ _ _ _ alg made)⟩

def CoseValue.item : CoseValue → Item
  | .int v => if 0 ≤ v then .uint v.toNat else .nint v
  | .bytes b => .bytes b

def coseTree (parameters : List (Int × CoseValue)) : Datum :=
  flatMapOf (parameters.map fun p => ((CoseValue.int p.1).item, p.2.item))

theorem padTo_append {n : Nat} {a : Bytes} (h : a.length = n) (b : Bytes) : padTo n (a ++ b) = a := by
  subst h
  simp [padTo]

/-- What is put together by hand is the encoding of the parameters. -/
theorem coseKey_eq {parameters : List (Int × CoseValue)} (h : CoseKeyOf algId publicKey parameters) :
    coseKey algId publicKey = (coseTree parameters).bytes := by
  rw [coseTree, flatMapOf_bytes]
  cases h with
  | @es256 x y hx hy =>
    have hdrop : (0x04 :: (x ++ y)).drop 33 = y := by simp [hx]
    rw [coseKey, if_pos rfl, hdrop, padTo_of_length hy, List.drop_one, List.tail_cons, padTo_append hx]
    simp [CoseValue.item, Item.encoded, head, bigEndian, beByte, hx, hy]
  | eddsa hpub =>
    rw [coseKey, if_neg (by decide), if_pos rfl, padTo_of_length hpub]
    simp [CoseValue.item, Item.encoded, head, bigEndian, beByte, hpub]
  | @rs256 n e hn he =>
    have hdrop : (n ++ e).drop 256 = e := by simp [hn]
    rw [coseKey, if_neg (by decide), if_neg (by decide), if_pos rfl, padTo_append hn, hdrop, padTo_of_length he]
    simp [CoseValue.item, Item.encoded, head, bigEndian, beByte, hn, he]
  | mldsa alg hpub =>
    have hne : algId ≠ -7 ∧ algId ≠ -8 ∧ algId ≠ -257 := by
      have := isMlDsa_iff.mp alg
      omega
    rw [coseKey, if_neg hne.1, if_neg hne.2.1, if_neg hne.2.2, if_pos alg]
    simp only
    rw [padTo_of_length hpub]
    rcases isMlDsa_iff.mp alg with rfl | rfl | rfl
    all_goals
      simp only [mldsaParameterSet, mldsaPublicLen] at hpub ⊢
      simp [CoseValue.item, Item.encoded, head, bigEndian, beByte] at hpub ⊢
      simp [hpub]

theorem coseTree_parameters {parameters : List (Int × CoseValue)}
    (h : CoseKeyOf algId publicKey parameters) :
    coseParameters (coseTree parameters) = labelled parameters := by
  cases h with
  | es256 hx hy => rfl
  | eddsa hpub => rfl
  | rs256 hn he => rfl
  | mldsa alg hpub => rcases isMlDsa_iff.mp alg with rfl | rfl | rfl <;> rfl

theorem CoseKeyOf.short {parameters : List (Int × CoseValue)} (h : CoseKeyOf algId publicKey parameters) :
    parameters.length ≤ 5 ∧ ∀ p ∈ parameters, ∀ b, p.2 = .bytes b → b.length ≤ 2592 := by
  cases h with
  | es256 hx hy => simp [hx, hy]
  | eddsa hpub => simp [hpub]
  | rs256 hn he => simp [hn, he]
  | @mldsa algId pub alg hpub =>
    have hle : mldsaPublicLen (mldsaParameterSet algId) ≤ 2592 := by
      rcases isMlDsa_iff.mp alg with rfl | rfl | rfl <;> decide
    simpa [hpub] using hle

theorem coseTree_valid {parameters : List (Int × CoseValue)} (h : CoseKeyOf algId publicKey parameters) :
    (coseTree parameters).Valid := by
  have hshort := h.short
  refine flatMapOf_valid (by rw [List.length_map]; omega) fun e he => ?_
  obtain ⟨⟨label, value⟩, hp, rfl⟩ := List.mem_map.mp he
  have hint : ∀ v, ((CoseValue.int v).item).Whole := by
    intro v
    unfold CoseValue.item
    simp only
    split <;> trivial
  refine ⟨hint label, ?_⟩
  cases value with
  | int v => exact hint v
  | bytes b =>
    have := hshort.2 _ hp b rfl
    exact show b.length < 2 ^ 64 by omega

/-! What is emitted. -/

/-- The byte string behind key 2. -/
def keyedTwo : List Item → Option Bytes
  | .uint 2 :: .bytes b :: _ => some b
  | _ :: is => keyedTwo is
  | [] => none

/-- The authenticator data of a response. -/
def returnedAuthData : Reply → Option Bytes
  | .cbor (.items is) => keyedTwo is
  | _ => none

/-- Laid out as its flags say, with the id and the public key of the credential that
is created, when one is. -/
structure Describes (acts : List Act) (a : AuthenticatorData) : Prop where
  valid : a.Valid
  created : ∀ id rp algId publicKey, .created id rp algId publicKey ∈ acts → a.attested.isSome = true
  inUse : ∀ t ∈ a.attested, ∃ rp algId publicKey parameters,
    .created (toHex t.id) rp algId publicKey ∈ acts ∧ CoseKeyOf algId publicKey parameters ∧
      coseParameters t.key = labelled parameters

def LaidOut (acts : List Act) (authData : Bytes) : Prop :=
  ∃ a : AuthenticatorData, a.bytes = authData ∧ Describes acts a

/-- An assertion that is asked for extensions: in its own request, or in the one
whose list it goes on with. -/
def asksExtensions (d : Device) (i : Input) : Bool :=
  match i.event.code with
  | some 0x02 => (assertionRequest i).any GetAssertionRequest.extensionRequested
  | some 0x08 => d.next.extReq
  | _ => false

/-! MakeCredential. -/

def extensionPairs (req : MakeCredentialRequest) : List (Item × Item) :=
  (if req.hmacSecretRequested then [(.text (text "hmac-secret"), .bool true)] else []) ++
    (if req.credBlobRequested then [(.text (text "credBlob"), .bool (storedCredBlob req != []))] else [])

theorem written_createExtensions (req : MakeCredentialRequest) : written (createExtensions req) =
    if req.hmacSecretRequested || req.credBlobRequested then (flatMapOf (extensionPairs req)).bytes
    else [] := by
  unfold createExtensions extensionPairs
  rw [flatMapOf_bytes]
  cases req.hmacSecretRequested <;> cases req.credBlobRequested <;> rfl

theorem extensionPairs_valid (req : MakeCredentialRequest) : (flatMapOf (extensionPairs req)).Valid := by
  unfold extensionPairs
  refine flatMapOf_valid ?_ fun p hp => ?_
  · cases req.hmacSecretRequested <;> cases req.credBlobRequested <;> simp
  · rcases List.mem_append.mp hp with hp | hp <;> split at hp
    · obtain rfl := List.mem_singleton.mp hp
      exact ⟨show (text "hmac-secret").length < 2 ^ 64 by decide, trivial⟩
    · cases hp
    · obtain rfl := List.mem_singleton.mp hp
      exact ⟨show (text "credBlob").length < 2 ^ 64 by decide, trivial⟩
    · cases hp

theorem coseKey_length (algId : Int) (publicKey : Bytes) : (coseKey algId publicKey).length ≤ 2602 := by
  have hle : mldsaPublicLen (mldsaParameterSet algId) ≤ 2592 := by
    unfold mldsaPublicLen
    repeat' split
    all_goals omega
  unfold coseKey
  repeat' split
  all_goals simp
  omega

/-- The parts of the authenticator data of a new credential. -/
def createdAuthData (P : Platform) (req : MakeCredentialRequest) (signCount : UInt32) (credId : Bytes)
    (parameters : List (Int × CoseValue)) : AuthenticatorData where
  rpIdHash := P.sha256 req.targetRpId
  flags := createFlags req
  counter := bigEndian 4 (loadPersistedSignCount signCount).toNat
  attested := some ⟨dynamicAaguid P, bigEndian 2 credId.length, credId, coseTree parameters⟩
  extensions := if req.hmacSecretRequested || req.credBlobRequested then
    some (flatMapOf (extensionPairs req)) else none

theorem createExtensions_small (req : MakeCredentialRequest) :
    (written (createExtensions req)).length ≤ 24 ∧ ∀ i ∈ createExtensions req, i.Short := by
  have small : ∀ hmac blob stored : Bool,
      let is := if hmac || blob then
          Item.map ((if hmac then 1 else 0) + (if blob then 1 else 0))
            :: (if hmac then [.text (text "hmac-secret"), .bool true] else [])
            ++ (if blob then [.text (text "credBlob"), .bool stored] else [])
        else []
      (written is).length ≤ 24 ∧ ∀ i ∈ is, i.Short := by decide
  exact small req.hmacSecretRequested req.credBlobRequested (storedCredBlob req != [])

theorem createAuthData_eq (hp : StorageSound P) {signCount : UInt32} {parameters : List (Int × CoseValue)}
    (hid : credId.length ≤ maxCredentialIdLen)
    (hkey : CoseKeyOf req.selectedAlgId publicKey parameters) :
    createAuthData P req signCount credId publicKey =
      (createdAuthData P req signCount credId parameters).bytes := by
  obtain ⟨hlen, hshort⟩ := createExtensions_small req
  have hfit : ∀ n ≤ 3000, encode (8192 - n) (createExtensions req) = written (createExtensions req) :=
    fun n hn => encode_eq_written_iff.mpr (allFit_of_short hshort (by omega))
  have hcose := coseKey_length req.selectedAlgId publicKey
  unfold createAuthData
  simp only
  rw [hfit, written_createExtensions, coseKey_eq hkey]
  · simp only [AuthenticatorData.bytes, createdAuthData, AuthenticatorData.Attested.bytes, Option.elim_some,
      List.append_assoc, List.cons_append]
    cases req.hmacSecretRequested || req.credBlobRequested <;> rfl
  · simp only [List.length_append, List.length_cons, hp.sha256_length, bigEndian_length, dynamicAaguid,
      padTo_length, List.length_nil]
    unfold maxCredentialIdLen at hid
    omega

theorem createAuthData_length (hp : StorageSound P) {signCount : UInt32}
    (hid : credId.length ≤ maxCredentialIdLen) :
    (createAuthData P req signCount credId publicKey).length ≤ 3000 := by
  have hcose := coseKey_length req.selectedAlgId publicKey
  obtain ⟨hlen, -⟩ := createExtensions_small req
  have hext : ∀ capacity, (encode capacity (createExtensions req)).length ≤ 24 := by
    intro capacity
    have := foldl_write_length capacity (createExtensions req) []
    rw [List.length_nil] at this
    exact this.trans (by omega)
  unfold maxCredentialIdLen at hid
  unfold createAuthData
  simp only
  rw [List.length_append]
  refine (Nat.add_le_add_left (hext _) _).trans ?_
  simp only [List.length_append, List.length_cons, hp.sha256_length, bigEndian_length, dynamicAaguid,
    padTo_length, List.length_nil]
  omega

theorem createdAuthData_valid (hp : StorageSound P) {signCount : UInt32}
    {parameters : List (Int × CoseValue)} (hid : credId.length ≤ maxCredentialIdLen)
    (hkey : CoseKeyOf algId publicKey parameters) :
    (createdAuthData P req signCount credId parameters).Valid where
  rpIdHash := hp.sha256_length _
  counter := bigEndian_length _ _
  attestedFlag := by
    change true = AuthenticatorData.attests (createFlags req)
    unfold createFlags
    split <;> rfl
  attested := by
    rintro t ⟨⟩
    refine ⟨by simp [dynamicAaguid], bigEndian_length _ _, ?_, coseTree_valid hkey, rfl⟩
    unfold maxCredentialIdLen at hid
    exact fromBigEndian_bigEndian (by omega)
  extensionFlag := by
    change Option.isSome (if _ then some _ else none) = AuthenticatorData.carriesExtensions (createFlags req)
    unfold createFlags
    split <;> rfl
  extensions := by
    intro e he
    simp only [createdAuthData] at he
    split at he
    · cases he
      exact ⟨extensionPairs_valid req, rfl⟩
    · cases he

/-- The members of a registration's response. -/
def attestationItems (algId : Int) (leafCert : Option Bytes) (blobKey : Option Bytes) (authData sig : Bytes) :
    List Item :=
  .map (if blobKey.isSome then 4 else 3)
    :: [.uint 1, .text (text "packed"), .uint 2, .bytes authData, .uint 3]
    ++ .map (if leafCert.isSome then 3 else 2)
    :: [.text (text "alg"), .nint algId, .text (text "sig"), .bytes sig]
    ++ (match leafCert with
        | some cert => [.text (text "x5c"), .array 1, .bytes cert]
        | none => [])
    ++ (match blobKey with
        | some b => [.uint 5, .bytes b]
        | none => [])

theorem attestCredential_reply (P : Platform) (env : Env) (req : MakeCredentialRequest) (signCount : UInt32)
    (credId : Bytes) (key : KeyPair) :
    (∃ code, (attestCredential P env req signCount credId key).1 = .status code) ∨
      ∃ sig, let signer := attestationSigner P req.selectedAlgId key.privateKeyHex
        let authData := createAuthData P req signCount credId key.publicKey
        generateAlgSignature P env signer.algId signer.privateKeyHex (authData ++ req.clientDataHash)
            = some sig ∧
          (attestCredential P env req signCount credId key).1 = .items (attestationItems signer.algId
            signer.leafCert (createdLargeBlobKey env req) authData sig) := by
  unfold attestCredential
  split
  · exact .inl ⟨_, rfl⟩
  · simp only
    split
    · exact .inl ⟨_, rfl⟩
    next sig hsig => exact .inr ⟨sig, hsig, rfl⟩

theorem storeCredential_id (hp : WrappingSound P) (hm : MadeKey P env req.selectedAlgId key)
    (h : (storeCredential P env k req key).credId = .ok credId) : credId.length ≤ maxCredentialIdLen := by
  unfold storeCredential at h
  split at h
  next hr =>
    refine storeResident_cases (Q := fun s => s.credId = .ok credId → credId.length ≤ maxCredentialIdLen)
      ?_ ?_ h
    · intro old k' _ h
      cases h
    · intro old k' k'' _ _ h
      cases h
      rw [Env.draw_length]
      decide
  next hr =>
    unfold storeStateless at h
    split at h
    · cases h
    next id k' hw =>
      cases h
      exact wrapped_length hp (Bool.eq_false_iff.mpr hr) hm (by rw [hw])

/-- The authenticator data of a registration is laid out as it should be, whatever
the extensions and the algorithm. -/
theorem register_laidOut (hp : WrappingSound P) (hk : PublicKeysSized P) {signCount : UInt32}
    {authData : Bytes}
    (hr : returnedAuthData (.cbor (register P env k signCount req).1) = some authData) {acts : List Act}
    (hacts : (register P env k signCount req).2.1 ⊆ acts) : LaidOut acts authData := by
  refine register_cases (Q := fun r => returnedAuthData (.cbor r.1) = some authData → r.2.1 ⊆ acts →
    LaidOut acts authData) ?_ ?_ ?_ hr hacts
  · intro h
    cases h
  · intro key code _ _ h
    cases h
  · intro key credId hkey hstored h hacts
    have hid := storeCredential_id hp (.inl hkey) hstored
    obtain ⟨parameters, hcose⟩ := (madeKey_origin (.inl hkey)).cose hk
    rcases attestCredential_reply P env req signCount credId key with ⟨code, he⟩ | ⟨sig, -, he⟩
    · rw [he] at h
      cases h
    · rw [he] at h
      obtain rfl : createAuthData P req signCount credId key.publicKey = authData := by
        simpa [returnedAuthData, attestationItems, keyedTwo] using h
      refine ⟨_, (createAuthData_eq hp.toStorageSound hid hcose).symm,
        createdAuthData_valid hp.toStorageSound hid hcose, fun _ _ _ _ _ => rfl, ?_⟩
      rintro t ⟨⟩
      exact ⟨_, _, _, parameters, hacts (List.mem_append_left _ (storeCredential_created hstored)), hcose,
        coseTree_parameters hcose⟩

/-! Assertions. -/

theorem keyedTwo_assertionItems (P : Platform) (c : StoredCredential) (a : AssertionInput)
    (authData sig : Bytes) : keyedTwo (assertionItems P c a authData sig) = some authData := by
  simp [assertionItems, keyedTwo]

theorem assertCredential_authData {c : StoredCredential} {a : AssertionInput} {n : UInt32}
    {authData : Bytes} (h : returnedAuthData (.cbor (assertCredential P env c a n).1) = some authData) :
    authData = assertionAuthData P a (nextSignCount n) := by
  unfold assertCredential at h
  simp only at h
  split at h
  · cases h
  · split at h
    · cases h
    next sig _ _ =>
      have hitems : returnedAuthData (.cbor (.items (assertionItems P c a
          (assertionAuthData P a (nextSignCount n)) sig))) = some authData := h
      rw [returnedAuthData, keyedTwo_assertionItems] at hitems
      exact (Option.some.inj hitems).symm

theorem assertionFlags_extensions (uv ext : Bool) :
    AuthenticatorData.carriesExtensions (assertionFlags uv ext) = ext ∧
      AuthenticatorData.attests (assertionFlags uv ext) = false := by
  cases uv <;> cases ext <;> decide

theorem not_laidOut_of_short {acts : List Act} {authData : Bytes} {flags : UInt8}
    (hlen : authData.length = 37) (hflags : authData[32]? = some flags)
    (he : AuthenticatorData.carriesExtensions flags = true) : ¬ LaidOut acts authData := by
  rintro ⟨a, rfl, hd⟩
  rw [hd.valid.flags, Option.some.injEq] at hflags
  have := hd.valid.long (by rw [hflags, he])
  omega

/-- Nothing stands behind the counter of an assertion, so the flags must not
announce extensions. -/
theorem assertion_laidOut_iff (hp : StorageSound P) {a : AssertionInput} {n : UInt32} {uv ext : Bool}
    {acts : List Act} (hflags : a.flags = assertionFlags uv ext)
    (hc : ∀ id rp algId publicKey, .created id rp algId publicKey ∉ acts) :
    LaidOut acts (assertionAuthData P a n) ↔ ext = false := by
  obtain ⟨hextends, hattests⟩ := assertionFlags_extensions uv ext
  rw [← hflags] at hextends hattests
  constructor
  · intro h
    by_contra hext
    rw [Bool.not_eq_false] at hext
    have hflag : (assertionAuthData P a n)[32]? = some a.flags := by
      rw [assertionAuthData, List.getElem?_append_right (by rw [hp.sha256_length]), hp.sha256_length]
      rfl
    refine not_laidOut_of_short ?_ hflag (hextends.trans hext) h
    simp [assertionAuthData, hp.sha256_length]
  · rintro rfl
    refine ⟨⟨P.sha256 a.rpId, a.flags, bigEndian 4 n.toNat, none, none⟩, ?_, ?_, ?_, ?_⟩
    · simp [AuthenticatorData.bytes, assertionAuthData]
    · exact ⟨hp.sha256_length _, bigEndian_length _ _, hattests.symm, by simp, hextends.symm, by simp⟩
    · intro id rp algId publicKey h
      exact absurd h (hc id rp algId publicKey)
    · rintro t ⟨⟩

theorem assertion_creates_nothing (hc : i.event.code = some 0x02 ∨ i.event.code = some 0x08) :
    ∀ id rp algId publicKey, .created id rp algId publicKey ∉ (step P d i).1.acts := by
  intro id rp algId publicKey h
  rcases registration_event (.inl (step_kinds P d i _ h).1) with hr | ⟨data, he⟩
  · rw [hr] at hc
    simp at hc
  · rw [he] at hc
    simp [Event.code] at hc

theorem getAssertion_laidOut_iff (hp : StorageSound P) {request : GetAssertionRequest} {acts : List Act}
    {authData : Bytes} (hc : ∀ id rp algId publicKey, .created id rp algId publicKey ∉ acts)
    (hr : returnedAuthData (.cbor (getAssertion P env d request).reply) = some authData) :
    LaidOut acts authData ↔ request.extensionRequested = false := by
  refine getAssertion_cases (Q := fun r => returnedAuthData (.cbor r.reply) = some authData →
    (LaidOut acts authData ↔ request.extensionRequested = false)) ?_ ?_ ?_ hr
  · intro code k creds _ _ h
    cases h
  · intro code k k' cid rest c uv _ _ _ _ _ _ h
    cases h
  · intro k k' cid rest c act time uv _ _ _ _ _ _ h
    obtain rfl := assertCredential_authData h
    exact assertion_laidOut_iff hp rfl hc

theorem getNextAssertion_laidOut_iff (hp : StorageSound P) {acts : List Act} {authData : Bytes}
    (hc : ∀ id rp algId publicKey, .created id rp algId publicKey ∉ acts)
    (hr : returnedAuthData (.cbor (getNextAssertion P env d).reply) = some authData) :
    LaidOut acts authData ↔ d.next.extReq = false := by
  refine getNextAssertion_cases (Q := fun r => returnedAuthData (.cbor r.reply) = some authData →
    (LaidOut acts authData ↔ d.next.extReq = false)) ?_ ?_ ?_ hr
  · intro h
    cases h
  · intro k _ _ h
    cases h
  · intro k cid c _ _ _ h
    obtain rfl := assertCredential_authData h
    exact assertion_laidOut_iff hp rfl hc

/-- The authenticator data that is returned parses as WebAuthn lays it out, and names the
credential in use, unless it is that of an assertion with extensions. -/
theorem authData_laidOut_iff (P : Platform) (d : Device) (i : Input) (authData : Bytes)
    (hp : WrappingSound P) (hk : PublicKeysSized P)
    (hc : i.event.code = some 0x01 ∨ i.event.code = some 0x02 ∨ i.event.code = some 0x08)
    (hr : returnedAuthData (step P d i).1.reply = some authData) :
    LaidOut (step P d i).1.acts authData ↔ asksExtensions d i = false := by
  rcases hc with hc | hc
  · have hasks : asksExtensions d i = false := by simp [asksExtensions, hc]
    refine iff_of_true ?_ hasks
    rcases step_makeCredential (P := P) (d := d) hc with ⟨refusal, hs⟩ | ⟨body, hs⟩
    · rw [hs] at hr
      cases hr
    · rw [hs] at hr ⊢
      refine makeCredential_cases (Q := fun r => returnedAuthData (.cbor r.reply) = some authData →
        LaidOut r.acts authData) ?_ ?_ hr
      · intro code uv _ h
        cases h
      · intro act time uv p _ _ _ _ h
        exact register_laidOut hp hk h (List.subset_cons_self _ _)
  · have hcreated := assertion_creates_nothing (P := P) (d := d) hc
    rcases hc with hc | hc
    · rcases step_getAssertion (P := P) (d := d) hc with ⟨refusal, hs⟩ | ⟨request, hrequest, hs⟩
      · rw [hs] at hr
        cases hr
      · rw [hs] at hr
        have hasks : asksExtensions d i = request.extensionRequested := by
          rw [asksExtensions, hc]
          simp only
          rw [Option.mem_def.mp hrequest, Option.any_some]
        rw [hasks]
        exact getAssertion_laidOut_iff hp.toStorageSound hcreated hr
    · have hasks : asksExtensions d i = d.next.extReq := by simp [asksExtensions, hc]
      rw [hasks]
      rcases step_getNextAssertion (P := P) (d := d) hc with ⟨refusal, hs⟩ | hs
      · rw [hs] at hr
        cases hr
      · rw [hs] at hr
        exact getNextAssertion_laidOut_iff hp.toStorageSound hcreated hr

section Bench

open Bench

theorem publicKeysSized_bench : PublicKeysSized platform where
  p256 := by
    intro seed priv pub h
    cases h
    exact ⟨scalar seed, hash (scalar seed), padTo_length _ _, bigEndian_length _ _, rfl⟩
  fpgaP256 := by
    intro seed blob pub h
    cases h
  ed25519 := fun _ _ => bigEndian_length _ _
  fpgaEd25519 := by
    intro seed blob pub h
    cases h
  rsa := by
    intro seed der n h
    cases h
    exact padTo_length _ _
  fpgaRsa := by
    intro seed blob n h
    cases h
  mldsa := by
    intro algId seed sk pk _ h
    cases h
    exact padTo_length _ _
  fpgaMldsa := by
    intro algId seed blob pk _ h
    cases h

theorem wrappingSound_bench : WrappingSound platform where
  toStorageSound := storageSound_bench
  cbc_length := fun _ _ _ _ => rfl
  p256 := by
    intro seed priv pub h
    cases h
    exact padTo_length _ _
  fpgaP256 := by
    intro seed blob pub h
    cases h
  fpgaEd25519 := by
    intro seed blob pub h
    cases h

/-- A registration that asks for both extensions. -/
def createExtended : Input :=
  ⟨request 0x01 [.map 5, .uint 1, .bytes clientDataHash, .uint 2, .map 1, .text (text "id"), .text site,
    .uint 3, .map 1, .text (text "id"), .bytes [1], .uint 6, .map 2, .text (text "credBlob"), .bytes [7],
    .text (text "hmac-secret"), .bool true, .uint 7, .map 1, .text (text "rk"), .bool true],
    touchedEnv 1 60000 90⟩

/-- An assertion that asks for a secret under one salt. -/
def assertSecret : Input :=
  ⟨request 0x02 [.map 3, .uint 1, .text site, .uint 2, .bytes clientDataHash, .uint 4, .map 1,
    .text (text "hmac-secret"), .map 1, .uint 1, .bytes (zeros 32)], touchedEnv 1 60000 90⟩

theorem authData_laidOut_extended : ∃ authData,
    returnedAuthData (step platform initial createExtended).1.reply = some authData ∧
      LaidOut (step platform initial createExtended).1.acts authData := by
  have hsome : (returnedAuthData (step platform initial createExtended).1.reply).isSome = true := by
    decide +kernel
  obtain ⟨authData, hr⟩ := Option.isSome_iff_exists.mp hsome
  exact ⟨authData, hr, (authData_laidOut_iff platform initial createExtended authData wrappingSound_bench
    publicKeysSized_bench (.inl rfl) hr).mpr rfl⟩

/-- 37 bytes whose flags announce a map of extensions. -/
theorem assertSecret_endsEarly : ∃ authData,
    returnedAuthData (step platform (step platform initial createExtended).2 assertSecret).1.reply
        = some authData ∧
      ¬ LaidOut (step platform (step platform initial createExtended).2 assertSecret).1.acts authData := by
  have hshort : (returnedAuthData (step platform (step platform initial createExtended).2
      assertSecret).1.reply).any (fun a => a.length == 37 && a[32]? == some 0x85) = true := by
    decide +kernel
  obtain ⟨authData, hr⟩ := Option.isSome_iff_exists.mp (Option.isSome_of_any hshort)
  rw [hr, Option.any_some, Bool.and_eq_true, beq_iff_eq, beq_iff_eq] at hshort
  exact ⟨authData, hr, not_laidOut_of_short hshort.1 hshort.2 (by decide)⟩

end Bench

end GoiKey
