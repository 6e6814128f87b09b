import GoiKey.Proofs.AuthData
import GoiKey.Proofs.StoredSizes

/-! The responses as CBOR: one canonical item each, with nothing missing from it. -/

namespace GoiKey

open CborGrammar

variable {P : Platform} {env : Env} {d : Device} {i : Input} {past : History} {is : List Item}
variable {c : StoredCredential} {a : AssertionInput} {req : MakeCredentialRequest} {sig authData : Bytes}
variable {k : Keystore} {cid : Str}

/-! What is asked of a response. -/

/-- Nothing was dropped, and what was written is one canonical item. -/
structure WholeItems (is : List Item) : Prop where
  kept : encode 8191 is = written is
  canonical : ∃ d : Datum, d.Canonical ∧ d.bytes = encode 8191 is

/-- The maps inside authenticator data are canonical too. -/
def MapsInOrder (authData : Bytes) : Prop :=
  ∃ a : AuthenticatorData, a.Valid ∧ a.bytes = authData ∧ (∀ t ∈ a.attested, t.key.Ordered) ∧
    ∀ e ∈ a.extensions, e.Ordered

/-- The commands that answer with maps of credentials or templates. -/
def mapCommands : List UInt8 := [0x01, 0x02, 0x08, 0x09, 0x40, 0x0A, 0x41]

def EmitsWhole (_ : History) (e : Entry) : Prop :=
  ∀ code ∈ e.input.event.code, code ∈ mapCommands → ∀ is, e.output.reply = .cbor (.items is) →
    WholeItems is ∧ (code = 0x01 → ∀ authData ∈ keyedTwo is, MapsInOrder authData)

/-! The condition. -/

/-- The credential that is asserted, and what over. -/
def asserted (P : Platform) (d : Device) (i : Input) : Option (AssertionInput × StoredCredential) :=
  match i.event.code with
  | some 0x02 => (assertionRequest i).bind fun req =>
      let (creds, k) := matchedCredentials P i.env d.keys req
      creds.head?.bind fun cid => (resolveCredential P i.env k req.targetRpId cid).1.map fun c =>
        (req.input cid creds.length, c)
  | some 0x08 => d.next.creds[d.next.idx]?.bind fun cid =>
      (resolveCredential P i.env d.keys d.next.rpId cid).1.map fun c => (d.next.input cid, c)
  | _ => none

/-- What stands before the name of a template, and the name, at most. -/
def namesFit : Nat → List Str → Bool
  | _, [] => true
  | offset, name :: names => name.length ≤ 0xFF && offset + 8 + name.length < 8191 &&
      namesFit (offset + 5 + (Item.text name).encoded.length) names

/-- The names of the enrolled fingers fit one response. -/
def TemplatesFit (env : Env) (b : BioStore) : Prop :=
  let ids := getAllBioTemplateIds env b
  ids.length ≤ 0xFF ∧ namesFit (2 + (head 4 ids.length).length) (ids.map (templateName env b)) = true

instance (env : Env) (b : BioStore) : Decidable (TemplatesFit env b) := inferInstanceAs (Decidable (_ ∧ _))

def enumeratesTemplates (i : Input) : Bool :=
  match i.event with
  | .cbor (code :: body) => (code == 0x09 || code == 0x40) &&
      (parseBioEnrollment body).any fun req => req.subCommand == some 0x04
  | _ => false

/-- Not both extensions that are named, in a registration or an assertion; a blob that fits
behind the longest signature; and fingers whose names fit. -/
structure Emittable (P : Platform) (_ : History) (d : Device) (i : Input) : Prop where
  created : ∀ req ∈ registrationRequest d i,
    (req.hmacSecretRequested && req.credBlobRequested) = false
  asserted : ∀ p ∈ asserted P d i, p.1.includesCredBlob p.2 = true →
    p.1.extReq = false ∧ p.2.credBlobHex.length ≤ 4096
  enumerated : enumeratesTemplates i = true → TemplatesFit i.env d.bio

instance (past : History) (d : Device) (i : Input) : Decidable (Emittable P past d i) :=
  decidable_of_iff
    ((∀ req ∈ registrationRequest d i, (req.hmacSecretRequested && req.credBlobRequested) = false) ∧
      (∀ p ∈ asserted P d i, p.1.includesCredBlob p.2 = true →
        p.1.extReq = false ∧ p.2.credBlobHex.length ≤ 4096) ∧
      (enumeratesTemplates i = true → TemplatesFit i.env d.bio))
    ⟨fun h => ⟨h.1, h.2.1, h.2.2⟩, fun h => ⟨h.created, h.asserted, h.enumerated⟩⟩

/-! Signatures. -/

/-- The signers keep to the lengths of their formats, and the attestation chain to its cache. -/
structure ResponsesSound (P : Platform) : Prop extends WrappingSound P where
  publicKeys : PublicKeysSized P
  ecdsaSign : ∀ priv digest rnd r s, P.ecdsaSign priv digest rnd = some (r, s) →
    r < 2 ^ 256 ∧ s < 2 ^ 256
  fpgaP256Sign : ∀ blob digest rnd r s, P.fpgaP256Sign blob digest rnd = some (r, s) →
    r < 2 ^ 256 ∧ s < 2 ^ 256
  ed25519Sign : ∀ priv pub msg, (P.ed25519Sign priv pub msg).length = 64
  fpgaEd25519Sign : ∀ blob msg sig, P.fpgaEd25519Sign blob msg = some sig → sig.length = 64
  rsaSign : ∀ der digest rnd sig, P.rsaSign der digest rnd = some sig → sig.length ≤ 512
  fpgaRsaSign : ∀ blob digest sig, P.fpgaRsaSign blob digest = some sig → sig.length = 256
  mldsaSign : ∀ ps sk msg rnd sig, P.mldsaSign ps sk msg rnd = some sig → sig.length ≤ 4627
  fpgaMldsaSign : ∀ ps blob msg rnd sig, P.fpgaMldsaSign ps blob msg rnd = some sig → sig.length ≤ 4627
  chain : ∀ att ∈ P.attestation, att.chain.length ≤ 2048

theorem digits_length_le {n v : Nat} (h : v < 256 ^ n) : (Nat.digits 256 v).length ≤ n := by
  induction n generalizing v with
  | zero =>
    obtain rfl : v = 0 := by omega
    simp
  | succ n ih =>
    rcases Nat.eq_zero_or_pos v with rfl | hpos
    · simp
    · rw [Nat.digits_def' (by decide) hpos, List.length_cons]
      exact Nat.succ_le_succ (ih (Nat.div_lt_of_lt_mul (by rwa [Nat.mul_comm, ← Nat.pow_succ])))

theorem derInteger_length {v : Nat} (h : v < 2 ^ 256) : (derInteger v).length ≤ 35 := by
  have hdigits : (magnitude v).length ≤ 32 := by
    rw [magnitude, List.length_reverse, List.length_map]
    exact digits_length_le h
  unfold derInteger
  simp only
  repeat' split
  all_goals simp only [List.length_cons, List.length_nil]
  all_goals omega

theorem derEncodeSignature_length {r s : Nat} (hr : r < 2 ^ 256) (hs : s < 2 ^ 256) :
    (derEncodeSignature r s).length ≤ 72 := by
  have hr := derInteger_length hr
  have hs := derInteger_length hs
  simp only [derEncodeSignature, List.length_cons, List.length_append]
  omega

theorem generateFido2Signature_length (hp : ResponsesSound P) {hex : Str} {digest : Bytes}
    (h : generateFido2Signature P env hex digest = some sig) : sig.length ≤ 72 := by
  unfold generateFido2Signature signECDSA_P256 at h
  repeat' split at h
  · obtain ⟨⟨r, s⟩, hsign, rfl⟩ := Option.map_eq_some_iff.mp h
    obtain ⟨hr, hs⟩ := hp.fpgaP256Sign _ _ _ _ _ hsign
    exact derEncodeSignature_length hr hs
  · cases h
  · cases h
  · obtain ⟨⟨r, s⟩, hsign, rfl⟩ := Option.map_eq_some_iff.mp h
    obtain ⟨hr, hs⟩ := hp.ecdsaSign _ _ _ _ _ hsign
    exact derEncodeSignature_length hr hs

/-- The longest signature is one of ML-DSA-87. -/
theorem generateAlgSignature_length (hp : ResponsesSound P) {algId : Int} {hex : Str} {msg : Bytes}
    (h : generateAlgSignature P env algId hex msg = some sig) :
    sig.length ≤ 4627 ∧ (algId = -7 → sig.length ≤ 72) ∧ algId < 0 := by
  unfold generateAlgSignature at h
  split at h
  · cases h
  split at h
  next halg =>
    have := generateFido2Signature_length hp h
    exact ⟨by omega, fun _ => this, by omega⟩
  next hne =>
    split at h
    next halg =>
      have hlen : sig.length = 64 := by
        split at h
        · split at h
          · exact hp.fpgaEd25519Sign _ _ _ h
          · cases h
        · rw [← Option.some.inj h]
          exact hp.ed25519Sign _ _ _
      exact ⟨by omega, fun h => absurd h hne, by omega⟩
    split at h
    next halg =>
      have hlen : sig.length ≤ 512 := by
        split at h
        · split at h
          · exact (hp.fpgaRsaSign _ _ _ h).trans_le (by decide)
          · cases h
        · exact hp.rsaSign _ _ _ _ h
      exact ⟨by omega, fun h => absurd h hne, by omega⟩
    split at h
    next halg =>
      have hlen : sig.length ≤ 4627 := by
        simp only at h
        split at h
        · cases h
        split at h
        · split at h
          · exact hp.fpgaMldsaSign _ _ _ _ _ h
          · cases h
        · exact hp.mldsaSign _ _ _ _ _ h
      exact ⟨hlen, fun h => absurd h hne, by omega⟩
    · cases h

/-- A response is whole when it is what a canonical tree encodes to, and short. -/
theorem whole_of_tree {t : Datum} (ht : t.Canonical) (hb : t.bytes = written is)
    (hs : ∀ i ∈ is, i.Short) (hlen : (is.map Item.cost).sum < 8189) : WholeItems is := by
  have hwritten := written_length_le is
  have hkept : encode 8191 is = written is := encode_eq_written_iff.mpr (allFit_of_short hs (by omega))
  exact ⟨hkept, t, ht, hb.trans hkept.symm⟩

/-! MakeCredential. -/

def statementTree (algId : Int) (leafCert : Option Bytes) (sig : Bytes) : Datum :=
  treeOf ([(.text (text "alg"), (Item.nint algId).datum), (.text (text "sig"), (Item.bytes sig).datum)] ++
    leafCert.toList.map fun cert => (.text (text "x5c"), arrayOf [(Item.bytes cert).datum]))

def attestationTree (algId : Int) (leafCert blobKey : Option Bytes) (authData sig : Bytes) : Datum :=
  treeOf ([(.uint 1, (Item.text (text "packed")).datum), (.uint 2, (Item.bytes authData).datum),
    (.uint 3, statementTree algId leafCert sig)] ++
    blobKey.toList.map fun b => (.uint 5, (Item.bytes b).datum))

theorem attestationTree_bytes (algId : Int) (leafCert blobKey : Option Bytes) (authData sig : Bytes) :
    (attestationTree algId leafCert blobKey authData sig).bytes =
      written (attestationItems algId leafCert blobKey authData sig) := by
  cases leafCert <;> cases blobKey <;>
    simp [attestationTree, statementTree, attestationItems, treeOf_bytes, arrayOf_bytes, memberBytes]

theorem statementTree_canonical (algId : Int) {leafCert : Option Bytes}
    (hcert : ∀ b ∈ leafCert, b.length < 2 ^ 64) (hsig : sig.length < 2 ^ 64) :
    (statementTree algId leafCert sig).Canonical := by
  have hrise : KeysRise [.text (text "alg"), .text (text "sig"), .text (text "x5c")] := by decide
  have hname : ∀ s ∈ ["alg", "sig", "x5c"], (Item.text (text s)).Whole := by decide
  unfold statementTree
  refine treeOf_canonical ?_ ?_ fun m hm => ?_
  · cases leafCert <;> simp
  · cases leafCert with
    | none => exact hrise.sublist (List.sublist_append_left [_, _] [_])
    | some b => exact hrise
  · rcases List.mem_append.mp hm with hm | hm
    · simp only [List.mem_cons, List.not_mem_nil, or_false] at hm
      rcases hm with rfl | rfl
      · exact ⟨hname "alg" (by simp), nint_canonical algId⟩
      · exact ⟨hname "sig" (by simp), bytes_canonical hsig⟩
    · obtain ⟨b, hb, rfl⟩ := List.mem_map.mp hm
      refine ⟨hname "x5c" (by simp), arrayOf_canonical (by simp) fun d hd => ?_⟩
      rw [List.mem_singleton.mp hd]
      exact bytes_canonical (hcert b (Option.mem_toList.mp hb))

theorem attestationTree_canonical (algId : Int) {leafCert blobKey : Option Bytes}
    (hcert : ∀ b ∈ leafCert, b.length < 2 ^ 64) (hblob : ∀ b ∈ blobKey, b.length < 2 ^ 64)
    (hauth : authData.length < 2 ^ 64) (hsig : sig.length < 2 ^ 64) :
    (attestationTree algId leafCert blobKey authData sig).Canonical := by
  have hstatement := statementTree_canonical algId hcert hsig
  have hrise : KeysRise [.uint 1, .uint 2, .uint 3, .uint 5] := by decide
  unfold attestationTree
  refine treeOf_canonical ?_ ?_ fun m hm => ?_
  · cases blobKey <;> simp
  · cases blobKey with
    | none => exact hrise.sublist (List.sublist_append_left [_, _, _] [_])
    | some b => exact hrise
  · rcases List.mem_append.mp hm with hm | hm
    · simp only [List.mem_cons, List.not_mem_nil, or_false] at hm
      rcases hm with rfl | rfl | rfl
      · exact ⟨trivial, text_canonical (by decide)⟩
      · exact ⟨trivial, bytes_canonical hauth⟩
      · exact ⟨trivial, hstatement⟩
    · obtain ⟨b, hb, rfl⟩ := List.mem_map.mp hm
      exact ⟨trivial, bytes_canonical (hblob b (Option.mem_toList.mp hb))⟩

theorem attestationItems_whole {algId : Int} {leafCert blobKey : Option Bytes} (halg : algId < 0)
    (hcert : ∀ b ∈ leafCert, b.length ≤ 2048) (hblob : ∀ b ∈ blobKey, b.length ≤ 32)
    (hauth : authData.length ≤ 3000) (hsig : sig.length ≤ 4627)
    (hbatch : leafCert ≠ none → sig.length ≤ 72) :
    WholeItems (attestationItems algId leafCert blobKey authData sig) := by
  refine whole_of_tree (attestationTree_canonical algId ?_ ?_ (by omega) (by omega))
    (attestationTree_bytes _ _ _ _ _) ?_ ?_
  · intro b hb
    have := hcert b hb
    omega
  · intro b hb
    have := hblob b hb
    omega
  · cases leafCert <;> cases blobKey
    all_goals
      simp [attestationItems, Item.Short, text] at hcert hblob ⊢
      omega
  · cases leafCert <;> cases blobKey
    all_goals
      simp [attestationItems, Item.cost, text] at hcert hblob hbatch ⊢
      omega

theorem coseTree_ordered {algId : Int} {publicKey : Bytes} {parameters : List (Int × CoseValue)}
    (h : CoseKeyOf algId publicKey parameters) : (coseTree parameters).Ordered := by
  rw [coseTree, flatMapOf_ordered_iff]
  cases h with
  | es256 hx hy => exact (by decide : KeysRise [.uint 1, .uint 3, .nint (-1), .nint (-2), .nint (-3)])
  | eddsa hpub => exact (by decide : KeysRise [.uint 1, .uint 3, .nint (-1), .nint (-2)])
  | rs256 hn he => exact (by decide : KeysRise [.uint 1, .uint 3, .nint (-1), .nint (-2)])
  | mldsa alg hpub => exact (by decide : KeysRise [.uint 1, .uint 3, .nint (-1)])

/-- One extension alone is in order; of two, "hmac-secret" is written before the shorter "credBlob". -/
theorem extensionPairs_ordered_iff (req : MakeCredentialRequest) :
    (flatMapOf (extensionPairs req)).Ordered ↔
      (req.hmacSecretRequested && req.credBlobRequested) = false := by
  rw [flatMapOf_ordered_iff, extensionPairs]
  cases req.hmacSecretRequested <;> cases req.credBlobRequested
  · exact iff_of_true .nil rfl
  · exact iff_of_true (List.pairwise_singleton _ _) rfl
  · exact iff_of_true (List.pairwise_singleton _ _) rfl
  · exact iff_of_false
      (by decide : ¬ KeysRise [.text (text "hmac-secret"), .text (text "credBlob")]) (by decide)

theorem leafAttestationCert_length (hp : ResponsesSound P) {cert : Bytes}
    (h : leafAttestationCert P = some cert) : cert.length ≤ 2048 := by
  unfold leafAttestationCert at h
  split at h
  · cases h
  next att hatt =>
    simp only at h
    split at h
    · cases h
    · cases h
      have hchain := hp.chain att hatt
      simp only [slice, List.length_take, List.length_drop]
      omega

theorem attestationSigner_cert (hp : ResponsesSound P) (algId : Int) (hex : Str) :
    (∀ b ∈ (attestationSigner P algId hex).leafCert, b.length ≤ 2048) ∧
      ((attestationSigner P algId hex).leafCert ≠ none → (attestationSigner P algId hex).algId = -7) := by
  unfold attestationSigner
  split
  next att cert _ hcert =>
    refine ⟨fun b hb => ?_, fun _ => rfl⟩
    cases hb
    exact leafAttestationCert_length hp hcert
  · exact ⟨fun b hb => (nomatch hb), fun h => absurd rfl h⟩

/-- Without both extensions the maps behind the authenticator data are in order, with both they
are not. -/
theorem createAuthData_mapsInOrder_iff (hp : StorageSound P) {signCount : UInt32} {credId publicKey : Bytes}
    {parameters : List (Int × CoseValue)} (hid : credId.length ≤ maxCredentialIdLen)
    (hcose : CoseKeyOf req.selectedAlgId publicKey parameters) :
    MapsInOrder (createAuthData P req signCount credId publicKey) ↔
      (req.hmacSecretRequested && req.credBlobRequested) = false := by
  have hvalid : (createdAuthData P req signCount credId parameters).Valid :=
    createdAuthData_valid hp hid hcose
  have hbytes : createAuthData P req signCount credId publicKey =
      (createdAuthData P req signCount credId parameters).bytes := createAuthData_eq hp hid hcose
  constructor
  · rintro ⟨a, ha, he, -, hextensions⟩
    obtain rfl : a = createdAuthData P req signCount credId parameters := ha.inj hvalid (he.trans hbytes)
    by_contra hboth
    rw [Bool.not_eq_false, Bool.and_eq_true] at hboth
    refine absurd ((extensionPairs_ordered_iff req).mp (hextensions _ ?_)) (by simp [hboth])
    simp [createdAuthData, hboth]
  · intro hone
    refine ⟨_, hvalid, hbytes.symm, ?_, ?_⟩
    · rintro t ⟨⟩
      exact coseTree_ordered hcose
    · intro e hext
      simp only [createdAuthData] at hext
      split at hext
      · cases hext
        exact (extensionPairs_ordered_iff req).mpr hone
      · cases hext

/-- A registration that succeeds attests to a key of the algorithm chosen. -/
theorem register_attests (hp : WrappingSound P) (hk : PublicKeysSized P) {signCount : UInt32}
    (hr : (register P env k signCount req).1 = .items is) :
    ∃ credId publicKey parameters privateKeyHex sig, credId.length ≤ maxCredentialIdLen ∧
      CoseKeyOf req.selectedAlgId publicKey parameters ∧
      let signer := attestationSigner P req.selectedAlgId privateKeyHex
      let authData := createAuthData P req signCount credId publicKey
      generateAlgSignature P env signer.algId signer.privateKeyHex (authData ++ req.clientDataHash)
          = some sig ∧
        is = attestationItems signer.algId signer.leafCert (createdLargeBlobKey env req) authData sig := by
  refine register_cases (Q := fun r => r.1 = .items is → _) ?_ ?_ ?_ hr
  · intro h
    cases h
  · intro key code _ _ h
    cases h
  · intro key credId hkey hstored h
    have hid := storeCredential_id hp (.inl hkey) hstored
    obtain ⟨parameters, hcose⟩ := (madeKey_origin (.inl hkey)).cose hk
    rcases attestCredential_reply P env req signCount credId key with ⟨code, he⟩ | ⟨sig, hsign, he⟩
    · rw [he] at h
      cases h
    · rw [he] at h
      cases h
      exact ⟨credId, key.publicKey, parameters, key.privateKeyHex, sig, hid, hcose, hsign, rfl⟩

@[simp] theorem keyedTwo_attestationItems (algId : Int) (leafCert blobKey : Option Bytes)
    (authData sig : Bytes) : keyedTwo (attestationItems algId leafCert blobKey authData sig) = some authData :=
  rfl

/-- A registration's response, as long as it does not carry both extensions. -/
theorem register_whole (hp : ResponsesSound P) {signCount : UInt32}
    (hone : (req.hmacSecretRequested && req.credBlobRequested) = false)
    (hr : (register P env k signCount req).1 = .items is) :
    WholeItems is ∧ ∀ authData ∈ keyedTwo is, MapsInOrder authData := by
  obtain ⟨credId, publicKey, parameters, privateKeyHex, sig, hid, hcose, hsign, rfl⟩ :=
    register_attests hp.toWrappingSound hp.publicKeys hr
  obtain ⟨hsig, hes256, halg⟩ := generateAlgSignature_length hp hsign
  obtain ⟨hcert, hbatch⟩ := attestationSigner_cert hp req.selectedAlgId privateKeyHex
  have hblob : ∀ b ∈ createdLargeBlobKey env req, b.length ≤ 32 := by
    intro b hb
    unfold createdLargeBlobKey at hb
    split at hb
    · cases hb
      exact (Env.draw_length _ _ _).le
    · cases hb
  constructor
  · exact attestationItems_whole halg hcert hblob (createAuthData_length hp.toStorageSound hid) hsig
      fun hc => hes256 (hbatch hc)
  · rintro authData ⟨⟩
    exact (createAuthData_mapsInOrder_iff hp.toStorageSound hid hcose).mpr hone

/-- A registration with both extensions answers with maps that are not in order. -/
theorem register_outOfOrder (hp : WrappingSound P) (hk : PublicKeysSized P) {signCount : UInt32}
    (hboth : (req.hmacSecretRequested && req.credBlobRequested) = true)
    (hr : (register P env k signCount req).1 = .items is) :
    ∃ authData ∈ keyedTwo is, ¬ MapsInOrder authData := by
  obtain ⟨credId, publicKey, parameters, privateKeyHex, sig, hid, hcose, -, rfl⟩ :=
    register_attests hp hk hr
  refine ⟨createAuthData P req signCount credId publicKey, rfl, ?_⟩
  rw [createAuthData_mapsInOrder_iff hp.toStorageSound hid hcose, hboth]
  decide

/-! Assertions. -/

def userMembers (c : StoredCredential) : List (Item × Datum) :=
  if c.userIdHex = [] then [] else
    [(.uint 4, flatMapOf [(.text (text "id"), .bytes (binCredId c.userIdHex)),
      (.text (text "name"), .text c.userName), (.text (text "displayName"), .text c.userName)])]

def numberMembers (number : Option Nat) : List (Item × Datum) :=
  number.toList.map fun n => (.uint 5, (Item.uint n).datum)

def largeBlobKeyMembers (c : StoredCredential) (a : AssertionInput) : List (Item × Datum) :=
  if a.includesLargeBlobKey c then [(.uint 7, (Item.bytes (fromHex c.largeBlobKeyHex 32)).datum)] else []

def outputPairs (P : Platform) (c : StoredCredential) (a : AssertionInput) : List (Item × Item) :=
  (if a.extReq then [(.text (text "hmac-secret"), .bytes (hmacSecretOutput P c a))] else []) ++
    (if a.includesCredBlob c then [(.text (text "credBlob"), .bytes (binCredId c.credBlobHex))] else [])

def extensionMembers (P : Platform) (c : StoredCredential) (a : AssertionInput) : List (Item × Datum) :=
  if a.hasExtOutput c then [(.uint 8, flatMapOf (outputPairs P c a))] else []

def assertionMembers (P : Platform) (c : StoredCredential) (a : AssertionInput) (authData sig : Bytes) :
    List (Item × Datum) :=
  [(.uint 1, flatMapOf [(.text (text "id"), .bytes (binCredId a.cid)),
      (.text (text "type"), .text (text "public-key"))]),
    (.uint 2, (Item.bytes authData).datum), (.uint 3, (Item.bytes sig).datum)] ++
    (userMembers c ++ (numberMembers a.number ++ (largeBlobKeyMembers c a ++ extensionMembers P c a)))

/-- The header counts the members that follow it. -/
theorem assertionMembers_length (P : Platform) (c : StoredCredential) (a : AssertionInput)
    (authData sig : Bytes) : (assertionMembers P c a authData sig).length = 3 + (c.userIdHex != []).toNat +
      (a.hasExtOutput c).toNat + a.number.isSome.toNat + (a.includesLargeBlobKey c).toNat := by
  have huserCount : (userMembers c).length = (c.userIdHex != []).toNat := by
    unfold userMembers
    split
    next h => rw [h]; rfl
    next h =>
      rw [bne_iff_ne.mpr h]
      rfl
  have hnumberCount : (numberMembers a.number).length = a.number.isSome.toNat := by
    unfold numberMembers
    cases a.number <;> rfl
  have hkeyCount : (largeBlobKeyMembers c a).length = (a.includesLargeBlobKey c).toNat := by
    unfold largeBlobKeyMembers
    cases a.includesLargeBlobKey c <;> rfl
  have hextCount : (extensionMembers P c a).length = (a.hasExtOutput c).toNat := by
    unfold extensionMembers
    cases a.hasExtOutput c <;> rfl
  simp only [assertionMembers, List.length_append, List.length_cons, List.length_nil, huserCount,
    hnumberCount, hkeyCount, hextCount]
  omega

theorem assertionTree_bytes (P : Platform) (c : StoredCredential) (a : AssertionInput)
    (authData sig : Bytes) : (treeOf (assertionMembers P c a authData sig)).bytes =
      written (assertionItems P c a authData sig) := by
  have huser : (userMembers c).flatMap memberBytes = written (userItems c) := by
    unfold userMembers userItems
    split <;> simp [memberBytes, flatMapOf_bytes]
  have hnumber : (numberMembers a.number).flatMap memberBytes = written (numberItems a.number) := by
    unfold numberMembers numberItems
    cases a.number <;> simp [memberBytes]
  have hkey : (largeBlobKeyMembers c a).flatMap memberBytes = written (largeBlobKeyItems c a) := by
    unfold largeBlobKeyMembers largeBlobKeyItems
    split <;> simp [memberBytes]
  have hext : (extensionMembers P c a).flatMap memberBytes = written (extensionItems P c a) := by
    unfold extensionMembers extensionItems outputPairs hmacSecretItems credBlobItems
    split
    · cases a.extReq <;> cases a.includesCredBlob c <;> simp [memberBytes, flatMapOf_bytes]
    · rfl
  rw [treeOf_bytes, assertionMembers_length]
  simp only [assertionMembers, assertionItems, List.flatMap_append, huser, hnumber, hkey, hext]
  simp [memberBytes, flatMapOf_bytes]

theorem assertionMembers_rise (P : Platform) (c : StoredCredential) (a : AssertionInput)
    (authData sig : Bytes) : KeysRise ((assertionMembers P c a authData sig).map Prod.fst) := by
  have hall : KeysRise [.uint 1, .uint 2, .uint 3, .uint 4, .uint 5, .uint 7, .uint 8] := by decide
  have huser : ((userMembers c).map Prod.fst).Sublist [Item.uint 4] := by
    unfold userMembers
    split <;> simp
  have hnumber : ((numberMembers a.number).map Prod.fst).Sublist [Item.uint 5] := by
    unfold numberMembers
    cases a.number <;> simp
  have hkey : ((largeBlobKeyMembers c a).map Prod.fst).Sublist [Item.uint 7] := by
    unfold largeBlobKeyMembers
    split <;> simp
  have hext : ((extensionMembers P c a).map Prod.fst).Sublist [Item.uint 8] := by
    unfold extensionMembers
    split <;> simp
  refine hall.sublist ?_
  simp only [assertionMembers, List.map_append]
  exact (List.Sublist.refl [Item.uint 1, .uint 2, .uint 3]).append
    (huser.append (hnumber.append (hkey.append hext)))

/-- Both outputs are in the order of the registration's extensions, which is not that of keys. -/
theorem outputPairs_ordered_iff (P : Platform) (c : StoredCredential) (a : AssertionInput) :
    (flatMapOf (outputPairs P c a)).Ordered ↔ (a.extReq && a.includesCredBlob c) = false := by
  rw [flatMapOf_ordered_iff, outputPairs]
  cases a.extReq <;> cases a.includesCredBlob c
  · exact iff_of_true .nil rfl
  · exact iff_of_true (List.pairwise_singleton _ _) rfl
  · exact iff_of_true (List.pairwise_singleton _ _) rfl
  · exact iff_of_false
      (by decide : ¬ KeysRise [.text (text "hmac-secret"), .text (text "credBlob")]) (by decide)

/-- The strings of an assertion keep to their lengths. -/
structure AssertionSized (P : Platform) (c : StoredCredential) (a : AssertionInput) : Prop where
  cid : a.cid.length ≤ 2 * maxCredentialIdLen
  user : UserSized c
  blob : a.includesCredBlob c = true → c.credBlobHex.length ≤ 4096

theorem hmacSecretOutput_length (hp : StorageSound P) : (hmacSecretOutput P c a).length ≤ 64 := by
  unfold hmacSecretOutput
  simp only
  repeat' split
  all_goals simp [zeros, hp.hmac_length]

theorem outputPairs_length (P : Platform) (c : StoredCredential) (a : AssertionInput) :
    (outputPairs P c a).length < 2 ^ 64 := by
  unfold outputPairs
  cases a.extReq <;> cases a.includesCredBlob c <;> simp

theorem outputPairs_whole (hp : StorageSound P) (hs : AssertionSized P c a) :
    ∀ p ∈ outputPairs P c a, p.1.Whole ∧ p.2.Whole := by
  have hhmac := hmacSecretOutput_length (c := c) (a := a) hp
  have hname : ∀ s ∈ ["hmac-secret", "credBlob"], (Item.text (text s)).Whole := by decide
  intro p hm
  rcases List.mem_append.mp hm with hm | hm <;> split at hm
  · rw [List.mem_singleton.mp hm]
    exact ⟨hname "hmac-secret" (by simp), show (hmacSecretOutput P c a).length < 2 ^ 64 by omega⟩
  · cases hm
  next hincluded =>
    have := hs.blob hincluded
    rw [List.mem_singleton.mp hm]
    refine ⟨hname "credBlob" (by simp), show (binCredId c.credBlobHex).length < 2 ^ 64 from ?_⟩
    rw [binCredId_length]
    omega
  · cases hm

theorem assertionTree_canonical (hp : StorageSound P) (hs : AssertionSized P c a)
    (hone : (a.extReq && a.includesCredBlob c) = false) (hauth : authData.length < 2 ^ 64)
    (hsig : sig.length < 2 ^ 64) : (treeOf (assertionMembers P c a authData sig)).Canonical := by
  have hcid := hs.cid
  have hid := hs.user.userIdHex
  have hname := hs.user.userName
  unfold maxCredentialIdLen at hcid
  have hnames : ∀ s ∈ ["id", "type", "name", "displayName"], (Item.text (text s)).Whole := by decide
  have hbin : ∀ hex : Str, hex.length ≤ 2 * 224 → (Item.bytes (binCredId hex)).Whole := by
    intro hex h
    change (binCredId hex).length < 2 ^ 64
    rw [binCredId_length]
    omega
  have hnameWhole : (Item.text c.userName).Whole := show c.userName.length < 2 ^ 64 by omega
  refine treeOf_canonical ?_ (assertionMembers_rise P c a authData sig) ?_
  · have := Bool.toNat_le (c.userIdHex != [])
    have := Bool.toNat_le (a.hasExtOutput c)
    have := Bool.toNat_le a.number.isSome
    have := Bool.toNat_le (a.includesLargeBlobKey c)
    rw [assertionMembers_length]
    omega
  · intro m hm
    simp only [assertionMembers, List.mem_append, List.mem_cons, List.not_mem_nil, or_false] at hm
    rcases hm with (rfl | rfl | rfl) | hm | hm | hm | hm
    · refine ⟨trivial, flatMapOf_canonical (by simp)
        (by decide : KeysRise [.text (text "id"), .text (text "type")]) fun p hp => ?_⟩
      simp only [List.mem_cons, List.not_mem_nil, or_false] at hp
      rcases hp with rfl | rfl
      · exact ⟨hnames "id" (by simp), hbin _ hcid⟩
      · exact ⟨hnames "type" (by simp), (by decide : (Item.text (text "public-key")).Whole)⟩
    · exact ⟨trivial, bytes_canonical hauth⟩
    · exact ⟨trivial, bytes_canonical hsig⟩
    · unfold userMembers at hm
      split at hm
      · cases hm
      · rw [List.mem_singleton.mp hm]
        refine ⟨trivial, flatMapOf_canonical (by simp) (by decide :
          KeysRise [.text (text "id"), .text (text "name"), .text (text "displayName")]) fun p hp => ?_⟩
        simp only [List.mem_cons, List.not_mem_nil, or_false] at hp
        rcases hp with rfl | rfl | rfl
        · exact ⟨hnames "id" (by simp), hbin _ (by omega)⟩
        · exact ⟨hnames "name" (by simp), hnameWhole⟩
        · exact ⟨hnames "displayName" (by simp), hnameWhole⟩
    · obtain ⟨n, -, rfl⟩ := List.mem_map.mp hm
      exact ⟨trivial, uint_canonical n⟩
    · unfold largeBlobKeyMembers at hm
      split at hm
      · rw [List.mem_singleton.mp hm]
        exact ⟨trivial, bytes_canonical (by rw [fromHex_length]; decide)⟩
      · cases hm
    · unfold extensionMembers at hm
      split at hm
      · rw [List.mem_singleton.mp hm]
        exact ⟨trivial, flatMapOf_valid (outputPairs_length P c a) (outputPairs_whole hp hs),
          (outputPairs_ordered_iff P c a).mpr hone⟩
      · cases hm

theorem userItems_small (hs : UserSized c) :
    (∀ i ∈ userItems c, i.Short) ∧ ((userItems c).map Item.cost).sum ≤ 407 := by
  obtain ⟨hid, hname⟩ := hs
  unfold userItems
  split
  · simp
  · simp [Item.Short, Item.cost, text, binCredId_length]
    omega

theorem extensionItems_small (hp : StorageSound P) (hs : AssertionSized P c a) :
    (∀ i ∈ extensionItems P c a, i.Short) ∧ ((extensionItems P c a).map Item.cost).sum ≤ 2185 := by
  have hhmac := hmacSecretOutput_length (c := c) (a := a) hp
  have hblob := hs.blob
  unfold extensionItems hmacSecretItems credBlobItems
  split
  · cases a.extReq <;> cases hincluded : a.includesCredBlob c
    all_goals
      simp [hincluded] at hblob
      simp [Item.Short, Item.cost, text, binCredId_length]
      try omega
  · simp

theorem assertionItems_whole (hp : StorageSound P) (hs : AssertionSized P c a)
    (hone : (a.extReq && a.includesCredBlob c) = false) (hauth : authData.length = 37)
    (hsig : sig.length ≤ 4627) : WholeItems (assertionItems P c a authData sig) := by
  obtain ⟨huser, huserCost⟩ := userItems_small hs.user
  obtain ⟨hext, hextCost⟩ := extensionItems_small hp hs
  have hnumber : (∀ i ∈ numberItems a.number, i.Short) ∧ ((numberItems a.number).map Item.cost).sum ≤ 18 := by
    cases a.number <;> simp [numberItems, Item.Short, Item.cost]
  have hkey : (∀ i ∈ largeBlobKeyItems c a, i.Short) ∧
      ((largeBlobKeyItems c a).map Item.cost).sum ≤ 50 := by
    unfold largeBlobKeyItems
    split <;> simp [Item.Short, Item.cost, fromHex_length]
  have hcid := hs.cid
  unfold maxCredentialIdLen at hcid
  have hmembers : 3 + (c.userIdHex != []).toNat + (a.hasExtOutput c).toNat + a.number.isSome.toNat +
      (a.includesLargeBlobKey c).toNat ≤ 7 := by
    have := Bool.toNat_le (c.userIdHex != [])
    have := Bool.toNat_le (a.hasExtOutput c)
    have := Bool.toNat_le a.number.isSome
    have := Bool.toNat_le (a.includesLargeBlobKey c)
    omega
  have hfixed : ∀ members ≤ 7, ∀ i ∈ [Item.map members, .uint 1, .map 2, .text (text "id"),
      .bytes (binCredId a.cid), .text (text "type"), .text (text "public-key"), .uint 2, .bytes authData,
      .uint 3, .bytes sig], i.Short := by
    intro members hle
    simp [Item.Short, text, binCredId_length]
    omega
  refine whole_of_tree (assertionTree_canonical hp hs hone (by omega) (by omega))
    (assertionTree_bytes P c a authData sig) ?_ ?_
  · intro i hi
    simp only [assertionItems, List.mem_append] at hi
    rcases hi with hi | hi | hi | hi | hi
    · exact hfixed _ hmembers i hi
    · exact huser i hi
    · exact hnumber.1 i hi
    · exact hkey.1 i hi
    · exact hext i hi
  · simp only [assertionItems, List.map_append, List.sum_append]
    have hfixedCost : ∀ members : Nat, ([Item.map members, .uint 1, .map 2, .text (text "id"),
        .bytes (binCredId a.cid), .text (text "type"), .text (text "public-key"), .uint 2, .bytes authData,
        .uint 3, .bytes sig].map Item.cost).sum ≤ 5010 := by
      intro members
      simp [Item.cost, text, binCredId_length]
      omega
    have := hfixedCost (3 + (c.userIdHex != []).toNat + (a.hasExtOutput c).toNat + a.number.isSome.toNat +
      (a.includesLargeBlobKey c).toNat)
    omega

theorem assertCredential_whole (hp : ResponsesSound P) {n : UInt32} (hs : AssertionSized P c a)
    (hone : (a.extReq && a.includesCredBlob c) = false)
    (hr : (assertCredential P env c a n).1 = .items is) : WholeItems is := by
  unfold assertCredential at hr
  simp only at hr
  split at hr
  · cases hr
  next sig hsign =>
    split at hr
    · cases hr
    · cases hr
      refine assertionItems_whole hp.toStorageSound hs hone ?_ (generateAlgSignature_length hp hsign).1
      simp [assertionAuthData, hp.sha256_length]

theorem emittable_blob (hg : Emittable P past d i) (ha : asserted P d i = some (a, c)) :
    (a.extReq && a.includesCredBlob c) = false ∧ (a.includesCredBlob c = true → c.credBlobHex.length ≤ 4096) := by
  have hblob := hg.asserted _ ha
  cases hincluded : a.includesCredBlob c with
  | false => simp
  | true =>
    obtain ⟨hext, hlen⟩ := hblob hincluded
    exact ⟨by simp [show a.extReq = false from hext], fun _ => hlen⟩

theorem getAssertion_whole (hp : ResponsesSound P) (hs : StoredSized P d) (hg : Emittable P past d i)
    (hc : i.event.code = some 0x02) {req : GetAssertionRequest} (hreq : req ∈ assertionRequest i)
    (hr : (getAssertion P i.env d req).reply = .items is) : WholeItems is := by
  refine getAssertion_cases (Q := fun r => r.reply = .items is → WholeItems is) ?_ ?_ ?_ hr
  · intro code k creds _ _ h
    cases h
  · intro code k k' cid rest c uv _ _ _ _ _ _ h
    cases h
  · intro k k' cid rest c act time uv _ _ hk' hmatched hres _ h
    have hasserted : asserted P d i = some (req.input cid (rest.length + 1), c) := by
      unfold asserted
      rw [hc]
      simp only
      rw [Option.mem_def.mp hreq, Option.bind_some, hmatched]
      simp only [List.head?_cons, Option.bind_some]
      rw [hres]
      rfl
    obtain ⟨hone, hblob⟩ := emittable_blob hg hasserted
    have hm : Matched P i.env d.keys req.targetRpId req.allowCredentialIds cid :=
      matchedCredentials_matched (by rw [hmatched]; exact List.mem_cons_self)
    have hrecords : ∀ r ∈ k'.passkeys, RecordSized P r := by
      rw [hk'.passkeys]
      exact hs.records
    refine assertCredential_whole hp ⟨?_, ?_, hblob⟩ hone h
    · exact hm.sized hs.records (assertionRequest_ids hreq)
    · exact (resolveCredential_some hres).sized hp.toStorageSound hrecords

theorem getNextAssertion_whole (hp : ResponsesSound P) (hs : StoredSized P d) (hg : Emittable P past d i)
    (hc : i.event.code = some 0x08) (hr : (getNextAssertion P i.env d).reply = .items is) : WholeItems is := by
  refine getNextAssertion_cases (Q := fun r => r.reply = .items is → WholeItems is) ?_ ?_ ?_ hr
  · intro h
    cases h
  · intro k _ _ h
    cases h
  · intro k cid c _ hcid hres h
    have hasserted : asserted P d i = some (d.next.input cid, c) := by
      unfold asserted
      rw [hc]
      simp only
      rw [hcid, Option.bind_some, hres]
      rfl
    obtain ⟨hone, hblob⟩ := emittable_blob hg hasserted
    refine assertCredential_whole hp ⟨?_, ?_, hblob⟩ hone h
    · exact hs.next cid (List.mem_of_getElem? hcid)
    · exact (resolveCredential_some hres).sized hp.toStorageSound hs.records

end GoiKey
