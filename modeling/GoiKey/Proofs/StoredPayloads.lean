import GoiKey.Proofs.Lines
import GoiKey.Proofs.SavedRecords

/-!
The texts that the vault and the passkey file keep: what encryptStoragePayload makes is
read back, and no other text opens.
-/

namespace GoiKey

variable {P : Platform} {env env' : Env} {key : Bytes} {payload s : Str}

/-- AES-GCM opens what it sealed, and no text grows by it. -/
structure GcmSound (P : Platform) : Prop where
  gcm : ∀ key iv plain cipher tag, P.gcmEncrypt key iv plain = some (cipher, tag) →
    P.gcmDecrypt key iv cipher tag = some plain
  gcm_length : ∀ key iv plain cipher tag, P.gcmEncrypt key iv plain = some (cipher, tag) →
    cipher.length = plain.length ∧ tag.length = 16

/-- A call of encryptStoragePayload. -/
structure StorageCall where
  env : Env
  plain : Str
  key : Bytes

def StorageCall.sealing (c : StorageCall) : Sealing := ⟨c.key, c.env.draw .nonce 12, c.plain⟩

/-- Who wrote the text knows what the calls made, and not the key. -/
def UnforgedText (P : Platform) (calls : List StorageCall) (key : Bytes) (payload : Str) : Prop :=
  ∀ parts ∈ storedParts payload, Made P (calls.map StorageCall.sealing) key parts

instance (P : Platform) (calls : List StorageCall) (key : Bytes) (payload : Str) :
    Decidable (UnforgedText P calls key payload) :=
  inferInstanceAs (Decidable (∀ parts ∈ storedParts payload, _))

/-- The empty text hands no cipher text over and is what a failure gives. -/
theorem decrypt_encrypted_text (hp : GcmSound P) (h : encryptStoragePayload P env s key ≠ [])
    (ha : env'.allocates .plaintext = true) :
    decryptStoragePayload P env' (encryptStoragePayload P env s key) key = cstr s := by
  obtain ⟨cipher, tag, henc, hpayload⟩ := encryptStoragePayload_some h
  obtain ⟨hcipher, htag⟩ := hp.gcm_length _ _ _ _ _ henc
  rw [hpayload, decryptStoragePayload_parts, if_pos ha, storedParts_toHex (Env.draw_length _ _ _)]
  by_cases hnil : cipher = []
  · have hs : s = [] := by
      rw [hnil] at hcipher
      exact List.eq_nil_of_length_eq_zero hcipher.symm
    rw [if_pos (.inr hnil), hs]
    rfl
  · rw [if_neg (by rw [not_or, not_ne_iff]; exact ⟨htag, hnil⟩), Option.bind_some, hp.gcm _ _ _ _ _ henc]
    rfl

/-- A text that opens hands the cipher what one of the calls made. -/
theorem decrypt_unforged (hp : GcmSound P) (env : Env) {calls : List StorageCall} (h : UnforgedText P calls key payload) :
    decryptStoragePayload P env payload key = [] ∨
      ∃ c ∈ calls, c.key = key ∧ decryptStoragePayload P env payload key = cstr c.plain := by
  rw [decryptStoragePayload_parts]
  split
  swap
  · exact .inl rfl
  cases hparts : storedParts payload with
  | none => exact .inl rfl
  | some parts =>
    rw [Option.bind_some]
    rcases h parts hparts with hnone | ⟨r, hr, hkey, hiv, henc⟩
    · rw [hnone]
      exact .inl rfl
    · obtain ⟨c, hc, rfl⟩ := List.mem_map.mp hr
      rw [hiv] at henc
      rw [hp.gcm _ _ _ _ _ henc]
      exact .inr ⟨c, hc, hkey, rfl⟩

/-- A stored text is read back, and a text that nobody made opens to nothing. -/
theorem storage_payloads (P : Platform) (hp : GcmSound P) :
    (∀ env env' s key, (0 : UInt8) ∉ s → encryptStoragePayload P env s key ≠ [] →
      env'.allocates .plaintext = true →
      decryptStoragePayload P env' (encryptStoragePayload P env s key) key = s) ∧
    ∀ calls env payload key, UnforgedText P calls key payload →
      decryptStoragePayload P env payload key = [] ∨
        ∃ c ∈ calls, c.key = key ∧ decryptStoragePayload P env payload key = cstr c.plain ∧
          ((0 : UInt8) ∉ c.plain → decryptStoragePayload P env payload key = c.plain) := by
  constructor
  · intro env env' s key hs h ha
    rw [decrypt_encrypted_text hp h ha, cstr_of_notMem hs]
  · intro calls env payload key h
    rcases decrypt_unforged hp env h with hnone | ⟨c, hc, hkey, hout⟩
    · exact .inl hnone
    · exact .inr ⟨c, hc, hkey, hout, fun hnul => hout.trans (cstr_of_notMem hnul)⟩

section Examples

open Bench

theorem gcmSound_bench : GcmSound platform := ⟨recordsSound_bench.gcm, recordsSound_bench.gcm_length⟩

/-- A password as the vault keeps it. -/
def storedCall : StorageCall := ⟨idleEnv 0 0, text "hunter2", List.replicate 32 7⟩

/-- Its text in capitals, which decode to the same bytes. -/
def respelled : Str :=
  (encryptStoragePayload platform storedCall.env storedCall.plain storedCall.key).map fun c =>
    if isLower c then c - 0x20 else c

theorem storage_payloads_bench :
    decryptStoragePayload platform (idleEnv 0 0)
        (encryptStoragePayload platform storedCall.env storedCall.plain storedCall.key) storedCall.key =
      storedCall.plain ∧
    (decryptStoragePayload platform (idleEnv 0 0) respelled storedCall.key = [] ∨
      ∃ c ∈ [storedCall], c.key = storedCall.key ∧
        decryptStoragePayload platform (idleEnv 0 0) respelled storedCall.key = cstr c.plain ∧
        ((0 : UInt8) ∉ c.plain →
          decryptStoragePayload platform (idleEnv 0 0) respelled storedCall.key = c.plain)) :=
  ⟨(storage_payloads platform gcmSound_bench).1 _ _ _ _ (by decide) (by decide +kernel) rfl,
    (storage_payloads platform gcmSound_bench).2 _ _ _ _ (by decide +kernel)⟩

example : decryptStoragePayload platform (idleEnv 0 0) respelled storedCall.key = text "hunter2" := by
  decide +kernel

end Examples

end GoiKey
