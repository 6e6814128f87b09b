import GoiKey.Model.Bench
import GoiKey.Proofs.Acts

/-!
getPinToken and getPinUvAuthTokenUsingPinWithPermissions. Both answer without a
look at pinHashEnc, which changePIN does look at.
-/

namespace GoiKey

variable {P : Platform} {env : Env} {p : PinFiles} {session : PinSession} {req : ClientPinRequest}

/-- The PIN is set, retries remain and the decrypted pinHashEnc is its hash. -/
structure TokenAllowed (P : Platform) (env : Env) (p : PinFiles) (session : PinSession)
    (req : ClientPinRequest) : Prop where
  set : isPinSet p = true
  retries : getFailedPinAttempts env p < 10
  hash : (sharedSecret P session req).any (fun secret => pinHashEncOk P env secret p req) = true

/-- A pinHashEnc that decrypts to another hash, while retries remain. -/
structure WrongPinHash (P : Platform) (env : Env) (p : PinFiles) (session : PinSession)
    (req : ClientPinRequest) : Prop where
  set : isPinSet p = true
  retries : getFailedPinAttempts env p < 10
  hash : (sharedSecret P session req).any (fun secret =>
    (aesCbcZeroIvDecrypt P secret req.pinHashEnc).any fun h =>
      !verifyFidoPinHashInternal env p h) = true

/-- What a request for a token has to come to. -/
structure TokenGuarded (P : Platform) (env : Env) (p : PinFiles) (session : PinSession)
    (req : ClientPinRequest) (r : ClientPinResult) : Prop where
  issued : ∀ token, .tokenIssued token ∈ r.acts → TokenAllowed P env p session req
  refused : ¬ TokenAllowed P env p session req →
    (∀ token, .tokenIssued token ∉ r.acts) ∧ ∃ code, code ≠ 0 ∧ r.reply = .status code
  retry : WrongPinHash P env p session req → r.pins.failures = p.failures + 1

def asksForToken (req : ClientPinRequest) : Prop := req.subCommand = 0x05 ∨ req.subCommand = 0x09

/-- Tokens are issued to the two requests for one, under their conditions. -/
def TokensGuarded (P : Platform) (env : Env) (p : PinFiles) (session : PinSession)
    (body : Bytes) : Prop :=
  let r := clientPin P env p session body
  (∀ req ∈ parseClientPin body, asksForToken req → TokenGuarded P env p session req r) ∧
    ((∀ req ∈ parseClientPin body, ¬ asksForToken req) → ∀ t, .tokenIssued t ∉ r.acts)

/-- The requests that come to what they should: no PIN, the right hash, or a
refusal of the second subcommand that owes no retry. -/
def TokenConditions (P : Platform) (env : Env) (p : PinFiles) (session : PinSession)
    (req : ClientPinRequest) : Prop :=
  isPinSet p = false ∨ TokenAllowed P env p session req ∨
    (req.subCommand = 0x09 ∧ (10 ≤ getFailedPinAttempts env p ∨
      (req.permissions = 0 ∧ ¬ WrongPinHash P env p session req)))

theorem TokenAllowed.not_wrong (h : TokenAllowed P env p session req) :
    ¬ WrongPinHash P env p session req := by
  intro hw
  have hok := h.hash
  have hwrong := hw.hash
  cases hs : sharedSecret P session req with
  | none => simp [hs] at hok
  | some secret =>
    simp only [hs, Option.any_some, pinHashEncOk] at hok hwrong
    cases hd : aesCbcZeroIvDecrypt P secret req.pinHashEnc with
    | none => simp [hd] at hok
    | some hash => simp [hd] at hok hwrong; simp [hok] at hwrong

/-- An answer with a token is right for allowed requests only. -/
theorem tokenGuarded_issue :
    TokenGuarded P env p session req ⟨(issueToken env).1, (issueToken env).2, p, session⟩ ↔
      TokenAllowed P env p session req := by
  constructor
  · intro h
    exact h.issued (env.draw .token 32) (by simp [issueToken])
  · intro h
    exact ⟨fun _ _ => h, fun hn => absurd h hn, fun hw => absurd hw h.not_wrong⟩

/-- A refusal is right unless it owes a retry. -/
theorem tokenGuarded_refuse {code : UInt8} (hc : code ≠ 0) :
    TokenGuarded P env p session req ⟨.status code, [], p, session⟩ ↔
      ¬ WrongPinHash P env p session req := by
  constructor
  · intro h hw
    exact absurd (h.retry hw) (Nat.ne_of_lt (Nat.lt_succ_self _))
  · intro h
    exact ⟨fun _ ha => by simp at ha, fun _ => ⟨fun _ ha => by simp at ha, code, hc, rfl⟩,
      fun hw => absurd hw h⟩

theorem WrongPinHash.isSet (h : WrongPinHash P env p session req) (hset : isPinSet p = false) :
    False := by
  rw [h.set] at hset
  cases hset

theorem tokenGuarded_getPinToken (hs : req.subCommand = 0x05) :
    TokenGuarded P env p session req (clientPinSubCommand P env p session req) ↔
      TokenConditions P env p session req := by
  have hresult : clientPinSubCommand P env p session req
      = ⟨(getPinToken env p).1, (getPinToken env p).2, p, session⟩ := by
    simp [clientPinSubCommand, hs]
  rw [hresult, getPinToken, TokenConditions]
  cases hset : isPinSet p with
  | false =>
    simp only [Bool.not_false, if_true, true_or, iff_true]
    exact (tokenGuarded_refuse (by decide)).mpr fun hw => hw.isSet hset
  | true =>
    simp only [Bool.not_true, Bool.false_eq_true, if_false, reduceCtorEq, false_or, hs]
    rw [tokenGuarded_issue]
    simp

theorem tokenGuarded_withPermissions (hs : req.subCommand = 0x09) :
    TokenGuarded P env p session req (clientPinSubCommand P env p session req) ↔
      TokenConditions P env p session req := by
  have hresult : clientPinSubCommand P env p session req
      = ⟨(getPinUvAuthTokenUsingPinWithPermissions env p req).1,
        (getPinUvAuthTokenUsingPinWithPermissions env p req).2, p, session⟩ := by
    simp [clientPinSubCommand, hs]
  rw [hresult, getPinUvAuthTokenUsingPinWithPermissions, TokenConditions]
  cases hset : isPinSet p with
  | false =>
    simp only [Bool.not_false, if_true, true_or, iff_true]
    exact (tokenGuarded_refuse (by decide)).mpr fun hw => hw.isSet hset
  | true =>
    simp only [Bool.not_true, Bool.false_eq_true, if_false, reduceCtorEq, false_or, hs, true_and]
    by_cases hten : 10 ≤ getFailedPinAttempts env p
    · simp only [hten, if_true, true_or, or_true, iff_true]
      exact (tokenGuarded_refuse (by decide)).mpr fun hw => absurd hw.retries (Nat.not_lt.mpr hten)
    · simp only [hten, if_false, false_or]
      by_cases hperm : req.permissions = 0
      · simp only [hperm, if_true, true_and]
        rw [tokenGuarded_refuse (by decide)]
        exact ⟨.inr, fun h => h.elim TokenAllowed.not_wrong id⟩
      · simp only [hperm, if_false, false_and, or_false]
        exact tokenGuarded_issue

theorem clientPin_noToken {body : Bytes} (h : ∀ req ∈ parseClientPin body, ¬ asksForToken req)
    (token : Bytes) : .tokenIssued token ∉ (clientPin P env p session body).acts := by
  unfold clientPin
  cases hp : parseClientPin body with
  | none => simp
  | some req =>
    have hreq := h req hp
    simp only [asksForToken, not_or] at hreq
    simp only [clientPinSubCommand]
    split
    · simp
    · simp
    · simp [setPin_acts]
    · unfold changePin
      repeat' split
      all_goals simp
    next hs => exact absurd hs hreq.1
    next hs => exact absurd hs hreq.2
    · simp

/-- Token requests come to what they should exactly under these conditions; no
other request gets a token. -/
theorem tokensGuarded_iff (P : Platform) (env : Env) (p : PinFiles) (session : PinSession)
    (body : Bytes) :
    TokensGuarded P env p session body ↔
      ∀ req ∈ parseClientPin body, asksForToken req → TokenConditions P env p session req := by
  have heach : ∀ req ∈ parseClientPin body, asksForToken req →
      (TokenGuarded P env p session req (clientPin P env p session body) ↔
        TokenConditions P env p session req) := by
    intro req hp ha
    have hrun : clientPin P env p session body = clientPinSubCommand P env p session req := by
      rw [Option.mem_def] at hp
      simp [clientPin, hp]
    rw [hrun]
    exact ha.elim tokenGuarded_getPinToken tokenGuarded_withPermissions
  constructor
  · intro h req hp ha
    exact (heach req hp ha).mp (h.1 req hp ha)
  · intro h
    exact ⟨fun req hp ha => (heach req hp ha).mpr (h req hp ha), clientPin_noToken⟩

section Bench

open Bench

/-- A request for a token that gives no PIN hash and agrees on no key. -/
def bareTokenRequest : Bytes := encode 8192 [.map 2, .uint 1, .uint 1, .uint 2, .uint 0x05]

/-- It is answered with a token all the same. -/
theorem getPinToken_unchecked :
    ¬ TokensGuarded platform (idleEnv 1 60000) enrolled.pins {} bareTokenRequest := by
  intro h
  have hp : ∃ req ∈ parseClientPin bareTokenRequest, req.subCommand = 0x05 := by decide +kernel
  obtain ⟨req, hreq, hs⟩ := hp
  have hacts : .tokenIssued (List.replicate 32 1) ∈
      (clientPin platform (idleEnv 1 60000) enrolled.pins {} bareTokenRequest).acts := by
    decide +kernel
  have hallowed := ((h.1 req hreq (.inl hs)).issued _ hacts).hash
  simp [sharedSecret] at hallowed

end Bench

end GoiKey
