import GoiKey.Lib.Hoare
import GoiKey.Model.Accel

/-! The wrappers give what mbedTLS gives, whatever the link does. -/

namespace GoiKey.Accel

variable {B : Board} {M : Mbedtls} {key : Option Bytes} {stale : Prop} {cmd : UInt8} {pl : Bytes}
variable {rspMax want : Nat} {k : Nat} {status : UInt8} {body : Bytes}

/-! What comes over the link. -/

/-- The board answered with this frame, and it arrived as it was sent. -/
def Intact (B : Board) (k : Nat) (key : Option Bytes) (cmd : UInt8) (pl : Bytes) (status : UInt8)
    (body : Bytes) : Prop :=
  B.reply k key cmd pl = .frame status body (frameCrc status body)

/-- The key that is loaded, and whether the last status may still be a failed authentication. -/
structure Holding (key : Option Bytes) (stale : Prop) (s : Link) : Prop where
  loaded : s.key = key
  fresh : s.last = statusAuthFail → stale

/-- What a call says about the board. -/
structure Answered (B : Board) (key : Option Bytes) (stale : Prop) (cmd : UInt8) (pl : Bytes)
    (rspMax : Nat) (r : Called) (s : Link) : Prop where
  short : r.rsp.length ≤ rspMax
  intact : r.ok = true → (∃ k, Intact B k key cmd pl statusOk r.rsp) ∧ s.last = statusOk
  loaded : s.key = if cmd = setKeyCommand ∧ r.ok = true then some pl else key
  failed : s.last = statusAuthFail → stale ∨ ∃ k body, Intact B k key cmd pl statusAuthFail body

theorem Answered.of_failure {rsp : Bytes} {s : Link} (hs : s.key = key) (hshort : rsp.length ≤ rspMax)
    (hlast : s.last = statusAuthFail → stale) : Answered B key stale cmd pl rspMax ⟨false, rsp⟩ s where
  short := hshort
  intact := (fun h => nomatch h)
  loaded := by simpa using hs
  failed := fun h => .inl (hlast h)

theorem Answered.unloaded {r : Called} {s : Link} (h : Answered B key stale cmd pl rspMax r s)
    (hcmd : cmd ≠ setKeyCommand) : s.key = key := by
  rw [h.loaded, if_neg fun h => hcmd h.1]

/-- A call that fails on the link says so in its status. -/
theorem ioFail_answered {rsp : Bytes} (hshort : rsp.length ≤ rspMax) (hne : status ≠ statusAuthFail) :
    Hoare (Holding key stale) (ioFail B status rsp) (Answered B key stale cmd pl rspMax) := by
  intro s hs
  exact .of_failure hs.loaded hshort fun h => absurd h hne

theorem tooLong_answered : Hoare (Holding key stale) tooLong (Answered B key stale cmd pl rspMax) := by
  intro s hs
  exact .of_failure hs.loaded (Nat.zero_le _) fun h => absurd h (by decide : statusBadLen ≠ statusAuthFail)

theorem absent_answered : Hoare (Holding key stale) absent (Answered B key stale cmd pl rspMax) := by
  intro s hs
  exact .of_failure hs.loaded (Nat.zero_le _) fun h => absurd h (by decide : statusAbsent ≠ statusAuthFail)

theorem receive_answered (hshort : body.length ≤ rspMax) (hi : Intact B k key cmd pl status body) :
    Hoare (Holding key stale) (receive cmd pl status body) (Answered B key stale cmd pl rspMax) := by
  intro s hs
  change Answered B key stale cmd pl rspMax ⟨status == statusOk, body⟩ { s with
    last := status
    key := if cmd = setKeyCommand ∧ status = statusOk then some pl else s.key }
  refine ⟨hshort, fun hok => ?_, ?_, fun hlast => ?_⟩
  · obtain rfl : status = statusOk := beq_iff_eq.mp hok
    exact ⟨⟨k, hi⟩, rfl⟩
  · simp only [beq_iff_eq, hs.loaded]
  · obtain rfl : status = statusAuthFail := hlast
    exact .inr ⟨k, body, hi⟩

theorem exchange_answered :
    Hoare (Holding key stale) (exchange B cmd pl rspMax) (Answered B key stale cmd pl rspMax) := by
  intro s hs
  have hs' : Holding key stale { s with exchanges := s.exchanges + 1 } := ⟨hs.loaded, hs.fresh⟩
  have htimeout : statusTimeout ≠ statusAuthFail := by decide
  change Answered B key stale cmd pl rspMax
    (react B cmd pl rspMax (B.reply s.exchanges s.key cmd pl) { s with exchanges := s.exchanges + 1 }).1
    (react B cmd pl rspMax (B.reply s.exchanges s.key cmd pl) { s with exchanges := s.exchanges + 1 }).2
  cases hr : B.reply s.exchanges s.key cmd pl with
  | noMemory => exact .of_failure hs.loaded (Nat.zero_le _) hs.fresh
  | unsent => exact ioFail_answered (Nat.zero_le _) htimeout _ hs'
  | silent => exact ioFail_answered (Nat.zero_le _) htimeout _ hs'
  | headerLost => exact ioFail_answered (Nat.zero_le _) htimeout _ hs'
  | bodyLost length received =>
    simp only [react]
    split
    · exact tooLong_answered _ hs'
    · refine ioFail_answered ?_ htimeout _ hs'
      rw [List.length_take]
      omega
  | crcLost body =>
    simp only [react]
    split
    · exact tooLong_answered _ hs'
    · exact ioFail_answered (by omega) htimeout _ hs'
  | frame status body crc =>
    simp only [react]
    split
    · exact tooLong_answered _ hs'
    split
    · exact ioFail_answered (by omega) (by decide : statusCrc ≠ statusAuthFail) _ hs'
    next hlen hcrc =>
      rw [ne_eq, Decidable.not_not] at hcrc
      refine receive_answered (by omega) (k := s.exchanges) ?_ _ hs'
      rw [Intact, ← hs.loaded, hr, hcrc]

theorem callRaw_answered :
    Hoare (Holding key stale) (callRaw B cmd pl rspMax) (Answered B key stale cmd pl rspMax) := by
  intro s hs
  change Answered B key stale cmd pl rspMax
    ((if !s.tpReady ∨ fpgaMaxPayload < pl.length then absent else exchange B cmd pl rspMax) s).1
    ((if !s.tpReady ∨ fpgaMaxPayload < pl.length then absent else exchange B cmd pl rspMax) s).2
  split
  · exact absent_answered s hs
  · exact exchange_answered s hs

theorem nowMs_holding : Hoare (Holding key stale) (nowMs B) fun _ => Holding key stale :=
  fun _ hs => ⟨hs.loaded, hs.fresh⟩

theorem nowMs_loaded : Hoare (fun s => s.key = key) (nowMs B) fun _ s => s.key = key :=
  fun _ hs => hs

/-- A probe loads no key, and its own failures are not failed authentications. -/
theorem fpgaAvailable_holding :
    Hoare (Holding key stale) (fpgaAvailable B) fun _ => Holding key stale := by
  unfold fpgaAvailable
  refine Hoare.bind (Hoare.of_get (q := fun _ => Holding key stale) fun _ hs => hs) fun s => ?_
  apply Hoare.ite
  · exact Hoare.pure fun _ hs => hs
  apply Hoare.ite
  · exact Hoare.pure fun _ hs => hs
  refine Hoare.bind nowMs_holding fun now => ?_
  apply Hoare.ite
  · exact Hoare.pure fun _ hs => hs
  refine Hoare.bind callRaw_answered fun r => ?_
  split
  next hok =>
    refine Hoare.bind (Hoare.of_modify (q := fun _ => Holding key stale) fun s hs => ?_) fun _ =>
      Hoare.pure fun _ hs => hs
    have hlast := (hs.intact hok.1).2
    exact ⟨hs.unloaded (by decide), fun h => absurd (hlast.symm.trans h) (by decide)⟩
  · refine Hoare.bind (nowMs_loaded.imp (fun s hs => hs.unloaded (by decide)) fun _ _ => id) fun now => ?_
    refine Hoare.bind (Hoare.of_modify (q := fun _ => Holding key stale) fun s hs => ?_) fun _ =>
      Hoare.pure fun _ hs => hs
    exact ⟨hs, fun h => absurd h (by decide : statusAbsent ≠ statusAuthFail)⟩

theorem call_answered :
    Hoare (Holding key stale) (call B cmd pl rspMax) (Answered B key stale cmd pl rspMax) := by
  unfold call
  refine Hoare.bind fpgaAvailable_holding fun ready => ?_
  apply Hoare.ite
  · exact callRaw_answered
  · exact absent_answered

theorem fpgaCaps_holding : Hoare (Holding key stale) (fpgaCaps B) fun _ => Holding key stale := by
  unfold fpgaCaps
  refine Hoare.bind fpgaAvailable_holding fun ready => ?_
  apply Hoare.ite
  · exact Hoare.bind (Hoare.of_get fun _ hs => hs) fun _ => Hoare.pure fun _ hs => hs
  · exact Hoare.pure fun _ hs => hs

theorem fpgaHasSym_holding : Hoare (Holding key stale) (fpgaHasSym B) fun _ => Holding key stale := by
  unfold fpgaHasSym
  exact Hoare.bind fpgaCaps_holding fun _ => Hoare.pure fun _ hs => hs

theorem fpgaHasAes_holding : Hoare (Holding key stale) (fpgaHasAes B) fun _ => Holding key stale := by
  unfold fpgaHasAes
  exact Hoare.bind fpgaCaps_holding fun _ => Hoare.pure fun _ hs => hs

theorem mallocs_holding : Hoare (Holding key stale) (mallocs B) fun _ => Holding key stale := by
  unfold mallocs
  exact Hoare.bind (Hoare.of_get (q := fun _ => Holding key stale) fun _ hs => hs) fun _ =>
    Hoare.pure fun _ hs => hs

/-! The calls. -/

/-- What a call with a fixed length left: on success an intact answer of that length. -/
structure Exact (B : Board) (cmd : UInt8) (pl : Bytes) (want : Nat) (r : Called) : Prop where
  short : r.rsp.length ≤ want
  intact : r.ok = true → (∃ k key, Intact B k key cmd pl statusOk r.rsp) ∧ r.rsp.length = want

theorem callExact_exact :
    Hoare (Holding key stale) (callExact B cmd pl want) fun r _ => Exact B cmd pl want r := by
  unfold callExact
  refine Hoare.bind call_answered fun r => Hoare.pure fun s hs => ⟨hs.short, fun hok => ?_⟩
  obtain ⟨hr, hlen⟩ := Bool.and_eq_true_iff.mp hok
  obtain ⟨⟨k, hk⟩, -⟩ := hs.intact hr
  exact ⟨⟨k, key, hk⟩, beq_iff_eq.mp hlen⟩

theorem refused_exact {pre : Link → Prop} :
    Hoare pre (pure refused) fun r _ => Exact B cmd pl want r :=
  Hoare.pure fun _ _ => ⟨Nat.zero_le _, fun h => nomatch h⟩

theorem fpgaSha256_exact {data : Bytes} :
    Hoare (Holding key stale) (fpgaSha256 B data) fun r _ => Exact B 0x10 data 32 r := by
  unfold fpgaSha256
  refine Hoare.bind fpgaHasSym_holding fun ready => ?_
  apply Hoare.ite
  · exact callExact_exact
  · exact refused_exact

theorem fpgaHmacSha256_exact {hkey data : Bytes} :
    Hoare (Holding key stale) (fpgaHmacSha256 B hkey data) fun r _ =>
      Exact B 0x11 (hmacPayload hkey data) 32 r := by
  unfold fpgaHmacSha256
  refine Hoare.bind fpgaHasSym_holding fun ready => ?_
  apply Hoare.ite
  · exact refused_exact
  refine Hoare.bind mallocs_holding fun allocated => ?_
  apply Hoare.ite
  · exact callExact_exact
  · exact refused_exact

theorem fpgaPbkdf2Sha256_exact {pw salt : Bytes} {iterations : UInt32} :
    Hoare (Holding key stale) (fpgaPbkdf2Sha256 B pw salt iterations want) fun r _ =>
      Exact B 0x12 (pbkdf2Payload pw salt iterations want) want r ∧ (r.ok = true → want ≤ 1024) := by
  have hrefused : ∀ {pre : Link → Prop}, Hoare pre (pure refused) fun r _ =>
      Exact B 0x12 (pbkdf2Payload pw salt iterations want) want r ∧ (r.ok = true → want ≤ 1024) :=
    Hoare.pure fun _ _ => ⟨⟨Nat.zero_le _, fun h => nomatch h⟩, fun h => nomatch h⟩
  unfold fpgaPbkdf2Sha256
  refine Hoare.bind fpgaHasSym_holding fun ready => ?_
  split
  · exact hrefused
  next hbounds =>
    have hwant : want ≤ 1024 := by omega
    refine Hoare.bind mallocs_holding fun allocated => Hoare.ite ?_ hrefused
    exact callExact_exact.imp (fun _ => id) fun _ _ h => ⟨h, fun _ => hwant⟩

/-- A key that was taken is the one loaded, and its answer is the last status. -/
theorem fpgaAesSetKey_holding {aesKey : Bytes} :
    Hoare (Holding key stale) (fpgaAesSetKey B aesKey) fun taken s =>
      taken = true → Holding (some aesKey) False s := by
  unfold fpgaAesSetKey
  refine Hoare.bind fpgaHasAes_holding fun ready => ?_
  apply Hoare.ite
  · refine Hoare.bind call_answered fun r => Hoare.pure fun s hs hok => ⟨?_, fun h => ?_⟩
    · rw [hs.loaded, if_pos ⟨rfl, hok⟩]
    · exact absurd ((hs.intact hok).2.symm.trans h) (by decide)
  · exact Hoare.pure fun _ _ => (fun h => nomatch h)

def aesWant (mode : UInt8) (input : Bytes) : Nat := input.length + if mode = 4 then 16 else 0

/-- What an AES operation under a key left: an intact answer on success, and a failed
authentication only from the board. -/
structure Operated (B : Board) (key : Option Bytes) (mode : UInt8) (iv aad input tagIn : Bytes)
    (r : Called) (s : Link) : Prop where
  intact : r.ok = true → (∃ k, Intact B k key 0x21 (aesPayload mode iv aad input tagIn) statusOk r.rsp) ∧
    r.rsp.length = aesWant mode input
  failed : s.last = statusAuthFail →
    ∃ k body, Intact B k key 0x21 (aesPayload mode iv aad input tagIn) statusAuthFail body

theorem aesOp_operated {mode : UInt8} {iv aad input tagIn : Bytes} :
    Hoare (Holding key False) (aesOp B mode iv aad input tagIn)
      (Operated B key mode iv aad input tagIn) := by
  have hrefused : Hoare (Holding key False) (pure refused) (Operated B key mode iv aad input tagIn) :=
    Hoare.pure fun s hs => ⟨(fun h => nomatch h), fun h => (hs.fresh h).elim⟩
  unfold aesOp
  refine Hoare.bind fpgaHasAes_holding fun ready => ?_
  apply Hoare.ite hrefused
  apply Hoare.ite hrefused
  refine Hoare.bind mallocs_holding fun allocated => ?_
  refine Hoare.ite ?_ hrefused
  refine Hoare.bind call_answered fun r => Hoare.pure fun s hs => ?_
  have hfailed := fun h => (hs.failed h).resolve_left id
  change Operated B key mode iv aad input tagIn
    (if r.ok && r.rsp.length == aesWant mode input then r else refused) s
  split
  next h =>
    obtain ⟨hr, hlen⟩ := Bool.and_eq_true_iff.mp h
    exact ⟨fun _ => ⟨(hs.intact hr).1, beq_iff_eq.mp hlen⟩, hfailed⟩
  · exact ⟨(fun h => nomatch h), hfailed⟩

/-! The wrappers. -/

/-- What mbedTLS documents: the lengths of its outputs, and that long keys are hashed first. -/
structure Lawful (M : Mbedtls) : Prop where
  sha256 : ∀ data, (M.sha256 data).length = 32
  hmac : ∀ key data, (M.hmacSha256 key data).length = 32
  hmac_long : ∀ key data, 64 < key.length → M.hmacSha256 (M.sha256 key) data = M.hmacSha256 key data
  pbkdf2 : ∀ pw salt iterations n bytes, M.pbkdf2 pw salt iterations n = some bytes → bytes.length = n
  pbkdf2_long : ∀ pw salt iterations n, 64 < pw.length →
    M.pbkdf2 (M.sha256 pw) salt iterations n = M.pbkdf2 pw salt iterations n

/-- An intact frame that reports success carries the value mbedTLS computes. -/
structure Correct (M : Mbedtls) (B : Board) : Prop where
  sha256 : ∀ k key data body, Intact B k key 0x10 data statusOk body → body.length = 32 →
    body = M.sha256 data
  hmac : ∀ k key hkey data body, hkey.length ≤ 64 → Intact B k key 0x11 (hmacPayload hkey data) statusOk body →
    body.length = 32 → body = M.hmacSha256 hkey data
  pbkdf2 : ∀ k key pw salt iterations n body, pw.length ≤ 64 → n ≤ 1024 →
    Intact B k key 0x12 (pbkdf2Payload pw salt iterations n) statusOk body → body.length = n →
    M.pbkdf2 pw salt iterations n = some body
  cbc : ∀ k key encrypt iv input body, iv.length = 16 → input.length ≤ 7900 →
    Intact B k (some key) 0x21 (aesPayload (if encrypt then 2 else 3) iv [] input []) statusOk body →
    body.length = input.length → M.cbc encrypt key iv input = some body
  gcmEncrypt : ∀ k key iv aad input body, iv.length = 12 → input.length + aad.length ≤ 7900 →
    Intact B k (some key) 0x21 (aesPayload 4 iv aad input []) statusOk body →
    body.length = input.length + 16 →
    (M.gcmEncrypt key iv aad input).map (fun r => r.1 ++ r.2) = some body
  gcmDecrypt : ∀ k key iv aad input tag body, iv.length = 12 → tag.length = 16 →
    input.length + aad.length ≤ 7900 →
    Intact B k (some key) 0x21 (aesPayload 5 iv aad input tag) statusOk body →
    body.length = input.length → M.gcmDecrypt key iv aad input tag = some body

/-- An intact frame that reports a failed authentication answers a wrong tag. -/
def Truthful (M : Mbedtls) (B : Board) : Prop :=
  ∀ k key iv aad input tag body, iv.length = 12 → tag.length = 16 → input.length + aad.length ≤ 7900 →
    Intact B k (some key) 0x21 (aesPayload 5 iv aad input tag) statusAuthFail body →
    M.gcmDecrypt key iv aad input tag = none

/-- Equal success, and on success equal buffers. -/
def Agrees (r p : Bool × Bytes) : Prop := r.1 = p.1 ∧ (p.1 = true → r.2 = p.2)

variable {s : Link} {data out pw salt iv aad input tag : Bytes} {aesKey hkey : Bytes}
variable {iterations : UInt32}

theorem Agrees.refl (p : Bool × Bytes) : Agrees p p := ⟨rfl, fun _ => rfl⟩

/-- Nothing shorter that was written before is left under a write. -/
theorem overwrite_overwrite {bytes earlier out : Bytes} (h : earlier.length ≤ bytes.length) :
    overwrite bytes (overwrite earlier out) = overwrite bytes out := by
  unfold overwrite
  rw [List.drop_append, List.drop_eq_nil_of_le h, List.nil_append, List.drop_drop]
  congr 2
  omega

theorem holding_any (s : Link) : Holding s.key True s := ⟨rfl, fun _ => trivial⟩

theorem accelSha256_eq (hM : Lawful M) (hB : Correct M B) :
    Hoare (Holding key stale) (accelSha256 B M data out) fun r _ => r = overwrite (M.sha256 data) out := by
  have hsoftware : ∀ {pre : Link → Prop}, Hoare pre (pure (overwrite (M.sha256 data) out))
      fun r _ => r = overwrite (M.sha256 data) out := Hoare.pure fun _ _ => rfl
  unfold accelSha256
  refine Hoare.ite ?_ hsoftware
  refine Hoare.bind fpgaHasSym_holding fun ready => Hoare.ite ?_ hsoftware
  refine Hoare.bind fpgaSha256_exact fun r => Hoare.pure fun s hr => ?_
  split
  next hok =>
    obtain ⟨⟨k, key, hk⟩, hlen⟩ := hr.intact hok
    rw [hB.sha256 k key data r.rsp hk hlen]
  · exact overwrite_overwrite (hr.short.trans (hM.sha256 data).ge)

theorem accelHmacSha256_eq (hM : Lawful M) (hB : Correct M B) :
    Hoare (Holding key stale) (accelHmacSha256 B M hkey data out) fun r _ =>
      r = overwrite (M.hmacSha256 hkey data) out := by
  have hsoftware : ∀ {pre : Link → Prop}, Hoare pre (pure (overwrite (M.hmacSha256 hkey data) out))
      fun r _ => r = overwrite (M.hmacSha256 hkey data) out := Hoare.pure fun _ _ => rfl
  unfold accelHmacSha256
  refine Hoare.ite ?_ hsoftware
  refine Hoare.bind fpgaHasSym_holding fun ready => Hoare.ite ?_ hsoftware
  refine Hoare.bind fpgaHmacSha256_exact fun r => Hoare.pure fun s hr => ?_
  split
  next hok =>
    obtain ⟨⟨k, key, hk⟩, hlen⟩ := hr.intact hok
    congr 1
    split at hk
    next hlong =>
      rw [← hM.hmac_long hkey data hlong]
      exact hB.hmac k key _ data r.rsp ((hM.sha256 hkey).le.trans (by omega)) hk hlen
    next hshort => exact hB.hmac k key _ data r.rsp (by omega) hk hlen
  · exact overwrite_overwrite (hr.short.trans (hM.hmac hkey data).ge)

/-- After a failed call only a failed computation leaves anything of it. -/
theorem computed_overwrite {result : Option Bytes} {earlier : Bytes}
    (h : ∀ bytes, result = some bytes → earlier.length ≤ bytes.length) :
    Agrees (computed result (overwrite earlier out)) (computed result out) := by
  cases hr : result with
  | none => exact ⟨rfl, fun h => nomatch h⟩
  | some bytes => exact ⟨rfl, fun _ => overwrite_overwrite (h bytes hr)⟩

theorem agrees_computed {result : Option Bytes} {bytes : Bytes} (h : result = some bytes) :
    Agrees (true, overwrite bytes out) (computed result out) := by
  rw [h]
  exact .refl _

theorem accelPbkdf2Sha256_agrees (hM : Lawful M) (hB : Correct M B) :
    Hoare (Holding key stale) (accelPbkdf2Sha256 B M pw salt iterations out) fun r _ =>
      Agrees r (computed (M.pbkdf2 pw salt iterations out.length) out) := by
  have hsoftware : ∀ {pre : Link → Prop},
      Hoare pre (pure (computed (M.pbkdf2 pw salt iterations out.length) out)) fun r _ =>
        Agrees r (computed (M.pbkdf2 pw salt iterations out.length) out) :=
    Hoare.pure fun _ _ => .refl _
  unfold accelPbkdf2Sha256
  refine Hoare.ite ?_ hsoftware
  refine Hoare.bind fpgaHasSym_holding fun ready => Hoare.ite ?_ hsoftware
  refine Hoare.bind fpgaPbkdf2Sha256_exact fun r => Hoare.split (fun hok => ?_) fun _ => ?_
  · rintro s ⟨hr, hwant⟩
    obtain ⟨⟨k, key, hk⟩, hlen⟩ := hr.intact hok
    apply agrees_computed
    split at hk
    next hlong =>
      rw [← hM.pbkdf2_long pw salt iterations out.length hlong]
      exact hB.pbkdf2 k key _ _ _ _ _ ((hM.sha256 pw).le.trans (by omega)) (hwant hok) hk hlen
    next hshort => exact hB.pbkdf2 k key _ _ _ _ _ (by omega) (hwant hok) hk hlen
  · rintro s ⟨hr, -⟩
    refine computed_overwrite fun bytes hbytes => ?_
    exact hr.short.trans (hM.pbkdf2 _ _ _ _ _ hbytes).ge

/-- What is offloaded fits a request. -/
theorem offloads_fits (h : offloads input aad = true) : input.length + aad.length ≤ 7900 :=
  of_decide_eq_true (Bool.and_eq_true_iff.mp h).2

/-- An operation under a key, or else the software: the start of each AES wrapper. -/
theorem under_key {result : Bool × Bytes} {m : LinkM (Bool × Bytes)} {p : Bool × Bytes}
    (hp : Agrees result p) (hm : Hoare (Holding (some aesKey) False) m fun r _ => Agrees r p) :
    Hoare (Holding key stale)
      (do
        if ← fpgaHasAes B then
          if ← fpgaAesSetKey B aesKey then m else return result
        else return result)
      fun r _ => Agrees r p := by
  have hresult : ∀ {pre : Link → Prop}, Hoare pre (pure result) fun r _ => Agrees r p :=
    Hoare.pure fun _ _ => hp
  refine Hoare.bind fpgaHasAes_holding fun ready => Hoare.ite ?_ hresult
  refine Hoare.bind fpgaAesSetKey_holding fun taken => ?_
  cases taken with
  | false => exact hresult
  | true => exact hm.imp (fun s hs => hs rfl) fun _ _ => id

/-- The wrapper's own mbedTLS path; no other than whole, non-empty blocks come to it. -/
def softwareCbc (M : Mbedtls) (encrypt : Bool) (key iv input out : Bytes) : Bool × Bytes :=
  if input.length = 0 ∨ input.length % 16 ≠ 0 then (false, out)
  else computed (M.cbc encrypt key iv input) out

def softwareGcmEncrypt (M : Mbedtls) (key iv aad input out : Bytes) : Bool × Bytes :=
  computed ((M.gcmEncrypt key iv aad input).map fun r => r.1 ++ r.2) out

theorem accelAes256Cbc_agrees {encrypt : Bool} (hB : Correct M B) (hiv : iv.length = 16) :
    Hoare (Holding key stale) (accelAes256Cbc B M encrypt aesKey iv input out) fun r _ =>
      Agrees r (softwareCbc M encrypt aesKey iv input out) := by
  unfold accelAes256Cbc softwareCbc
  split
  · exact Hoare.pure fun _ _ => .refl _
  split
  next hoff =>
    refine under_key (.refl _) (Hoare.bind aesOp_operated fun r => Hoare.split (fun hok => ?_) fun _ => ?_)
    · intro s hr
      obtain ⟨⟨k, hk⟩, hlen⟩ := hr.intact hok
      apply agrees_computed
      refine hB.cbc k aesKey encrypt iv input _ hiv (offloads_fits hoff) hk ?_
      rw [hlen]
      cases encrypt <;> rfl
    · exact fun _ _ => .refl _
  next => exact Hoare.pure fun _ _ => .refl _

theorem accelAes256GcmEncrypt_agrees (hB : Correct M B) (hiv : iv.length = 12) :
    Hoare (Holding key stale) (accelAes256GcmEncrypt B M aesKey iv aad input out) fun r _ =>
      Agrees r (softwareGcmEncrypt M aesKey iv aad input out) := by
  unfold accelAes256GcmEncrypt
  split
  next hoff =>
    refine under_key (.refl _) (Hoare.bind aesOp_operated fun r => Hoare.pure fun s hr => ?_)
    split
    next hok =>
      obtain ⟨⟨k, hk⟩, hlen⟩ := hr.intact hok
      apply agrees_computed
      exact hB.gcmEncrypt k aesKey iv aad input _ hiv (offloads_fits hoff) hk hlen
    next => exact .refl _
  next => exact Hoare.pure fun _ _ => .refl _

/-- A failed authentication that is reported is one. -/
theorem agrees_authFailed (h : M.gcmDecrypt aesKey iv aad input tag = none) :
    Agrees (false, out) (authDecrypt M aesKey iv aad input tag out) := by
  unfold authDecrypt
  rw [h]
  exact ⟨rfl, fun h => nomatch h⟩

theorem agrees_authDecrypt {plain : Bytes} (h : M.gcmDecrypt aesKey iv aad input tag = some plain) :
    Agrees (true, overwrite plain out) (authDecrypt M aesKey iv aad input tag out) := by
  unfold authDecrypt
  rw [h]
  exact .refl _

theorem accelAes256GcmDecrypt_agrees (hB : Correct M B) (hT : Truthful M B) (hiv : iv.length = 12)
    (htag : tag.length = 16) :
    Hoare (Holding key stale) (accelAes256GcmDecrypt B M aesKey iv aad input tag out) fun r _ =>
      Agrees r (authDecrypt M aesKey iv aad input tag out) := by
  unfold accelAes256GcmDecrypt
  split
  next hoff =>
    have hfits := offloads_fits hoff
    refine under_key (.refl _) (Hoare.bind aesOp_operated fun r => Hoare.split (fun hok => ?_) fun _ => ?_)
    · intro s hr
      obtain ⟨⟨k, hk⟩, hlen⟩ := hr.intact hok
      exact agrees_authDecrypt (hB.gcmDecrypt k aesKey iv aad input tag _ hiv htag hfits hk hlen)
    · intro s hr
      change Agrees (if s.last = statusAuthFail then (false, out) else authDecrypt M aesKey iv aad input tag out) _
      split
      next hlast =>
        obtain ⟨k, body, hk⟩ := hr.failed hlast
        exact agrees_authFailed (hT k aesKey iv aad input tag body hiv htag hfits hk)
      next => exact .refl _
  next => exact Hoare.pure fun _ _ => .refl _

/-- Any wrapper from any state of the link is mbedTLS alone: equal success, and an equal
buffer where there is success. -/
theorem wrappers_transparent (M : Mbedtls) (B : Board) (hM : Lawful M) (hB : Correct M B)
    (hT : Truthful M B) (s : Link) :
    (∀ data out, (accelSha256 B M data out s).1 = overwrite (M.sha256 data) out) ∧
    (∀ key data out, (accelHmacSha256 B M key data out s).1 = overwrite (M.hmacSha256 key data) out) ∧
    (∀ pw salt iterations out, Agrees (accelPbkdf2Sha256 B M pw salt iterations out s).1
      (computed (M.pbkdf2 pw salt iterations out.length) out)) ∧
    (∀ encrypt key iv input out, iv.length = 16 →
      Agrees (accelAes256Cbc B M encrypt key iv input out s).1 (softwareCbc M encrypt key iv input out)) ∧
    (∀ key iv aad input out, iv.length = 12 →
      Agrees (accelAes256GcmEncrypt B M key iv aad input out s).1
        (softwareGcmEncrypt M key iv aad input out)) ∧
    (∀ key iv aad input tag out, iv.length = 12 → tag.length = 16 →
      Agrees (accelAes256GcmDecrypt B M key iv aad input tag out s).1
        (authDecrypt M key iv aad input tag out)) := by
  have hs := holding_any s
  refine ⟨?sha256, ?hmac, ?pbkdf2, ?cbc, ?encrypt, ?decrypt⟩
  case sha256 =>
    intro data out
    exact accelSha256_eq hM hB s hs
  case hmac =>
    intro key data out
    exact accelHmacSha256_eq hM hB s hs
  case pbkdf2 =>
    intro pw salt iterations out
    exact accelPbkdf2Sha256_agrees hM hB s hs
  case cbc =>
    intro encrypt key iv input out hiv
    exact accelAes256Cbc_agrees hB hiv s hs
  case encrypt =>
    intro key iv aad input out hiv
    exact accelAes256GcmEncrypt_agrees hB hiv s hs
  case decrypt =>
    intro key iv aad input tag out hiv htag
    exact accelAes256GcmDecrypt_agrees hB hT hiv htag s hs

/-- A library with the digest of 1024 zeros, and a cipher that seals with a zero tag. -/
def table : Mbedtls where
  sha256 data :=
    if data = zeros 1024 then
      fromHex (text "5f70bf18a086007016e948b04aed3b82103a36bea41755b6cddfaf10ace3c6ef") 32
    else zeros 32
  hmacSha256 _ _ := zeros 32
  pbkdf2 _ _ _ _ := none
  cbc _ _ _ input := some input
  gcmEncrypt _ _ _ input := some (input, zeros 16)
  gcmDecrypt _ _ _ input tag := if tag = zeros 16 then some input else none

theorem table_lawful : Lawful table where
  sha256 data := by
    change (if data = zeros 1024 then fromHex _ 32 else zeros 32).length = 32
    split
    · exact padTo_length _ _
    · rfl
  hmac _ _ := rfl
  hmac_long _ _ _ := rfl
  pbkdf2 _ _ _ _ _ h := nomatch h
  pbkdf2_long _ _ _ _ _ := rfl

/-- A frame as the board sends it. -/
def sent (status : UInt8) (body : Bytes) : Reply := .frame status body (frameCrc status body)

theorem sent_injective {status status' : UInt8} {body body' : Bytes}
    (h : sent status body = sent status' body') : status = status' ∧ body = body' := by
  unfold sent at h
  injection h with hstatus hbody
  exact ⟨hstatus, hbody⟩

def hasher : Board where
  reply _ _ cmd pl :=
    if cmd = 0x01 then sent statusOk (text "TROACC01" ++ [0, 0, 0, 7])
    else if cmd = 0x10 then sent statusOk (table.sha256 pl)
    else .silent
  now _ := 0
  allocates _ := true

theorem hasher_correct : Correct table hasher where
  sha256 _ _ _ _ h _ := (sent_injective h).2.symm
  hmac _ _ _ _ _ _ h := nomatch h
  pbkdf2 _ _ _ _ _ _ _ _ _ h := nomatch h
  cbc _ _ _ _ _ _ _ _ h := nomatch h
  gcmEncrypt _ _ _ _ _ _ _ _ h := nomatch h
  gcmDecrypt _ _ _ _ _ _ _ _ _ _ h := nomatch h

theorem hasher_truthful : Truthful table hasher :=
  fun _ _ _ _ _ _ _ _ _ _ h => nomatch h

theorem wrappers_transparent_hasher :
    (accelSha256 hasher table (zeros 1024) (zeros 32) { tpReady := true }).1 =
      overwrite (table.sha256 (zeros 1024)) (zeros 32) :=
  (wrappers_transparent table hasher table_lawful hasher_correct hasher_truthful
    { tpReady := true }).1 (zeros 1024) (zeros 32)

/-- A board that takes a key and then reports a failed authentication for what is sealed well. -/
def denier : Board where
  reply _ _ cmd _ :=
    if cmd = 0x01 then sent statusOk (text "TROACC01" ++ [0, 0, 0, 8])
    else if cmd = setKeyCommand then sent statusOk []
    else sent statusAuthFail []
  now _ := 0
  allocates _ := true

theorem denier_correct : Correct table denier where
  sha256 _ _ _ _ h _ := absurd (sent_injective h).1 (by decide)
  hmac _ _ _ _ _ _ h := absurd (sent_injective h).1 (by decide)
  pbkdf2 _ _ _ _ _ _ _ _ _ h := absurd (sent_injective h).1 (by decide)
  cbc _ _ _ _ _ _ _ _ h := absurd (sent_injective h).1 (by decide)
  gcmEncrypt _ _ _ _ _ _ _ _ h := absurd (sent_injective h).1 (by decide)
  gcmDecrypt _ _ _ _ _ _ _ _ _ _ h := absurd (sent_injective h).1 (by decide)

theorem denial_is_believed :
    (Lawful table ∧ Correct table denier) ∧
    (accelAes256GcmDecrypt denier table (zeros 32) (zeros 12) [] (zeros 256) (zeros 16) (zeros 256)
      { tpReady := true }).1.1 = false ∧
    (authDecrypt table (zeros 32) (zeros 12) [] (zeros 256) (zeros 16) (zeros 256)).1 = true :=
  ⟨⟨table_lawful, denier_correct⟩, by decide +kernel⟩

end GoiKey.Accel
