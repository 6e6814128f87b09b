import GoiKey.Model.Bench
import GoiKey.Model.U2f

/-!
Which bytes of a frame U2F looks at. The declared length of the request is trusted,
so a frame that ends early is read behind its end.
-/

namespace GoiKey

namespace U2fReads

variable {P : Platform} {env : Env} {d : Device} {data : Bytes} {log : List Nat} {i : Nat}

/-- `reqLen`. -/
def reqLen (data : Bytes) : Nat := (byteAt data 5).toNat * 256 + (byteAt data 6).toNat

def khLen (data : Bytes) : Nat := (byteAt data 71).toNat

/-- The fields the instruction takes lie within the frame. -/
def FieldsInside (data : Bytes) : Prop :=
  byteAt data 1 = 0x03 ∨ (7 ≤ data.length ∧ (byteAt data 1 = 0x01 → 71 ≤ data.length) ∧
    (byteAt data 1 = 0x02 → 72 ≤ data.length ∧ 72 + khLen data ≤ data.length))

def errors : List Bytes :=
  [statusWord 0x6700, statusWord 0x6985, statusWord 0x6A80, statusWord 0x6D00, statusWord 0x6F00]

/-- An error, and nothing has changed. -/
def Refused (d : Device) (r : U2fResult) : Prop :=
  r.reply ∈ errors ∧ r.uv = d.uv ∧ r.keys = d.keys ∧ r.signCount = d.signCount

/-- Only bytes of the frame are read, and a frame that ends before its fields do is
refused. -/
def StaysInside (P : Platform) (env : Env) (d : Device) (data : Bytes) : Prop :=
  (∀ i ∈ (processU2fCommand P env d data []).2, i < data.length) ∧
    (¬FieldsInside data → Refused d (processU2fCommand P env d data []).1)

/-- A registration ends before it looks at the payload: no finger is accepted, or
there is no key or no attestation identity. -/
def Stops (P : Platform) (env : Env) (d : Device) : Prop :=
  (fidoVerifyFingerprint env d.bio d.uv env.sensor env.now).1 = none ∨
    generateCredentialKeyP256 P env = none ∨ P.attestation = none

/-- The looking for a finger leaves the counter of failures and the last score alone. -/
def LeavesNoTrace (env : Env) (d : Device) : Prop :=
  (fidoVerifyFingerprint env d.bio d.uv env.sensor env.now).2 = d.uv

/-! Single reads. -/

theorem byte_run (data : Bytes) (i : Nat) (log : List Nat) :
    byte env data i log = (byteAt (frameBytes env data i 1) 0, i :: log) := rfl

theorem bytes_run (data : Bytes) (start len : Nat) (log : List Nat) :
    bytes env data start len log = (frameBytes env data start len, (List.range' start len).reverse ++ log) := rfl

/-- A byte of the frame is what is read there. -/
theorem frameByte (h : i < data.length) : byteAt (frameBytes env data i 1) 0 = byteAt data i := by
  have hin : i < (data ++ env.behindFrame).length := by
    rw [List.length_append]
    omega
  rw [frameBytes, List.drop_eq_getElem_cons hin, byteAt, byteAt, padTo]
  simp [List.getElem_append_left h, List.getElem?_eq_getElem h]

/-! The two requests with a payload. -/

theorem register_stops (h : Stops P env d) (data : Bytes) (log : List Nat) :
    ∃ sw acts, (sw = 0x6985 ∨ sw = 0x6F00) ∧ register P env d data log =
      (⟨statusWord sw, acts, (fidoVerifyFingerprint env d.bio d.uv env.sensor env.now).2, d.keys, d.signCount⟩, log) := by
  unfold register
  unfold Stops at h
  rcases hverify : fidoVerifyFingerprint env d.bio d.uv env.sensor env.now with ⟨act, uv⟩
  rw [hverify] at h
  cases act with
  | none => exact ⟨0x6985, [], .inl rfl, rfl⟩
  | some act =>
    cases hkey : generateCredentialKeyP256 P env with
    | none => exact ⟨0x6F00, [act], .inr rfl, rfl⟩
    | some key =>
      have hatt : P.attestation = none := by
        rcases h with h | h | h
        · cases h
        · rw [hkey] at h
          cases h
        · exact h
      refine ⟨0x6F00, [act], .inr rfl, ?_⟩
      simp only [hatt, Option.isNone_none, if_true]
      rfl

/-- Where a registration goes on, it reads the payload. -/
theorem register_reads (h : ¬Stops P env d) (log : List Nat) :
    70 ∈ (register P env d data log).2 ∧ ∀ i ∈ (register P env d data log).2, i ∈ log ∨ i < 71 := by
  have happId : ∀ l : List Nat, (∀ i ∈ l, i ∈ log ∨ i < 71) →
      70 ∈ (List.range' 39 32).reverse ++ l ∧ ∀ i ∈ (List.range' 39 32).reverse ++ l, i ∈ log ∨ i < 71 := by
    intro l hl
    simp only [List.mem_append, List.mem_reverse, List.mem_range'_1]
    exact ⟨.inl (by decide), fun i hi => hi.elim (fun hi => .inr hi.2) (hl i)⟩
  have hchallenge : ∀ l : List Nat, (70 ∈ l ∧ ∀ i ∈ l, i ∈ log ∨ i < 71) →
      70 ∈ (List.range' 7 32).reverse ++ l ∧ ∀ i ∈ (List.range' 7 32).reverse ++ l, i ∈ log ∨ i < 71 := by
    intro l hl
    simp only [List.mem_append, List.mem_reverse, List.mem_range'_1]
    exact ⟨.inr hl.1, fun i hi => hi.elim (fun hi => .inr (by omega)) (hl.2 i)⟩
  have hfirst := happId log fun i hi => .inl hi
  have hall := hchallenge _ (happId _ hfirst.2)
  unfold register
  unfold Stops at h
  rw [not_or, not_or] at h
  rcases hverify : fidoVerifyFingerprint env d.bio d.uv env.sensor env.now with ⟨act, uv⟩
  rw [hverify] at h
  cases act with
  | none => exact absurd rfl h.1
  | some act =>
    cases hkey : generateCredentialKeyP256 P env with
    | none => exact absurd hkey h.2.1
    | some key =>
      have hatt : P.attestation.isNone = false := by
        rw [Option.isNone_eq_false_iff, Option.isSome_iff_ne_none]
        exact h.2.2
      simp only [hatt, Bool.false_eq_true, if_false, bind, StateT.bind, bytes_run]
      cases savePasskeyRecord P env d.keys (toHex (env.draw .keyHandle 16))
          (u2fRecord (frameBytes env data 39 32) key.privateKeyHex) with
      | none => exact hfirst
      | some k =>
        simp only [bind, StateT.bind, bytes_run]
        cases generateAlgSignature P env (-7) (attestationSigner P (-7) key.privateKeyHex).privateKeyHex
            (0x00 :: (frameBytes env data 39 32 ++ frameBytes env data 7 32 ++ env.draw .keyHandle 16 ++
              padTo 65 key.publicKey)) with
        | none => exact hall
        | some sig =>
          simp only
          split
          all_goals exact hall

theorem register_value (log : List Nat) : (register P env d data log).1 =
    u2fRegister P env d (frameBytes env data 7 32) (frameBytes env data 39 32) := by
  unfold register u2fRegister
  rcases fidoVerifyFingerprint env d.bio d.uv env.sensor env.now with ⟨act, uv⟩
  cases act with
  | none => rfl
  | some act =>
    cases generateCredentialKeyP256 P env with
    | none => rfl
    | some key =>
      by_cases hatt : P.attestation.isNone = true
      · simp only [hatt, if_true]
        rfl
      · simp only [hatt, Bool.false_eq_true, if_false, bind, StateT.bind, bytes_run]
        cases savePasskeyRecord P env d.keys (toHex (env.draw .keyHandle 16))
            (u2fRecord (frameBytes env data 39 32) key.privateKeyHex) with
        | none => rfl
        | some k =>
          simp only [bind, StateT.bind, bytes_run]
          cases generateAlgSignature P env (-7) (attestationSigner P (-7) key.privateKeyHex).privateKeyHex
              (0x00 :: (frameBytes env data 39 32 ++ frameBytes env data 7 32 ++ env.draw .keyHandle 16 ++
                padTo 65 key.publicKey)) with
          | none => rfl
          | some sig =>
            simp only
            split
            all_goals rfl

/-- An authentication reads the length of the key handle and the key handle first,
and nothing behind it. -/
theorem authenticate_reads (P : Platform) (env : Env) (d : Device) (data : Bytes) (p1 : UInt8) (log : List Nat) :
    let khLen := (byteAt (frameBytes env data 71 1) 0).toNat
    71 ∈ (authenticate P env d p1 data log).2 ∧
      (∀ i, 72 ≤ i → i < 72 + khLen → i ∈ (authenticate P env d p1 data log).2) ∧
      ∀ i ∈ (authenticate P env d p1 data log).2, i ∈ log ∨ i < 72 + khLen := by
  intro khLen
  let first := (List.range' 39 32).reverse ++ ((List.range' 72 khLen).reverse ++ 71 :: log)
  let last := (List.range' 7 32).reverse ++ ((List.range' 39 32).reverse ++ first)
  have hfirst : 71 ∈ first ∧ (∀ i, 72 ≤ i → i < 72 + khLen → i ∈ first) ∧ ∀ i ∈ first, i ∈ log ∨ i < 72 + khLen := by
    simp only [first, List.mem_append, List.mem_reverse, List.mem_range'_1, List.mem_cons]
    refine ⟨.inr (.inr (.inl trivial)), fun i hge hlt => .inr (.inl ⟨hge, hlt⟩), ?_⟩
    rintro i (hi | hi | rfl | hi)
    · omega
    · omega
    · omega
    · exact .inl hi
  have hlast : 71 ∈ last ∧ (∀ i, 72 ≤ i → i < 72 + khLen → i ∈ last) ∧ ∀ i ∈ last, i ∈ log ∨ i < 72 + khLen := by
    have hsub : ∀ i ∈ first, i ∈ last := fun i hi => List.mem_append_right _ (List.mem_append_right _ hi)
    refine ⟨hsub 71 hfirst.1, fun i hge hlt => hsub i (hfirst.2.1 i hge hlt), ?_⟩
    simp only [last, List.mem_append, List.mem_reverse, List.mem_range'_1]
    rintro i (hi | hi | hi)
    · omega
    · omega
    · exact hfirst.2.2 i hi
  unfold authenticate
  simp only [bind, StateT.bind, bytes_run, byte_run]
  cases getPasskeyRecord P env d.keys (toHex (frameBytes env data 72 (byteAt (frameBytes env data 71 1) 0).toNat)) with
  | none => exact hfirst
  | some c =>
    simp only
    split
    · exact hfirst
    split
    · exact hfirst
    rcases fidoVerifyFingerprint env d.bio d.uv env.sensor env.now with ⟨act, uv⟩
    cases act with
    | none => exact hfirst
    | some act =>
      simp only [bind, StateT.bind, bytes_run]
      cases generateAlgSignature P env (-7) c.privateKeyHex (frameBytes env data 39 32 ++
          0x01 :: (bigEndian 4 (nextSignCount d.signCount).toNat ++ frameBytes env data 7 32)) with
      | none => exact hlast
      | some sig => exact hlast

theorem authenticate_value (p1 : UInt8) (log : List Nat) : (authenticate P env d p1 data log).1 =
    u2fAuthenticate P env d p1 (frameBytes env data 7 32) (frameBytes env data 39 32)
      (frameBytes env data 72 (byteAt (frameBytes env data 71 1) 0).toNat) := by
  unfold authenticate u2fAuthenticate
  simp only [bind, StateT.bind, bytes_run, byte_run]
  cases getPasskeyRecord P env d.keys (toHex (frameBytes env data 72 (byteAt (frameBytes env data 71 1) 0).toNat)) with
  | none => rfl
  | some c =>
    simp only
    split
    · rfl
    split
    · rfl
    rcases fidoVerifyFingerprint env d.bio d.uv env.sensor env.now with ⟨act, uv⟩
    cases act with
    | none => rfl
    | some act =>
      simp only [bind, StateT.bind, bytes_run]
      cases generateAlgSignature P env (-7) c.privateKeyHex (frameBytes env data 39 32 ++
          0x01 :: (bigEndian 4 (nextSignCount d.signCount).toNat ++ frameBytes env data 7 32)) with
      | none => rfl
      | some sig => rfl

/-! The whole command. -/

/-- What the bytes behind the header are used for. -/
theorem processU2fCommand_run (h : 4 ≤ data.length) :
    processU2fCommand P env d data [] =
      let fail (sw : Nat) : U2fResult := ⟨statusWord sw, [], d.uv, d.keys, d.signCount⟩
      if byteAt data 1 = 0x03 then
        (⟨text "U2F_V2" ++ statusWord 0x9000, [], d.uv, d.keys, d.signCount⟩, [2, 1])
      else if data.length < 7 then (fail 0x6700, [2, 1])
      else if byteAt data 1 = 0x01 then
        if reqLen data ≠ 64 then (fail 0x6700, [6, 5, 2, 1]) else register P env d data [6, 5, 2, 1]
      else if byteAt data 1 = 0x02 then
        if reqLen data < 65 then (fail 0x6700, [6, 5, 2, 1])
        else authenticate P env d (byteAt data 2) data [6, 5, 2, 1]
      else (fail 0x6D00, [6, 5, 2, 1]) := by
  have h1 : byteAt (frameBytes env data 1 1) 0 = byteAt data 1 := frameByte (by omega)
  have h2 : byteAt (frameBytes env data 2 1) 0 = byteAt data 2 := frameByte (by omega)
  unfold processU2fCommand
  rw [if_neg (by omega)]
  simp only [bind, StateT.bind, byte_run, h1, h2]
  by_cases hver : byteAt data 1 = 0x03
  · simp only [if_pos hver]
    rfl
  by_cases hshort : data.length < 7
  · simp only [if_neg hver, if_pos hshort]
    rfl
  have h5 : byteAt (frameBytes env data 5 1) 0 = byteAt data 5 := frameByte (by omega)
  have h6 : byteAt (frameBytes env data 6 1) 0 = byteAt data 6 := frameByte (by omega)
  simp only [if_neg hver, if_neg hshort, StateT.bind, bind, byte_run, h5, h6]
  by_cases hreg : byteAt data 1 = 0x01
  · simp only [if_pos hreg]
    unfold reqLen
    split
    · rfl
    · rfl
  by_cases hauth : byteAt data 1 = 0x02
  · simp only [if_neg hreg, if_pos hauth]
    unfold reqLen
    split
    · rfl
    · rfl
  · simp only [if_neg hreg, if_neg hauth]
    rfl

/-- Reading the frame byte by byte changes nothing about the command. -/
theorem processU2fCommand_value :
    (processU2fCommand P env d data []).1 = GoiKey.processU2fCommand P env d data := by
  by_cases hlen : 4 ≤ data.length
  · have hfour : ¬data.length < 4 := by omega
    rw [processU2fCommand_run hlen]
    simp only [GoiKey.processU2fCommand, if_neg hfour]
    split
    · rfl
    split
    · rfl
    split
    · unfold reqLen
      split
      · rfl
      · exact register_value _
    split
    · unfold reqLen
      split
      · rfl
      · exact authenticate_value _ _
    · rfl
  · unfold processU2fCommand GoiKey.processU2fCommand
    rw [if_pos (by omega), if_pos (by omega)]
    rfl

/-- When the declared length is no longer than what was sent. -/
def Meets (P : Platform) (env : Env) (d : Device) (data : Bytes) : Prop :=
  data.length < 7 ∨ byteAt data 1 = 0x03 ∨
    (byteAt data 1 = 0x01 ∧ (reqLen data ≠ 64 ∨ 71 ≤ data.length ∨ (Stops P env d ∧ LeavesNoTrace env d))) ∨
    (byteAt data 1 = 0x02 ∧ (reqLen data < 65 ∨ (72 ≤ data.length ∧ 72 + khLen data ≤ data.length))) ∨
    (byteAt data 1 ≠ 0x01 ∧ byteAt data 1 ≠ 0x02)

theorem header_inside (hlen : 7 ≤ data.length) (h : i ∈ [6, 5, 2, 1]) : i < data.length := by
  have hheader : ∀ i ∈ [6, 5, 2, 1], i < 7 := by decide
  exact Nat.lt_of_lt_of_le (hheader i h) hlen

theorem not_version {n : UInt8} (hins : byteAt data 1 = n) (hn : n ≠ 0x03) : ¬byteAt data 1 = 0x03 := by
  rw [hins]
  exact hn

theorem register_iff (hlen : 7 ≤ data.length) (hins : byteAt data 1 = 0x01) (hreq : reqLen data = 64) :
    StaysInside P env d data ↔ 71 ≤ data.length ∨ (Stops P env d ∧ LeavesNoTrace env d) := by
  have hver := not_version hins (by decide)
  have hrun : processU2fCommand P env d data [] = register P env d data [6, 5, 2, 1] := by
    rw [processU2fCommand_run (by omega)]
    simp only [if_neg hver, if_neg (not_lt.mpr hlen), if_pos hins, hreq, ne_eq, not_true, if_false]
  unfold StaysInside
  rw [hrun]
  constructor
  · rintro ⟨hreads, hrefused⟩
    by_cases hfits : 71 ≤ data.length
    · exact .inl hfits
    have hstops : Stops P env d := by
      by_contra hgoes
      have hlast := hreads 70 (register_reads hgoes _).1
      omega
    have houtside : ¬FieldsInside data := by
      rintro (h | ⟨-, h, -⟩)
      · exact hver h
      · exact hfits (h hins)
    obtain ⟨sw, acts, -, hend⟩ := register_stops hstops data [6, 5, 2, 1]
    have huv := (hrefused houtside).2.1
    rw [hend] at huv
    exact .inr ⟨hstops, huv⟩
  · rintro (hfits | ⟨hstops, htrace⟩)
    · have hinside : FieldsInside data := by
        refine .inr ⟨hlen, fun _ => hfits, fun h => ?_⟩
        rw [hins] at h
        exact absurd h (by decide)
      refine ⟨fun i hi => ?_, fun h => absurd hinside h⟩
      by_cases hstops : Stops P env d
      · obtain ⟨sw, acts, -, hend⟩ := register_stops hstops data [6, 5, 2, 1]
        rw [hend] at hi
        exact header_inside hlen hi
      · rcases (register_reads hstops _).2 i hi with hi | hi
        · exact header_inside hlen hi
        · omega
    · obtain ⟨sw, acts, hsw, hend⟩ := register_stops hstops data [6, 5, 2, 1]
      rw [hend]
      refine ⟨fun i hi => header_inside hlen hi, fun _ => ⟨?_, htrace, rfl, rfl⟩⟩
      rcases hsw with rfl | rfl
      · exact List.mem_cons_of_mem _ List.mem_cons_self
      · simp [errors]

theorem authenticate_iff (hlen : 7 ≤ data.length) (hins : byteAt data 1 = 0x02) (hreq : 65 ≤ reqLen data) :
    StaysInside P env d data ↔ 72 ≤ data.length ∧ 72 + khLen data ≤ data.length := by
  have hver := not_version hins (by decide)
  have hreg : ¬byteAt data 1 = 0x01 := by
    rw [hins]
    decide
  have hrun : processU2fCommand P env d data [] = authenticate P env d (byteAt data 2) data [6, 5, 2, 1] := by
    rw [processU2fCommand_run (by omega)]
    simp only [if_neg hver, if_neg (not_lt.mpr hlen), if_neg hreg, if_pos hins, if_neg (not_lt.mpr hreq)]
  obtain ⟨hlength, hhandle, hall⟩ := authenticate_reads P env d data (byteAt data 2) [6, 5, 2, 1]
  unfold StaysInside
  rw [hrun]
  constructor
  · rintro ⟨hreads, -⟩
    have h71 := hreads 71 hlength
    have hkh : (byteAt (frameBytes env data 71 1) 0).toNat = khLen data := by
      rw [frameByte h71, khLen]
    rw [hkh] at hhandle
    refine ⟨h71, ?_⟩
    by_contra hlong
    have hlast := hreads (72 + khLen data - 1) (hhandle _ (by omega) (by omega))
    omega
  · rintro ⟨h72, hfits⟩
    have hkh : (byteAt (frameBytes env data 71 1) 0).toNat = khLen data := by
      rw [frameByte (by omega), khLen]
    have hinside : FieldsInside data := .inr ⟨hlen, fun h => absurd h hreg, fun _ => ⟨h72, hfits⟩⟩
    refine ⟨fun i hi => ?_, fun h => absurd hinside h⟩
    rcases hall i hi with hi | hi
    · exact header_inside hlen hi
    · rw [hkh] at hi
      omega

/-- U2F stays inside its frame exactly when the request is as long as it says, or is
turned away before its payload is looked at. -/
theorem u2f_stays_inside_iff (P : Platform) (env : Env) (d : Device) (data : Bytes) :
    StaysInside P env d data ↔ Meets P env d data := by
  by_cases h4 : data.length < 4
  · have hrun : processU2fCommand P env d data [] = (⟨statusWord 0x6700, [], d.uv, d.keys, d.signCount⟩, []) := by
      rw [processU2fCommand, if_pos h4]
      rfl
    unfold StaysInside
    rw [hrun]
    refine iff_of_true ⟨fun i hi => absurd hi List.not_mem_nil, fun _ => ?_⟩ (.inl (by omega))
    exact ⟨List.mem_cons_self, rfl, rfl, rfl⟩
  have hfirst : ∀ i ∈ [2, 1], i < data.length := by
    intro i hi
    have hheader : ∀ i ∈ [2, 1], i < 4 := by decide
    have := hheader i hi
    omega
  by_cases hver : byteAt data 1 = 0x03
  · unfold StaysInside
    rw [processU2fCommand_run (not_lt.mp h4)]
    simp only [if_pos hver]
    exact iff_of_true ⟨hfirst, fun h => absurd (.inl hver) h⟩ (.inr (.inl hver))
  by_cases h7 : data.length < 7
  · unfold StaysInside
    rw [processU2fCommand_run (not_lt.mp h4)]
    simp only [if_neg hver, if_pos h7]
    exact iff_of_true ⟨hfirst, fun _ => ⟨List.mem_cons_self, rfl, rfl, rfl⟩⟩ (.inl h7)
  have hlen : 7 ≤ data.length := not_lt.mp h7
  -- A declared length that does not fit the instruction is turned away.
  have hturned : ∀ sw : Nat, statusWord sw ∈ errors →
      processU2fCommand P env d data [] = (⟨statusWord sw, [], d.uv, d.keys, d.signCount⟩, [6, 5, 2, 1]) →
      StaysInside P env d data := by
    intro sw hsw hrun
    unfold StaysInside
    rw [hrun]
    exact ⟨fun i hi => header_inside hlen hi, fun _ => ⟨hsw, rfl, rfl, rfl⟩⟩
  unfold Meets
  by_cases hreg : byteAt data 1 = 0x01
  · by_cases hreq : reqLen data = 64
    · rw [register_iff hlen hreg hreq]
      simp [hreg, hreq, h7]
    · refine iff_of_true (hturned 0x6700 List.mem_cons_self ?_) (.inr (.inr (.inl ⟨hreg, .inl hreq⟩)))
      rw [processU2fCommand_run (not_lt.mp h4)]
      simp only [if_neg hver, if_neg h7, if_pos hreg, ne_eq, hreq, not_false_eq_true, if_true]
  by_cases hauth : byteAt data 1 = 0x02
  · by_cases hreq : reqLen data < 65
    · refine iff_of_true (hturned 0x6700 List.mem_cons_self ?_)
        (.inr (.inr (.inr (.inl ⟨hauth, .inl hreq⟩))))
      rw [processU2fCommand_run (not_lt.mp h4)]
      simp only [if_neg hver, if_neg h7, if_neg hreg, if_pos hauth, if_pos hreq]
    · rw [authenticate_iff hlen hauth (not_lt.mp hreq)]
      simp [hauth, hreq, h7]
  · refine iff_of_true (hturned 0x6D00 (by simp [errors]) ?_) (.inr (.inr (.inr (.inr ⟨hreg, hauth⟩))))
    rw [processU2fCommand_run (not_lt.mp h4)]
    simp only [if_neg hver, if_neg h7, if_neg hreg, if_neg hauth]

/-- A registration of seven bytes that declares 64 more. -/
def headerOnly : Bytes := [0x00, 0x01, 0x00, 0x00, 0x00, 0x00, 0x40]

/-- Any touch counts on a device without templates, and the attestation identity is there. -/
theorem header_only_read_behind :
    ¬StaysInside { Bench.platform with attestation := some ⟨[], zeros 32⟩ } (Bench.touchedEnv 7 60000 80) {}
      headerOnly := by
  rintro ⟨hreads, -⟩
  have h70 : 70 ∈ (processU2fCommand { Bench.platform with attestation := some ⟨[], zeros 32⟩ }
      (Bench.touchedEnv 7 60000 80) {} headerOnly []).2 := by decide
  exact absurd (hreads 70 h70) (by decide)

end U2fReads

end GoiKey
