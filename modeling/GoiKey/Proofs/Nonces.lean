import GoiKey.Model.Nonces
import GoiKey.Proofs.RoundTrips

/-! No two nonces of a run share their counters, as long as the store does what it is asked. -/

namespace GoiKey.Nonces

variable {past : List Entry} {s : State} {i : Event} {b b' c c' : UInt32}

/-- The two counters at the front of a nonce. -/
def counters (b c : UInt32) : Bytes := bigEndian 4 b.toNat ++ bigEndian 4 c.toNat

/-- The counters a step gave out. -/
def used (e : Entry) : Option Bytes := e.output.map fun nonce => nonce.take 8

def FreshPrefix (past : List Entry) (e : Entry) : Prop :=
  ∀ p ∈ used e, ∀ e' ∈ past, used e' ≠ some p

/-- A store that opens gives the counter back, and takes and commits the next one. -/
def Persisted (_ : List Entry) (s : State) : Event → Prop
  | .boot nvs => nvs.opens = true → (s.bootCnt = none ∨ nvs.reads = true) ∧ nvs.sets = true ∧ nvs.commits = true
  | .encrypt _ => True

instance (past : List Entry) (s : State) (i : Event) : Decidable (Persisted past s i) :=
  match i with
  | .boot nvs => inferInstanceAs (Decidable (nvs.opens = true →
      (s.bootCnt = none ∨ nvs.reads = true) ∧ nvs.sets = true ∧ nvs.commits = true))
  | .encrypt _ => .isTrue trivial

def boots (past : List Entry) : Nat := past.countP fun e => e.input.isBoot

def encryptions (past : List Entry) : Nat := past.countP fun e => !e.input.isBoot

/-! The counters as bytes. -/

theorem bigEndian_inj (h : bigEndian 4 b.toNat = bigEndian 4 b'.toNat) : b = b' := by
  have hvalue := congrArg fromBigEndian h
  have hb := b.toNat_lt
  have hb' := b'.toNat_lt
  rw [fromBigEndian_bigEndian (by omega), fromBigEndian_bigEndian (by omega)] at hvalue
  exact UInt32.toNat_inj.mp hvalue

theorem counters_inj (h : counters b c = counters b' c') : b = b' ∧ c = c' := by
  obtain ⟨hb, hc⟩ := List.append_inj h (by rw [bigEndian_length, bigEndian_length])
  exact ⟨bigEndian_inj hb, bigEndian_inj hc⟩

theorem take_nonce (b c pad : UInt32) :
    (bigEndian 4 b.toNat ++ (bigEndian 4 c.toNat ++ bigEndian 4 pad.toNat)).take 8 = counters b c := by
  rw [← List.append_assoc]
  exact List.take_left' (by simp)

/-- Only an encryption after a set-up gives counters out, those of its session. -/
theorem used_step {p : Bytes} (h : p ∈ used (Trace.entry step s i)) :
    ∃ pad, i = .encrypt pad ∧ s.initialized = true ∧
      p = counters s.bootCounter (s.sessionCounter + 1) := by
  cases i with
  | boot nvs => cases h
  | encrypt pad =>
    cases hinit : s.initialized with
    | false => simp [used, Trace.entry, step, generateAesGcmNonce, hinit] at h
    | true =>
      refine ⟨pad, rfl, rfl, ?_⟩
      simp only [used, Trace.entry, step, generateAesGcmNonce, hinit, if_true, Option.map_some,
        take_nonce] at h
      exact (Option.some.inj h).symm

/-! The invariant. -/

/-- Counters that were given out belong to an earlier boot or came earlier in this one, and no
counter has come further than the steps that raise it. -/
structure Numbered (past : List Entry) (s : State) : Prop where
  boots_le : (s.bootCnt.getD 0).toNat ≤ boots past
  session_le : s.sessionCounter.toNat ≤ encryptions past
  stored : s.initialized = true → s.bootCnt = some s.bootCounter
  used_before : ∀ e ∈ past, ∀ p ∈ used e, ∃ b c : UInt32, p = counters b c ∧
    (b.toNat < (s.bootCnt.getD 0).toNat ∨
      (b = s.bootCnt.getD 0 ∧ (s.initialized = true → c.toNat ≤ s.sessionCounter.toNat)))

theorem numbered_initial : Numbered [] initial where
  boots_le := Nat.le_refl 0
  session_le := Nat.le_refl 0
  stored := (fun h => nomatch h)
  used_before := fun _ h => absurd h List.not_mem_nil

/-- What there is room for: one more boot, and one more encryption. -/
structure Room (past : List Entry) (i : Event) : Prop where
  boot : i.isBoot = true → boots past + 1 < 2 ^ 32
  encrypt : i.isBoot = false → encryptions past + 1 < 2 ^ 32

theorem succ_toNat {v : UInt32} {n : Nat} (hv : v.toNat ≤ n) (hn : n + 1 < 2 ^ 32) :
    (v + 1).toNat = v.toNat + 1 := by
  rw [UInt32.toNat_add]
  exact Nat.mod_eq_of_lt (by simp; omega)

theorem numbered_boot {nvs : Nvs} (h : Numbered past s) (hp : Persisted past s (.boot nvs))
    (hr : Room past (.boot nvs)) : Numbered (Trace.entry step s (.boot nvs) :: past) (boot nvs s) := by
  have hboots : boots (Trace.entry step s (.boot nvs) :: past) = boots past + 1 :=
    List.countP_cons_of_pos rfl
  have hold : ∀ e ∈ Trace.entry step s (.boot nvs) :: past, ∀ p ∈ used e, e ∈ past := by
    intro e he p hp
    rcases List.mem_cons.mp he with rfl | he
    · cases hp
    · exact he
  unfold boot initAesNonceSubsystem
  cases hopens : nvs.opens with
  | false =>
    refine ⟨?_, Nat.zero_le _, (fun h => nomatch h), fun e he p hp => ?_⟩
    · have := h.boots_le
      rw [hboots]
      exact this.trans (Nat.le_succ _)
    · obtain ⟨b, c, hbc, hlt | ⟨heq, -⟩⟩ := h.used_before e (hold e he p hp) p hp
      · exact ⟨b, c, hbc, .inl hlt⟩
      · exact ⟨b, c, hbc, .inr ⟨heq, (fun h => nomatch h)⟩⟩
  | true =>
    obtain ⟨hreads, hsets, hcommits⟩ := hp hopens
    have hread : (if nvs.reads then s.bootCnt.getD 0 else 0) = s.bootCnt.getD 0 := by
      rcases hreads with hnone | hreads
      · simp [hnone]
      · simp [hreads]
    have hsucc := succ_toNat h.boots_le (hr.boot rfl)
    simp only [if_true, hread, Nvs.stored, hsets, hcommits, Bool.true_or, Bool.and_true]
    refine ⟨?_, Nat.zero_le _, fun _ => rfl, fun e he p hp => ?_⟩
    · have := h.boots_le
      rw [hboots, Option.getD_some, hsucc]
      omega
    · obtain ⟨b, c, hbc, hlt | ⟨rfl, -⟩⟩ := h.used_before e (hold e he p hp) p hp
      · exact ⟨b, c, hbc, .inl (by rw [Option.getD_some, hsucc]; omega)⟩
      · exact ⟨_, c, hbc, .inl (by rw [Option.getD_some, hsucc]; omega)⟩

theorem numbered_encrypt {pad : UInt32} (h : Numbered past s) (hr : Room past (.encrypt pad)) :
    Numbered (Trace.entry step s (.encrypt pad) :: past) (step s (.encrypt pad)).2 := by
  have hencryptions : encryptions (Trace.entry step s (.encrypt pad) :: past) = encryptions past + 1 :=
    List.countP_cons_of_pos rfl
  have hboots : boots (Trace.entry step s (.encrypt pad) :: past) = boots past :=
    List.countP_cons_of_neg (by simp [Trace.entry, Event.isBoot])
  have hsucc := succ_toNat h.session_le (hr.encrypt rfl)
  cases hinit : s.initialized with
  | false =>
    have hsame : (step s (.encrypt pad)).2 = s := by simp [step, generateAesGcmNonce, hinit]
    rw [hsame]
    refine ⟨by rw [hboots]; exact h.boots_le, by rw [hencryptions]; have := h.session_le; omega,
      h.stored, fun e he p hp => ?_⟩
    rcases List.mem_cons.mp he with rfl | he
    · obtain ⟨_, _, hon, _⟩ := used_step hp
      rw [hinit] at hon
      cases hon
    · exact h.used_before e he p hp
  | true =>
    have hstored := h.stored hinit
    have hnext : (step s (.encrypt pad)).2 = { s with sessionCounter := s.sessionCounter + 1 } := by
      simp [step, generateAesGcmNonce, hinit]
    rw [hnext]
    refine ⟨by rw [hboots]; exact h.boots_le, ?_, h.stored, fun e he p hp => ?_⟩
    · have := h.session_le
      rw [hencryptions]
      change (s.sessionCounter + 1).toNat ≤ _
      omega
    · rcases List.mem_cons.mp he with rfl | he
      · obtain ⟨_, _, _, rfl⟩ := used_step hp
        refine ⟨_, _, rfl, .inr ⟨?_, fun _ => Nat.le_refl _⟩⟩
        change s.bootCounter = s.bootCnt.getD 0
        rw [hstored, Option.getD_some]
      · obtain ⟨b, c, hbc, hlt | ⟨heq, hle⟩⟩ := h.used_before e he p hp
        · exact ⟨b, c, hbc, .inl hlt⟩
        · refine ⟨b, c, hbc, .inr ⟨heq, fun _ => ?_⟩⟩
          have := hle hinit
          change c.toNat ≤ (s.sessionCounter + 1).toNat
          omega

/-- A nonce whose counters are new. -/
theorem freshPrefix_step (h : Numbered past s) (hr : Room past i) :
    FreshPrefix past (Trace.entry step s i) := by
  intro p hp e he hused
  obtain ⟨pad, rfl, hinit, rfl⟩ := used_step hp
  have hsucc := succ_toNat h.session_le (hr.encrypt rfl)
  obtain ⟨b, c, hbc, hbefore⟩ := h.used_before e he _ hused
  obtain ⟨rfl, rfl⟩ := counters_inj hbc
  rw [h.stored hinit, Option.getD_some] at hbefore
  rcases hbefore with hlt | ⟨-, hle⟩
  · omega
  · have := hle hinit
    omega

/-! Whole runs. -/

/-- Fewer steps of a kind in the whole run leave room at each of them. -/
theorem guardedFrom_room {is : List Event} (hg : Trace.GuardedFrom step Persisted past s is)
    (hb : boots past + is.countP Event.isBoot < 2 ^ 32)
    (he : encryptions past + is.countP (fun i => !i.isBoot) < 2 ^ 32) :
    Trace.GuardedFrom step (fun past s i => Persisted past s i ∧ Room past i) past s is := by
  induction is generalizing past s with
  | nil => trivial
  | cons i is ih =>
    rw [List.countP_cons] at hb he
    refine ⟨⟨hg.1, ⟨fun hi => ?_, fun hi => ?_⟩⟩, ih hg.2 ?_ ?_⟩
    · rw [hi] at hb
      simp only [if_true] at hb
      omega
    · rw [hi] at he
      simp only [Bool.not_false, if_true] at he
      omega
    · rw [boots, List.countP_cons]
      change boots past + (if i.isBoot = true then 1 else 0) + is.countP Event.isBoot < 2 ^ 32
      omega
    · rw [encryptions, List.countP_cons]
      change encryptions past + (if (!i.isBoot) = true then 1 else 0) + is.countP (fun i => !i.isBoot) <
        2 ^ 32
      omega

/-- Over boots and encryptions no two nonces have the same counters, when every boot that opens
the store reads, sets and commits its counter. -/
theorem nonces_unique (inputs : List Event) (hb : inputs.countP Event.isBoot < 2 ^ 32)
    (he : inputs.countP (fun i => !i.isBoot) < 2 ^ 32)
    (hg : Trace.Guarded step Persisted initial inputs) :
    Trace.Always FreshPrefix (Trace.history step initial inputs) := by
  refine Trace.always (I := Numbered) (C := fun past s i => Persisted past s i ∧ Room past i)
    (fun past s i h hc => ?_) (fun _ _ _ h hc => freshPrefix_step h hc.2) numbered_initial
    (guardedFrom_room hg (by simpa [boots] using hb) (by simpa [encryptions] using he))
  cases i with
  | boot nvs => exact numbered_boot h hc.1 hc.2
  | encrypt pad => exact numbered_encrypt h hc.2

/-- Two boots with three nonces, and one without the store. -/
theorem nonces_unique_twoBoots : Trace.Always FreshPrefix (Trace.history step initial
    [.boot {}, .encrypt 7, .encrypt 7, .boot { opens := false }, .encrypt 7, .boot {}, .encrypt 7]) :=
  nonces_unique _ (by decide) (by decide) (by decide)

/-- A commit that fails goes unnoticed, and the next boot counts the same. -/
theorem lostCommit_repeats : ¬ Trace.Always FreshPrefix (Trace.history step initial
    [.boot { commits := false }, .encrypt 7, .boot {}, .encrypt 7]) := by
  intro h
  exact h.1 (counters 1 1) (by decide) _ (List.mem_cons_of_mem _ List.mem_cons_self) (by decide)

end GoiKey.Nonces
