import GoiKey.Model.UartBridge

/-!
The rings between USB and the UART lose nothing, whatever order the interrupt,
the callbacks and the steps of the task come in.
-/

namespace GoiKey.UartBridge

open IndexRing

/-- The bytes from the UART that found room. -/
def kept (l : List (UInt8 × Bool)) : Bytes := (l.filter fun c => c.2).map fun c => c.1

/-- How many found none. -/
def dropped (l : List (UInt8 × Bool)) : Nat := (l.filter fun c => !c.2).length

/-- How many bytes the task has taken without starting their write. -/
def TaskAt.holds : TaskAt → Option Nat
  | .taken n => some n
  | .start n => some n
  | _ => none

/-- Bytes that have left the receive ring and have not reached the host. -/
def Bridge.held (s : Bridge) : Bytes :=
  match s.task.holds.or s.writing with
  | some n => (List.range n).map s.cdcTxBuf
  | none => []

def Event.usbBytes : Event → Bytes
  | .out bytes => bytes
  | _ => []

def Event.uartBytes : Event → Bytes
  | .uart (some bytes) _ => bytes
  | _ => []

/-- What the task may rely on where it stands. -/
def TaskSound (s : Bridge) : Prop :=
  match s.task with
  | .top => True
  | .count => True
  | .rearm => s.outArmed = false ∧ cdcOutMps + s.txr.used.toNat ≤ ring
  | .look n => n.toNat ≤ s.rxr.used.toNat
  | .copy n t i =>
    s.cdcTxBusy = false ∧ t = s.rxr.tail ∧ n ≤ s.rxr.used.toNat ∧ i ≤ n ∧
      (List.range i).map s.cdcTxBuf = s.rxr.contents.take i
  | .taken _ => s.cdcTxBusy = false
  | .start _ => s.cdcTxBusy = true ∧ s.writing = none

/-- What holds between any two steps; `o` is the overflow count of the start. -/
structure Sound (o : BitVec 32) (s : Bridge) : Prop where
  configured : s.cdcConfigured = true
  rxRoom : s.rxr.used.toNat ≤ ring
  txRoom : s.txr.used.toNat ≤ ring
  toUart : s.seen.fromUsb = s.seen.toUart ++ s.txr.contents
  toUsb : kept s.seen.fromUart = s.seen.toUsb ++ s.held ++ s.rxr.contents
  overflow : s.rxOverflow = o + BitVec.ofNat 32 (dropped s.seen.fromUart)
  armed : s.outArmed = s.reading
  armedRoom : s.reading = true → cdcOutMps + s.txr.used.toNat ≤ ring
  unmasked : s.txr.head ≠ s.txr.tail → s.txMasked = false
  idle : s.cdcTxBusy = false → s.writing = none
  task : TaskSound s

variable {o : BitVec 32} {s s' : Bridge}

theorem kept_append (l : List (UInt8 × Bool)) (c : UInt8) (b : Bool) :
    kept (l ++ [(c, b)]) = if b then kept l ++ [c] else kept l := by
  cases b <;> simp [kept]

theorem dropped_append (l : List (UInt8 × Bool)) (c : UInt8) (b : Bool) :
    dropped (l ++ [(c, b)]) = if b then dropped l else dropped l + 1 := by
  cases b <;> simp [dropped]

theorem lt_ring (r : IndexRing 12 32 UInt8) : r.used < BitVec.ofNat 32 ring ↔ r.used.toNat < ring :=
  BitVec.lt_def

theorem le_txrFree (h : s.txr.used.toNat ≤ ring) :
    BitVec.ofNat 32 cdcOutMps ≤ s.txrFree ↔ cdcOutMps + s.txr.used.toNat ≤ ring := by
  have hle : s.txr.used ≤ BitVec.ofNat 32 ring := BitVec.le_def.mpr h
  have hfree : s.txrFree.toNat = ring - s.txr.used.toNat := BitVec.toNat_sub_of_le hle
  have hmps : (BitVec.ofNat 32 cdcOutMps).toNat = cdcOutMps := rfl
  rw [BitVec.le_def, hfree, hmps]
  have hring : ring = 4096 := rfl
  have hsize : cdcOutMps = 64 := rfl
  omega

theorem start_sound (s : Bridge) (h : s.task = .top) : Sound s.rxOverflow (uartBridgeStart s) := by
  have hrx : (uartBridgeStart s).rxr.contents = [] := contents_empty rfl
  have htx : (uartBridgeStart s).txr.contents = [] := contents_empty rfl
  have hheld : (uartBridgeStart s).held = [] := by simp [uartBridgeStart, Bridge.held, TaskAt.holds, h]
  have hused : (uartBridgeStart s).txr.used.toNat = 0 := by simp [uartBridgeStart, IndexRing.used]
  have hrused : (uartBridgeStart s).rxr.used.toNat = 0 := by simp [uartBridgeStart, IndexRing.used]
  constructor
  case configured => rfl
  case rxRoom => exact hrused ▸ Nat.zero_le ring
  case txRoom => exact hused ▸ Nat.zero_le ring
  case toUart => exact htx.symm
  case toUsb =>
    rw [hheld, hrx]
    rfl
  case overflow => exact (BitVec.add_zero _).symm
  case armed => rfl
  case armedRoom =>
    intro _
    rw [hused]
    decide
  case unmasked => exact fun hne => absurd rfl hne
  case idle => exact fun _ => rfl
  case task => simp [TaskSound, uartBridgeStart, h]

/-! The receive loop of the interrupt. -/

theorem Sound.stored (h : Sound o s) (hroom : s.rxr.used.toNat < ring) (c : UInt8) :
    Sound o { s with
      rxr := s.rxr.put c
      seen := { s.seen with fromUart := s.seen.fromUart ++ [(c, true)] } } := by
  have hput := contents_put (r := s.rxr) (by decide) hroom c
  have hused := used_put (r := s.rxr) (by decide) hroom c
  refine { h with rxRoom := ?_, toUsb := ?_, overflow := ?_, task := ?_ }
  · rw [hused]
    exact hroom
  · rw [kept_append, if_pos rfl, h.toUsb, hput, ← List.append_assoc]
    rfl
  · rw [dropped_append, if_pos rfl]
    exact h.overflow
  · have ht := h.task
    unfold TaskSound at ht ⊢
    dsimp only
    split
    all_goals rename_i htask; simp only [htask] at ht
    · trivial
    · trivial
    · exact ht
    · rw [hused]
      omega
    · obtain ⟨hbusy, htail, hn, hi, hbuf⟩ := ht
      refine ⟨hbusy, htail, by omega, hi, ?_⟩
      rw [hput, List.take_append_of_le_length (by rw [contents_length]; omega)]
      exact hbuf
    · exact ht
    · exact ht

theorem Sound.overflowed (h : Sound o s) (c : UInt8) :
    Sound o { s with
      rxOverflow := s.rxOverflow + 1
      seen := { s.seen with fromUart := s.seen.fromUart ++ [(c, false)] } } := by
  refine { h with toUsb := ?_, overflow := ?_, task := h.task }
  · rw [kept_append, if_neg (by decide)]
    exact h.toUsb
  · rw [dropped_append, if_neg (by decide), BitVec.ofNat_add, ← BitVec.add_assoc, ← h.overflow]
    rfl

theorem Sound.receive (h : Sound o s) (bytes : Bytes) : Sound o (receive s bytes) := by
  induction bytes generalizing s with
  | nil => exact h
  | cons c rest ih =>
    rw [UartBridge.receive]
    split
    case isTrue hroom => exact ih (h.stored ((lt_ring _).mp hroom) c)
    case isFalse => exact ih (h.overflowed c)

/-! The transmit loop. It only makes room in the transmit ring. -/

theorem Sound.sent (h : Sound o s) (hne : ¬s.txr.tail = s.txr.head) :
    Sound o { s with
      txr := s.txr.advance 1
      seen := { s.seen with toUart := s.seen.toUart ++ [s.txr.cell (slot s.txr.tail)] } } := by
  have hcons := contents_cons (r := s.txr) (Ne.symm hne)
  have hpos : 1 ≤ s.txr.used.toNat := by
    rw [← contents_length, hcons]
    exact Nat.succ_le_succ (Nat.zero_le _)
  have hused := used_advance (r := s.txr) hpos
  refine { h with txRoom := ?_, toUart := ?_, armedRoom := ?_, unmasked := ?_, task := ?_ }
  · rw [hused]
    have := h.txRoom
    omega
  · rw [h.toUart, hcons, List.append_assoc]
    rfl
  · intro hr
    have := h.armedRoom hr
    rw [hused]
    omega
  · exact fun _ => h.unmasked (Ne.symm hne)
  · have ht := h.task
    unfold TaskSound at ht ⊢
    dsimp only
    split
    all_goals rename_i htask; simp only [htask] at ht
    case h_3 =>
      refine ⟨ht.1, ?_⟩
      rw [hused]
      have := ht.2
      omega
    all_goals exact ht

theorem Sound.transmit (h : Sound o s) (room : Nat) : Sound o (transmit s room) := by
  induction room generalizing s with
  | zero => exact h
  | succ room ih =>
    rw [UartBridge.transmit]
    split
    case isTrue => exact h
    case isFalse hne => exact ih (h.sent hne)

theorem Sound.maskedIfEmpty (h : Sound o s) :
    Sound o (if s.txr.tail = s.txr.head then { s with txMasked := true } else s) := by
  split
  case isTrue hempty => exact { h with unmasked := fun hne => absurd hempty.symm hne, task := h.task }
  case isFalse => exact h

theorem Sound.uartIsr (h : Sound o s) (received : Option Bytes) (room : Option Nat) :
    Sound o (uartIsr received room s) := by
  cases received with
  | none =>
    cases room with
    | none => exact h
    | some n => exact (h.transmit n).maskedIfEmpty
  | some bytes =>
    cases room with
    | none => exact h.receive bytes
    | some n => exact ((h.receive bytes).transmit n).maskedIfEmpty

/-! The endpoint callbacks. -/

theorem puts {r : IndexRing 12 32 UInt8} (bytes : Bytes) (hroom : bytes.length + r.used.toNat ≤ ring) :
    (bytes.foldl put r).contents = r.contents ++ bytes ∧
      (bytes.foldl put r).used.toNat = r.used.toNat + bytes.length := by
  induction bytes generalizing r with
  | nil => exact ⟨(List.append_nil _).symm, rfl⟩
  | cons c rest ih =>
    rw [List.length_cons] at hroom
    have hone : r.used.toNat < 2 ^ 12 := by
      have : ring = 2 ^ 12 := rfl
      omega
    have hused := used_put (by decide) hone c
    obtain ⟨hcontents, hlength⟩ := ih (r := r.put c) (by omega)
    rw [List.foldl_cons, hcontents, hlength, contents_put (by decide) hone, hused, List.length_cons]
    refine ⟨?_, by omega⟩
    rw [List.append_assoc]
    rfl

theorem cdcBulkOutCb_eq (bytes : Bytes) (hreading : s.reading = true) (harmed : s.outArmed = s.reading) :
    cdcBulkOutCb bytes s =
      let txr := bytes.foldl put s.txr
      let more := decide (BitVec.ofNat 32 cdcOutMps ≤ BitVec.ofNat 32 ring - txr.used)
      { s with
        txr := txr
        txMasked := if bytes.length ≠ 0 then false else s.txMasked
        reading := more
        outArmed := more
        seen := { s.seen with fromUsb := s.seen.fromUsb ++ bytes } } := by
  rw [hreading] at harmed
  by_cases hmore : BitVec.ofNat 32 cdcOutMps ≤ BitVec.ofNat 32 ring - (bytes.foldl put s.txr).used
  · by_cases hbytes : bytes.length ≠ 0
    · simp only [cdcBulkOutCb, Bridge.txrFree, if_pos hbytes, hmore, if_true, decide_true, harmed]
    · simp only [cdcBulkOutCb, Bridge.txrFree, if_neg hbytes, hmore, if_true, decide_true, harmed]
  · by_cases hbytes : bytes.length ≠ 0
    · simp only [cdcBulkOutCb, Bridge.txrFree, if_pos hbytes, hmore, if_false, decide_false]
    · simp only [cdcBulkOutCb, Bridge.txrFree, if_neg hbytes, hmore, if_false, decide_false]

/-- The read that has completed was started with room for all it can bring. -/
theorem Sound.cdcBulkOutCb (h : Sound o s) {bytes : Bytes} (hreading : s.reading = true)
    (hlength : bytes.length ≤ cdcOutMps) : Sound o (cdcBulkOutCb bytes s) := by
  have hroom : bytes.length + s.txr.used.toNat ≤ ring := by
    have := h.armedRoom hreading
    omega
  obtain ⟨hcontents, hused⟩ := puts bytes hroom
  have hfull : (bytes.foldl put s.txr).used.toNat ≤ ring := by
    omega
  rw [cdcBulkOutCb_eq bytes hreading h.armed]
  refine { h with txRoom := hfull, toUart := ?_, armed := rfl, armedRoom := ?_, unmasked := ?_, task := ?_ }
  · rw [h.toUart, hcontents, List.append_assoc]
  · intro hmore
    have hfree := le_txrFree (s := { s with txr := bytes.foldl put s.txr }) hfull
    rw [Bridge.txrFree] at hfree
    simp only [decide_eq_true_eq] at hmore
    exact hfree.mp hmore
  · intro hne
    dsimp only at hne ⊢
    by_cases hbytes : bytes.length ≠ 0
    · exact if_pos hbytes
    · rw [if_neg hbytes]
      rw [not_not, List.length_eq_zero_iff] at hbytes
      subst hbytes
      exact h.unmasked hne
  · have ht := h.task
    unfold TaskSound at ht ⊢
    dsimp only
    split
    all_goals rename_i htask; simp only [htask] at ht
    case h_3 =>
      -- A read is under way, so the task is not about to start one.
      have hoff := ht.1
      rw [h.armed, hreading] at hoff
      cases hoff
    all_goals exact ht

/-- While a write is under way the task is on its way back to looking at the ring. -/
theorem Sound.waiting (h : Sound o s) {n : Nat} (hwriting : s.writing = some n) :
    s.held = (List.range n).map s.cdcTxBuf ∧ Bridge.held { s with cdcTxBusy := false, writing := none } = [] ∧
      TaskSound { s with cdcTxBusy := false, writing := none } := by
  have hbusy : s.cdcTxBusy ≠ false := by
    intro hb
    have hnone := h.idle hb
    rw [hwriting] at hnone
    cases hnone
  have ht := h.task
  unfold TaskSound at ht ⊢
  unfold Bridge.held
  cases htask : s.task
  all_goals simp only [htask, hwriting, TaskAt.holds, Option.or] at ht ⊢
  case copy n t i => exact absurd ht.1 hbusy
  case taken n => exact absurd ht hbusy
  case start n => cases ht.2
  all_goals exact ⟨trivial, trivial, ht⟩

theorem Sound.cdcBulkInCb (h : Sound o s) {n : Nat} (hwriting : s.writing = some n) :
    Sound o (cdcBulkInCb n s) := by
  obtain ⟨hheld, hnone, htask⟩ := h.waiting hwriting
  have hheld' : (UartBridge.cdcBulkInCb n s).held = [] := hnone
  refine { h with toUsb := ?_, idle := fun _ => rfl, task := htask }
  rw [hheld', List.append_nil]
  have hkept := h.toUsb
  rw [hheld] at hkept
  exact hkept

/-! The steps of the task. -/

theorem Sound.moves (h : Sound o s) {at_ : TaskAt} (hheld : Bridge.held { s with task := at_ } = s.held)
    (htask : TaskSound { s with task := at_ }) : Sound o { s with task := at_ } :=
  { h with toUsb := by rw [hheld]; exact h.toUsb, task := htask }

theorem Sound.top (h : Sound o s) (htask : s.task = .top) : Sound o (uartTask s) := by
  have hnext : uartTask s = { s with task := .count } ∨
      uartTask s = { s with task := .rearm } ∧ s.outArmed = false ∧ BitVec.ofNat 32 cdcOutMps ≤ s.txrFree := by
    unfold uartTask
    simp only [htask]
    split
    case isTrue hready =>
      simp only [Bool.and_eq_true, Bool.not_eq_true', decide_eq_true_eq] at hready
      exact .inr ⟨rfl, hready.1.2, hready.2⟩
    case isFalse => exact .inl rfl
  rcases hnext with hcount | ⟨hrearm, harmed, hfree⟩
  · rw [hcount]
    apply h.moves
    · simp only [Bridge.held, htask, TaskAt.holds]
    · trivial
  · rw [hrearm]
    apply h.moves
    · simp only [Bridge.held, htask, TaskAt.holds]
    · exact ⟨harmed, (le_txrFree h.txRoom).mp hfree⟩

theorem Sound.rearm (h : Sound o s) (htask : s.task = .rearm) : Sound o (uartTask s) := by
  have ht := h.task
  simp only [TaskSound, htask] at ht
  have hheld : Bridge.held { s with outArmed := true, reading := true, task := .count } = s.held := by
    simp only [Bridge.held, htask, TaskAt.holds]
  have hnext : uartTask s = { s with outArmed := true, reading := true, task := .count } := by
    simp only [uartTask, htask, ht.1, Bool.false_eq_true, if_false]
  rw [hnext]
  refine { h with toUsb := ?_, armed := rfl, armedRoom := fun _ => ht.2, task := trivial }
  rw [hheld]
  exact h.toUsb

theorem Sound.look (h : Sound o s) {n : BitVec 32} (htask : s.task = .look n) : Sound o (uartTask s) := by
  have ht := h.task
  simp only [TaskSound, htask] at ht
  simp only [uartTask, htask]
  split
  case isTrue hfree =>
    apply h.moves
    · simp only [Bridge.held, htask, TaskAt.holds]
    · refine ⟨hfree.2, rfl, ?_, Nat.zero_le _, rfl⟩
      exact Nat.le_trans (Nat.min_le_left _ _) ht
  case isFalse =>
    apply h.moves
    · simp only [Bridge.held, htask, TaskAt.holds]
    · trivial

/-- The copy reads cells the interrupt does not write. -/
theorem Sound.copies (h : Sound o s) {n i : Nat} {t : BitVec 32} (htask : s.task = .copy n t i) (hi : i < n) :
    Sound o (uartTask s) := by
  have ht := h.task
  simp only [TaskSound, htask] at ht
  obtain ⟨hbusy, htail, hn, -, hbuf⟩ := ht
  have hnone := h.idle hbusy
  simp only [uartTask, htask, if_pos hi]
  refine { h with toUsb := ?_, task := ?_ }
  · have hkept := h.toUsb
    simp only [Bridge.held, htask, hnone, TaskAt.holds, Option.or] at hkept ⊢
    exact hkept
  · refine ⟨hbusy, htail, hn, hi, ?_⟩
    have hcell := contents_getElem? (r := s.rxr) (i := i) (by omega)
    rw [List.range_succ, List.map_append, List.take_add_one, hcell, ← hbuf, htail]
    congr 1
    · apply List.map_congr_left
      intro j hj
      exact if_neg (Nat.ne_of_lt (List.mem_range.mp hj))
    · simp

theorem Sound.publishes (h : Sound o s) {n i : Nat} {t : BitVec 32} (htask : s.task = .copy n t i) (hi : ¬i < n) :
    Sound o (uartTask s) := by
  have ht := h.task
  simp only [TaskSound, htask] at ht
  obtain ⟨hbusy, htail, hn, hle, hbuf⟩ := ht
  have hnone := h.idle hbusy
  obtain rfl : i = n := by omega
  have hadvance : ({ s.rxr with tail := t + BitVec.ofNat 32 i } : IndexRing 12 32 UInt8) = s.rxr.advance i := by
    rw [htail]
    rfl
  simp only [uartTask, htask, if_neg hi, hadvance]
  refine { h with rxRoom := ?_, toUsb := ?_, task := hbusy }
  · rw [used_advance hn]
    have := h.rxRoom
    omega
  · have hkept := h.toUsb
    simp only [Bridge.held, htask, hnone, TaskAt.holds, Option.or, List.append_nil] at hkept ⊢
    rw [hbuf, contents_advance hn, List.append_assoc, List.take_append_drop]
    exact hkept

theorem Sound.uartTask (h : Sound o s) : Sound o (uartTask s) := by
  cases htask : s.task with
  | top => exact h.top htask
  | rearm => exact h.rearm htask
  | count =>
    simp only [UartBridge.uartTask, htask]
    apply h.moves
    · simp only [Bridge.held, htask, TaskAt.holds]
    · exact Nat.le_refl _
  | look n => exact h.look htask
  | copy n t i =>
    by_cases hi : i < n
    · exact h.copies htask hi
    · exact h.publishes htask hi
  | taken n =>
    have ht := h.task
    simp only [TaskSound, htask] at ht
    have hnone := h.idle ht
    have hnext : UartBridge.uartTask s = { s with cdcTxBusy := true, task := .start n } := by
      simp only [UartBridge.uartTask, htask, if_pos h.configured]
    rw [hnext]
    refine { h with toUsb := ?_, idle := fun _ => hnone, task := ⟨rfl, hnone⟩ }
    have hkept := h.toUsb
    simp only [Bridge.held, htask, TaskAt.holds, Option.or] at hkept ⊢
    exact hkept
  | start n =>
    have ht := h.task
    simp only [TaskSound, htask] at ht
    simp only [UartBridge.uartTask, htask]
    refine { h with toUsb := ?_, idle := ?_, task := trivial }
    · have hkept := h.toUsb
      simp only [Bridge.held, htask, TaskAt.holds, Option.or] at hkept ⊢
      exact hkept
    · intro hbusy
      rw [ht.1] at hbusy
      cases hbusy

/-- What every step keeps. -/
theorem Sound.step (h : Sound o s) {e : Event} (he : step s e = some s') : Sound o s' := by
  cases e with
  | uart received room =>
    cases he
    exact h.uartIsr received room
  | out bytes =>
    simp only [UartBridge.step] at he
    split at he
    case isTrue hcan =>
      rw [Option.some.injEq] at he
      subst he
      exact h.cdcBulkOutCb hcan.1 hcan.2
    case isFalse => cases he
  | inDone =>
    obtain ⟨n, hn, rfl⟩ := Option.map_eq_some_iff.mp he
    exact h.cdcBulkInCb hn
  | task =>
    cases he
    exact h.uartTask

theorem Sound.run (h : Sound o s) {events : List Event} (hrun : run s events = some s') : Sound o s' := by
  induction events generalizing s with
  | nil =>
    cases hrun
    exact h
  | cons e events ih =>
    obtain ⟨t, ht, hrest⟩ := Option.bind_eq_some_iff.mp hrun
    exact ih (h.step ht) hrest

/-! The logs are what the events brought. -/

theorem receive_seen (bytes : Bytes) :
    (receive s bytes).seen.fromUart.map (fun c => c.1) = s.seen.fromUart.map (fun c => c.1) ++ bytes ∧
      (receive s bytes).seen.fromUsb = s.seen.fromUsb := by
  induction bytes generalizing s with
  | nil => exact ⟨(List.append_nil _).symm, rfl⟩
  | cons c rest ih =>
    rw [receive]
    split
    all_goals
      obtain ⟨huart, husb⟩ := ih
      rw [huart, husb, List.map_append, List.append_assoc]
      exact ⟨rfl, rfl⟩

theorem transmit_seen (room : Nat) :
    (transmit s room).seen.fromUart = s.seen.fromUart ∧ (transmit s room).seen.fromUsb = s.seen.fromUsb := by
  induction room generalizing s with
  | zero => exact ⟨rfl, rfl⟩
  | succ room ih =>
    rw [transmit]
    split
    case isTrue => exact ⟨rfl, rfl⟩
    case isFalse => exact ih

theorem uartTask_seen (s : Bridge) : (uartTask s).seen = s.seen := by
  unfold uartTask
  repeat' split
  all_goals rfl

theorem uartIsr_seen (received : Option Bytes) (room : Option Nat) (s : Bridge) :
    (uartIsr received room s).seen.fromUart.map (fun c => c.1) =
        s.seen.fromUart.map (fun c => c.1) ++ (Event.uart received room).uartBytes ∧
      (uartIsr received room s).seen.fromUsb = s.seen.fromUsb := by
  have hmask : ∀ t : Bridge, (if t.txr.tail = t.txr.head then { t with txMasked := true } else t).seen = t.seen := by
    intro t
    split
    all_goals rfl
  cases received with
  | none =>
    cases room with
    | none => exact ⟨(List.append_nil _).symm, rfl⟩
    | some n =>
      simp only [uartIsr, hmask]
      rw [(transmit_seen n).1, (transmit_seen n).2]
      exact ⟨(List.append_nil _).symm, rfl⟩
  | some bytes =>
    cases room with
    | none => exact receive_seen bytes
    | some n =>
      simp only [uartIsr, hmask]
      rw [(transmit_seen n).1, (transmit_seen n).2]
      exact receive_seen bytes

theorem cdcBulkOutCb_seen (bytes : Bytes) (s : Bridge) :
    (cdcBulkOutCb bytes s).seen = { s.seen with fromUsb := s.seen.fromUsb ++ bytes } := by
  unfold cdcBulkOutCb
  dsimp only
  repeat' split
  all_goals rfl

theorem step_seen {e : Event} (he : step s e = some s') :
    s'.seen.fromUart.map (fun c => c.1) = s.seen.fromUart.map (fun c => c.1) ++ e.uartBytes ∧
      s'.seen.fromUsb = s.seen.fromUsb ++ e.usbBytes := by
  cases e with
  | uart received room =>
    cases he
    obtain ⟨huart, husb⟩ := uartIsr_seen received room s
    exact ⟨huart, husb.trans (List.append_nil _).symm⟩
  | out bytes =>
    simp only [UartBridge.step] at he
    split at he
    case isTrue hcan =>
      rw [Option.some.injEq] at he
      subst he
      rw [cdcBulkOutCb_seen]
      exact ⟨(List.append_nil _).symm, rfl⟩
    case isFalse => cases he
  | inDone =>
    obtain ⟨n, hn, rfl⟩ := Option.map_eq_some_iff.mp he
    exact ⟨(List.append_nil _).symm, (List.append_nil _).symm⟩
  | task =>
    cases he
    rw [uartTask_seen]
    exact ⟨(List.append_nil _).symm, (List.append_nil _).symm⟩

theorem run_seen {events : List Event} (hrun : run s events = some s') :
    s'.seen.fromUart.map (fun c => c.1) = s.seen.fromUart.map (fun c => c.1) ++ events.flatMap Event.uartBytes ∧
      s'.seen.fromUsb = s.seen.fromUsb ++ events.flatMap Event.usbBytes := by
  induction events generalizing s with
  | nil =>
    cases hrun
    exact ⟨(List.append_nil _).symm, (List.append_nil _).symm⟩
  | cons e events ih =>
    obtain ⟨t, ht, hrest⟩ := Option.bind_eq_some_iff.mp hrun
    obtain ⟨huart, husb⟩ := ih hrest
    obtain ⟨huart₀, husb₀⟩ := step_seen ht
    rw [huart, husb, huart₀, husb₀, List.append_assoc, List.append_assoc, List.flatMap_cons, List.flatMap_cons]
    exact ⟨rfl, rfl⟩

/-- Before the host has configured the device. -/
def atRest : Bridge where
  txr := ⟨fun _ => 0, 0, 0⟩
  rxr := ⟨fun _ => 0, 0, 0⟩
  rxOverflow := 0
  outArmed := true
  usbReady := false
  cdcConfigured := false
  cdcTxBusy := false
  cdcTxBuf := fun _ => 0
  task := .top
  txMasked := true
  reading := false
  writing := none
  seen := {}

/-- A packet comes over USB, the UART takes part of it and brings an answer, and
the task hands that to the host. -/
def exchange : List Event :=
  [.out [1, 2, 3], .uart (some [7, 8]) (some 2)] ++ List.replicate 8 .task ++ [.inDone]

end GoiKey.UartBridge
