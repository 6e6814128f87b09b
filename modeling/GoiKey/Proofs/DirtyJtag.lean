import GoiKey.Model.DirtyJtag
import Mathlib.Data.List.GetD

/-!
What cmd_handle reads and answers over a whole packet: it stays in the packet and in the
response buffer exactly for packets of whole commands whose answers fit.
-/

namespace GoiKey.DirtyJtag

variable {mem : Nat → UInt8} {debug : UartDebugState} {s : Handler} {b len : UInt8}

/-- A byte at which the commands end: the stop command, and what is no command. -/
def Ends (b : UInt8) : Prop := (b &&& 0x0F).toNat = 0 ∨ 7 ≤ (b &&& 0x0F).toNat

instance (b : UInt8) : Decidable (Ends b) := inferInstanceAs (Decidable (_ ∨ _))

/-- The parameters behind a command byte, of which `len` is the first. -/
def argLen (b len : UInt8) : Nat :=
  match (b &&& 0x0F).toNat with
  | 2 => 2
  | 3 => 1 + transferredBytes b len
  | 4 => 2
  | 6 => 2
  | _ => 0

def replyLen (b len : UInt8) : Nat :=
  match (b &&& 0x0F).toNat with
  | 1 => 26
  | 3 => if b &&& 0x80 ≠ 0 then 0 else transferredBytes b len
  | 5 => 1
  | 6 => if b &&& 0x80 ≠ 0 then 1 else 0
  | _ => 0

/-- A packet of whole commands, up to its end or a byte that ends them, with the number of
bytes that answer them. -/
inductive Commands : Bytes → Nat → Prop where
  | nil : Commands [] 0
  | ends (b : UInt8) (rest : Bytes) (h : Ends b) : Commands (b :: rest) 0
  | command (b : UInt8) (args rest : Bytes) (n : Nat) (h : ¬ Ends b)
      (hargs : args.length = argLen b (args.headD 0)) (hrest : Commands rest n) :
      Commands (b :: (args ++ rest)) (replyLen b (args.headD 0) + n)

/-! One command. -/

theorem reads_two {pos n : Nat} : (∀ x ∈ [pos + 1, pos + 2], x < n) ↔ pos + 2 < n := by
  simp only [List.mem_cons, List.not_mem_nil, or_false, forall_eq_or_imp, forall_eq]
  omega

/-- The transfer reads as far as its last bit. -/
theorem reads_transfer {pos n : Nat} :
    (∀ x ∈ (pos + 1) :: (List.range (transferredBits b len)).map fun i => pos + 2 + i / 8, x < n) ↔
      pos + (1 + transferredBytes b len) < n := by
  have hbytes : transferredBytes b len = (transferredBits b len + 7) / 8 := rfl
  simp only [List.mem_cons, List.mem_map, List.mem_range, forall_eq_or_imp, forall_exists_index, and_imp,
    forall_apply_eq_imp_iff₂]
  constructor
  · rintro ⟨hfirst, hrest⟩
    by_cases hbits : transferredBits b len = 0
    · omega
    · have := hrest (transferredBits b len - 1) (by omega)
      omega
  · intro h
    refine ⟨by omega, fun i hi => ?_⟩
    omega

theorem packBits_length (n : Nat) (bits : List Bool) : (packBits n bits).length = n := by simp [packBits]

/-- Where a command goes on, what it adds to the answer and what it reads. -/
structure Takes (s s' : Handler) (args reply : Nat) : Prop where
  commands : s'.commands = s.commands + args
  output : s'.output.length = s.output.length + reply
  reads : ∃ more, s'.reads = s.reads ++ more ∧
    ∀ n, (∀ x ∈ more, x < n) ↔ (args = 0 ∨ s.commands + args < n)

theorem takes_two {s' : Handler} {reply : Nat} (hcommands : s'.commands = s.commands + 2)
    (houtput : s'.output.length = s.output.length + reply)
    (hreads : s'.reads = s.reads ++ [s.commands + 1, s.commands + 2]) : Takes s s' 2 reply :=
  ⟨hcommands, houtput, _, hreads, fun n => reads_two.trans (by omega)⟩

theorem takes_none {s' : Handler} {reply : Nat} (hcommands : s'.commands = s.commands)
    (houtput : s'.output.length = s.output.length + reply) (hreads : s'.reads = s.reads) :
    Takes s s' 0 reply :=
  ⟨hcommands, houtput, [], by rw [hreads, List.append_nil], fun n => by simp⟩

theorem command_cases (mem : Nat → UInt8) (debug : UartDebugState) (s : Handler) (b : UInt8) :
    (Ends b ∧ command mem debug s b = none) ∨
      ∃ s', ¬ Ends b ∧ command mem debug s b = some s' ∧
        Takes s s' (argLen b (mem (s.commands + 1))) (replyLen b (mem (s.commands + 1))) := by
  unfold command argLen replyLen Ends
  split
  next h =>
    refine .inr ⟨_, by omega, rfl, ?_⟩
    rw [h]
    exact takes_none rfl (by simp [cmdInfo, Handler.respond, UartDebugState.bytes, word, infoString]) rfl
  next h =>
    refine .inr ⟨_, by omega, rfl, ?_⟩
    rw [h]
    exact takes_two rfl rfl rfl
  next h =>
    refine .inr ⟨_, by omega, rfl, ?_⟩
    rw [h]
    unfold cmdXfer
    by_cases hread : b &&& 0x80 = 0
    · simp only [hread, ne_eq, not_true_eq_false, decide_false, Bool.not_false, Bool.false_eq_true, if_false]
      refine ⟨rfl, ?_, _, rfl, fun n => reads_transfer.trans ?_⟩
      · simp [Handler.skip, Handler.respond, Handler.read, packBits_length]
      · omega
    · simp only [hread, ne_eq, not_false_eq_true, decide_true, Bool.not_true, if_true]
      exact ⟨rfl, rfl, _, rfl, fun n => reads_transfer.trans (by omega)⟩
  next h =>
    refine .inr ⟨_, by omega, rfl, ?_⟩
    rw [h]
    exact takes_two rfl rfl rfl
  next h =>
    refine .inr ⟨_, by omega, rfl, ?_⟩
    rw [h]
    exact takes_none rfl (by simp [cmdGetsig, Handler.respond]) rfl
  next h =>
    refine .inr ⟨_, by omega, rfl, ?_⟩
    rw [h]
    unfold cmdClk
    by_cases hread : b &&& 0x80 = 0
    · simp only [hread, ne_eq, not_true_eq_false, if_false]
      exact takes_two rfl rfl rfl
    · simp only [hread, ne_eq, not_false_eq_true, if_true]
      exact takes_two rfl (by simp [Handler.skip, Handler.respond, Handler.read]) rfl
  next h1 h2 h3 h4 h5 h6 =>
    simp only [imp_false] at h1 h2 h3 h4 h5 h6
    exact .inl ⟨by omega, rfl⟩

/-! The packet. -/

/-- A command without parameters has none whatever the byte behind it is. -/
theorem argLen_zero {len' : UInt8} (h : argLen b len = 0) :
    argLen b len' = 0 ∧ replyLen b len = replyLen b len' := by
  unfold argLen replyLen at *
  generalize (b &&& 0x0F).toNat = k at *
  rcases k with _ | _ | _ | _ | _ | _ | _ | k <;> simp_all

theorem commands_ends {rest : Bytes} {n : Nat} (h : Ends b) : Commands (b :: rest) n ↔ n = 0 := by
  constructor
  · intro hc
    cases hc with
    | ends => rfl
    | command _ _ _ _ hno => exact absurd h hno
  · rintro rfl
    exact .ends b rest h

theorem commands_command {rest : Bytes} {n : Nat} (h : ¬ Ends b) (hlen : rest.headD len = len) :
    Commands (b :: rest) n ↔ argLen b len ≤ rest.length ∧
      ∃ m, n = replyLen b len + m ∧ Commands (rest.drop (argLen b len)) m := by
  constructor
  · intro hc
    cases hc with
    | ends _ _ hends => exact absurd hends h
    | command _ args rest m _ hargs hrest =>
      have hsame : argLen b len = args.length ∧ replyLen b (args.headD 0) = replyLen b len := by
        cases args with
        | nil => exact argLen_zero hargs.symm
        | cons a args =>
          change a = len at hlen
          rw [← hlen]
          exact ⟨hargs.symm, rfl⟩
      rw [hsame.1, List.drop_left, ← hsame.2]
      exact ⟨by simp, m, rfl, hrest⟩
  · rintro ⟨hle, m, rfl, hrest⟩
    have hsame : argLen b ((rest.take (argLen b len)).headD 0) = argLen b len ∧
        replyLen b ((rest.take (argLen b len)).headD 0) = replyLen b len := by
      cases hz : argLen b len with
      | zero => exact ⟨(argLen_zero hz).1, (argLen_zero hz).2.symm⟩
      | succ k =>
        cases rest with
        | nil =>
          rw [hz] at hle
          exact absurd hle (Nat.not_succ_le_zero k)
        | cons c rest =>
          change c = len at hlen
          change argLen b c = k + 1 ∧ replyLen b c = replyLen b len
          rw [hlen]
          exact ⟨hz, rfl⟩
    have hargs : (rest.take (argLen b len)).length = argLen b ((rest.take (argLen b len)).headD 0) := by
      rw [hsame.1]
      exact List.length_take_of_le hle
    have hall := Commands.command b _ _ m h hargs hrest
    rwa [List.take_append_drop, hsame.2] at hall

section Packet

variable {packet : Bytes} {behind : Nat → UInt8}

theorem received_drop (behind : Nat → UInt8) {i : Nat} (h : i < packet.length) :
    packet.drop i = received packet behind i :: packet.drop (i + 1) := by
  rw [received, List.getD_eq_getElem _ _ h, List.drop_eq_getElem_cons h]

theorem received_headD (packet : Bytes) (behind : Nat → UInt8) (i : Nat) : (packet.drop i).headD (received packet behind i) = received packet behind i := by
  by_cases h : i < packet.length
  · conv_lhs => rw [received_drop behind h]
    rfl
  · rw [List.drop_eq_nil_of_le (Nat.not_lt.mp h)]
    rfl

/-- Everything read so far is in the packet. -/
def Inside (packet : Bytes) (s : Handler) : Prop := ∀ x ∈ s.reads, x < packet.length

theorem inside_append {s s' : Handler} {more : List Nat} (h : s'.reads = s.reads ++ more) :
    Inside packet s' ↔ Inside packet s ∧ ∀ x ∈ more, x < packet.length := by
  simp only [Inside, h, List.forall_mem_append]

/-- The loop stays in the packet for whole commands and for nothing else, and answers
them with as many bytes as they ask for. -/
theorem commandLoop_inside (debug : UartDebugState) (packet : Bytes) (behind : Nat → UInt8) (rounds : Nat)
    (s : Handler) (h : packet.length - s.commands ≤ rounds) :
    let r := commandLoop (received packet behind) debug packet.length rounds s
    (Inside packet r ↔ Inside packet s ∧ ∃ n, Commands (packet.drop s.commands) n) ∧
      ∀ n, Commands (packet.drop s.commands) n → r.output.length = s.output.length + n := by
  induction rounds generalizing s with
  | zero =>
    have hend : packet.drop s.commands = [] := List.drop_eq_nil_of_le (by omega)
    rw [hend]
    refine ⟨⟨fun hin => ⟨hin, 0, .nil⟩, fun hin => hin.1⟩, fun n hn => ?_⟩
    cases hn
    rfl
  | succ rounds ih =>
    intro r
    have hr : r = commandLoop (received packet behind) debug packet.length (rounds + 1) s := rfl
    rw [commandLoop] at hr
    by_cases hend : packet.length ≤ s.commands
    · rw [if_pos hend] at hr
      rw [hr, List.drop_eq_nil_of_le hend]
      refine ⟨⟨fun hin => ⟨hin, 0, .nil⟩, fun hin => hin.1⟩, fun n hn => ?_⟩
      cases hn
      rfl
    rw [if_neg hend] at hr
    have hpos : s.commands < packet.length := Nat.not_le.mp hend
    set b := received packet behind s.commands with hb
    have hdrop : packet.drop s.commands = b :: packet.drop (s.commands + 1) := received_drop behind hpos
    have hlook : Inside packet (s.read [s.commands]) ↔ Inside packet s := by
      rw [show Inside packet (s.read [s.commands]) ↔ _ from inside_append rfl]
      exact and_iff_left fun x hx => by rwa [List.mem_singleton.mp hx]
    have hstops (hends : Ends b) (hrb : r = s.read [s.commands]) :
        (Inside packet r ↔ Inside packet s ∧ ∃ n, Commands (packet.drop s.commands) n) ∧
          ∀ n, Commands (packet.drop s.commands) n → r.output.length = s.output.length + n := by
      rw [hrb, hdrop, hlook]
      refine ⟨(and_iff_left ⟨0, .ends b _ hends⟩).symm, fun n hn => ?_⟩
      rw [(commands_ends hends).mp hn]
      rfl
    by_cases hzero : b = 0x00
    · refine hstops (by rw [hzero]; exact .inl rfl) ?_
      rw [hr]
      exact if_pos hzero
    simp only [if_neg hzero] at hr
    rcases command_cases (received packet behind) debug (s.read [s.commands]) b with
      ⟨hends, hnone⟩ | ⟨s', hgo, hsome, htakes⟩
    · rw [hnone] at hr
      exact hstops hends hr
    · rw [hsome] at hr
      change Takes (s.read [s.commands]) s' (argLen b (received packet behind (s.commands + 1)))
        (replyLen b (received packet behind (s.commands + 1))) at htakes
      obtain ⟨more, hmore, hreads⟩ := htakes.reads
      have hcommands : s'.commands = s.commands + argLen b (received packet behind (s.commands + 1)) :=
        htakes.commands
      have hskip : (s'.skip 1).commands = s'.commands + 1 := rfl
      obtain ⟨hinside, houtput⟩ := ih (s'.skip 1) (by omega)
      have hlater : Inside packet (s'.skip 1) ↔ Inside packet s ∧
          argLen b (received packet behind (s.commands + 1)) ≤ (packet.drop (s.commands + 1)).length := by
        rw [show Inside packet (s'.skip 1) = Inside packet s' from rfl, inside_append hmore, hlook, hreads]
        refine and_congr_right fun _ => ?_
        change _ = 0 ∨ s.commands + _ < _ ↔ _
        rw [List.length_drop]
        omega
      have hnext : packet.drop (s'.skip 1).commands = (packet.drop (s.commands + 1)).drop
          (argLen b (received packet behind (s.commands + 1))) := by
        rw [List.drop_drop, hskip, hcommands]
        congr 1
        omega
      have hcons (n) := commands_command (n := n) hgo (received_headD packet behind (s.commands + 1))
      rw [hr, hdrop, hinside, hlater, hnext]
      constructor
      · constructor
        · rintro ⟨⟨hin, hle⟩, m, hm⟩
          exact ⟨hin, _, (hcons _).mpr ⟨hle, m, rfl, hm⟩⟩
        · rintro ⟨hin, n, hn⟩
          obtain ⟨hle, m, -, hm⟩ := (hcons n).mp hn
          exact ⟨⟨hin, hle⟩, m, hm⟩
      · intro n hn
        obtain ⟨-, m, rfl, hm⟩ := (hcons n).mp hn
        rw [houtput m (by rw [hnext]; exact hm)]
        change s'.output.length + m = _
        rw [htakes.output]
        exact Nat.add_assoc _ _ _

/-- A packet is handled inside its own bytes and inside the response buffer exactly when it
is made of whole commands whose answers fit, whatever lies behind it in memory. -/
theorem cmdHandle_inside_iff (debug : UartDebugState) (packet : Bytes) (behind : Nat → UInt8) (pins : Pins) :
    ((∀ x ∈ (cmdHandle debug packet behind pins).reads, x < packet.length) ∧
        (cmdHandle debug packet behind pins).output.length ≤ bufferSize) ↔
      ∃ n, n ≤ bufferSize ∧ Commands packet n := by
  obtain ⟨hinside, houtput⟩ := commandLoop_inside debug packet behind packet.length { pins } (Nat.sub_le _ _)
  change Inside packet (cmdHandle debug packet behind pins) ∧ _ ↔ _
  unfold cmdHandle
  rw [hinside]
  constructor
  · rintro ⟨⟨-, n, hn⟩, hsize⟩
    rw [houtput n hn] at hsize
    exact ⟨n, by simpa using hsize, hn⟩
  · rintro ⟨n, hsize, hn⟩
    refine ⟨⟨fun x hx => (List.not_mem_nil hx).elim, n, hn⟩, ?_⟩
    rw [houtput n hn]
    simpa using hsize

end Packet

/-- A command moves on by a byte at least, so no packet takes more rounds than it has bytes. -/
theorem commandLoop_enough {count rounds : Nat} (h : count - s.commands ≤ rounds) :
    commandLoop mem debug count (rounds + 1) s = commandLoop mem debug count rounds s := by
  induction rounds generalizing s with
  | zero => exact if_pos (show count ≤ s.commands by omega)
  | succ rounds ih =>
    rw [commandLoop, commandLoop]
    split
    · rfl
    next hpos =>
      simp only
      split
      · rfl
      rcases command_cases mem debug (s.read [s.commands]) (mem s.commands) with
        ⟨-, hnone⟩ | ⟨s', -, hsome, htakes⟩
      · rw [hnone]
      · rw [hsome]
        refine ih ?_
        have hmoved := htakes.commands
        change count - (s'.commands + 1) ≤ rounds
        change s'.commands = s.commands + _ at hmoved
        omega

section Examples

def zeroDebug : UartDebugState := ⟨0, 0, 0, 0, (0, 0), 0⟩

def quietPins : Pins := { tdo := fun _ => false }

/-- A frequency command without its two bytes, and three requests for information. -/
theorem cmdHandle_outside :
    ¬ (∀ x ∈ (cmdHandle zeroDebug [0x02] (fun _ => 0) quietPins).reads, x < 1) ∧
      ¬ (cmdHandle zeroDebug [0x01, 0x01, 0x01] (fun _ => 0) quietPins).output.length ≤ bufferSize := by
  decide +kernel

end Examples

end GoiKey.DirtyJtag
