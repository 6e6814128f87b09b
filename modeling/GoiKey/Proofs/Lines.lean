import GoiKey.Model.CliBench
import GoiKey.Model.Line
import GoiKey.Proofs.RoundTrips

/-!
Who the commands of a line session come from. Under the cipher a text is executed
only if one of the two ends encrypted it with the key of the session; neither its
number nor its order is looked at.
-/

namespace GoiKey

variable {P : Platform} {Q : LineJson} {J : ArchiveJson} {hmacSha1 : Bytes → Bytes → Bytes}
variable {L : LineEnv} {s : LineState} {i : LineInput}

abbrev LineEntry := Trace.Entry LineState LineInput LineOutput

/-- What either end had encrypted when a line came in. -/
def sealedBefore (past : List LineEntry) (i : LineInput) : List Sealing :=
  i.hostSealed ++ past.flatMap fun e => e.input.hostSealed ++ e.output.sealed

/-- An ideal cipher: what opens under the key was made with it. -/
def Made (P : Platform) (sealed : List Sealing) (key : Bytes) (parts : Bytes × Bytes × Bytes) : Prop :=
  P.gcmDecrypt key parts.1 parts.2.1 parts.2.2 = none ∨
    ∃ r ∈ sealed, r.key = key ∧ r.iv = parts.1 ∧ P.gcmEncrypt key r.iv r.plain = some parts.2

instance (P : Platform) (sealed : List Sealing) (key : Bytes) (parts : Bytes × Bytes × Bytes) :
    Decidable (Made P sealed key parts) :=
  inferInstanceAs (Decidable (_ ∨ _))

/-- The parts a line hands to the cipher. -/
def LineEvent.parts : LineEvent → Option (Bytes × Bytes × Bytes)
  | .finger => none
  | .line rawInput => carried (trim rawInput)

/-- Whoever writes the lines does not know the key in force. -/
def Authentic (P : Platform) (past : List LineEntry) (s : LineState) (i : LineInput) : Prop :=
  ∀ parts ∈ i.event.parts, Made P (sealedBefore past i) s.aesKey parts

instance (P : Platform) (past : List LineEntry) (s : LineState) (i : LineInput) :
    Decidable (Authentic P past s i) :=
  inferInstanceAs (Decidable (∀ parts ∈ i.event.parts, _))

/-- A step the session does not outlive. -/
def Closes (e : LineEntry) : Prop :=
  e.output.acked = true ∨ e.output.executed = some (.serial .disconnect) ∨ e.output.restarted = true

/-- While the session lasts, a command is read off what was encrypted under its key. -/
def FromSession (Q : LineJson) (key : Bytes) (past : List LineEntry) (e : LineEntry) : Prop :=
  (∀ p ∈ past, ¬Closes p) → ∀ c, e.output.executed = some c →
    ∃ r ∈ sealedBefore past e.input, r.key = key ∧
      ∃ req, Q.parse (cstr r.plain) = some req ∧ c = commandOf req

/-! What one line does to the cipher, and where its command comes from. -/

theorem runCommand_keeps {input : Str}
    (hd : (runCommand P Q J hmacSha1 L s input).1.executed ≠ some (.serial .disconnect))
    (hr : (runCommand P Q J hmacSha1 L s input).1.restarted = false) :
    (runCommand P Q J hmacSha1 L s input).2.encryptionActive = s.encryptionActive ∧
      (runCommand P Q J hmacSha1 L s input).2.aesKey = s.aesKey := by
  unfold runCommand at hd hr ⊢
  cases hp : Q.parse input with
  | none => exact ⟨rfl, rfl⟩
  | some req =>
    simp only [hp] at hd hr ⊢
    have hc : (commandOf req).disconnects = false := by
      simpa [CliCommand.disconnects] using fun he => hd (congrArg some he)
    rw [hr, hc]
    exact ⟨by simp, if_neg Bool.false_ne_true⟩

theorem runCommand_acked {input : Str} : (runCommand P Q J hmacSha1 L s input).1.acked = false := by
  unfold runCommand
  cases Q.parse input <;> rfl

theorem runCommand_executed {input : Str} {c : CliCommand}
    (h : (runCommand P Q J hmacSha1 L s input).1.executed = some c) :
    ∃ req, Q.parse input = some req ∧ c = commandOf req := by
  unfold runCommand at h
  cases hp : Q.parse input with
  | none =>
    rw [hp] at h
    cases h
  | some req =>
    rw [hp] at h
    cases h
    exact ⟨req, rfl, rfl⟩

theorem runHandshake_keeps {clientPubHex : Str}
    (h : (runHandshake P J hmacSha1 L s clientPubHex).1.acked = false) :
    (runHandshake P J hmacSha1 L s clientPubHex).2.encryptionActive = s.encryptionActive ∧
      (runHandshake P J hmacSha1 L s clientPubHex).2.aesKey = s.aesKey := by
  unfold runHandshake at h ⊢
  cases hp : processHandshake P L clientPubHex with
  | error e => exact ⟨rfl, rfl⟩
  | ok pair =>
    rw [hp] at h
    cases h

theorem runHandshake_executed {clientPubHex : Str} :
    (runHandshake P J hmacSha1 L s clientPubHex).1.executed = none := by
  unfold runHandshake
  cases processHandshake P L clientPubHex <;> rfl

/-- A handshake that is answered turns the cipher on. -/
theorem runHandshake_active {clientPubHex : Str}
    (h : (runHandshake P J hmacSha1 L s clientPubHex).1.acked = true) :
    (runHandshake P J hmacSha1 L s clientPubHex).2.encryptionActive = true := by
  unfold runHandshake at h ⊢
  cases hp : processHandshake P L clientPubHex with
  | error e =>
    rw [hp] at h
    cases h
  | ok pair => rfl

theorem decryptMsg_opens {env : Env} {key : Bytes} {payload : Str} (h : decryptMsg P env key payload ≠ []) :
    ∃ parts plain, carried payload = some parts ∧
      P.gcmDecrypt key parts.1 parts.2.1 parts.2.2 = some plain ∧ decryptMsg P env key payload = cstr plain := by
  unfold decryptMsg at h ⊢
  cases hc : carried payload with
  | none =>
    rw [hc] at h
    exact absurd rfl h
  | some parts =>
    obtain ⟨iv, cipher, tag⟩ := parts
    simp only [hc] at h ⊢
    split at h
    · exact absurd rfl h
    next hroom =>
      rw [if_neg hroom]
      cases hg : P.gcmDecrypt key iv cipher tag with
      | none =>
        rw [hg] at h
        exact absurd rfl h
      | some plain => exact ⟨(iv, cipher, tag), plain, rfl, hg, rfl⟩

/-- What a line can do: a handshake, nothing, or the command of a text that opened or
came while the cipher was off. -/
theorem processLine_cases (P : Platform) (Q : LineJson) (J : ArchiveJson)
    (hmacSha1 : Bytes → Bytes → Bytes) (L : LineEnv) (s : LineState) (rawInput : Str) :
    (∃ clientPubHex, processLine P Q J hmacSha1 L s rawInput = runHandshake P J hmacSha1 L s clientPubHex) ∨
    processLine P Q J hmacSha1 L s rawInput = ({}, s) ∨
    ∃ input, processLine P Q J hmacSha1 L s rawInput = runCommand P Q J hmacSha1 L s input ∧
      (s.encryptionActive = false ∨ ∃ parts plain, carried (trim rawInput) = some parts ∧
        P.gcmDecrypt s.aesKey parts.1 parts.2.1 parts.2.2 = some plain ∧ input = cstr plain) := by
  unfold processLine
  simp only
  split
  · exact .inl ⟨_, rfl⟩
  split
  · split
    · exact .inr (.inl rfl)
    next hinput => exact .inr (.inr ⟨_, rfl, .inr (decryptMsg_opens hinput)⟩)
  split
  · exact .inr (.inl rfl)
  next hoff => exact .inr (.inr ⟨_, rfl, .inl (by simpa using hoff)⟩)

theorem lineStep_active (h : (lineStep P Q J hmacSha1 s i).1.acked = true) :
    (lineStep P Q J hmacSha1 s i).2.encryptionActive = true := by
  unfold lineStep at h ⊢
  cases hi : i.event with
  | finger =>
    rw [hi] at h
    cases h
  | line rawInput =>
    simp only [hi] at h ⊢
    rcases processLine_cases P Q J hmacSha1 i.surroundings s rawInput with
      ⟨clientPubHex, he⟩ | he | ⟨input, he, -⟩ <;> rw [he] at h ⊢
    · exact runHandshake_active h
    · cases h
    · rw [runCommand_acked] at h
      cases h

/-- A step that does not close the session leaves the cipher as it is. -/
theorem lineStep_keeps (h : ¬Closes (Trace.entry (lineStep P Q J hmacSha1) s i)) :
    (lineStep P Q J hmacSha1 s i).2.encryptionActive = s.encryptionActive ∧
      (lineStep P Q J hmacSha1 s i).2.aesKey = s.aesKey := by
  simp only [Closes, Trace.entry, not_or, Bool.not_eq_true] at h
  obtain ⟨hack, hdis, hres⟩ := h
  unfold lineStep at hack hdis hres ⊢
  cases hi : i.event with
  | finger => exact ⟨rfl, rfl⟩
  | line rawInput =>
    simp only [hi] at hack hdis hres ⊢
    rcases processLine_cases P Q J hmacSha1 i.surroundings s rawInput with
      ⟨clientPubHex, he⟩ | he | ⟨input, he, -⟩ <;> rw [he] at hack hdis hres ⊢
    · exact runHandshake_keeps hack
    · exact ⟨rfl, rfl⟩
    · exact runCommand_keeps hdis hres

/-- Under the cipher only a line that opens is executed. -/
theorem lineStep_executed {c : CliCommand} (ha : s.encryptionActive = true)
    (h : (lineStep P Q J hmacSha1 s i).1.executed = some c) :
    ∃ parts plain req, i.event.parts = some parts ∧
      P.gcmDecrypt s.aesKey parts.1 parts.2.1 parts.2.2 = some plain ∧
      Q.parse (cstr plain) = some req ∧ c = commandOf req := by
  unfold lineStep at h
  cases hi : i.event with
  | finger =>
    rw [hi] at h
    cases h
  | line rawInput =>
    simp only [hi] at h
    rcases processLine_cases P Q J hmacSha1 i.surroundings s rawInput with
      ⟨clientPubHex, he⟩ | he | ⟨input, he, hoff | ⟨parts, plain, hparts, hopen, rfl⟩⟩ <;> rw [he] at h
    · rw [runHandshake_executed] at h
      cases h
    · cases h
    · rw [ha] at hoff
      cases hoff
    · obtain ⟨req, hparse, hc⟩ := runCommand_executed h
      exact ⟨parts, plain, req, hparts, hopen, hparse, hc⟩

/-! Sessions. -/

/-- After a handshake that was answered, until the next one, a DISCONNECT or a restart,
every command executed is read off a text that the host or the device encrypted under
the key of that handshake. -/
theorem session_commands_sealed (P : Platform) (Q : LineJson) (J : ArchiveJson)
    (hmacSha1 : Bytes → Bytes → Bytes) (hP : StorageSound P) (s : LineState) (i : LineInput)
    (hack : (lineStep P Q J hmacSha1 s i).1.acked = true) (is : List LineInput)
    (hauth : Trace.Guarded (lineStep P Q J hmacSha1) (Authentic P) (lineStep P Q J hmacSha1 s i).2 is) :
    Trace.Always (FromSession Q (lineStep P Q J hmacSha1 s i).2.aesKey)
      (Trace.history (lineStep P Q J hmacSha1) (lineStep P Q J hmacSha1 s i).2 is) := by
  set start := (lineStep P Q J hmacSha1 s i).2 with hstart
  -- the cipher is on with the key of the handshake while nothing has closed the session
  let I : List LineEntry → LineState → Prop := fun past t =>
    (∀ p ∈ past, ¬Closes p) → t.encryptionActive = true ∧ t.aesKey = start.aesKey
  have hbase : I [] start := fun _ => ⟨hstart ▸ lineStep_active hack, rfl⟩
  have hstep : ∀ past t j, I past t → Authentic P past t j →
      I (Trace.entry (lineStep P Q J hmacSha1) t j :: past) (lineStep P Q J hmacSha1 t j).2 := by
    intro past t j ht _ hopen
    obtain ⟨hkeepA, hkeepK⟩ := lineStep_keeps (hopen _ List.mem_cons_self)
    obtain ⟨hA, hK⟩ := ht fun p hp => hopen p (List.mem_cons_of_mem _ hp)
    exact ⟨hkeepA.trans hA, hkeepK.trans hK⟩
  refine Trace.always hstep ?_ hbase hauth
  intro past t j ht ha hopen c hc
  obtain ⟨hA, hK⟩ := ht hopen
  obtain ⟨parts, plain, req, hparts, hplain, hparse, hcmd⟩ := lineStep_executed hA hc
  rcases ha parts hparts with hno | ⟨r, hr, hkey, hiv, henc⟩
  · rw [hno] at hplain
    cases hplain
  · have hsame : P.gcmDecrypt t.aesKey parts.1 parts.2.1 parts.2.2 = some r.plain := by
      rw [← hiv]
      exact hP.gcm _ _ _ _ _ henc
    rw [hplain] at hsame
    cases hsame
    exact ⟨r, hr, hkey.trans hK, req, hparse, hcmd⟩

/-! A session on the bench. -/

namespace Bench

def quoted (s : Str) : Str := 0x22 :: (s ++ [0x22])

def objectText (members : List Str) : Str :=
  0x7B :: (((members.intersperse [0x2C]).flatten) ++ [0x7D])

def memberText (m : String × Str) : Str := quoted (text m.1) ++ 0x3A :: quoted m.2

def messageText : Message → Str
  | .event module event data => objectText ([("type", text "event"), ("module", text module),
      ("event", text event)].map memberText ++ if data = [] then [] else
      [quoted (text "data") ++ 0x3A :: objectText (data.map memberText)])
  | .error module code message => objectText (([("type", text "error"), ("module", text module),
      ("error_code", text code)] ++ if message = [] then [] else [("message", message)]).map memberText)

/-- A string up to the quote that ends it. -/
def readQuoted : Str → Option (Str × Str)
  | 0x22 :: b => Fields.cut 0x22 b
  | _ => none

/-- The members of an object whose values are all strings. -/
def readMembers : Nat → Str → Option Request
  | 0, _ => none
  | fuel + 1, b => do
    let (key, b) ← readQuoted b
    let (value, b) ← readQuoted (b.drop 1)
    if b.head? = some 0x2C then return (key, .string value) :: (← readMembers fuel b.tail)
    else if b.head? = some 0x7D then return [(key, .string value)]
    else none

/-- Requests of strings, and replies that are messages. -/
def lineJson : LineJson where
  parse b := if b.head? = some 0x7B then readMembers b.length b.tail else none
  render
    | .messages ms => ms.map messageText
    | _ => []

def lineEnv : LineEnv where
  cli := cliEnv (idleEnv 1 60000) 1
  curveLoads := true
  keypair := some (scalar [7], point (scalar [7]))
  nonces n := UInt8.ofNat n :: zeros 11

/-- The line of a text that was encrypted. -/
def encLine (r : Sealing) : LineEvent :=
  .line (text "ENC:" ++ toHex r.iv ++ 0x3A :: (toHex r.plain ++ toHex (tag r.key r.iv r.plain)))

def line : LineState → LineInput → LineOutput × LineState :=
  lineStep platform lineJson archiveJson Bench.hmacSha1

def greeting : LineInput := ⟨.line (text "DH_INIT:" ++ toHex (0x04 :: zeros 64)), lineEnv, []⟩

def greeted : LineState :=
  (lineStep platform lineJson archiveJson Bench.hmacSha1 { cli := { dev := enrolled } } greeting).2

def badPin : Sealing :=
  ⟨greeted.aesKey, List.replicate 12 9, objectText ([("cmd", text "VERIFY_PIN"), ("pin", text "0000")].map memberText)⟩

/-- What the device answers a wrong PIN with, encrypted. -/
def answer : Sealing :=
  ⟨greeted.aesKey, 0 :: zeros 11, messageText (.error "SECURITY" "BAD_PIN_ATTEMPT" (text "1/10 attempts used.")) ++
    [0x0D, 0x0A]⟩

/-- One wrong PIN from the host, its line once more, and the device's own answer. -/
def replayed : List LineInput :=
  [⟨encLine badPin, lineEnv, [badPin]⟩, ⟨encLine badPin, lineEnv, []⟩, ⟨encLine answer, lineEnv, []⟩]

end Bench

open Bench

theorem session_commands_sealed_replayed :
    Trace.Always (FromSession lineJson greeted.aesKey)
      (Trace.history (lineStep platform lineJson archiveJson Bench.hmacSha1) greeted replayed) := by
  have hack : (lineStep platform lineJson archiveJson Bench.hmacSha1 { cli := { dev := enrolled } }
      greeting).1.acked = true := by decide +kernel
  have hauth : Trace.Guarded (lineStep platform lineJson archiveJson Bench.hmacSha1) (Authentic platform)
      greeted replayed := by decide +kernel
  rw [greeted] at hauth ⊢
  exact session_commands_sealed platform lineJson archiveJson Bench.hmacSha1 storageSound_bench
    { cli := { dev := enrolled } } greeting hack replayed hauth

/-- The host encrypted one command. It was carried out twice, and then a message of the
device was taken for a command. -/
theorem line_repeated :
    (line { cli := { dev := enrolled } } greeting).1.acked = true ∧
    Trace.Guarded line (Authentic platform) greeted replayed ∧
    replayed.flatMap LineInput.hostSealed = [badPin] ∧
    (Trace.outputs line greeted replayed).map LineOutput.executed =
      [some (.serial (.verifyPin (text "0000"))), some (.serial (.verifyPin (text "0000"))),
        some (.serial .unknown)] ∧
    (Trace.final line greeted replayed).cli.dev.pins.failures = 2 := by
  decide +kernel

end GoiKey
