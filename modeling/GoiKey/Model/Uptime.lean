import GoiKey.Model.Step

/-!
The device in real time. `millis()` counts the milliseconds since the device was
started, in 32 bits.
-/

namespace GoiKey

/-- `millis()` after so many milliseconds. -/
def millis (uptime : Nat) : UInt32 := UInt32.ofNat uptime

structure TimedDevice where
  dev : Device
  uptime : Nat
  deriving DecidableEq, Repr

/-- What reaches the device, how long after the step before, and how long each round
of a waiting loop takes. The times in the environment are those of the counter. -/
structure TimedInput where
  event : Event
  env : Env
  elapsed : Nat
  gaps : List Nat

/-- The real times at the ends of the rounds. -/
def roundTimes (start : Nat) : List Nat → List Nat
  | [] => []
  | gap :: gaps => (start + gap) :: roundTimes (start + gap) gaps

namespace TimedInput

variable (i : TimedInput) (s : TimedDevice)

/-- When the event comes. -/
def now : Nat := s.uptime + i.elapsed

/-- The rounds of a waiting loop with the real times they end at. -/
def rounds : List (Nat × Poll) :=
  (roundTimes (i.now s) i.gaps).zip i.env.polls |>.map fun r => (r.1, { r.2 with time := millis r.1 })

/-- When the last round ends. -/
def finish : Nat := (roundTimes (i.now s) i.gaps).getLast?.getD (i.now s)

/-- The input with the counter read where the source reads it. -/
def input : Input where
  event := i.event
  env := { i.env with now := millis (i.now s), polls := (i.rounds s).map fun r => r.2 }

end TimedInput

/-- The device has started anew: the power came back, or too many wrong PINs wiped it. -/
def startsAnew (e : Event) (acts : List Act) : Bool :=
  match e with
  | .powerCycle => true
  | .serial c => c != .factoryReset && acts.contains .wiped
  | _ => false

variable (P : Platform)

def timedStep (s : TimedDevice) (i : TimedInput) : Output × TimedDevice :=
  let r := step P s.dev (i.input s)
  (r.1, ⟨r.2, if startsAnew i.event r.1.acts then 0 else i.finish s⟩)

abbrev TimedEntry := Trace.Entry TimedDevice TimedInput Output

end GoiKey
