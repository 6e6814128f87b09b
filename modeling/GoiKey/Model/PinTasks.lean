import GoiKey.Lib.Trace

/-!
The checks of PINs as the two tasks run them beside each other: clientPIN of the
FIDO task and verifyPin of the serial task. What `storageMutex` is held for is one
section, and the sections of the tasks come in any order.
-/

namespace GoiKey.PinTasks

inductive Task where
  | fido | cli
  deriving DecidableEq, Repr

/-- Where a task is: about to compare, with the number incrementFailedPinAttempts
is going to write, or about to look whether that was the last attempt. -/
inductive Phase where
  | idle
  | comparing
  | incrementing (attempts : Nat)
  | judging
  deriving DecidableEq, Repr

/-- /failures.txt, 0 without the file, and the two tasks. -/
structure State where
  failures : Nat := 0
  fido : Phase := .idle
  cli : Phase := .idle
  deriving DecidableEq, Repr

/-- The task whose section is next, whether the PIN it compares is the right one
or it wipes the device instead, and whether the file of the section opens. -/
structure Turn where
  task : Task
  correct : Bool := false
  wipes : Bool := false
  opens : Bool := true
  deriving DecidableEq, Repr

/-- What a section does to the attempts. -/
inductive Outcome where
  | nothing | failed | cleared
  deriving DecidableEq, Repr

def State.phase (s : State) : Task → Phase
  | .fido => s.fido
  | .cli => s.cli

def State.go (s : State) (t : Task) (p : Phase) : State :=
  match t with
  | .fido => { s with fido := p }
  | .cli => { s with cli := p }

def getFailedPinAttempts (opens : Bool) (s : State) : Nat := if opens then s.failures else 0

/-- clientPIN refuses after ten attempts; verifyPin needs /pin.txt. -/
def beginCheck (turn : Turn) (s : State) : State :=
  match turn.task with
  | .fido =>
    if 10 ≤ getFailedPinAttempts turn.opens s then s else s.go .fido .comparing
  | .cli => if turn.opens then s.go .cli .comparing else s

/-- The number that was read goes back, one higher. -/
def writeFailures (turn : Turn) (attempts : Nat) (s : State) : State :=
  let s := if turn.opens then { s with failures := attempts } else s
  s.go turn.task (match turn.task with
    | .fido => .idle
    | .cli => .judging)

/-- At ten attempts the device is wiped and both tasks start over. -/
def judgeTotal (turn : Turn) (s : State) : Outcome × State :=
  if 10 ≤ getFailedPinAttempts turn.opens s then (.cleared, {})
  else (.nothing, s.go turn.task .idle)

def step (s : State) (turn : Turn) : Outcome × State :=
  match s.phase turn.task with
  | .idle => if turn.wipes then (.cleared, { s with failures := 0 }) else (.nothing, beginCheck turn s)
  | .comparing =>
    if turn.correct then (.cleared, { s with failures := 0 }.go turn.task .idle)
    else (.nothing, s.go turn.task (.incrementing (getFailedPinAttempts turn.opens s + 1)))
  | .incrementing attempts => (.failed, writeFailures turn attempts s)
  | .judging => judgeTotal turn s

abbrev Entry := Trace.Entry State Turn Outcome

def initial : State := {}

end GoiKey.PinTasks
