import GoiKey.Model.PqPack

/-!
The ML-DSA samplers, pq_smp.v, with the polynomial memory and the squeeze stream of the
sponge. `clock` is one rising edge of `clk` with the reset released.
-/

namespace GoiKey.Rtl

/-- The squeeze stream: once it is ready a byte stays until it is taken. -/
structure Squeeze where
  stream : Nat → BitVec 8
  pos : Nat
  ready : Bool

/-- One edge; `come` says whether a byte is there on the next clock. -/
def Squeeze.clock (q : Squeeze) (take come : Bool) : Squeeze :=
  if q.ready then
    if take then { q with pos := q.pos + 1, ready := come } else q
  else { q with ready := come }

inductive SmpMode where
  | uniform
  | eta2
  | eta4
  | gamma17
  | gamma19
  | ball
  deriving DecidableEq, Repr

inductive SmpState where
  | idle
  | fetch
  | taken
  | got
  | n1
  | waitw
  | grd
  | b1
  | b2
  | b3
  | b4
  | b5
  | bend
  deriving DecidableEq, Repr

structure SmpArgs where
  mode : SmpMode
  dst : BitVec 6
  tau : BitVec 8
  deriving DecidableEq, Repr

structure SmpIn where
  start : Option SmpArgs
  /-- The sponge has a byte on the next clock. -/
  come : Bool

/-- The registers that a fetch leaves alone. -/
structure SmpRegs where
  ret : SmpState
  m : SmpMode
  dst : BitVec 6
  ctr : BitVec 9
  u0 : BitVec 8
  u1 : BitVec 8
  jb : BitVec 8
  bi : BitVec 2
  acc : BitVec 32
  accb : BitVec 6
  signs : BitVec 64
  sc : BitVec 4
  biI : BitVec 9
  phaseHi : Bool

structure PqSmp where
  st : SmpState
  regs : SmpRegs
  cur : BitVec 8
  busy : Bool
  done : Bool
  outTake : Bool
  pm : PolyRam
  squeeze : Squeeze

namespace SmpRegs

variable (r : SmpRegs) (cur : BitVec 8)

def nb : BitVec 6 := if r.m = .gamma17 then 18 else 20

def g1c : BitVec 32 := if r.m = .gamma17 then 131072 else 524288

def nib : BitVec 4 := if r.phaseHi then cur.extractLsb' 4 4 else cur.extractLsb' 0 4

def ucand : BitVec 23 := cur.extractLsb' 0 7 ++ r.u1 ++ r.u0

end SmpRegs

/-- `nib` mod 5, a table. -/
def nq5 (nib : BitVec 4) : BitVec 4 :=
  if nib = 0 ∨ nib = 5 ∨ nib = 10 then 0
  else if nib = 1 ∨ nib = 6 ∨ nib = 11 then 1
  else if nib = 2 ∨ nib = 7 ∨ nib = 12 then 2
  else if nib = 3 ∨ nib = 8 ∨ nib = 13 then 3
  else 4

def etaOk (m : SmpMode) (nib : BitVec 4) : Bool := if m = .eta2 then nib < 15 else nib < 9

def etaVal (m : SmpMode) (nib : BitVec 4) : BitVec 32 :=
  if m = .eta2 then 2 - (nq5 nib).setWidth 32 else 4 - nib.setWidth 32

namespace PqSmp

variable (s : PqSmp)

/-- Everything before the `case`. -/
def tick (i : SmpIn) : PqSmp :=
  { s with
    done := false
    outTake := false
    pm := s.pm.clock
    squeeze := s.squeeze.clock s.outTake i.come }

def fetch (n : PqSmp) (next : SmpState) : PqSmp := { n with regs.ret := next, st := .fetch }

def finish (n : PqSmp) : PqSmp := { n with busy := false, done := true, st := .idle }

def start (n : PqSmp) (a : SmpArgs) : PqSmp :=
  let r := { n.regs with
    m := a.mode
    dst := a.dst
    ctr := 0
    bi := 0
    acc := 0
    accb := 0
    phaseHi := false
    sc := 0
    signs := 0
    biI := 256 - a.tau.setWidth 9 }
  fetch { n with busy := true, regs := r } (if a.mode = .ball then .b1 else .got)

/-- A coefficient is written and counted. -/
def put (n : PqSmp) (r : SmpRegs) (value : BitVec 32) : PqSmp :=
  { n with pm := n.pm.write (r.dst ++ r.ctr.setWidth 8) value, regs.ctr := r.ctr + 1 }

/-- The `case`; `n` is what the registers get without it. -/
def fsm (i : SmpIn) (n : PqSmp) : PqSmp :=
  let r := s.regs
  match s.st with
  | .idle =>
    match i.start with
    | some a => start n a
    | none => n
  | .fetch =>
    if s.squeeze.ready then
      { n with cur := s.squeeze.stream s.squeeze.pos, outTake := true, st := .taken }
    else n
  | .taken => { n with st := r.ret }
  | .got =>
    match r.m with
    | .uniform =>
      if r.bi = 0 then fetch { n with regs.u0 := s.cur, regs.bi := 1 } .got
      else if r.bi = 1 then fetch { n with regs.u1 := s.cur, regs.bi := 2 } .got
      else { n with regs.bi := 0, st := .n1 }
    | .eta2 | .eta4 => { n with regs.phaseHi := false, st := .n1 }
    | _ => { n with
        regs.acc := r.acc ||| s.cur.setWidth 32 <<< r.accb
        regs.accb := r.accb + 8
        st := .grd }
  | .n1 =>
    if r.m = .uniform then
      if r.ucand s.cur < 8380417 then { put n r ((r.ucand s.cur).setWidth 32) with st := .waitw }
      else fetch n .got
    else
      let n := if etaOk r.m (r.nib s.cur) ∧ r.ctr < 256 then put n r (etaVal r.m (r.nib s.cur)) else n
      if r.phaseHi then { n with st := .waitw } else { n with regs.phaseHi := true, st := .n1 }
  | .waitw =>
    if 256 ≤ r.ctr then finish n
    else if r.m = .gamma17 ∨ r.m = .gamma19 ∨ r.m = .ball then { n with st := .grd }
    else fetch n .got
  | .grd =>
    if r.nb ≤ r.accb then
      { put n r (r.g1c - (r.acc &&& ((1 : BitVec 32) <<< r.nb - 1))) with
        regs.acc := r.acc >>> r.nb
        regs.accb := r.accb - r.nb
        st := .waitw }
    else fetch n .got
  -- SampleInBall
  | .b1 =>
    let n := { n with regs.signs := r.signs ||| s.cur.setWidth 64 <<< (8 * (r.sc.setWidth 3).toNat) }
    if r.sc = 7 then { n with st := .b2 } else fetch { n with regs.sc := r.sc + 1 } .b1
  | .b2 => if 256 ≤ r.biI then finish n else fetch n .b3
  | .b3 =>
    if r.biI < s.cur.setWidth 9 then fetch n .b3
    else { n with pm := n.pm.read (r.dst ++ s.cur), regs.jb := s.cur, st := .b4 }
  | .b4 => { n with st := .b5 }
  | .b5 => { n with pm := n.pm.write (r.dst ++ r.biI.setWidth 8) s.pm.rq, st := .bend }
  | .bend => { n with
      pm := n.pm.write (r.dst ++ r.jb) (if r.signs.getLsbD 0 then 0xFFFFFFFF else 1)
      regs.signs := r.signs >>> 1
      regs.biI := r.biI + 1
      st := .b2 }

def clock (i : SmpIn) : PqSmp := s.fsm i (s.tick i)

end PqSmp

end GoiKey.Rtl
