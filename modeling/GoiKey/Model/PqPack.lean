import GoiKey.Lib.SyncRam
import Mathlib.Data.BitVec

/-!
The ML-DSA packing unit, pq_pack.v, with what pq_core.v connects it to while it is busy:
the polynomial memory, the byte bus with its three memories, and the SHAKE sponge. `clock`
is one rising edge of `clk` with the reset released.
-/

namespace GoiKey.Rtl

/-! The byte bus of pq_core.v. -/

/-- Byte spaces: 0 RX, 1 TX, 2 SC; 3 is the SHAKE absorb sink. -/
abbrev Cell := BitVec 2 × BitVec 13

/-- The byte an address reaches: only the low bits count in the scratch memory, which also
answers in the place of the sink. -/
def cell (space : BitVec 2) (addr : BitVec 13) : Cell :=
  if space = 0 ∨ space = 1 then (space, addr) else (2, (addr.setWidth 11).setWidth 13)

abbrev ByteBus := SyncRam Cell (BitVec 8)

/-- `br_space`, `br_addr`. -/
def ByteBus.fetch (b : ByteBus) (space : BitVec 2) (addr : BitVec 13) : ByteBus := b.read (cell space addr)

/-- `bw_en`: no memory listens to space 3. -/
def ByteBus.store (b : ByteBus) (space : BitVec 2) (addr : BitVec 13) (data : BitVec 8) : ByteBus :=
  if space = 3 then b else b.write (cell space addr) data

/-- The polynomial memory of pq_pm.v, by slot and coefficient. No program names a slot from
26 on, which the memory does not have. -/
abbrev PolyRam := SyncRam (BitVec 14) (BitVec 32)

inductive PackOp where
  | t1
  | t0
  | eta
  | z
  | w1
  | upEta
  | upT0
  | h
  | dump
  | upW1
  deriving DecidableEq, Repr

inductive PackState where
  | idle
  | r
  | rw
  | rc
  | em
  | emw
  | emg
  | next
  | ub
  | ubw
  | ubc
  | uw
  | uww
  | h
  | hw
  | hc
  | hend
  | hend2
  deriving DecidableEq, Repr

/-- What an operation is started with. -/
structure PackArgs where
  op : PackOp
  slot : BitVec 6
  space : BitVec 2
  base : BitVec 13
  eta4 : Bool
  g1sel : Bool
  g2sel : Bool
  omega : BitVec 8
  hidx : BitVec 6
  deriving DecidableEq, Repr

structure PackIn where
  start : Option PackArgs
  hkClr : Bool
  shInReady : Bool

structure PqPack where
  st : PackState
  args : PackArgs
  i : BitVec 9
  acc : BitVec 40
  accb : BitVec 6
  bcnt : BitVec 13
  /-- The hint counter, which lasts from one call to the next. -/
  hk : BitVec 8
  hkOver : Bool
  cval : BitVec 32
  rAcc : BitVec 32
  busy : Bool
  done : Bool
  pm : PolyRam
  bus : ByteBus
  shInValid : Bool
  shInByte : BitVec 8
  /-- What the sponge has been given. -/
  sponge : List (BitVec 8)

namespace PackArgs

variable (a : PackArgs)

def nbits : BitVec 6 :=
  match a.op with
  | .dump => 32
  | .t1 => 10
  | .t0 | .upT0 => 13
  | .eta | .upEta => if a.eta4 then 4 else 3
  | .z => if a.g1sel then 20 else 18
  | .w1 | .h | .upW1 => if a.g2sel then 4 else 6

def kconst : BitVec 32 :=
  match a.op with
  | .t0 | .upT0 => 4096
  | .eta | .upEta => if a.eta4 then 4 else 2
  | .z => if a.g1sel then 524288 else 131072
  | _ => 0

def useK : Bool :=
  match a.op with
  | .t0 | .eta | .z | .upEta | .upT0 => true
  | _ => false

/-- `vfield`, and what an unpacked field becomes. -/
def field (c : BitVec 32) : BitVec 32 := if a.useK then a.kconst - c else c

def vmask : BitVec 40 := (1 : BitVec 40) <<< a.nbits - 1

end PackArgs

namespace PqPack

variable (s : PqPack)

/-- Everything before the `case`. -/
def tick (i : PackIn) : PqPack :=
  { s with
    done := false
    pm := s.pm.clock
    bus := s.bus.clock
    shInValid := false
    sponge := if s.shInValid then s.sponge ++ [s.shInByte] else s.sponge
    hk := if i.hkClr then 0 else s.hk
    hkOver := if i.hkClr then false else s.hkOver }

def start (n : PqPack) (a : PackArgs) : PqPack :=
  { n with
    busy := true
    args := a
    i := 0
    acc := 0
    accb := 0
    bcnt := 0
    st := match a.op with
      | .upEta | .upT0 | .upW1 => .ub
      | .h => .h
      | _ => .r }

def finish (n : PqPack) : PqPack := { n with st := .idle, busy := false, done := true }

/-- The `case`; `n` is what the registers get without it. -/
def fsm (i : PackIn) (n : PqPack) : PqPack :=
  let a := s.args
  match s.st with
  | .idle =>
    match i.start with
    | some c => start n c
    | none => n
  -- pack
  | .r => { n with pm := n.pm.read (a.slot ++ s.i.setWidth 8), st := .rw }
  | .rw => { n with st := .rc }
  | .rc => { n with cval := s.pm.rq, st := .em }
  | .em => { n with
      acc := s.acc ||| (((a.field s.cval).setWidth 40 &&& a.vmask) <<< s.accb)
      accb := s.accb + a.nbits
      st := .emw }
  | .emw =>
    if 8 ≤ s.accb then
      if a.space = 3 then
        if i.shInReady then
          { n with
            shInValid := true
            shInByte := s.acc.setWidth 8
            acc := s.acc >>> 8
            accb := s.accb - 8
            bcnt := s.bcnt + 1
            st := .emg }
        else n
      else
        { n with
          bus := n.bus.store a.space (a.base + s.bcnt) (s.acc.setWidth 8)
          acc := s.acc >>> 8
          accb := s.accb - 8
          bcnt := s.bcnt + 1 }
    else { n with st := .next }
  | .emg => { n with st := .emw }
  | .next => if s.i = 255 then finish n else { n with i := s.i + 1, st := .r }
  -- unpack
  | .ub =>
    if s.accb < a.nbits then { n with bus := n.bus.fetch a.space (a.base + s.bcnt), st := .ubw }
    else
      { n with
        rAcc := s.acc.setWidth 32 &&& a.vmask.setWidth 32
        acc := s.acc >>> a.nbits
        accb := s.accb - a.nbits
        st := .uw }
  | .ubw => { n with st := .ubc }
  | .ubc => { n with
      acc := s.acc ||| (s.bus.rq.setWidth 40 <<< s.accb)
      accb := s.accb + 8
      bcnt := s.bcnt + 1
      st := .ub }
  | .uw =>
    let n := { n with pm := n.pm.write (a.slot ++ s.i.setWidth 8) (a.field s.rAcc) }
    if s.i = 255 then { n with st := .uww } else { n with i := s.i + 1, st := .ub }
  | .uww => finish n
  -- hint positions
  | .h => { n with pm := n.pm.read (a.slot ++ s.i.setWidth 8), st := .hw }
  | .hw => { n with st := .hc }
  | .hc =>
    let n := if s.pm.rq ≠ 0 then
        { n with
          bus := if s.hk < a.omega then
              n.bus.store a.space (a.base + s.hk.setWidth 13) (s.i.setWidth 8) else n.bus
          hk := s.hk + 1
          hkOver := if a.omega ≤ s.hk then true else n.hkOver }
      else n
    if s.i = 255 then { n with st := .hend } else { n with i := s.i + 1, st := .h }
  | .hend => { n with
      bus := n.bus.store a.space (a.base + a.omega.setWidth 13 + a.hidx.setWidth 13) s.hk
      st := .hend2 }
  | .hend2 => finish n

def clock (i : PackIn) : PqPack := s.fsm i (s.tick i)

end PqPack

end GoiKey.Rtl
