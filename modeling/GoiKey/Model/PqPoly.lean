import GoiKey.Model.PqModel
import GoiKey.Model.PqPack

/-!
The ML-DSA polynomial unit, pq_poly.v, with the Montgomery multiplier pq_mont.v and the
polynomial memory. `clock` is one rising edge of `clk` with the reset released.
-/

namespace GoiKey.Rtl

/-! pq_mont.v -/

structure Mont where
  v1 : Bool
  v2 : Bool
  v3 : Bool
  p1 : BitVec 64
  p2 : BitVec 64
  p3 : BitVec 64
  t2 : BitVec 32
  m3 : BitVec 64
  outV : Bool
  r : BitVec 32

namespace Mont

/-- Stage 1: the full product. -/
def product (a b : BitVec 32) : BitVec 64 := a.signExtend 64 * b.signExtend 64

/-- Stage 2. -/
def quotient (p : BitVec 64) : BitVec 32 := p.setWidth 32 * 58728449

/-- Stage 3. -/
def multiple (t : BitVec 32) : BitVec 64 := t.signExtend 64 * 8380417

/-- Stage 4. -/
def high (p m : BitVec 64) : BitVec 32 := ((p - m).sshiftRight 32).setWidth 32

def clock (s : Mont) (inV : Bool) (a b : BitVec 32) : Mont where
  v1 := inV
  p1 := product a b
  v2 := s.v1
  p2 := s.p1
  t2 := quotient s.p1
  v3 := s.v2
  m3 := multiple s.t2
  p3 := s.p2
  outV := s.v3
  r := high s.p3 s.m3

end Mont

inductive PolyOp where
  | ntt
  | intt
  | pmul
  | pmula
  | padd
  | psub
  | pred
  | pcaddq
  | pclr
  | pcopy
  | p2r
  | pdec
  | mkhint
  | chkn
  deriving DecidableEq, Repr

inductive PolyState where
  | idle
  | rd
  | rdw
  | rdc
  | mul
  | calc
  | wr0
  | wr1
  | next
  | nb
  | nr1
  | nr1w
  | nr1c
  | nr2
  | nr2w
  | nr2c
  | nm
  | nw0
  | nw1
  | nnext
  | sc
  | scr
  | scw
  | scc
  | scm
  | scwr
  | clrw
  | zw
  deriving DecidableEq, Repr

structure PolyArgs where
  op : PolyOp
  sa : BitVec 6
  sb : BitVec 6
  sc : BitVec 6
  deriving DecidableEq, Repr

structure PolyIn where
  start : Option PolyArgs
  g2sel : Bool
  bound : BitVec 32

/-- What only the state machine writes. -/
structure PolyRegs where
  op : PolyOp
  a : BitVec 6
  b : BitVec 6
  c : BitVec 6
  i : BitVec 9
  rk : BitVec 2
  nr : BitVec 2
  sl0 : BitVec 6
  sl1 : BitVec 6
  sl2 : BitVec 6
  r0 : BitVec 32
  r1 : BitVec 32
  r2 : BitVec 32
  res0 : BitVec 32
  res1 : BitVec 32
  ln : BitVec 9
  bstart : BitVec 9
  k : BitVec 9
  j : BitVec 9
  x : BitVec 32
  y : BitVec 32
  zeta : BitVec 32
  tt : BitVec 32
  inv : Bool
  za : BitVec 8
  ma : BitVec 32
  mb : BitVec 32
  flagOr : Bool
  hintCnt : BitVec 9

structure PqPoly where
  st : PolyState
  regs : PolyRegs
  busy : Bool
  done : Bool
  mIn : Bool
  mont : Mont
  zq : BitVec 32
  pm : PolyRam

/-- pq_zetas.vh, which has the zetas of the C reference. -/
def zrom (za : BitVec 8) : BitVec 32 := BitVec.ofInt 32 (Pq.zeta za.toNat)

/-! Element-wise arithmetic. -/

def fReduce32 (a : BitVec 32) : BitVec 32 :=
  let x : BitVec 33 := a.signExtend 33 + 4194304
  let t := (x.sshiftRight 23).setWidth 32
  a - (t <<< 23 - t <<< 13 + t)

def fCaddq (a : BitVec 32) : BitVec 32 := a + if a.msb then 8380417 else 0

def prA1 (r0 : BitVec 32) : BitVec 32 := (r0 + 4095).sshiftRight 13

def prA0 (r0 : BitVec 32) : BitVec 32 := r0 - prA1 r0 <<< 13

def decA1 (g2sel : Bool) (r0 : BitVec 32) : BitVec 32 :=
  let d0 := (r0 + 127).sshiftRight 7
  if g2sel then (d0 <<< 10 + d0 + 2097152).sshiftRight 22 &&& 15
  else
    let d1 := (d0 <<< 13 + d0 <<< 11 + d0 <<< 10 + d0 <<< 3 + d0 <<< 1 + d0 + 8388608).sshiftRight 24
    d1 ^^^ ((43 - d1).sshiftRight 31 &&& d1)

def decA0 (g2sel : Bool) (r0 : BitVec 32) : BitVec 32 :=
  let a1 := decA1 g2sel r0
  let a1x2g2 := if g2sel then a1 <<< 19 - a1 <<< 9 else a1 <<< 17 + a1 <<< 16 - a1 <<< 12 - a1 <<< 11
  let t := r0 - a1x2g2
  t - ((4190208 - t).sshiftRight 31 &&& 8380417)

def mkH (g2sel : Bool) (r0 r1 : BitVec 32) : Bool :=
  let g2 : BitVec 32 := if g2sel then 261888 else 95232
  g2.slt r0 || r0.slt (-g2) || (r0 == -g2 && r1 != 0)

def cnBad (bound r0 : BitVec 32) : Bool :=
  let t := r0 - (r0.sshiftRight 31 &&& r0 <<< 1)
  decide (1047552 < bound) || bound.sle t

namespace PolyRegs

variable (r : PolyRegs)

def rslot : BitVec 6 := if r.rk = 0 then r.sl0 else if r.rk = 1 then r.sl1 else r.sl2

/-- The addresses of a butterfly; the index is a byte. -/
def near : BitVec 14 := r.a ++ (r.bstart.setWidth 8 + r.j.setWidth 8)

def far : BitVec 14 := r.a ++ (r.bstart.setWidth 8 + r.j.setWidth 8 + r.ln.setWidth 8)

end PolyRegs

namespace PqPoly

variable (s : PqPoly)

/-- Everything before the `case`, the ROM and the multiplier. -/
def tick : PqPoly :=
  { s with
    done := false
    mIn := false
    mont := s.mont.clock s.mIn s.regs.ma s.regs.mb
    zq := zrom s.regs.za
    pm := s.pm.clock }

def finish (n : PqPoly) : PqPoly := { n with st := .idle, busy := false, done := true }

/-- The registers that every operation begins with. -/
def load (r : PolyRegs) (a : PolyArgs) : PolyRegs :=
  { r with op := a.op, a := a.sa, b := a.sb, c := a.sc, flagOr := false, hintCnt := 0, i := 0, rk := 0 }

def start (n : PqPoly) (a : PolyArgs) : PqPoly :=
  let r := load n.regs a
  let n := { n with busy := true }
  match a.op with
  | .ntt => { n with regs := { r with inv := false, ln := 128, bstart := 0, j := 0, k := 0 }, st := .nb }
  | .intt => { n with regs := { r with inv := true, ln := 1, bstart := 0, j := 0, k := 256 }, st := .nb }
  | .pclr => { n with regs := r, st := .clrw }
  | .pmul | .padd | .psub | .mkhint =>
    { n with regs := { r with nr := 2, sl0 := a.sb, sl1 := a.sc, sl2 := a.sc }, st := .rd }
  | .pmula => { n with regs := { r with nr := 3, sl0 := a.sa, sl1 := a.sb, sl2 := a.sc }, st := .rd }
  | .pcopy => { n with regs := { r with nr := 1, sl0 := a.sb, sl1 := a.sb, sl2 := a.sb }, st := .rd }
  | .p2r | .pdec => { n with regs := { r with nr := 1, sl0 := a.sc, sl1 := a.sc, sl2 := a.sc }, st := .rd }
  | .pred | .pcaddq | .chkn =>
    { n with regs := { r with nr := 1, sl0 := a.sa, sl1 := a.sa, sl2 := a.sa }, st := .rd }

/-- A product is asked for. -/
def multiply (n : PqPoly) (a b : BitVec 32) (next : PolyState) : PqPoly :=
  { n with mIn := true, regs.ma := a, regs.mb := b, st := next }

/-- The `case`; `n` is what the registers get without it. -/
def fsm (i : PolyIn) (n : PqPoly) : PqPoly :=
  let r := s.regs
  match s.st with
  | .idle =>
    match i.start with
    | some a => start n a
    | none => n
  -- element-wise
  | .rd => { n with pm := n.pm.read (r.rslot ++ r.i.setWidth 8), st := .rdw }
  | .rdw => { n with st := .rdc }
  | .rdc =>
    let r' := if r.rk = 0 then { r with r0 := s.pm.rq }
      else if r.rk = 1 then { r with r1 := s.pm.rq } else { r with r2 := s.pm.rq }
    if r.rk + 1 = r.nr then { n with regs := r', st := .calc }
    else { n with regs := { r' with rk := r.rk + 1 }, st := .rd }
  | .calc =>
    match r.op with
    | .pmul => multiply n r.r0 r.r1 .mul
    | .pmula => multiply n r.r1 r.r2 .mul
    | .padd => { n with regs.res0 := r.r0 + r.r1, st := .wr0 }
    | .psub => { n with regs.res0 := r.r0 - r.r1, st := .wr0 }
    | .pred => { n with regs.res0 := fReduce32 r.r0, st := .wr0 }
    | .pcaddq => { n with regs.res0 := fCaddq r.r0, st := .wr0 }
    | .pcopy => { n with regs.res0 := r.r0, st := .wr0 }
    | .p2r => { n with regs.res0 := prA1 r.r0, regs.res1 := prA0 r.r0, st := .wr0 }
    | .pdec => { n with regs.res0 := decA1 i.g2sel r.r0, regs.res1 := decA0 i.g2sel r.r0, st := .wr0 }
    | .mkhint =>
      let h := mkH i.g2sel r.r0 r.r1
      { n with regs.res0 := if h then 1 else 0, regs.hintCnt := if h then r.hintCnt + 1 else r.hintCnt, st := .wr0 }
    | .chkn => { n with regs.flagOr := if cnBad i.bound r.r0 then true else r.flagOr, st := .next }
    | _ => { n with st := .next }
  | .mul =>
    if s.mont.outV then
      { n with regs.res0 := if r.op = .pmula then r.r0 + s.mont.r else s.mont.r, st := .wr0 }
    else n
  | .wr0 => { n with
      pm := n.pm.write (r.a ++ r.i.setWidth 8) r.res0
      st := if r.op = .p2r ∨ r.op = .pdec then .wr1 else .next }
  | .wr1 => { n with pm := n.pm.write (r.b ++ r.i.setWidth 8) r.res1, st := .next }
  | .next => if r.i = 255 then finish n else { n with regs.i := r.i + 1, regs.rk := 0, st := .rd }
  | .clrw =>
    let n := { n with pm := n.pm.write (r.a ++ r.i.setWidth 8) 0 }
    if r.i = 255 then finish n else { n with regs.i := r.i + 1 }
  -- NTT and inverse NTT
  | .nb =>
    if r.inv then
      if 256 ≤ r.ln then { n with regs.i := 0, st := .sc }
      else if 256 ≤ r.bstart then { n with regs.ln := r.ln <<< 1, regs.bstart := 0 }
      else { n with regs.za := r.k.setWidth 8 - 1, regs.k := r.k - 1, regs.j := 0, st := .zw }
    else
      if r.ln = 0 then finish n
      else if 256 ≤ r.bstart then { n with regs.ln := r.ln >>> 1, regs.bstart := 0 }
      else { n with regs.za := r.k.setWidth 8 + 1, regs.k := r.k + 1, regs.j := 0, st := .zw }
  | .zw => { n with st := .nr1 }
  | .nr1 => { n with pm := n.pm.read r.near, st := .nr1w }
  | .nr1w => { n with st := .nr1c }
  | .nr1c => { n with regs.x := s.pm.rq, regs.zeta := if r.inv then -s.zq else s.zq, st := .nr2 }
  | .nr2 => { n with pm := n.pm.read r.far, st := .nr2w }
  | .nr2w => { n with st := .nr2c }
  | .nr2c => multiply { n with regs.y := s.pm.rq } r.zeta (if r.inv then r.x - s.pm.rq else s.pm.rq) .nm
  | .nm => if s.mont.outV then { n with regs.tt := s.mont.r, st := .nw0 } else n
  | .nw0 => { n with pm := n.pm.write r.near (if r.inv then r.x + r.y else r.x + r.tt), st := .nw1 }
  | .nw1 => { n with pm := n.pm.write r.far (if r.inv then r.tt else r.x - r.tt), st := .nnext }
  | .nnext =>
    if r.j + 1 = r.ln then { n with regs.bstart := r.bstart + r.ln <<< 1, st := .nb }
    else { n with regs.j := r.j + 1, st := .nr1 }
  -- the last scaling of the inverse
  | .sc => { n with pm := n.pm.read (r.a ++ r.i.setWidth 8), st := .scr }
  | .scr => { n with st := .scw }
  | .scw => { n with st := .scc }
  | .scc => multiply n 41978 s.pm.rq .scm
  | .scm =>
    if s.mont.outV then { n with pm := n.pm.write (r.a ++ r.i.setWidth 8) s.mont.r, st := .scwr } else n
  | .scwr => if r.i = 255 then finish n else { n with regs.i := r.i + 1, st := .sc }

def clock (i : PolyIn) : PqPoly := s.fsm i s.tick

end PqPoly

end GoiKey.Rtl
