import Mathlib.Data.BitVec
import Mathlib.Logic.Function.Basic

/-!
The big-number engine, bn_engine.v: the word engine, the Montgomery multiplication with
its pipeline, and the operations made of them. `clock` is one rising edge of `clk` with the
reset released. The other operations (loading and storing, the sieve, the arithmetic
modulo 65537, the full product) and what only they use are left out.
-/

namespace GoiKey.Rtl

/-! Block RAMs: written and read on the edge after the address is set. -/

structure BlockRam (a : Nat) where
  mem : BitVec a → BitVec 16
  ra : BitVec a
  rq : BitVec 16
  we : Bool
  wa : BitVec a
  wd : BitVec 16

namespace BlockRam

variable {a : Nat}

def written (r : BlockRam a) : BitVec a → BitVec 16 :=
  if r.we then Function.update r.mem r.wa r.wd else r.mem

/-- One edge on which nothing new is asked for. -/
def clock (r : BlockRam a) : BlockRam a := { r with mem := r.written, rq := r.mem r.ra, we := false }

def read (r : BlockRam a) (ra : BitVec a) : BlockRam a := { r with ra := ra }

def write (r : BlockRam a) (wa : BitVec a) (wd : BitVec 16) : BlockRam a :=
  { r with we := true, wa := wa, wd := wd }

end BlockRam

/-- The port of the ECC sequencer to the register file, which works while the engine is idle. -/
structure ExternalPort where
  ra : BitVec 11
  we : Bool
  wa : BitVec 11
  wd : BitVec 16

def BlockRam.clockExternal (r : BlockRam 11) (x : ExternalPort) : BlockRam 11 :=
  { r with
    mem := if x.we then Function.update r.mem x.wa x.wd else r.mem
    rq := r.mem x.ra
    we := false }

/-! States and operations. -/

inductive BnState where
  | idle
  | fin
  | efin
  /-- The word engine. -/
  | eInit
  | eA
  | eB
  | eC
  | eD
  | eE
  | eF
  | eG
  | eFin
  | eFin2
  | eFin3
  /-- The Montgomery multiplication. -/
  | mInit
  | mZ
  | mR0
  | mR1
  | mR2
  | mR3
  | mR4
  | mR5
  | mR6
  | mR7
  | mR8
  | mS
  | mDr
  | mNx
  /-- The composite. -/
  | cGo
  | cFge
  | cFwr
  /-- Selecting a modulus. -/
  | ms1
  | nw0
  | nw1
  | nw2
  | nw3
  | nw4
  | nw5
  | nw6
  | nw7
  | nw8
  /-- R^2. -/
  | r21
  | r22
  /-- The exponentiation. -/
  | ex0
  | ex1
  | ex2
  | ex3
  | ex4
  deriving DecidableEq, Repr

/-- The modes of the word engine. -/
inductive Pm where
  | add
  | subm
  | copy
  | fge
  | fwr
  | negm
  | tom
  | tomk
  deriving DecidableEq, Repr

inductive CKind where
  | mul
  | addm
  | subm
  | csub
  deriving DecidableEq, Repr

/-- The operations on 64-word registers: RMSEL, RR2, RMUL, RADDM, RSUBM, RCSUB, REXP. -/
inductive RsaOp where
  | msel (a : BitVec 6)
  | r2 (a : BitVec 6)
  | mul (a b c : BitVec 6)
  | addm (a b c : BitVec 6)
  | subm (a b c : BitVec 6)
  | csub (a b : BitVec 6)
  | exp (a b c d : BitVec 6)
  deriving DecidableEq, Repr

/-- The operations on 16-word registers: MUL, ADD, SUB, and selecting a modulus. -/
inductive EccOp where
  | mul (d a b : BitVec 7)
  | add (d a b : BitVec 7)
  | sub (d a b : BitVec 7)
  | select
  deriving DecidableEq, Repr

structure BnIn where
  /-- `e_start` with its operation and `e_msel`. -/
  ecc : Option (EccOp × BitVec 2)
  /-- `start` with its operation. -/
  rsa : Option RsaOp
  x : ExternalPort

/-! Registers. -/

/-- How passes of the word engine, multiplications and composites are set up. -/
structure BnCtl where
  pret : BnState
  mret : BnState
  cret : BnState
  pm : Pm
  pdst : BitVec 7
  psb : BitVec 7
  psc : BitVec 7
  ptoff : BitVec 8
  cdst : BitVec 7
  cs1 : BitVec 7
  cs2 : BitVec 7
  ckind : CKind
  msa : BitVec 7
  msb : BitVec 7

/-- What an operation keeps over its passes. -/
structure BnOp where
  emode : Bool
  mselR : BitVec 2
  oA : BitVec 5
  oB : BitVec 5
  oC : BitVec 5
  cnt4 : BitVec 4
  bitc : BitVec 10
  ebit : Bool
  nprime : BitVec 16
  nn0 : BitVec 16
  nx : BitVec 16
  nit : BitVec 2

/-- What the word engine works with. -/
structure BnWord where
  pj : BitVec 7
  x : BitVec 16
  y : BitVec 16
  z : BitVec 16
  w : BitVec 16
  cy : BitVec 20
  ge : Bool

/-- The counters of the multiplication, and the low word of the accumulator. -/
structure BnMul where
  counters ::
  mi : BitVec 7
  mk : BitVec 8
  mz : BitVec 8
  t0v : BitVec 16

/-- The multiplier of the preamble: operands and product. -/
structure BnProduct where
  m3a : BitVec 16
  m3b : BitVec 16
  m3p : BitVec 32

def BnProduct.clock (m : BnProduct) : BnProduct := { m with m3p := m.m3a.setWidth 32 * m.m3b.setWidth 32 }

/-- The Montgomery pipeline. -/
structure BnPipe where
  vq0 : Bool
  vq1 : Bool
  vq2 : Bool
  jq0 : BitVec 7
  jq1 : BitVec 7
  aq : BitVec 16
  nq : BitVec 16
  tt0 : BitVec 16
  j0 : BitVec 7
  v0 : Bool
  pa : BitVec 32
  pn : BitVec 32
  tt : BitVec 16
  j1 : BitVec 7
  v1 : Bool
  c1 : BitVec 33
  lq : BitVec 16
  pn2 : BitVec 33
  j2 : BitVec 7
  v2 : Bool
  c2 : BitVec 33
  t64p : Bool
  t64v : BitVec 16
  bi : BitVec 16
  mreg : BitVec 16

structure BnEngine where
  st : BnState
  ctl : BnCtl
  op : BnOp
  word : BnWord
  mul : BnMul
  prod : BnProduct
  pipe : BnPipe
  rf : BlockRam 11
  m : BlockRam 6
  t : BlockRam 8
  done : Bool
  eDone : Bool

/-! Geometry. -/

def onem : BitVec 7 := 16
def acc : BitVec 7 := 17
def tmp : BitVec 7 := 18
def tmp2 : BitVec 7 := 19

/-- Where a word of a register stands. -/
def rfa (emode : Bool) (r : BitVec 7) (w : BitVec 6) : BitVec 11 :=
  if emode then r ++ w.extractLsb' 0 4 else r.extractLsb' 0 5 ++ w

def BnEngine.nlast (s : BnEngine) : BitVec 6 := if s.op.emode then 15 else 63

def BnEngine.tnw (s : BnEngine) : BitVec 8 := s.nlast.setWidth 8 + 1

/-! The pipeline. -/

section Pipeline

variable (p : BnPipe)

def BnPipe.s2 : BitVec 33 := p.tt.setWidth 33 + p.pa.setWidth 33 + p.c1

def BnPipe.w3 : BitVec 33 := p.lq.setWidth 33 + p.pn2 + p.c2

/-- One edge; `tnw` is the number of words, the others what the RAMs read. -/
def BnPipe.clock (tnw : BitVec 7) (rfRq mRq tRq : BitVec 16) : BnPipe :=
  { p with
    jq1 := p.jq0
    vq0 := false
    vq1 := p.vq0
    vq2 := p.vq1
    v0 := p.vq1
    aq := if p.vq1 then (if p.jq1 = tnw then 0 else rfRq) else p.aq
    nq := if p.vq1 then (if p.jq1 = tnw then 0 else mRq) else p.nq
    tt0 := if p.vq1 then tRq else p.tt0
    j0 := if p.vq1 then p.jq1 else p.j0
    pa := p.aq.setWidth 32 * p.bi.setWidth 32
    pn := p.nq.setWidth 32 * p.mreg.setWidth 32
    v1 := p.v0
    tt := if p.v0 then p.tt0 else p.tt
    j1 := if p.v0 then p.j0 else p.j1
    v2 := p.v1
    c1 := if p.v1 then p.s2 >>> 16 else p.c1
    lq := if p.v1 then p.s2.setWidth 16 else p.lq
    pn2 := if p.v1 then p.pn.setWidth 33 else p.pn2
    j2 := if p.v1 then p.j1 else p.j2
    c2 := if p.v2 then p.w3 >>> 16 else p.c2
    t64p := p.v2 && p.j2 == tnw
    t64v := if p.v2 && p.j2 == tnw then p.c1.setWidth 16 + (p.w3 >>> 16).setWidth 16 else p.t64v }

/-- What the pipeline writes into the accumulator on an edge. -/
def BnPipe.out (tnw : BitVec 8) (t : BlockRam 8) : BlockRam 8 :=
  let t := if p.v2 && p.j2 != 0 then t.write (p.j2.setWidth 8 - 1) (p.w3.setWidth 16) else t
  if p.t64p then t.write tnw p.t64v else t

end Pipeline

namespace BnEngine

variable (s : BnEngine)

/-- Everything before the `case`: pulses end, memories, multipliers and pipeline go on. -/
def tick (i : BnIn) : BnEngine :=
  { s with
    done := false
    eDone := false
    prod := s.prod.clock
    pipe := s.pipe.clock (s.tnw.setWidth 7) s.rf.rq s.m.rq s.t.rq
    rf := if s.st = .idle then s.rf.clockExternal i.x else s.rf.clock
    m := s.m.clock
    t := s.pipe.out s.tnw s.t.clock }

/-! The word engine. -/

def sumA : BitVec 17 := s.word.x.setWidth 17 + s.word.y.setWidth 17 + (s.word.cy.extractLsb' 0 1).setWidth 17

def sumS : BitVec 18 :=
  s.word.x.setWidth 18 + s.word.z.setWidth 18 + (~~~s.word.y).setWidth 18 +
    (s.word.cy.extractLsb' 0 2).setWidth 18

def dWZ : BitVec 17 := s.word.w.setWidth 17 - s.word.z.setWidth 17 - (s.word.cy.extractLsb' 0 1).setWidth 17

def dNZ : BitVec 17 := 0 - s.word.z.setWidth 17 - (s.word.cy.extractLsb' 0 1).setWidth 17

/-- The modulus table of ecc_mod.vh: P-256 p and n, Ed25519 p and l, low words first. -/
def modWords : List (List (BitVec 16)) :=
  [[0xffff, 0xffff, 0xffff, 0xffff, 0xffff, 0xffff, 0x0000, 0x0000, 0x0000, 0x0000, 0x0000, 0x0000,
      0x0001, 0x0000, 0xffff, 0xffff],
    [0x2551, 0xfc63, 0xcac2, 0xf3b9, 0x9e84, 0xa717, 0xfaad, 0xbce6, 0xffff, 0xffff, 0xffff, 0xffff,
      0x0000, 0x0000, 0xffff, 0xffff],
    [0xffed, 0xffff, 0xffff, 0xffff, 0xffff, 0xffff, 0xffff, 0xffff, 0xffff, 0xffff, 0xffff, 0xffff,
      0xffff, 0xffff, 0xffff, 0x7fff],
    [0xd3ed, 0x5cf5, 0x631a, 0x5812, 0x9cd6, 0xa2f7, 0xf9de, 0x14de, 0x0000, 0x0000, 0x0000, 0x0000,
      0x0000, 0x0000, 0x0000, 0x1000]]

def modWord (ms : BitVec 2) (j : BitVec 4) : BitVec 16 := (modWords.getD ms.toNat []).getD j.toNat 0

def modN0 (ms : BitVec 2) : BitVec 16 := [0x0001, 0xbc4f, 0xca1b, 0x7e1b].getD ms.toNat 0

/-- E_F: what a mode does with the words it has read. -/
def eF (n : BnEngine) : BnEngine :=
  let pj6 := s.word.pj.setWidth 6
  let pj8 := s.word.pj.setWidth 8
  let dst := rfa s.op.emode s.ctl.pdst pj6
  match s.ctl.pm with
  | .add => { n with
      t := n.t.write pj8 (s.sumA.setWidth 16)
      word.cy := (s.sumA.extractLsb' 16 1).setWidth 20 }
  | .subm => { n with
      t := n.t.write pj8 (s.sumS.setWidth 16)
      word.cy := (s.sumS.extractLsb' 16 2).setWidth 20 }
  | .copy => { n with t := n.t.write pj8 s.word.x }
  | .fge => { n with word.cy := (s.dWZ.extractLsb' 16 1).setWidth 20 }
  | .fwr => { n with
      rf := n.rf.write dst (if s.word.ge then s.dWZ.setWidth 16 else s.word.w)
      word.cy := (s.dWZ.extractLsb' 16 1).setWidth 20 }
  | .negm => { n with
      rf := n.rf.write dst (s.dNZ.setWidth 16)
      word.cy := (s.dNZ.extractLsb' 16 1).setWidth 20 }
  | .tom => { n with m := n.m.write pj6 s.word.x }
  | .tomk => { n with m := n.m.write pj6 (modWord s.op.mselR (s.word.pj.setWidth 4)) }

/-- E_FIN: the word above the others. -/
def eFin (n : BnEngine) : BnEngine :=
  match s.ctl.pm with
  | .add => { n with t := n.t.write s.tnw ((s.word.cy.extractLsb' 0 1).setWidth 16) }
  | .subm => { n with t := n.t.write s.tnw ((s.word.cy.extractLsb' 0 2).setWidth 16 - 1) }
  | .copy => { n with t := n.t.write s.tnw 0 }
  | .fge => { n with t := n.t.read s.tnw }
  | _ => n

/-- E_FIN3: what a pass leaves. -/
def eFin3 (n : BnEngine) : BnEngine :=
  match s.ctl.pm with
  | .fge => { n with word.ge := s.t.rq ≠ 0 ∨ s.word.cy.getLsbD 0 = false }
  | .tomk => { n with op.nprime := modN0 s.op.mselR }
  | _ => n

/-! The sequencing states. -/

/-- A pass of the word engine is set up. -/
def pass (n : BnEngine) (pm : Pm) (pdst psb psc : BitVec 7) (pret : BnState) : BnEngine :=
  { n with
    st := .eInit
    ctl.pm := pm
    ctl.pdst := pdst
    ctl.psb := psb
    ctl.psc := psc
    ctl.ptoff := 0
    ctl.pret := pret }

/-- A composite is set up. -/
def compose (n : BnEngine) (kind : CKind) (d a b : BitVec 7) (ret : BnState) : BnEngine :=
  { n with
    st := .cGo
    ctl.cdst := d
    ctl.cs1 := a
    ctl.cs2 := b
    ctl.ckind := kind
    ctl.cret := ret }

def startEcc (n : BnEngine) (op : EccOp) (msel : BitVec 2) : BnEngine :=
  let n := { n with
    op.emode := true
    op.mselR := msel }
  match op with
  | .mul d a b => n.compose .mul d a b .efin
  | .add d a b => n.compose .addm d a b .efin
  | .sub d a b => n.compose .subm d a b .efin
  | .select => n.pass .tomk 0 0 0 .efin

/-- A register of an operation, `r[4:0]`. -/
def user (r : BitVec 6) : BitVec 7 := (r.setWidth 5).setWidth 7

def startRsa (n : BnEngine) (op : RsaOp) : BnEngine :=
  let n := { n with op.emode := false }
  match op with
  | .msel a => n.pass .tom 0 (user a) (user a) .ms1
  | .r2 a =>
    { n with
      op.oA := a.setWidth 5
      op.cnt4 := 0 }.compose .addm tmp2 onem onem .r21
  | .mul a b c => n.compose .mul (user a) (user b) (user c) .fin
  | .addm a b c => n.compose .addm (user a) (user b) (user c) .fin
  | .subm a b c => n.compose .subm (user a) (user b) (user c) .fin
  | .csub a b => n.compose .csub (user a) (user b) (user b) .fin
  | .exp a b c d =>
    { n with
      op.oA := a.setWidth 5
      op.oB := b.setWidth 5
      op.oC := c.setWidth 5
      op.bitc := if d ≠ 0 then d ++ 0xF#4 else 1023 }.compose .csub acc onem onem .ex0

/-- S_IDLE: the ECC client goes first. -/
def start (n : BnEngine) (i : BnIn) : BnEngine :=
  match i.ecc, i.rsa with
  | some (op, msel), _ => n.startEcc op msel
  | none, some op => n.startRsa op
  | none, none => n

/-- C_GO. -/
def cGo (n : BnEngine) : BnEngine :=
  let n := { n with
    ctl.psb := s.ctl.cs1
    ctl.psc := s.ctl.cs2
    ctl.ptoff := 0
    ctl.pdst := s.ctl.cdst }
  match s.ctl.ckind with
  | .mul => { n with
      st := .mInit
      ctl.msa := s.ctl.cs1
      ctl.msb := s.ctl.cs2
      ctl.mret := .cFge }
  | .addm => { n with
      st := .eInit
      ctl.pm := .add
      ctl.pret := .cFge }
  | .subm => { n with
      st := .eInit
      ctl.pm := .subm
      ctl.pret := .cFge }
  | .csub => { n with
      st := .eInit
      ctl.pm := .copy
      ctl.pret := .cFge }

/-- The pipeline and what it has in hand are empty. -/
def drained : Bool :=
  !s.pipe.vq0 && !s.pipe.vq1 && !s.pipe.vq2 && !s.pipe.v0 && !s.pipe.v1 && !s.pipe.v2 &&
    !s.pipe.t64p && !s.t.we

/-- The `case` on the state: `s` are the registers before the edge, `n` those `tick` leaves. -/
def fsm (n : BnEngine) (i : BnIn) : BnEngine :=
  let c := s.ctl
  let o := s.op
  match s.st with
  | .idle => n.start i
  | .fin => { n with done := true, st := .idle }
  | .efin => { n with eDone := true, st := .idle }
  | .eInit => { n with
      st := .eA
      word.pj := 0
      word.cy := if c.pm = .subm then 1 else 0 }
  | .eA => { n with
      st := .eB
      rf := n.rf.read (rfa o.emode c.psb (s.word.pj.setWidth 6))
      m := n.m.read (s.word.pj.setWidth 6)
      t := n.t.read (s.word.pj.setWidth 8 + c.ptoff) }
  | .eB => { n with st := .eC }
  | .eC => { n with
      st := .eD
      word.x := s.rf.rq
      word.z := s.m.rq
      word.w := s.t.rq
      rf := n.rf.read (rfa o.emode c.psc (s.word.pj.setWidth 6)) }
  | .eD => { n with st := .eE }
  | .eE => { n with
      st := .eF
      word.y := s.rf.rq }
  | .eF => s.eF { n with st := .eG }
  | .eG =>
    if s.word.pj = s.nlast.setWidth 7 then { n with st := .eFin }
    else { n with
      st := .eA
      word.pj := s.word.pj + 1 }
  | .eFin => s.eFin { n with st := .eFin2 }
  | .eFin2 => { n with st := .eFin3 }
  | .eFin3 => s.eFin3 { n with st := c.pret }
  | .mInit => { n with
      st := .mZ
      mul.mi := 0
      mul.mz := 0 }
  | .mZ => { n with
      t := n.t.write s.mul.mz 0
      mul.mz := s.mul.mz + 1
      st := if s.mul.mz = s.tnw + 1 then .mR0 else .mZ }
  | .mR0 => { n with
      st := .mR1
      rf := n.rf.read (rfa o.emode c.msb (s.mul.mi.setWidth 6)) }
  | .mR1 => { n with st := .mR2 }
  | .mR2 => { n with
      st := .mR3
      pipe.bi := s.rf.rq
      rf := n.rf.read (rfa o.emode c.msa 0)
      t := n.t.read 0
      m := n.m.read 0 }
  | .mR3 => { n with st := .mR4 }
  | .mR4 => { n with
      st := .mR5
      prod.m3a := s.rf.rq
      prod.m3b := s.pipe.bi
      mul.t0v := s.t.rq }
  | .mR5 => { n with st := .mR6 }
  | .mR6 => { n with
      st := .mR7
      prod.m3a := s.mul.t0v + s.prod.m3p.setWidth 16
      prod.m3b := o.nprime }
  | .mR7 => { n with st := .mR8 }
  | .mR8 => { n with
      st := .mS
      pipe.mreg := s.prod.m3p.setWidth 16
      pipe.c1 := 0
      pipe.c2 := 0
      mul.mk := 0 }
  | .mS => { n with
      rf := n.rf.read (rfa o.emode c.msa (s.mul.mk.setWidth 6))
      t := n.t.read s.mul.mk
      m := n.m.read (s.mul.mk.setWidth 6)
      pipe.vq0 := true
      pipe.jq0 := s.mul.mk.setWidth 7
      mul.mk := s.mul.mk + 1
      st := if s.mul.mk = s.tnw then .mDr else .mS }
  | .mDr => if s.drained then { n with st := .mNx } else n
  | .mNx =>
    if s.mul.mi = s.nlast.setWidth 7 then { n with st := c.mret }
    else { n with
      st := .mR0
      mul.mi := s.mul.mi + 1 }
  | .cGo => s.cGo n
  | .cFge => { n with
      st := .eInit
      ctl.pm := .fge
      ctl.pret := .cFwr }
  | .cFwr => { n with
      st := .eInit
      ctl.pm := .fwr
      ctl.pdst := c.cdst
      ctl.pret := c.cret }
  | .ms1 => n.pass .negm onem onem onem .nw0
  | .nw0 => { n with
      st := .nw1
      m := n.m.read 0 }
  | .nw1 => { n with st := .nw2 }
  | .nw2 => { n with
      st := .nw3
      op.nn0 := s.m.rq
      op.nx := s.m.rq
      op.nit := 0 }
  | .nw3 => { n with
      st := .nw4
      prod.m3a := o.nn0
      prod.m3b := o.nx }
  | .nw4 => { n with st := .nw5 }
  | .nw5 => { n with
      st := .nw6
      prod.m3a := o.nx
      prod.m3b := 2 - s.prod.m3p.setWidth 16 }
  | .nw6 => { n with st := .nw7 }
  | .nw7 => { n with
      op.nx := s.prod.m3p.setWidth 16
      op.nit := o.nit + 1
      st := if o.nit = 2 then .nw8 else .nw3 }
  | .nw8 => { n with
      op.nprime := 0 - o.nx
      st := .fin }
  | .r21 =>
    { n with op.cnt4 := o.cnt4 + 1 }.compose .mul tmp2 tmp2 tmp2 (if o.cnt4 = 9 then .r22 else .r21)
  | .r22 => n.compose .csub (o.oA.setWidth 7) tmp2 tmp2 .fin
  | .ex0 => { n with
      st := .ex1
      rf := n.rf.read (o.oC ++ o.bitc.extractLsb' 4 6) }
  | .ex1 => { n with st := .ex2 }
  | .ex2 =>
    { n with op.ebit := s.rf.rq.getLsbD (o.bitc.extractLsb' 0 4).toNat }.compose .mul acc acc acc .ex3
  | .ex3 => n.compose .mul (if o.ebit then acc else tmp) acc (o.oB.setWidth 7) .ex4
  | .ex4 =>
    if o.bitc = 0 then n.compose .csub (o.oA.setWidth 7) acc acc .fin
    else { n with
      op.bitc := o.bitc - 1
      st := .ex0 }

def clock (i : BnIn) : BnEngine := s.fsm (s.tick i) i

end BnEngine

end GoiKey.Rtl
