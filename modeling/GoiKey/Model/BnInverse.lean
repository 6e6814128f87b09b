import GoiKey.Model.BnEngine

/-!
The arithmetic modulo 65537 of bn_engine.v: RKINV and RDP with the states of the word
engine they go through. `clock` is one rising edge of `clk` with the reset released. Both work
on registers of 64 words, and the immediate 65537 is not looked at. What these modes of the
word engine do not use (the second operand, the modulus and the accumulator) is left out.
-/

namespace GoiKey.Rtl

inductive InvState where
  | idle
  | fin
  /-- The word engine. -/
  | eInit
  | eA
  | eB
  | eC
  | eD
  | eE
  | eF
  | eG
  | eFin
  | eFin2
  | eFin3
  | eRed
  /-- RKINV. -/
  | ki0
  | ki1
  | ki2
  | ki3
  | ki4
  /-- RDP. -/
  | dp0
  | dp1
  | dp2
  | dp3
  | dp4
  deriving DecidableEq, Repr

/-- The modes of the word engine. -/
inductive InvPm where
  | fill
  | rem
  | dp
  deriving DecidableEq, Repr

inductive InvOp where
  | kinv (a b : BitVec 6)
  | dp (a b c : BitVec 6)
  deriving DecidableEq, Repr

structure InvIn where
  start : Option InvOp
  x : ExternalPort

/-- How a pass of the word engine is set up, and what an operation keeps. -/
structure InvCtl where
  pret : InvState
  pm : InvPm
  pdst : BitVec 7
  psb : BitVec 7
  pimm : BitVec 32
  pk : BitVec 17
  oA : BitVec 5
  oB : BitVec 5
  oC : BitVec 5

/-- What the word engine takes from word to word. -/
structure InvWord where
  pj : BitVec 7
  pv : BitVec 16
  cy : BitVec 20
  cc : BitVec 2
  racc : BitVec 24

/-- The multiplier of the arithmetic modulo 65537: operands and product. -/
structure InvProduct where
  ka : BitVec 17
  kb : BitVec 17
  kp : BitVec 34

def InvProduct.clock (m : InvProduct) : InvProduct := { m with kp := m.ka.setWidth 34 * m.kb.setWidth 34 }

/-- The exponentiation. -/
structure InvPower where
  kx : BitVec 17
  kr : BitVec 17
  kn : BitVec 5
  kphase : Bool
  kK : BitVec 17

structure BnInverse where
  st : InvState
  ctl : InvCtl
  word : InvWord
  x : BitVec 16
  prod : InvProduct
  power : InvPower
  peRes : BitVec 17
  rf : BlockRam 11
  done : Bool

namespace BnInverse

variable (s n : BnInverse)

/-! The datapath. -/

def immw : BitVec 16 :=
  if s.word.pj = 0 then s.ctl.pimm.extractLsb' 0 16 else if s.word.pj = 1 then s.ctl.pimm.extractLsb' 16 16 else 0

def kadd : BitVec 34 :=
  s.prod.kp + s.word.cy.setWidth 34 + (BitVec.ofBool (s.word.pj = 0)).setWidth 34

def dpd : BitVec 17 := (s.kadd.extractLsb' 0 16).setWidth 17 - s.word.pv.setWidth 17 - s.word.cc.setWidth 17

def dps : BitVec 18 := (s.dpd.extractLsb' 0 16).setWidth 18 + s.word.pv.setWidth 18 + s.word.cc.setWidth 18

/-- `lo - hi` of the product, in 19 bits with a sign. -/
def kdiff : BitVec 19 :=
  (s.prod.kp.extractLsb' 0 16).setWidth 19 - (s.prod.kp.extractLsb' 16 18).setWidth 19

def kmod : BitVec 17 :=
  if s.kdiff.slt 0 then (s.kdiff + 65537#19).setWidth 17 else s.kdiff.extractLsb' 0 17

/-- Where a word of a register stands; both operations work with `emode` low. -/
def addr (r : BitVec 7) (w : BitVec 6) : BitVec 11 := rfa false r w

/-- Everything before the `case`. -/
def tick (i : InvIn) : BnInverse :=
  { s with
    done := false
    prod := s.prod.clock
    rf := if s.st = .idle then s.rf.clockExternal i.x else s.rf.clock }

/-- A pass of the word engine is set up. -/
def pass (pm : InvPm) (pdst psb : BitVec 7) (pimm : BitVec 32) (pret : InvState) : BnInverse :=
  { n with
    st := .eInit
    ctl.pm := pm
    ctl.pdst := pdst
    ctl.psb := psb
    ctl.pimm := pimm
    ctl.pret := pret }

/-- S_IDLE. -/
def start (op : InvOp) : BnInverse :=
  match op with
  | .kinv a b =>
    { n with
      ctl.oA := a.setWidth 5
      ctl.oB := b.setWidth 5 }.pass .rem 0 ((b.setWidth 5).setWidth 7) 0 .ki0
  | .dp a b c => { n with
      ctl.oA := a.setWidth 5
      ctl.oB := b.setWidth 5
      ctl.oC := c.setWidth 5
      st := .dp0 }

/-- E_F: what a mode does with the word it has read. -/
def eF : BnInverse :=
  let dst := addr s.ctl.pdst (s.word.pj.setWidth 6)
  match s.ctl.pm with
  | .fill => { n with rf := n.rf.write dst s.immw }
  | .rem => { n with
      word.racc := if s.word.pj.getLsbD 0 then s.word.racc - s.x.setWidth 24
        else s.word.racc + s.x.setWidth 24 }
  | .dp => { n with
      rf := if s.word.pj < 64 then n.rf.write dst (s.dpd.setWidth 16) else n.rf
      word.cy := (s.kadd.extractLsb' 16 18).setWidth 20
      word.cc := s.dps.extractLsb' 16 2
      word.pv := s.dpd.setWidth 16 }

/-- KI_2: the remainder of the product is the next power. -/
def ki2 : BnInverse :=
  let n := { n with
    power.kr := s.kmod
    power.kphase := !s.power.kphase }
  if !s.power.kphase then { n with
    prod.ka := s.kmod
    prod.kb := s.power.kx
    st := .ki1 }
  else if s.power.kn = 14 then { n with
    power.kn := s.power.kn + 1
    st := .ki3 }
  else { n with
    power.kn := s.power.kn + 1
    prod.ka := s.kmod
    prod.kb := s.kmod
    st := .ki1 }

/-- The `case` on the state: `s` are the registers before the edge, `n` those `tick` leaves. -/
def fsm (i : InvIn) : BnInverse :=
  match s.st with
  | .idle => i.start.elim n n.start
  | .fin => { n with done := true, st := .idle }
  | .eInit => { n with
      st := .eA
      word.pj := 0
      word.pv := 0
      word.cc := 0
      word.racc := 0
      word.cy := 0 }
  | .eA => { n with
      st := .eB
      rf := n.rf.read (addr s.ctl.psb (s.word.pj.setWidth 6)) }
  | .eB => { n with st := .eC }
  | .eC => { n with
      st := .eD
      x := s.rf.rq }
  | .eD => { n with
      st := .eE
      prod.ka := s.ctl.pk
      prod.kb := s.x.setWidth 17 }
  | .eE => { n with st := .eF }
  | .eF => s.eF { n with st := .eG }
  | .eG =>
    if s.word.pj = 63 then { n with st := .eFin }
    else { n with
      st := .eA
      word.pj := s.word.pj + 1 }
  | .eFin => { n with st := .eFin2 }
  | .eFin2 => { n with st := .eFin3 }
  | .eFin3 => { n with st := if s.ctl.pm = .rem then .eRed else s.ctl.pret }
  | .eRed =>
    if s.word.racc.slt 0 then { n with word.racc := s.word.racc + 65537#24 }
    else if (65537#24).sle s.word.racc then { n with word.racc := s.word.racc - 65537#24 }
    else { n with
      peRes := s.word.racc.extractLsb' 0 17
      st := s.ctl.pret }
  | .ki0 => { n with
      power.kx := s.peRes
      power.kr := s.peRes
      power.kn := 0
      power.kphase := false
      prod.ka := s.peRes
      prod.kb := s.peRes
      st := .ki1 }
  | .ki1 => { n with st := .ki2 }
  | .ki2 => s.ki2 n
  | .ki3 => { n with
      power.kK := 65537#17 - s.power.kr
      st := .ki4 }
  | .ki4 => n.pass .fill (s.ctl.oA.setWidth 7) 0 (s.power.kK.setWidth 32) .fin
  | .dp0 => { n with
      rf := n.rf.read (s.ctl.oC ++ 0#6)
      st := .dp1 }
  | .dp1 => { n with st := .dp2 }
  | .dp2 => { n with
      power.kK := s.power.kK.extractLsb' 16 1 ++ s.rf.rq
      rf := n.rf.read (s.ctl.oC ++ 1#6)
      st := .dp3 }
  | .dp3 => { n with st := .dp4 }
  | .dp4 =>
    { n with ctl.pk := BitVec.ofBool (s.rf.rq.getLsbD 0) ++ s.power.kK.extractLsb' 0 16 }.pass .dp
      (s.ctl.oA.setWidth 7) (s.ctl.oB.setWidth 7) 0 .fin

def clock (i : InvIn) : BnInverse := s.fsm (s.tick i) i

end BnInverse

end GoiKey.Rtl
