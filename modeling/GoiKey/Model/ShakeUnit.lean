import Mathlib.Data.BitVec
import GoiKey.Lib.SyncRam

/-!
keccak_core.v: Keccak-f[1600] lane by lane, and shake_unit.v: SHAKE128 and SHAKE256 over it,
byte by byte. `clock` is one rising edge of `clk` with the reset released; in each part `s` are
the registers before it.
-/

namespace GoiKey.Rtl

/-! keccak_tab.vh. -/

def keccakRcTable : List (BitVec 64) :=
  [0x0000000000000001, 0x0000000000008082, 0x800000000000808a, 0x8000000080008000, 0x000000000000808b,
    0x0000000080000001, 0x8000000080008081, 0x8000000000008009, 0x000000000000008a, 0x0000000000000088,
    0x0000000080008009, 0x000000008000000a, 0x000000008000808b, 0x800000000000008b, 0x8000000000008089,
    0x8000000000008003, 0x8000000000008002, 0x8000000000000080, 0x000000000000800a, 0x800000008000000a,
    0x8000000080008081, 0x8000000000008080, 0x0000000080000001, 0x8000000080008008]

def keccakRotTable : List (BitVec 6) :=
  [0, 1, 62, 28, 27, 36, 44, 6, 55, 20, 3, 10, 43, 25, 39, 41, 45, 15, 21, 8, 18, 2, 61, 56, 14]

namespace Keccak

def keccakRc (r : BitVec 5) : BitVec 64 := keccakRcTable.getD r.toNat 0

def keccakRot (i : BitVec 5) : BitVec 6 := keccakRotTable.getD i.toNat 0

inductive State where
  | idle
  | clr
  | x1
  | x2
  | a
  | b
  | gap
  | cg
  | cw
  deriving DecidableEq

/-- Five lanes that shift: the first one is at the top. -/
structure Ring where
  w0 : BitVec 64
  w1 : BitVec 64
  w2 : BitVec 64
  w3 : BitVec 64
  w4 : BitVec 64

def Ring.push (r : Ring) (x : BitVec 64) : Ring := ⟨r.w1, r.w2, r.w3, r.w4, x⟩

/-- The inputs of the core. -/
structure In where
  clear : Bool
  /-- `xor_en`, with the lane and the value. -/
  xor : Option (BitVec 5 × BitVec 64)
  perm : Bool
  rdLane : BitVec 5

def lane5 (x y : BitVec 3) : BitVec 5 := x.setWidth 5 + y.setWidth 5 <<< 2 + y.setWidth 5

def mod5 (v : BitVec 5) : BitVec 3 :=
  if 15 ≤ v then (v - 15).setWidth 3
  else if 10 ≤ v then (v - 10).setWidth 3
  else if 5 ≤ v then (v - 5).setWidth 3
  else v.setWidth 3

/-- The source lane of element `x` of output row `r`. -/
def srcl (r x : BitVec 3) : BitVec 5 :=
  lane5 (mod5 (r.setWidth 5 + r.setWidth 5 + r.setWidth 5 + x.setWidth 5)) x

/-- The stages of the rotator. -/
def rotl64 (x : BitVec 64) (n : BitVec 6) : BitVec 64 :=
  let v := x
  let v := if n.getLsbD 0 then v.extractLsb' 0 63 ++ v.extractLsb' 63 1 else v
  let v := if n.getLsbD 1 then v.extractLsb' 0 62 ++ v.extractLsb' 62 2 else v
  let v := if n.getLsbD 2 then v.extractLsb' 0 60 ++ v.extractLsb' 60 4 else v
  let v := if n.getLsbD 3 then v.extractLsb' 0 56 ++ v.extractLsb' 56 8 else v
  let v := if n.getLsbD 4 then v.extractLsb' 0 48 ++ v.extractLsb' 48 16 else v
  if n.getLsbD 5 then v.extractLsb' 0 32 ++ v.extractLsb' 32 32 else v

end Keccak

open Keccak

structure KeccakCore where
  ram : SyncRam (BitVec 6) (BitVec 64)
  st : Keccak.State
  done : Bool
  /-- The active bank. -/
  cur : Bool
  c : BitVec 5
  rnd : BitVec 5
  ix : BitVec 3
  iy : BitVec 3
  cx : BitVec 3
  cy : BitVec 3
  row : BitVec 3
  xl : BitVec 5
  xv : BitVec 64
  cacc : BitVec 64
  cr : Ring
  rr : Ring

namespace KeccakCore

variable (s n : KeccakCore) (i : Keccak.In)

def busy : Bool := s.st ≠ .idle

def rdVal : BitVec 64 := s.ram.rq

/-- `{cur, l}`. -/
def addr (cur : Bool) (l : BitVec 5) : BitVec 6 := BitVec.ofBool cur ++ l

/-- `D[x]`. -/
def dtap : BitVec 64 := s.cr.w4 ^^^ (s.cr.w1.extractLsb' 0 63 ++ s.cr.w1.extractLsb' 63 1)

def rotv : BitVec 64 := rotl64 s.ram.rq (keccakRot (srcl s.row s.cx))

def chiO : BitVec 64 := s.rr.w0 ^^^ (~~~s.rr.w1 &&& s.rr.w2)

def wval : BitVec 64 := if s.row = 0 ∧ s.cx = 0 then s.chiO ^^^ keccakRc s.rnd else s.chiO

/-- The next lane is asked for, in the order of the columns. -/
def issue : KeccakCore :=
  if s.c ≤ 24 then
    { n with
      ram := n.ram.read (addr s.cur (lane5 s.ix s.iy))
      iy := if s.iy = 4 then 0 else s.iy + 1
      ix := if s.iy = 4 then s.ix + 1 else n.ix }
  else n

/-- The counters of a pass over the lanes. -/
def restart : KeccakCore := { n with c := 0, ix := 0, iy := 0, cx := 0, cy := 0 }

/-- Pass A: the parities of the columns. -/
def passA : KeccakCore :=
  let n := s.issue n
  let n :=
    if 2 ≤ s.c then
      if s.cy = 4 then { n with cr := s.cr.push (s.cacc ^^^ s.ram.rq), cy := 0, cx := s.cx + 1 }
      else { n with cacc := if s.cy = 0 then s.ram.rq else s.cacc ^^^ s.ram.rq, cy := s.cy + 1 }
    else n
  if s.c = 26 then { restart n with st := .b } else { n with c := s.c + 1 }

/-- Pass B: theta, in place. -/
def passB : KeccakCore :=
  let n := s.issue n
  let n :=
    if 2 ≤ s.c then
      let n := { n with ram := n.ram.write (addr s.cur (lane5 s.cx s.cy)) (s.ram.rq ^^^ s.dtap) }
      if s.cy = 4 then { n with cy := 0, cx := s.cx + 1, cr := s.cr.push s.cr.w0 }
      else { n with cy := s.cy + 1 }
    else n
  if s.c = 26 then { n with c := 0, row := 0, st := .gap } else { n with c := s.c + 1 }

/-- A row is gathered. -/
def gather : KeccakCore :=
  let n := if s.c ≤ 4 then { n with ram := n.ram.read (addr s.cur (srcl s.row s.ix)), ix := s.ix + 1 } else n
  let n := if 2 ≤ s.c then { n with rr := s.rr.push s.rotv, cx := s.cx + 1 } else n
  if s.c = 6 then { n with c := 0, cx := 0, st := .cw } else { n with c := s.c + 1 }

/-- The row goes into the other bank. -/
def scatter : KeccakCore :=
  let n := { n with ram := n.ram.write (addr (!s.cur) (lane5 s.cx s.row)) s.wval, rr := s.rr.push s.rr.w0 }
  if s.cx = 4 then
    if s.row = 4 then
      let n := { n with cur := !s.cur }
      if s.rnd = 23 then { n with st := .idle, done := true }
      else { restart n with rnd := s.rnd + 1, st := .a }
    else { n with row := s.row + 1, c := 0, ix := 0, cx := 0, st := .cg }
  else { n with cx := s.cx + 1 }

def clock : KeccakCore :=
  let n := { s with ram := s.ram.clock, done := false }
  match s.st with
  | .idle =>
    let n := { n with ram := n.ram.read (addr s.cur i.rdLane) }
    if i.clear then { n with c := 0, st := .clr }
    else if i.perm then { restart n with rnd := 0, st := .a }
    else
      match i.xor with
      | some (l, v) => { n with xl := l, xv := v, ram := n.ram.read (addr s.cur l), st := .x1 }
      | none => n
  | .clr =>
    let n := { n with ram := n.ram.write (addr s.cur s.c) 0 }
    if s.c = 24 then { n with st := .idle } else { n with c := s.c + 1 }
  | .x1 => { n with st := .x2 }
  | .x2 => { n with ram := n.ram.write (addr s.cur s.xl) (s.ram.rq ^^^ s.xv), st := .idle }
  | .a => s.passA n
  | .b => s.passB n
  | .gap => { n with c := 0, ix := 0, cx := 0, st := .cg }
  | .cg => s.gather n
  | .cw => s.scatter n

/-- `rst_n` low. -/
def reset : KeccakCore :=
  { s with st := .idle, done := false, cur := false, ram.we := false, ram.ra := 0, rnd := 0, c := 0 }

end KeccakCore

namespace Shake

inductive State where
  | abs
  | fin2
  | pw0
  | pgo
  | pwait
  | sq
  | clr
  | clr0
  deriving DecidableEq

/-- The inputs of the unit. -/
structure In where
  /-- `init`, with `mode`. -/
  init : Option Bool
  /-- `in_valid`, with the byte. -/
  inByte : Option (BitVec 8)
  finalize : Bool
  outTake : Bool

end Shake

open Shake

structure ShakeUnit where
  kc : KeccakCore
  m256 : Bool
  /-- The lane pointer. -/
  lp : BitVec 5
  /-- The bytes staged in `sw`. -/
  bc : BitVec 3
  sw : BitVec 56
  /-- The position within the rate. -/
  pos : BitVec 8
  st : Shake.State
  /-- After the permutation the unit squeezes. -/
  afterSq : Bool
  cool : BitVec 2
  rdw : BitVec 2
  kcPerm : Bool
  kcXor : Bool
  kcClear : Bool
  kcLane : BitVec 5
  kcVal : BitVec 64

namespace ShakeUnit

variable (s n : ShakeUnit) (i : Shake.In)

def rateLanes : BitVec 5 := if s.m256 then 17 else 21

def rateBytes : BitVec 8 := if s.m256 then 136 else 168

def coreOk : Bool := !s.kc.busy && s.cool = 0 && !s.kcXor && !s.kcPerm && !s.kcClear

def inReady : Bool := s.st = .abs && s.coreOk

def outReady : Bool := s.st = .sq && s.rdw = 0

def outByte : BitVec 8 := s.kc.rdVal.extractLsb' (8 * (s.pos.extractLsb' 0 3).toNat) 8

def lastLane : Bool := s.lp + 1 = s.rateLanes

def padLane : BitVec 64 :=
  0#8 ++ s.sw ||| 0x1f#64 <<< (8 * s.bc.toNat) ||| if s.lastLane then 0x8000000000000000 else 0

/-- What the core is given. -/
def kcIn : Keccak.In where
  clear := s.kcClear
  xor := if s.kcXor then some (s.kcLane, s.kcVal) else none
  perm := s.kcPerm
  rdLane := s.pos.extractLsb' 3 5

/-- `sw[8*bc +: 8] <= in_byte`. -/
def staged (b : BitVec 8) : BitVec 56 :=
  s.sw &&& ~~~(0xff#56 <<< (8 * s.bc.toNat)) ||| b.setWidth 56 <<< (8 * s.bc.toNat)

/-- A lane is to be put into the state. -/
def xorLane (l : BitVec 5) (v : BitVec 64) : ShakeUnit := { n with kcXor := true, kcLane := l, kcVal := v, cool := 3 }

/-- A byte is taken up. -/
def take (b : BitVec 8) : ShakeUnit :=
  if s.bc = 7 then
    let n := { xorLane n s.lp (b ++ s.sw) with bc := 0, sw := 0 }
    if s.lastLane then { n with lp := 0, afterSq := false, st := .pw0 } else { n with lp := s.lp + 1 }
  else { n with sw := s.staged b, bc := s.bc + 1 }

/-- `finalize`. -/
def pad : ShakeUnit :=
  { xorLane n s.lp s.padLane with afterSq := true, st := if s.lastLane then .pw0 else .fin2 }

/-- A byte is taken out. -/
def give : ShakeUnit :=
  if s.pos + 1 = s.rateBytes then { n with pos := 0, afterSq := true, st := .pgo }
  else { n with pos := s.pos + 1, rdw := if s.pos.extractLsb' 0 3 = 7 then 2 else n.rdw }

def clock : ShakeUnit :=
  let n :=
    { s with
      kc := s.kc.clock s.kcIn
      kcPerm := false
      kcXor := false
      kcClear := false
      cool := if s.cool = 0 then 0 else s.cool - 1 }
  match i.init with
  | some mode => { n with m256 := mode, lp := 0, bc := 0, sw := 0, pos := 0, st := .clr0 }
  | none =>
    match s.st with
    | .clr0 => if s.coreOk then { n with kcClear := true, cool := 3, st := .clr } else n
    | .clr => if s.coreOk then { n with st := .abs } else n
    | .abs =>
      if s.coreOk then
        match i.inByte with
        | some b => s.take n b
        | none => if i.finalize then s.pad n else n
      else n
    | .fin2 => if s.coreOk then { xorLane n (s.rateLanes - 1) 0x8000000000000000 with st := .pw0 } else n
    | .pw0 => if s.coreOk then { n with st := .pgo } else n
    | .pgo => { n with kcPerm := true, cool := 3, st := .pwait }
    | .pwait =>
      if s.kc.done then (if s.afterSq then { n with pos := 0, rdw := 2, st := .sq } else { n with st := .abs }) else n
    | .sq =>
      if s.rdw ≠ 0 then { n with rdw := s.rdw - 1 }
      else if i.outTake then s.give n
      else n

/-- `rst_n` low. -/
def reset : ShakeUnit :=
  { s with
    kc := s.kc.reset
    st := .abs
    kcPerm := false
    kcXor := false
    kcClear := false
    lp := 0
    bc := 0
    pos := 0
    m256 := false
    sw := 0
    afterSq := false
    cool := 0
    rdw := 0 }

end ShakeUnit

end GoiKey.Rtl
