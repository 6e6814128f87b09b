import Mathlib.Data.BitVec
import GoiKey.Lib.SyncRam

/-!
sha2_unit.v: SHA-256, HMAC-SHA256, PBKDF2-HMAC-SHA256 and SHA-512 on one datapath. `clock`
is one rising edge of `clk` with the reset released; in each part `s` are the registers
before it. `src_q` and `padding`, which nothing reads, are left out.
-/

namespace GoiKey.Rtl

/-! sha2_rom.vh. -/

def k256Rom : List (BitVec 64) :=
  [0x428a2f98, 0x71374491, 0xb5c0fbcf, 0xe9b5dba5, 0x3956c25b, 0x59f111f1, 0x923f82a4, 0xab1c5ed5,
    0xd807aa98, 0x12835b01, 0x243185be, 0x550c7dc3, 0x72be5d74, 0x80deb1fe, 0x9bdc06a7, 0xc19bf174,
    0xe49b69c1, 0xefbe4786, 0x0fc19dc6, 0x240ca1cc, 0x2de92c6f, 0x4a7484aa, 0x5cb0a9dc, 0x76f988da,
    0x983e5152, 0xa831c66d, 0xb00327c8, 0xbf597fc7, 0xc6e00bf3, 0xd5a79147, 0x06ca6351, 0x14292967,
    0x27b70a85, 0x2e1b2138, 0x4d2c6dfc, 0x53380d13, 0x650a7354, 0x766a0abb, 0x81c2c92e, 0x92722c85,
    0xa2bfe8a1, 0xa81a664b, 0xc24b8b70, 0xc76c51a3, 0xd192e819, 0xd6990624, 0xf40e3585, 0x106aa070,
    0x19a4c116, 0x1e376c08, 0x2748774c, 0x34b0bcb5, 0x391c0cb3, 0x4ed8aa4a, 0x5b9cca4f, 0x682e6ff3,
    0x748f82ee, 0x78a5636f, 0x84c87814, 0x8cc70208, 0x90befffa, 0xa4506ceb, 0xbef9a3f7, 0xc67178f2]

def k512Rom : List (BitVec 64) :=
  [0x428a2f98d728ae22, 0x7137449123ef65cd, 0xb5c0fbcfec4d3b2f, 0xe9b5dba58189dbbc,
    0x3956c25bf348b538, 0x59f111f1b605d019, 0x923f82a4af194f9b, 0xab1c5ed5da6d8118,
    0xd807aa98a3030242, 0x12835b0145706fbe, 0x243185be4ee4b28c, 0x550c7dc3d5ffb4e2,
    0x72be5d74f27b896f, 0x80deb1fe3b1696b1, 0x9bdc06a725c71235, 0xc19bf174cf692694,
    0xe49b69c19ef14ad2, 0xefbe4786384f25e3, 0x0fc19dc68b8cd5b5, 0x240ca1cc77ac9c65,
    0x2de92c6f592b0275, 0x4a7484aa6ea6e483, 0x5cb0a9dcbd41fbd4, 0x76f988da831153b5,
    0x983e5152ee66dfab, 0xa831c66d2db43210, 0xb00327c898fb213f, 0xbf597fc7beef0ee4,
    0xc6e00bf33da88fc2, 0xd5a79147930aa725, 0x06ca6351e003826f, 0x142929670a0e6e70,
    0x27b70a8546d22ffc, 0x2e1b21385c26c926, 0x4d2c6dfc5ac42aed, 0x53380d139d95b3df,
    0x650a73548baf63de, 0x766a0abb3c77b2a8, 0x81c2c92e47edaee6, 0x92722c851482353b,
    0xa2bfe8a14cf10364, 0xa81a664bbc423001, 0xc24b8b70d0f89791, 0xc76c51a30654be30,
    0xd192e819d6ef5218, 0xd69906245565a910, 0xf40e35855771202a, 0x106aa07032bbd1b8,
    0x19a4c116b8d2d0c8, 0x1e376c085141ab53, 0x2748774cdf8eeb99, 0x34b0bcb5e19b48a8,
    0x391c0cb3c5c95a63, 0x4ed8aa4ae3418acb, 0x5b9cca4f7763e373, 0x682e6ff3d6b2b8a3,
    0x748f82ee5defb2fc, 0x78a5636f43172f60, 0x84c87814a1f0ab72, 0x8cc702081a6439ec,
    0x90befffa23631e28, 0xa4506cebde82bde9, 0xbef9a3f7b2c67915, 0xc67178f2e372532b,
    0xca273eceea26619c, 0xd186b8c721c0c207, 0xeada7dd6cde0eb1e, 0xf57d4f7fee6ed178,
    0x06f067aa72176fba, 0x0a637dc5a2c898a6, 0x113f9804bef90dae, 0x1b710b35131c471b,
    0x28db77f523047d84, 0x32caab7b40c72493, 0x3c9ebe0a15c9bebc, 0x431d67c49c100d4c,
    0x4cc5d4becb3e42b6, 0x597f299cfc657e2a, 0x5fcb6fab3ad6faec, 0x6c44198c4a475817]

def iv256Rom : List (BitVec 64) :=
  [0x6a09e667, 0xbb67ae85, 0x3c6ef372, 0xa54ff53a, 0x510e527f, 0x9b05688c, 0x1f83d9ab, 0x5be0cd19]

def iv512Rom : List (BitVec 64) :=
  [0x6a09e667f3bcc908, 0xbb67ae8584caa73b, 0x3c6ef372fe94f82b, 0xa54ff53a5f1d36f1,
    0x510e527fade682d1, 0x9b05688c2b3e6c1f, 0x1f83d9abfb41bd6b, 0x5be0cd19137e2179]

/-- The contents of the RAM at power-up. What the file does not give is 0 here. -/
def sha2Rom (a : BitVec 9) : BitVec 64 :=
  let n := a.toNat
  if n < 128 then 0
  else if n < 192 then k256Rom.getD (n - 128) 0
  else if n < 272 then k512Rom.getD (n - 192) 0
  else if n < 280 then iv256Rom.getD (n - 272) 0
  else iv512Rom.getD (n - 280) 0

namespace Sha2

/-! The map of the RAM. -/

def BLK : BitVec 9 := 0
def KEY : BitVec 9 := 16
def IST : BitVec 9 := 32
def OST : BitVec 9 := 40
def CUR : BitVec 9 := 48
def UREG : BitVec 9 := 56
def TACC : BitVec 9 := 64
def XI : BitVec 9 := 72
def K256 : BitVec 9 := 128
def K512 : BitVec 9 := 192
def IV256 : BitVec 9 := 272
def IV512 : BitVec 9 := 280

inductive Mode where
  | sha
  | hmac
  | pbkdf2
  | sha512
  deriving DecidableEq, Repr

/-- The phases of the compression engine. -/
inductive Phase where
  | idle
  | chain
  | window
  | rounds
  | final
  deriving DecidableEq, Repr

/-- Where the engine takes its chaining value from. -/
inductive Src where
  | initial
  | ipad
  | opad
  | cur
  deriving DecidableEq, Repr

inductive State where
  | idle
  | key
  | der
  | wc
  | stream
  | bend
  | idx
  | pad
  | after
  | tpass
  | fin
  deriving DecidableEq, Repr

/-- What comes after a compression. -/
inductive After where
  | ipad
  | opad
  | blk
  | outer
  | l1
  | l2
  deriving DecidableEq, Repr

structure Chains where
  a : BitVec 64
  b : BitVec 64
  c : BitVec 64
  d : BitVec 64
  e : BitVec 64
  f : BitVec 64
  g : BitVec 64
  h : BitVec 64

/-- What the engine is started with. -/
structure Launch where
  src : Src
  dg : Bool
  dbase : BitVec 9
  dst : BitVec 9

structure Engine where
  cGo : Option Launch
  cDone : Bool
  cp : Phase
  cn : BitVec 7
  v : Chains
  w : Nat → BitVec 64
  sbase : BitVec 9
  dg : Bool
  dbase : BitVec 9
  dst : BitVec 9

/-- The control of the unit. -/
structure Ctl where
  md : Mode
  st : State
  resume : State
  aft : After
  sn : BitVec 7
  itersR : BitVec 32
  jcnt : BitVec 32
  total : BitVec 32
  lsh : BitVec 64
  cnt : BitVec 7
  bc : BitVec 3
  sh64 : BitVec 64
  nkw : BitVec 5
  kcnt : BitVec 7
  kw32 : BitVec 32
  first : Bool
  last : Bool
  dpad : Bool
  tcopy : Bool
  nolen : Bool
  pstage : BitVec 2
  pbi : BitVec 32
  obase : BitVec 9

structure In where
  beginOp : Option (Mode × BitVec 32)
  pbIdx : BitVec 32
  keyWr : Option (BitVec 8)
  keyDone : Bool
  inByte : Option (BitVec 8)
  msgEnd : Bool
  dgRa : BitVec 3

namespace Ctl

variable (c n : Ctl) (i : In)

def m512 : Bool := c.md = .sha512

def plain : Bool := c.md = .sha || c.md = .sha512

/-! The staging of bytes. -/

def padByte : BitVec 8 := if c.pstage = 0 then 0x80 else if c.pstage = 1 then 0 else c.lsh.extractLsb' 56 8

def idxByte : BitVec 8 :=
  if c.sn.extractLsb' 0 2 = 0 then c.pbi.extractLsb' 24 8
  else if c.sn.extractLsb' 0 2 = 1 then c.pbi.extractLsb' 16 8
  else if c.sn.extractLsb' 0 2 = 2 then c.pbi.extractLsb' 8 8
  else c.pbi.extractLsb' 0 8

/-- `push` with `pbyte`. -/
def push : Option (BitVec 8) :=
  match c.st with
  | .stream => i.inByte
  | .pad => some c.padByte
  | .idx => some c.idxByte
  | _ => none

def wordDone : Bool := if c.m512 then c.bc = 7 else c.bc.extractLsb' 0 2 = 3

def blkLast : Bool := if c.m512 then c.cnt = 127 else c.cnt.extractLsb' 0 6 = 63

/-- The last byte before the length field. -/
def lenPos : Bool := if c.m512 then c.cnt = 119 else c.cnt.extractLsb' 0 6 = 55

def padConst : BitVec 32 := if c.dpad then 0x5c5c5c5c else 0x36363636

def nxt : State := if c.st = .idx then (if c.sn.extractLsb' 0 2 = 3 then .pad else .idx) else c.st

/-- `{sh64[55:0], pbyte}`. -/
def shifted (b : BitVec 8) : BitVec 64 := c.sh64.extractLsb' 0 56 ++ b

def wordAddr : BitVec 9 :=
  BLK + if c.m512 then (c.cnt.extractLsb' 3 4).setWidth 9 else (c.cnt.extractLsb' 2 4).setWidth 9

def stage (b : BitVec 8) : Ctl :=
  let m :=
    { c with
      sh64 := c.shifted b
      bc := if c.wordDone then 0 else c.bc + 1
      cnt := if c.blkLast then 0 else c.cnt + 1
      total := c.total + 1 }
  if c.blkLast then { m with resume := c.nxt, st := .bend }
  else if c.st = .idx then { m with st := c.nxt, sn := c.sn + 1 }
  else m

/-- The state U_PAD: `n` is what the staging leaves. -/
def padStep : Ctl :=
  if c.pstage = 0 then
    { n with
      lsh := 0#29 ++ c.total ++ 0#3
      -- SHA-512: a marker at byte 112..127 pushes the length field into the next block
      nolen := c.m512 && 111 < c.cnt && !c.blkLast
      pstage := if c.lenPos then 2 else 1 }
  else if c.pstage = 1 then
    { n with
      pstage := if c.lenPos && !c.nolen then 2 else n.pstage
      nolen := if c.blkLast then false else n.nolen }
  else
    { n with
      lsh := c.lsh.extractLsb' 0 56 ++ 0#8
      last := if c.blkLast then true else n.last }

end Ctl

end Sha2

open Sha2

structure Sha2Unit where
  ram : SyncRam (BitVec 9) (BitVec 64)
  eng : Engine
  ctl : Ctl
  xa : BitVec 64
  /-- The word that is to be written, with its address: `wph`. -/
  wph : Option (BitVec 9 × BitVec 64)
  busy : Bool
  done : Bool
  overrun : Bool

namespace Sha2Unit

variable (s n : Sha2Unit) (i : In)

/-! The datapath of the engine. -/

def rotr64 (x : BitVec 64) (n : Nat) : BitVec 64 := x >>> n ||| x <<< (64 - n)

def rotr32 (x : BitVec 32) (n : Nat) : BitVec 32 := x >>> n ||| x <<< (32 - n)

def low (x : BitVec 64) : BitVec 32 := x.extractLsb' 0 32

/-- The upper half is that of the first word, the lower one depends on the mode. -/
def merge (m512 : Bool) (l : BitVec 64) (s : BitVec 32) : BitVec 64 :=
  l.extractLsb' 32 32 ++ if m512 then low l else s

def S1 (m512 : Bool) (e : BitVec 64) : BitVec 64 :=
  merge m512 (rotr64 e 14 ^^^ rotr64 e 18 ^^^ rotr64 e 41) (rotr32 (low e) 6 ^^^ rotr32 (low e) 11 ^^^ rotr32 (low e) 25)

def S0 (m512 : Bool) (a : BitVec 64) : BitVec 64 :=
  merge m512 (rotr64 a 28 ^^^ rotr64 a 34 ^^^ rotr64 a 39) (rotr32 (low a) 2 ^^^ rotr32 (low a) 13 ^^^ rotr32 (low a) 22)

def sg0 (m512 : Bool) (w1 : BitVec 64) : BitVec 64 :=
  merge m512 (rotr64 w1 1 ^^^ rotr64 w1 8 ^^^ w1 >>> 7) (rotr32 (low w1) 7 ^^^ rotr32 (low w1) 18 ^^^ low w1 >>> 3)

def sg1 (m512 : Bool) (w14 : BitVec 64) : BitVec 64 :=
  merge m512 (rotr64 w14 19 ^^^ rotr64 w14 61 ^^^ w14 >>> 6) (rotr32 (low w14) 17 ^^^ rotr32 (low w14) 19 ^^^ low w14 >>> 10)

def ch (v : Chains) : BitVec 64 := v.e &&& v.f ^^^ ~~~v.e &&& v.g

def maj (v : Chains) : BitVec 64 := v.a &&& v.b ^^^ v.a &&& v.c ^^^ v.b &&& v.c

def T1 : BitVec 64 := s.eng.v.h + S1 s.ctl.m512 s.eng.v.e + ch s.eng.v + s.ram.rq + s.eng.w 0

def T2 : BitVec 64 := S0 s.ctl.m512 s.eng.v.a + maj s.eng.v

def wnew : BitVec 64 := sg1 s.ctl.m512 (s.eng.w 14) + s.eng.w 9 + sg0 s.ctl.m512 (s.eng.w 1) + s.eng.w 0

/-- The order in which the words of a chaining value come. -/
def widx (j : BitVec 4) : BitVec 3 :=
  if j.getLsbD 0 then 7#3 - j.extractLsb' 1 3 else 3#3 - j.extractLsb' 1 3

def cj : BitVec 4 := s.eng.cn.extractLsb' 0 4 - 2#4

def finw : BitVec 64 := s.ram.rq + if s.eng.cn.getLsbD 0 then s.eng.v.h else s.eng.v.d

def tw : BitVec 5 := s.eng.cn.extractLsb' 0 5 - 2#5

def blkw : BitVec 64 :=
  if !s.eng.dg then s.ram.rq
  else if s.tw < 8 then s.ram.rq
  else if s.tw = 8 then 0x80000000
  else if s.tw = 15 then 0x00000300
  else 0

def kbase : BitVec 9 := if s.ctl.m512 then K512 else K256

def lastRound : BitVec 7 := if s.ctl.m512 then 79 else 63

def chShift : Bool :=
  s.eng.cp = .rounds || (s.eng.cp = .chain || s.eng.cp = .final) && 2 ≤ s.eng.cn && s.eng.cn.getLsbD 0

def aIn : BitVec 64 :=
  match s.eng.cp with
  | .rounds => s.T1 + s.T2
  | .chain => s.xa
  | _ => 0

def eIn : BitVec 64 :=
  match s.eng.cp with
  | .rounds => s.eng.v.d + s.T1
  | .chain => s.ram.rq
  | _ => 0

def wShift : Bool := s.eng.cp = .rounds || s.eng.cp = .window && 2 ≤ s.eng.cn

def wIn : BitVec 64 := if s.eng.cp = .rounds then s.wnew else s.blkw

/-- The chains and the window. -/
def shift : Sha2Unit :=
  let v := s.eng.v
  { n with
    eng.v := if s.chShift then ⟨s.aIn, v.a, v.b, v.c, s.eIn, v.e, v.f, v.g⟩ else v
    eng.w := if s.wShift then fun j => if j < 15 then s.eng.w (j + 1) else if j = 15 then s.wIn else s.eng.w j
      else s.eng.w }

/-- A phase goes on to its next clock, or to the next phase. -/
def next (last : BitVec 7) (cp : Phase) : Sha2Unit :=
  if s.eng.cn = last then { n with eng.cn := 0, eng.cp := cp } else { n with eng.cn := s.eng.cn + 1 }

def base (src : Src) : BitVec 9 :=
  match src with
  | .initial => if s.ctl.m512 then IV512 else IV256
  | .ipad => IST
  | .opad => OST
  | .cur => CUR

/-- The address of a word of the chaining value. -/
def chainAddr : BitVec 9 := s.eng.sbase + (widx (s.eng.cn.extractLsb' 0 4)).setWidth 9

def blockAddr : BitVec 9 :=
  if s.eng.dg then s.eng.dbase + (s.eng.cn.extractLsb' 0 3).setWidth 9 else BLK + (s.eng.cn.extractLsb' 0 4).setWidth 9

/-- The chaining value goes into the chains: eight reads, and a pair of words at each shift. -/
def loadChain : Sha2Unit :=
  { n with
    ram := if s.eng.cn < 8 then n.ram.read s.chainAddr else n.ram
    xa := if 2 ≤ s.eng.cn ∧ s.eng.cn.getLsbD 0 = false then s.ram.rq else n.xa }

/-- The block goes into the window, and the first constants are asked for. -/
def loadWindow : Sha2Unit :=
  { n with
    ram := n.ram.read (if s.eng.cn < 16 then s.blockAddr else if s.eng.cn = 16 then s.kbase else s.kbase + 1) }

/-- The constant of the round after the next is asked for. -/
def roundStep : Sha2Unit := { n with ram := n.ram.read (s.kbase + s.eng.cn.setWidth 9 + 2) }

/-- The chaining value and the working variables are added. -/
def finalAdd : Sha2Unit :=
  let r := if s.eng.cn < 8 then n.ram.read s.chainAddr else n.ram
  { n with ram := if 2 ≤ s.eng.cn then r.write (s.eng.dst + (widx s.cj).setWidth 9) s.finw else r }

def engine : Sha2Unit :=
  match s.eng.cp with
  | .idle =>
    match s.eng.cGo with
    | none => n
    | some l =>
      { n with
        eng.dg := l.dg
        eng.dbase := l.dbase
        eng.dst := l.dst
        eng.cn := 0
        eng.cp := .chain
        eng.sbase := s.base l.src }
  | .chain => s.next (s.loadChain n) 9 .window
  | .window => s.next (s.loadWindow n) 17 .rounds
  | .rounds => s.next (s.roundStep n) s.lastRound .final
  | .final =>
    let m := s.finalAdd n
    if s.eng.cn = 9 then { m with eng.cp := .idle, eng.cDone := true } else { m with eng.cn := s.eng.cn + 1 }

/-! The staging of bytes. -/

/-- A byte is taken up, and the word that it ends is to be written. -/
def stage (b : BitVec 8) : Sha2Unit :=
  { n with
    ctl := s.ctl.stage b
    wph := if s.ctl.wordDone then some (s.ctl.wordAddr, s.ctl.shifted b) else n.wph }

/-! The control. -/

def launch (src : Src) (dg : Bool) (dbase dst : BitVec 9) (aft : After) : Sha2Unit :=
  { n with eng.cGo := some ⟨src, dg, dbase, dst⟩, ctl.aft := aft, ctl.st := .wc }

/-- `begin_op`. -/
def start (mode : Mode) (iters : BitVec 32) : Sha2Unit :=
  let plain := mode = .sha || mode = .sha512
  { n with
    ctl.md := mode
    ctl.itersR := iters
    busy := true
    overrun := false
    ctl.total := if plain then 0 else 64
    ctl.cnt := 0
    ctl.bc := 0
    wph := none
    ctl.kcnt := 0
    ctl.first := true
    ctl.last := false
    ctl.dpad := false
    ctl.sn := 0
    ctl.st := if plain then .stream else .key }

/-- The address of the word of the key that `kcnt` is in. -/
def keyAddr : BitVec 9 := KEY + (s.ctl.kcnt.extractLsb' 2 4).setWidth 9

def keyWrite (b : BitVec 8) : Sha2Unit :=
  let kw := s.ctl.kw32.extractLsb' 0 24 ++ b
  { n with
    ctl.kw32 := kw
    ctl.kcnt := s.ctl.kcnt + 1
    wph := if s.ctl.kcnt.extractLsb' 0 2 = 3 then some (s.keyAddr, kw.setWidth 64) else n.wph }

/-- What is left of the key, filled up with zeros. -/
def keyRest : BitVec 32 :=
  if s.ctl.kcnt.extractLsb' 0 2 = 1 then s.ctl.kw32.extractLsb' 0 8 ++ 0#24
  else if s.ctl.kcnt.extractLsb' 0 2 = 2 then s.ctl.kw32.extractLsb' 0 16 ++ 0#16
  else s.ctl.kw32.extractLsb' 0 24 ++ 0#8

def keyDone : Sha2Unit :=
  { n with
    ctl.nkw := s.ctl.kcnt.extractLsb' 2 5 + if s.ctl.kcnt.extractLsb' 0 2 = 0 then 0 else 1
    wph := if s.ctl.kcnt.extractLsb' 0 2 = 0 then n.wph else some (s.keyAddr, s.keyRest.setWidth 64)
    ctl.sn := 0
    ctl.dpad := false
    ctl.st := .der }

/-- The state U_DER: the block becomes the key under a pad constant, and is compressed. -/
def derive : Sha2Unit :=
  if s.ctl.sn = 0 then (if s.wph = none ∧ s.ram.we = false then { n with ctl.sn := 1 } else n)
  else
    let r := if s.ctl.sn ≤ 16 then n.ram.read (KEY + (s.ctl.sn.extractLsb' 0 4 - 1).setWidth 9) else n.ram
    let x := if s.ctl.sn.extractLsb' 0 5 - 3 < s.ctl.nkw then low s.ram.rq ^^^ s.ctl.padConst else s.ctl.padConst
    let m :=
      { n with
        ram := if 3 ≤ s.ctl.sn then r.write (BLK + (s.ctl.sn.extractLsb' 0 4 - 3).setWidth 9) (x.setWidth 64) else r }
    if s.ctl.sn = 18 then
      { m with ctl.sn := 0 }.launch .initial false BLK (if s.ctl.dpad then OST else IST)
        (if s.ctl.dpad then .opad else .ipad)
    else { m with ctl.sn := s.ctl.sn + 1 }

/-- The state U_WC, when the compression is done. -/
def afterwards : Sha2Unit :=
  match s.ctl.aft with
  | .ipad => { n with ctl.dpad := true, ctl.sn := 0, ctl.st := .der }
  | .opad => { n with ctl.first := true, ctl.cnt := 0, ctl.st := .stream }
  | .blk => { n with ctl.first := false, ctl.st := if s.ctl.last then .after else s.ctl.resume }
  | .outer =>
    if s.ctl.md = .hmac then { n with ctl.obase := CUR, ctl.st := .fin }
    else { n with ctl.tcopy := true, ctl.jcnt := 1, ctl.sn := 0, ctl.st := .tpass }
  | .l1 => n.launch .opad true XI UREG .l2
  | .l2 => { n with ctl.tcopy := false, ctl.sn := 0, ctl.st := .tpass }

/-- The state U_TPASS: `TACC` becomes `UREG`, or takes it up. -/
def tpass : Sha2Unit :=
  let k := (s.ctl.sn.extractLsb' 1 3).setWidth 9
  let r := if s.ctl.sn < 16 then n.ram.read (if s.ctl.sn.getLsbD 0 then TACC + k else UREG + k) else n.ram
  let m :=
    { n with
      ram := if 3 ≤ s.ctl.sn ∧ s.ctl.sn.getLsbD 0 = true then
          r.write (TACC + (s.ctl.sn.extractLsb' 1 3 - 1).setWidth 9) (if s.ctl.tcopy then s.xa else s.xa ^^^ s.ram.rq)
        else r
      xa := if 2 ≤ s.ctl.sn ∧ s.ctl.sn.getLsbD 0 = false then s.ram.rq else n.xa }
  if s.ctl.sn = 17 then
    if s.ctl.itersR ≤ s.ctl.jcnt then { m with ctl.sn := 0, ctl.obase := TACC, ctl.st := .fin }
    else { m with ctl.sn := 0, ctl.jcnt := s.ctl.jcnt + 1 }.launch .ipad true UREG XI .l1
  else { m with ctl.sn := s.ctl.sn + 1 }

/-- The `case` of the control. -/
def fsm : Sha2Unit :=
  match s.ctl.st with
  | .key =>
    let m := match i.keyWr with
      | some b => s.keyWrite n b
      | none => n
    if i.keyDone then s.keyDone m else m
  | .der => s.derive n
  | .wc => if s.eng.cDone then s.afterwards n else n
  | .stream =>
    if i.inByte = none ∧ i.msgEnd = true then
      if s.ctl.md = .pbkdf2 then { n with ctl.pbi := i.pbIdx, ctl.sn := 0, ctl.st := .idx }
      else { n with ctl.pstage := 0, ctl.st := .pad }
    else n
  | .pad => { n with ctl := s.ctl.padStep n.ctl }
  | .idx => if s.ctl.sn.extractLsb' 0 2 = 3 then { n with ctl.pstage := 0 } else n
  | .bend =>
    if s.wph = none ∧ s.ram.we = false then
      n.launch (if s.ctl.first then (if s.ctl.plain then .initial else .ipad) else .cur) false BLK CUR .blk
    else n
  | .after =>
    if s.ctl.plain then { n with ctl.obase := CUR, ctl.st := .fin }
    else n.launch .opad true CUR (if s.ctl.md = .pbkdf2 then UREG else CUR) .outer
  | .tpass => s.tpass n
  | .fin => if s.ram.we = false then { n with done := true, busy := false, ctl.st := .idle } else n
  | .idle => n

/-- The memory, and what comes before the parts: the pulses end, and a word that waits is
written. -/
def tick : Sha2Unit :=
  let ram : SyncRam (BitVec 9) (BitVec 64) :=
    { s.ram with
      mem := s.ram.written
      rq := s.ram.mem (if s.busy then s.ram.ra else s.ctl.obase + i.dgRa.setWidth 9)
      we := false }
  { s with
    ram := s.wph.elim ram fun p => ram.write p.1 p.2
    eng.cGo := none
    eng.cDone := false
    wph := none
    done := false
    overrun := s.overrun || i.inByte.isSome && s.ctl.st ≠ .stream }

def clock : Sha2Unit :=
  let n := s.engine (s.shift (s.tick i))
  let m := (s.ctl.push i).elim n (s.stage n)
  match i.beginOp with
  | some (mode, iters) => m.start mode iters
  | none => s.fsm m i

/-- `rst_n` low. -/
def reset : Sha2Unit :=
  { s with
    eng.cp := .idle
    eng.cDone := false
    eng.cGo := none
    ctl.st := .idle
    busy := false
    done := false
    overrun := false
    ram.we := false
    wph := none
    ctl.bc := 0
    ctl.cnt := 0
    ctl.md := .sha
    ctl.obase := CUR
    ctl.sh64 := 0 }

/-- With the RAM loaded, and the registers at 0. -/
def powerUp : Sha2Unit where
  ram := { mem := sha2Rom, ra := 0, rq := 0, we := false, wa := 0, wd := 0 }
  eng :=
    { cGo := none, cDone := false, cp := .idle, cn := 0, v := ⟨0, 0, 0, 0, 0, 0, 0, 0⟩, w := fun _ => 0, sbase := 0,
      dg := false, dbase := 0, dst := 0 }
  ctl :=
    { md := .sha, st := .idle, resume := .idle, aft := .ipad, sn := 0, itersR := 0, jcnt := 0, total := 0, lsh := 0,
      cnt := 0, bc := 0, sh64 := 0, nkw := 0, kcnt := 0, kw32 := 0, first := false, last := false, dpad := false,
      tcopy := false, nolen := false, pstage := 0, pbi := 0, obase := 0 }
  xa := 0
  wph := none
  busy := false
  done := false
  overrun := false

def inReady : Bool := s.ctl.st = .stream

/-- `dg_q`. -/
def dgQ : BitVec 64 := s.ram.rq

end Sha2Unit

end GoiKey.Rtl
