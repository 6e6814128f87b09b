import GoiKey.Model.FrameIo
import GoiKey.Model.Sha2Unit

/-!
The dispatcher of the symmetric commands, accel_cmd.v, with its subroutines of cmd_subs.v, and
the machine it is part of: the RAMs it reads and writes and the hash unit behind it. `clock` is
one rising edge of `clk` with the reset released. The AES unit and the random generator are
ports.
-/

namespace GoiKey.Rtl

/-! cmd_subs.v -/

inductive SubState where
  | idle
  | latency
  | byte
  | last
  deriving DecidableEq, Repr

/-- Reads bytes of the RX RAM into a register. -/
structure SubRdn where
  s : SubState
  c : BitVec 6
  a : BitVec 13
  acc : BitVec 56
  done : Bool
  active : Bool

def SubRdn.clock (r : SubRdn) (start : Bool) (ptrI : BitVec 13) (n : BitVec 6) (memQ : BitVec 8) : SubRdn :=
  let m := { r with done := false }
  match r.s with
  | .idle => if start then { m with a := ptrI, c := n, active := true, s := .latency } else m
  | .latency => { m with s := .byte }
  | .byte =>
    let m := { m with acc := r.acc.extractLsb' 0 48 ++ memQ, c := r.c - 1, a := r.a + 1 }
    if r.c = 1 then { m with done := true, active := false, s := .idle } else { m with s := .latency }
  | .last => m

/-- Streams bytes of the RX RAM to the hash unit. `ob` is `ob_valid` with `ob_byte`. -/
structure SubFeed where
  s : SubState
  r : BitVec 16
  a : BitVec 13
  ob : Option (BitVec 8)
  obKey : Bool
  done : Bool
  active : Bool

def SubFeed.clock (f : SubFeed) (start : Bool) (ptrI : BitVec 13) (n : BitVec 16) (keyI : Bool) (memQ : BitVec 8)
    (ready : Bool) : SubFeed :=
  let m := { f with done := false, ob := none }
  match f.s with
  | .idle =>
    if start then
      let m := { m with a := ptrI, r := n, obKey := keyI, active := true }
      if n = 0 then { m with done := true, active := false } else { m with s := .latency }
    else m
  | .latency => { m with s := .byte }
  | .byte =>
    if ready then
      { m with ob := some memQ, a := f.a + 1, r := f.r - 1, s := if f.r = 1 then .last else .latency }
    else m
  | .last => { m with done := true, active := false, s := .idle }

/-- Writes the top bytes of a register to the TX RAM. -/
structure SubEmit where
  act : Bool
  sh : BitVec 128
  c : BitVec 6
  we : Bool
  wa : BitVec 13
  wd : BitVec 8
  done : Bool

def SubEmit.clock (e : SubEmit) (start : Bool) (base : BitVec 13) (d : BitVec 128) (n : BitVec 6) : SubEmit :=
  let m := { e with done := false, we := false }
  if start then { m with act := true, sh := d, c := n, wa := base - 1 }
  else if e.act then
    if e.c = 0 then { m with act := false, done := true }
    else
      { m with
        we := true
        wa := e.wa + 1
        wd := e.sh.extractLsb' 120 8
        sh := e.sh.extractLsb' 0 120 ++ 0#8
        c := e.c - 1 }
  else m

/-! accel_cmd.v -/

namespace AccelCmd

structure Params where
  caps : BitVec 32
  hasAes : Bool
  hasInfo : Bool

inductive State where
  | idle | fin
  | info
  | rnd0 | rnd1 | rnd2
  | sha0 | sha1 | sha2 | sha3
  | hm0 | hm1 | hm2 | hm3
  | pb0 | pb1 | pb2 | pb3 | pb4 | pb5 | pb6 | pb7 | pb8
  | ak0 | ak1
  | ao0 | ao1 | ao2 | ao3 | ao4
  | ho0 | ho1 | ho2
  deriving DecidableEq, Repr

/-- What the AES unit shows. -/
structure AesOut where
  keyReady : Bool
  done : Bool
  busy : Bool
  authFail : Bool
  rxA : BitVec 13
  tx : Option (BitVec 13 × BitVec 8)

structure In where
  /-- `go` with `cmd` and `len`. -/
  go : Option (BitVec 8 × BitVec 16)
  memQ : BitVec 8
  uid : BitVec 128
  hInReady : Bool
  hDone : Bool
  hDgq : BitVec 64
  /-- `trng_valid` with `trng_data`. -/
  trng : Option (BitVec 32)
  aes : AesOut

end AccelCmd

open AccelCmd

structure AccelCmd where
  st : State
  hoRet : State
  done : Bool
  status : BitVec 8
  txLen : BitVec 16
  finStatus : BitVec 8
  finLen : BitVec 16
  /-- The subroutines and what starts them. -/
  rd : SubRdn
  rdStart : Bool
  rdPtrI : BitVec 13
  rdN : BitVec 6
  fd : SubFeed
  fdStart : Bool
  fdPtrI : BitVec 13
  fdN : BitVec 16
  fdKey : Bool
  em : SubEmit
  emStart : Bool
  emBase : BitVec 13
  emD : BitVec 128
  emN : BitVec 6
  /-- The hash unit. -/
  hBegin : Bool
  hKeydone : Bool
  hMsgEnd : Bool
  hMode : Sha2.Mode
  hIters : BitVec 32
  hIdx : BitVec 32
  hDgra : BitVec 3
  hdone : Bool
  /-- `ho_we` with `ho_wa` and `ho_wd`. -/
  ho : Option (BitVec 13 × BitVec 8)
  hi : BitVec 5
  /-- The AES unit. -/
  aKeyStart : Bool
  aOpStart : Bool
  aMode : BitVec 3
  aAadlen : BitVec 16
  aDlen : BitVec 16
  modeB : BitVec 8
  modeR : BitVec 3
  aadlenR : BitVec 16
  dlenR : BitVec 16
  /-- The parameters of a command. -/
  lenR : BitVec 16
  klen : BitVec 16
  itersR : BitVec 32
  dklen : BitVec 16
  pwlen : BitVec 16
  blk : BitVec 16
  nrand : BitVec 16
  txOff : BitVec 16

namespace AccelCmd

variable (p : Params) (s n : AccelCmd) (i : In)

def busy : Bool := s.st ≠ .idle

def memA : BitVec 13 := if i.aes.busy then i.aes.rxA else if s.fd.active then s.fd.a else s.rd.a

/-- `tx_we` with `tx_wa` and `tx_wd`. -/
def tx : Option (BitVec 13 × BitVec 8) :=
  i.aes.tx.or (s.ho.or (if s.em.we then some (s.em.wa, s.em.wd) else none))

/-- What the hash unit is given. -/
def hash : Sha2.In where
  beginOp := if s.hBegin then some (s.hMode, s.hIters) else none
  pbIdx := s.hIdx
  keyWr := if s.fd.obKey then s.fd.ob else none
  keyDone := s.hKeydone
  inByte := if s.fd.obKey then none else s.fd.ob
  msgEnd := s.hMsgEnd
  dgRa := s.hDgra

/-- Byte `k` of `acc`, from the right. -/
def accByte (k : Nat) : BitVec 8 := s.rd.acc.extractLsb' (8 * k) 8

/-- The pulses end, and the subroutines take their steps. -/
def tick : AccelCmd :=
  { s with
    done := false
    rdStart := false
    fdStart := false
    emStart := false
    ho := none
    hBegin := false
    hKeydone := false
    hMsgEnd := false
    aKeyStart := false
    aOpStart := false
    hdone := s.hdone || i.hDone
    rd := s.rd.clock s.rdStart s.rdPtrI s.rdN i.memQ
    fd := s.fd.clock s.fdStart s.fdPtrI s.fdN s.fdKey i.memQ (s.fdKey || i.hInReady)
    em := if p.hasInfo then s.em.clock s.emStart s.emBase s.emD s.emN else s.em }

def fin (status : BitVec 8) (len : BitVec 16) : AccelCmd := { n with finStatus := status, finLen := len, st := .fin }

def hout (ret : State) : AccelCmd := { n with hi := 0, hoRet := ret, st := .ho0 }

/-- `rd_start` and what it reads. -/
def readBytes (ptr : BitVec 13) (count : BitVec 6) (st : State) : AccelCmd :=
  { n with rdPtrI := ptr, rdN := count, rdStart := true, st := st }

/-- `em_start` and what it writes. -/
def emit (d : BitVec 128) (count : BitVec 6) (base : BitVec 13) (st : State) : AccelCmd :=
  { n with emD := d, emN := count, emBase := base, emStart := true, st := st }

/-- S_IDLE with `go`. -/
def dispatch (cmd : BitVec 8) (len : BitVec 16) : AccelCmd :=
  let n := { n with lenR := len, txOff := 0, hdone := false }
  if cmd = 0x01 then
    if !p.hasInfo then n.fin 1 0
    else { n.emit (0x54524F4143433031#64 ++ p.caps ++ 0#32) 12 0 .info with finLen := 12 }
  else if cmd = 0x02 then
    if !p.hasInfo then n.fin 1 0 else { n.emit i.uid 16 0 .info with finLen := 16 }
  else if cmd = 0x03 then
    if !p.hasInfo then n.fin 1 0 else if len ≠ 2 then n.fin 2 0 else n.readBytes 0 2 .rnd0
  else if cmd = 0x10 then
    { n with hBegin := true, hMode := .sha, fdPtrI := 0, fdN := len, fdKey := false, st := .sha0 }
  else if cmd = 0x11 then
    if len < 1 then n.fin 2 0 else n.readBytes 0 1 .hm0
  else if cmd = 0x12 then
    if len < 7 then n.fin 2 0 else n.readBytes 0 7 .pb0
  else if cmd = 0x20 then
    if !p.hasAes then n.fin 1 0 else if len ≠ 32 then n.fin 2 0 else { n with aKeyStart := true, st := .ak0 }
  else if cmd = 0x21 then
    if !p.hasAes then n.fin 1 0 else if len < 21 then n.fin 2 0 else n.readBytes 0 1 .ao0
  else n.fin 1 0

/-- The number of random bytes asked for. -/
def asked : BitVec 16 := s.accByte 0 ++ s.accByte 1

/-- The length of an AES request against the lengths in its header. -/
def fits : Bool :=
  21 + s.aadlenR.setWidth 32 + s.dlenR.setWidth 32 + (if s.modeR = 5 then 16 else 0) = s.lenR.setWidth 32

/-- The byte of the digest that goes out. -/
def digestByte : BitVec 8 :=
  if s.hi.extractLsb' 0 2 = 0 then i.hDgq.extractLsb' 24 8
  else if s.hi.extractLsb' 0 2 = 1 then i.hDgq.extractLsb' 16 8
  else if s.hi.extractLsb' 0 2 = 2 then i.hDgq.extractLsb' 8 8
  else i.hDgq.extractLsb' 0 8

/-- The `case` of the sequencer: `n` is what the clock has done before it. -/
def fsm : AccelCmd :=
  match s.st with
  | .idle =>
    match i.go with
    | some (cmd, len) => dispatch p n i cmd len
    | none => n
  | .info => if s.em.done then n.fin 0 s.finLen else n
  | .rnd0 =>
    if s.rd.done then
      let n := { n with nrand := s.asked }
      if s.asked = 0 ∨ 1024 < s.asked then n.fin 6 0 else { n with st := .rnd1 }
    else n
  | .rnd1 =>
    match i.trng with
    | some data => n.emit (data ++ 0#96) 4 (s.txOff.setWidth 13) .rnd2
    | none => n
  | .rnd2 =>
    if s.em.done then
      let n := { n with txOff := s.txOff + 4 }
      if s.nrand ≤ s.txOff + 4 then n.fin 0 s.nrand else { n with st := .rnd1 }
    else n
  | .sha0 => { n with fdStart := true, st := .sha1 }
  | .sha1 => if s.fd.done then { n with st := .sha2 } else n
  | .sha2 => if i.hInReady then { n with hMsgEnd := true, st := .sha3 } else n
  | .sha3 => if s.hdone then n.hout .fin else n
  | .hm0 =>
    if s.rd.done then
      let n := { n with klen := (s.accByte 0).setWidth 16 }
      if 64 < s.accByte 0 ∨ s.lenR < (s.accByte 0).setWidth 16 + 1 then n.fin 6 0
      else { n with hBegin := true, hMode := .hmac, st := .hm1 }
    else n
  | .hm1 => { n with fdPtrI := 1, fdN := s.klen, fdKey := true, fdStart := true, st := .hm2 }
  | .hm2 =>
    if s.fd.done then
      { n with
        hKeydone := true
        fdPtrI := 1 + s.klen.setWidth 13
        fdN := s.lenR - 1 - s.klen
        fdKey := false
        st := .hm3 }
    else n
  | .hm3 => { n with fdStart := true, st := .sha1 }
  | .pb0 =>
    if s.rd.done then
      { n with
        itersR := s.accByte 3 ++ s.accByte 4 ++ s.accByte 5 ++ s.accByte 6
        dklen := s.accByte 1 ++ s.accByte 2
        pwlen := (s.accByte 0).setWidth 16
        st := .pb1 }
    else n
  | .pb1 =>
    if s.itersR = 0 ∨ s.dklen = 0 ∨ 1024 < s.dklen ∨ 64 < s.pwlen ∨ s.lenR < s.pwlen + 7 then n.fin 6 0
    else { n with blk := 1, txOff := 0, st := .pb2 }
  | .pb2 =>
    { n with
      hBegin := true
      hMode := .pbkdf2
      hIters := s.itersR
      hdone := false
      fdPtrI := 7
      fdN := s.pwlen
      fdKey := true
      st := .pb3 }
  | .pb3 => { n with fdStart := true, st := .pb4 }
  | .pb4 =>
    if s.fd.done then
      { n with
        hKeydone := true
        hIdx := s.blk.setWidth 32
        fdPtrI := 7 + s.pwlen.setWidth 13
        fdN := s.lenR - 7 - s.pwlen
        fdKey := false
        fdStart := true
        st := .pb5 }
    else n
  | .pb5 => if s.fd.done then { n with st := .pb6 } else n
  | .pb6 => if i.hInReady then { n with hMsgEnd := true, st := .pb7 } else n
  | .pb7 => if s.hdone then n.hout .pb8 else n
  | .pb8 =>
    let n := { n with txOff := s.txOff + 32, blk := s.blk + 1 }
    if s.dklen ≤ s.txOff + 32 then n.fin 0 s.dklen else { n with st := .pb2 }
  | .ho0 => { n with hDgra := s.hi.extractLsb' 2 3, st := .ho1 }
  | .ho1 => { n with st := .ho2 }
  | .ho2 =>
    let n := { n with ho := some (s.txOff.setWidth 13 + s.hi.setWidth 13, s.digestByte i), hi := s.hi + 1 }
    if s.hi = 31 then (if s.hoRet = .fin then n.fin 0 32 else { n with st := s.hoRet })
    else if s.hi.extractLsb' 0 2 = 3 then { n with st := .ho0 }
    else n
  | .ak0 => { n with st := .ak1 }
  | .ak1 => if i.aes.done then n.fin 0 0 else n
  | .ao0 => if s.rd.done then { n.readBytes 17 4 .ao4 with modeB := s.accByte 0 } else n
  | .ao4 =>
    if s.rd.done then
      { n with
        modeR := s.modeB.extractLsb' 0 3
        aMode := s.modeB.extractLsb' 0 3
        aadlenR := s.accByte 2 ++ s.accByte 3
        aAadlen := s.accByte 2 ++ s.accByte 3
        dlenR := s.accByte 0 ++ s.accByte 1
        aDlen := s.accByte 0 ++ s.accByte 1
        st := .ao1 }
    else n
  | .ao1 =>
    if 5 < s.modeB ∨ i.aes.keyReady = false then n.fin (if i.aes.keyReady then 6 else 7) 0
    else if !s.fits then n.fin 2 0
    else if !s.modeR.getLsbD 2 ∧ (s.aadlenR ≠ 0 ∨ s.dlenR = 0 ∨ s.dlenR.extractLsb' 0 4 ≠ 0) then n.fin 6 0
    else if 8000 < s.dlenR then n.fin 6 0
    else { n with aOpStart := true, st := .ao2 }
  | .ao2 => { n with st := .ao3 }
  | .ao3 =>
    if i.aes.done then
      if i.aes.authFail then n.fin 4 0 else n.fin 0 (s.dlenR + if s.modeR = 4 then 16 else 0)
    else n
  | .fin => { n with done := true, status := s.finStatus, txLen := s.finLen, st := .idle }

def clock : AccelCmd := fsm p s (tick p s i) i

end AccelCmd

/-- The dispatcher with the RAMs at its ports and the hash unit. -/
structure SymCore where
  cmd : AccelCmd
  hu : Sha2Unit
  /-- What the RX RAM shows, and what the TX RAM holds. -/
  memQ : BitVec 8
  tx : Ram

/-- What comes from outside. -/
structure SymIn where
  go : Option (BitVec 8 × BitVec 16)
  rx : Ram
  uid : BitVec 128
  trng : Option (BitVec 32)
  aes : AccelCmd.AesOut

namespace SymCore

variable (p : AccelCmd.Params) (s : SymCore) (i : SymIn)

def cmdIn : AccelCmd.In where
  go := i.go
  memQ := s.memQ
  uid := i.uid
  hInReady := s.hu.inReady
  hDone := s.hu.done
  hDgq := s.hu.dgQ
  trng := i.trng
  aes := i.aes

def clock : SymCore where
  cmd := AccelCmd.clock p s.cmd (s.cmdIn i)
  hu := s.hu.clock s.cmd.hash
  memQ := i.rx (s.cmd.memA (s.cmdIn i))
  tx := s.tx.write (s.cmd.tx (s.cmdIn i))

end SymCore

end GoiKey.Rtl
