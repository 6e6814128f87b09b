import GoiKey.Lib.Loops
import Mathlib.Data.BitVec
import Mathlib.Logic.Function.Basic

/-!
The bit-exact ML-DSA model pq_model.py: the transforms, the samplers and the packers, and the hint decoding
of the C reference, packing.c. A polynomial is the function of its coefficients, of which
the first 256 count.
-/

namespace GoiKey.Pq

def q : Int := 8380417

def n : Nat := 256

abbrev Poly := Nat → Int

/-! The arithmetic of the C reference, on 32-bit signed words. -/

def s32 (x : Int) : Int := x.bmod (2 ^ 32)

def qinv : Int := 58728449

/-- `montgomery_reduce`. -/
def montgomeryReduce (a : Int) : Int :=
  let t := s32 (a % 2 ^ 64 * qinv)
  s32 ((a - t * q) >>> (32 : Nat))

/-- `zetas` of lib/ML-DSA65/ntt.c. -/
def zetas : List Int :=
  [0, 25847, -2608894, -518909, 237124, -777960, -876248, 466468, 1826347, 2353451, -359251, -2091905, 3119733,
   -2884855, 3111497, 2680103, 2725464, 1024112, -1079900, 3585928, -549488, -1119584, 2619752, -2108549,
   -2118186, -3859737, -1399561, -3277672, 1757237, -19422, 4010497, 280005, 2706023, 95776, 3077325, 3530437,
   -1661693, -3592148, -2537516, 3915439, -3861115, -3043716, 3574422, -2867647, 3539968, -300467, 2348700,
   -539299, -1699267, -1643818, 3505694, -3821735, 3507263, -2140649, -1600420, 3699596, 811944, 531354, 954230,
   3881043, 3900724, -2556880, 2071892, -2797779, -3930395, -1528703, -3677745, -3041255, -1452451, 3475950,
   2176455, -1585221, -1257611, 1939314, -4083598, -1000202, -3190144, -3157330, -3632928, 126922, 3412210,
   -983419, 2147896, 2715295, -2967645, -3693493, -411027, -2477047, -671102, -1228525, -22981, -1308169, -381987,
   1349076, 1852771, -1430430, -3343383, 264944, 508951, 3097992, 44288, -1100098, 904516, 3958618, -3724342,
   -8578, 1653064, -3249728, 2389356, -210977, 759969, -1316856, 189548, -3553272, 3159746, -1851402, -2409325,
   -177440, 1315589, 1341330, 1285669, -1584928, -812732, -1439742, -3019102, -3881060, -3628969, 3839961,
   2091667, 3407706, 2316500, 3817976, -3342478, 2244091, -2446433, -3562462, 266997, 2434439, -1235728, 3513181,
   -3520352, -3759364, -1197226, -3193378, 900702, 1859098, 909542, 819034, 495491, -1613174, -43260, -522500,
   -655327, -3122442, 2031748, 3207046, -3556995, -525098, -768622, -3595838, 342297, 286988, -2437823, 4108315,
   3437287, -3342277, 1735879, 203044, 2842341, 2691481, -2590150, 1265009, 4055324, 1247620, 2486353, 1595974,
   -3767016, 1250494, 2635921, -3548272, -2994039, 1869119, 1903435, -1050970, -1333058, 1237275, -3318210,
   -1430225, -451100, 1312455, 3306115, -1962642, -1279661, 1917081, -2546312, -1374803, 1500165, 777191, 2235880,
   3406031, -542412, -2831860, -1671176, -1846953, -2584293, -3724270, 594136, -3776993, -2013608, 2432395,
   2454455, -164721, 1957272, 3369112, 185531, -1207385, -3183426, 162844, 1616392, 3014001, 810149, 1652634,
   -3694233, -1799107, -3038916, 3523897, 3866901, 269760, 2213111, -975884, 1717735, 472078, -426683, 1723600,
   -1803090, 1910376, -1667432, -1104333, -260646, -3833893, -2939036, -2235985, -420899, -2286327, 183443,
   -976891, 1612842, -3545687, -554416, 3919660, -48306, -1362209, 3937738, 1400424, -846154, 1976782]

/-! Transforms: `k` zetas have been used when a layer begins. -/

def zeta (k : Nat) : Int := zetas.getD k 0

/-- The body of `op_ntt`. -/
def nttBody (z : Int) (ln j : Nat) (a : Poly) : Poly :=
  let t := montgomeryReduce (z * a (j + ln))
  let b := Function.update a (j + ln) (s32 (a j - t))
  Function.update b j (s32 (b j + t))

def nttLayer (k ln : Nat) (a : Poly) : Poly :=
  forLoop (fun b a => forLoop (fun j => nttBody (zeta (k + b + 1)) ln (2 * ln * b + j)) a ln) a (128 / ln)

/-- Layer `l` has `2 ^ l` blocks. -/
def opNtt (a : Poly) : Poly := forLoop (fun l => nttLayer (2 ^ l - 1) (2 ^ (7 - l))) a 8

/-- The body of `op_intt`. -/
def inttBody (z : Int) (ln j : Nat) (a : Poly) : Poly :=
  let t := a j
  let b := Function.update a j (s32 (t + a (j + ln)))
  let c := Function.update b (j + ln) (s32 (t - b (j + ln)))
  Function.update c (j + ln) (montgomeryReduce (z * c (j + ln)))

def inttLayer (k ln : Nat) (a : Poly) : Poly :=
  forLoop (fun b a => forLoop (fun j => inttBody (-zeta (k - b - 1)) ln (2 * ln * b + j)) a ln) a (128 / ln)

/-- `k` goes down from 256. -/
def opIntt (a : Poly) : Poly :=
  let b := forLoop (fun l => inttLayer (2 ^ (8 - l)) (2 ^ l)) a 8
  fun i => montgomeryReduce (41978 * b i)

def opPmul (a b : Poly) : Poly := fun i => montgomeryReduce (a i * b i)

/-! Packers. -/

/-- `int.from_bytes(data, "little")`. -/
def fromBytes : List (BitVec 8) → Nat
  | [] => 0
  | b :: bs => b.toNat + 256 * fromBytes bs

/-- `v.to_bytes(len, "little")`. -/
def toBytes (v len : Nat) : List (BitVec 8) := (List.range len).map fun j => BitVec.ofNat 8 (v >>> (8 * j))

/-- The number `pack_bits` makes of the first values. -/
def packNumber (vals : Poly) (nbits : Nat) : Nat → Nat
  | 0 => 0
  | i + 1 => packNumber vals nbits i ||| (vals i % 2 ^ nbits).toNat <<< (nbits * i)

def packBits (vals : Poly) (nbits : Nat) : List (BitVec 8) := toBytes (packNumber vals nbits n) (n * nbits / 8)

def unpackBits (data : List (BitVec 8)) (nbits : Nat) : Poly :=
  fun i => (fromBytes data >>> (nbits * i) % 2 ^ nbits : Nat)

def pkT1 (a : Poly) : List (BitVec 8) := packBits a 10

def pkT0 (a : Poly) : List (BitVec 8) := packBits (fun i => 4096 - a i) 13

def upkT0 (b : List (BitVec 8)) : Poly := fun i => 4096 - unpackBits b 13 i

def etaBits (eta : Nat) : Nat := if eta = 2 then 3 else 4

def pkEta (a : Poly) (eta : Nat) : List (BitVec 8) := packBits (fun i => eta - a i) (etaBits eta)

def upkEta (b : List (BitVec 8)) (eta : Nat) : Poly := fun i => eta - unpackBits b (etaBits eta) i

def pkZ (a : Poly) (g1bits : Nat) : List (BitVec 8) := packBits (fun i => 2 ^ g1bits - a i) (g1bits + 1)

/-- `op_sample_gamma1`, of the bytes it has taken. -/
def sampleGamma1 (raw : List (BitVec 8)) (g1bits : Nat) : Poly :=
  fun i => 2 ^ g1bits - unpackBits raw (g1bits + 1) i

def w1Bits (g2div : Nat) : Nat := if g2div = 88 then 6 else 4

def pkW1 (a : Poly) (g2div : Nat) : List (BitVec 8) := packBits a (w1Bits g2div)

def upkW1 (b : List (BitVec 8)) (g2div : Nat) : Poly := unpackBits b (w1Bits g2div)

/-! Samplers: `st` is the byte stream, of which `pos` bytes have been taken. -/

section Samplers

variable (st : Nat → BitVec 8)

def uniformBody (x : List Int × Nat) : List Int × Nat :=
  let t := ((st x.2).toNat ||| (st (x.2 + 1)).toNat <<< 8 ||| (st (x.2 + 2)).toNat <<< 16) &&& 0x7FFFFF
  (if (t : Int) < q then x.1 ++ [(t : Int)] else x.1, x.2 + 3)

/-- `while len(a) < N`. -/
def wanting (x : List Int × Nat) : Bool := x.1.length < n

/-- `op_sample_uniform` returns `a` and leaves the stream at `last`. -/
def SamplesUniform (pos : Nat) (a : List Int) (last : Nat) : Prop :=
  Loops wanting (uniformBody st) ([], pos) (a, last)

/-- What half a byte stands for. -/
def etaCoef (eta t : Nat) : Option Int :=
  if eta = 2 then
    if t < 15 then some (2 - (t - ((205 * t) >>> 10 : Nat) * 5)) else none
  else if t < 9 then some (4 - t) else none

def etaPush (eta : Nat) (a : List Int) (t : Nat) : List Int :=
  if n ≤ a.length then a else a ++ (etaCoef eta t).toList

def etaBody (eta : Nat) (x : List Int × Nat) : List Int × Nat :=
  let b := (st x.2).toNat
  (etaPush eta (etaPush eta x.1 (b &&& 15)) (b >>> 4), x.2 + 1)

/-- `op_sample_eta`. -/
def SamplesEta (eta pos : Nat) (a : List Int) (last : Nat) : Prop :=
  Loops wanting (etaBody st eta) ([], pos) (a, last)

/-- `st.take(count)`. -/
def take (pos count : Nat) : List (BitVec 8) := (List.range count).map fun j => st (pos + j)

/-- The candidates of `op_sample_ball` that are refused for `i`. -/
def tooHigh (i pos : Nat) : Bool := i < (st pos).toNat

/-- The `for` loop of `op_sample_ball`, from `i` on, `m` times. -/
inductive SwapsBall : Nat → Nat → Nat → Nat → Poly → Poly → Nat → Prop
  | done (i pos signs : Nat) (c : Poly) : SwapsBall 0 i pos signs c c pos
  | swap {m i pos signs last : Nat} {c d : Poly} (at_ : Nat)
      (h : Loops (tooHigh st i) (· + 1) pos at_)
      (rest : SwapsBall m (i + 1) (at_ + 1) (signs >>> 1)
        (Function.update (Function.update c i (c (st at_).toNat)) (st at_).toNat (1 - 2 * (signs &&& 1 : Nat)))
        d last) : SwapsBall (m + 1) i pos signs c d last

/-- `op_sample_ball`. -/
def SamplesBall (tau pos : Nat) (c : Poly) (last : Nat) : Prop :=
  SwapsBall st tau (n - tau) (pos + 8) (fromBytes (take st pos 8)) (fun _ => 0) c last

end Samplers

/-! Hints. -/

/-- The loop of `unpack_sig` over the positions of a polynomial, from `j` on; `k` is the
first of them. -/
def decodePositions (sig : Nat → BitVec 8) (k : Nat) : Nat → Nat → (Nat → Bool) → Option (Nat → Bool)
  | 0, _, h => some h
  | m + 1, j, h =>
    if k < j ∧ sig j ≤ sig (j - 1) then none
    else decodePositions sig k m (j + 1) (Function.update h (sig j).toNat true)

/-- The loop of `unpack_sig` over the polynomials: `m` are left, `i` is the next. -/
def decodeRows (sig : Nat → BitVec 8) (omega : Nat) : Nat → Nat → Nat → Option (List (Nat → Bool) × Nat)
  | 0, _, k => some ([], k)
  | m + 1, i, k =>
    let stop := (sig (omega + i)).toNat
    if stop < k ∨ omega < stop then none
    else do
      let row ← decodePositions sig k (stop - k) k fun _ => false
      let (rows, last) ← decodeRows sig omega m (i + 1) stop
      some (row :: rows, last)

/-- The part of `unpack_sig` that decodes the hints of `rows` polynomials. -/
def decodeHints (sig : Nat → BitVec 8) (omega rows : Nat) : Option (List (Nat → Bool)) := do
  let (h, k) ← decodeRows sig omega rows 0 0
  if ∃ j < omega, k ≤ j ∧ sig j ≠ 0 then none else some h

end GoiKey.Pq
