import Mathlib.Data.BitVec
import Mathlib.Logic.Function.Basic

/-!
The key store of root_of_trust.v. Its two blocks run on a rising edge of `clk` and on a
falling edge of `rst_n`; `key_mem` is the one register that a reset leaves alone.
-/

namespace GoiKey.Rtl

variable {slots bits : Nat}

structure KeyStore (slots bits : Nat) where
  keyMem : Fin slots → BitVec bits
  keyValid : Fin slots → Bool
  keyWritten : Fin slots → Bool
  keyReadReg : BitVec bits

/-- The `initial` block; the read register has no initial value. -/
def KeyStore.powerUp (keyReadReg : BitVec bits) : KeyStore slots bits where
  keyMem _ := 0
  keyValid _ := false
  keyWritten _ := false
  keyReadReg := keyReadReg

structure KeyPorts (bits : Nat) where
  rstN : Bool := true
  zeroizeN : Bool := true
  writeSlotIdx : BitVec 4 := 0
  writeKeyData : BitVec bits := 0
  writeEn : Bool := false
  writeAuth : Bool := false
  readSlotIdx : BitVec 4 := 0
  readEn : Bool := false
  readAuth : Bool := false
  deriving DecidableEq, Repr

inductive KeyEdge (bits : Nat) where
  | negedgeRst
  | posedgeClk (i : KeyPorts bits)
  deriving DecidableEq, Repr

/-- A flag behind the last slot reads as x, which no condition takes for true. -/
def slotOf (slots : Nat) (idx : BitVec 4) : Option (Fin slots) :=
  if h : idx.toNat < slots then some ⟨idx.toNat, h⟩ else none

/-- The slot a write may go to, and the key for it. -/
def KeyPorts.writes (slots : Nat) (i : KeyPorts bits) : Option (Fin slots × BitVec bits) :=
  if i.writeEn ∧ i.writeAuth then (slotOf slots i.writeSlotIdx).map fun s => (s, i.writeKeyData) else none

/-- The slot an authorized read names. -/
def KeyPorts.reads (slots : Nat) (i : KeyPorts bits) : Option (Fin slots) :=
  if i.readEn ∧ i.readAuth then slotOf slots i.readSlotIdx else none

def KeyStore.resetFlags (k : KeyStore slots bits) : KeyStore slots bits :=
  { k with keyValid := fun _ => false, keyWritten := fun _ => false }

/-- The write logic: the first write to a slot alone. -/
def KeyStore.writeLogic (k : KeyStore slots bits) (i : KeyPorts bits) : KeyStore slots bits :=
  if !i.rstN then k.resetFlags
  else if !i.zeroizeN then { k.resetFlags with keyMem := fun _ => 0 }
  else
    match i.writes slots with
    | none => k
    | some (s, key) =>
      if k.keyWritten s then k
      else { k with
        keyMem := Function.update k.keyMem s key
        keyValid := Function.update k.keyValid s true
        keyWritten := Function.update k.keyWritten s true }

/-- The read logic, from the registers before the edge. -/
def KeyStore.readLogic (k : KeyStore slots bits) (i : KeyPorts bits) : BitVec bits :=
  if !i.rstN then 0
  else
    match i.reads slots with
    | none => 0
    | some s => if k.keyValid s then k.keyMem s else 0

/-- One edge, with `key_o` after it. -/
def KeyStore.edge (k : KeyStore slots bits) : KeyEdge bits → BitVec bits × KeyStore slots bits
  | .negedgeRst => (0, { k.resetFlags with keyReadReg := 0 })
  | .posedgeClk i => (k.readLogic i, { k.writeLogic i with keyReadReg := k.readLogic i })

end GoiKey.Rtl
