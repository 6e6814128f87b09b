import Mathlib.Data.List.GetD
import Mathlib.Logic.Function.Basic

/-!
Block RAMs with one write port and one read port: both are registered, so a write takes
place on the edge after it is set up and a word comes on the edge after its address.
-/

variable {α β : Type}

structure SyncRam (α β : Type) where
  mem : α → β
  ra : α
  rq : β
  we : Bool
  wa : α
  wd : β

namespace SyncRam

variable [DecidableEq α]

/-- What the memory holds once a write on its way has taken place. -/
def written (r : SyncRam α β) : α → β := if r.we then Function.update r.mem r.wa r.wd else r.mem

/-- One edge on which nothing new is asked for. -/
def clock (r : SyncRam α β) : SyncRam α β := { r with mem := r.written, rq := r.mem r.ra, we := false }

def read (r : SyncRam α β) (ra : α) : SyncRam α β := { r with ra := ra }

def write (r : SyncRam α β) (wa : α) (wd : β) : SyncRam α β := { r with we := true, wa := wa, wd := wd }

variable (r : SyncRam α β) (a : α) (d : β)

@[simp] theorem written_clock : r.clock.written = r.written := rfl

@[simp] theorem written_read : (r.read a).written = r.written := rfl

@[simp] theorem written_write : (r.write a d).written = Function.update r.mem a d := rfl

@[simp] theorem mem_clock : r.clock.mem = r.written := rfl

@[simp] theorem rq_clock : r.clock.rq = r.mem r.ra := rfl

@[simp] theorem ra_clock : r.clock.ra = r.ra := rfl

@[simp] theorem we_clock : r.clock.we = false := rfl

@[simp] theorem mem_read : (r.read a).mem = r.mem := rfl

@[simp] theorem rq_read : (r.read a).rq = r.rq := rfl

@[simp] theorem ra_read : (r.read a).ra = a := rfl

@[simp] theorem we_read : (r.read a).we = r.we := rfl

@[simp] theorem mem_write : (r.write a d).mem = r.mem := rfl

@[simp] theorem ra_write : (r.write a d).ra = r.ra := rfl

variable {r}

/-- With no write on its way. -/
theorem written_of_still (h : r.we = false) : r.written = r.mem := by
  rw [written, h]
  rfl

end SyncRam

/-! Runs of writes. -/

section Fill

variable [DecidableEq α]

/-- A memory after the first `n` of some writes. -/
def fill (mem : α → β) (addr : Nat → α) (data : Nat → β) : Nat → α → β
  | 0 => mem
  | n + 1 => Function.update (fill mem addr data n) (addr n) (data n)

variable {mem : α → β} {addr : Nat → α} {data : Nat → β} {n k : Nat}

@[simp] theorem fill_zero : fill mem addr data 0 = mem := rfl

theorem fill_succ : fill mem addr data (n + 1) = Function.update (fill mem addr data n) (addr n) (data n) :=
  rfl

theorem fill_elsewhere {x : α} (h : ∀ k < n, x ≠ addr k) : fill mem addr data n x = mem x := by
  induction n with
  | zero => rfl
  | succ n ih =>
    rw [fill_succ, Function.update_of_ne (h n (Nat.lt_succ_self n)), ih fun k hk => h k (Nat.lt_succ_of_lt hk)]

theorem fill_at (hinj : ∀ i < n, ∀ j < n, addr i = addr j → i = j) (hk : k < n) :
    fill mem addr data n (addr k) = data k := by
  induction n with
  | zero => exact absurd hk (Nat.not_lt_zero k)
  | succ n ih =>
    rw [fill_succ]
    by_cases hkn : k = n
    · rw [hkn, Function.update_self]
    · have hlt : k < n := Nat.lt_of_le_of_ne (Nat.le_of_lt_succ hk) hkn
      have hne : addr k ≠ addr n := fun h =>
        hkn (hinj k (Nat.lt_succ_of_lt hlt) n (Nat.lt_succ_self n) h)
      rw [Function.update_of_ne hne]
      exact ih (fun i hi j hj => hinj i (Nat.lt_succ_of_lt hi) j (Nat.lt_succ_of_lt hj)) hlt

theorem fill_congr {data' : Nat → β} (h : ∀ k < n, data k = data' k) :
    fill mem addr data n = fill mem addr data' n := by
  induction n with
  | zero => rfl
  | succ n ih =>
    rw [fill_succ, fill_succ, ih fun k hk => h k (Nat.lt_succ_of_lt hk), h n (Nat.lt_succ_self n)]

/-- A memory after the words of a list have been written, one after the other. -/
def fillList (mem : α → β) (addr : Nat → α) (words : List β) : α → β :=
  fill mem addr (fun j => words.getD j (mem (addr j))) words.length

theorem fillList_snoc (words : List β) (x : β) :
    fillList mem addr (words ++ [x]) = Function.update (fillList mem addr words) (addr words.length) x := by
  have hsame : ∀ j < words.length, (words ++ [x]).getD j (mem (addr j)) = words.getD j (mem (addr j)) := by
    intro j hj
    rw [List.getD_append _ _ _ _ hj]
  have hlast : (words ++ [x]).getD words.length (mem (addr words.length)) = x := by
    rw [List.getD_append_right _ _ _ _ (Nat.le_refl _), Nat.sub_self]
    rfl
  rw [fillList, List.length_append, List.length_singleton, fill_succ, hlast, fill_congr hsame, fillList]

theorem fillList_at {words : List β} (hinj : ∀ i < words.length, ∀ j < words.length, addr i = addr j → i = j)
    (hk : k < words.length) : fillList mem addr words (addr k) = words[k] := by
  rw [fillList, fill_at hinj hk, List.getD_eq_getElem _ _ hk]

theorem fillList_elsewhere {words : List β} {x : α} (h : ∀ k < words.length, x ≠ addr k) :
    fillList mem addr words x = mem x := fill_elsewhere h

end Fill
