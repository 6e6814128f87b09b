import Mathlib.Algebra.Order.Group.Nat
import Mathlib.Data.Nat.Bitwise
import Mathlib.Tactic.Ring
import Mathlib.Data.List.Induction

/-!
A buffer between two streams of bits: fields of a number are put in above, and taken out
below in another width.
-/

namespace BitBuffer

/-- The bits of `v` from `c` on, of the `p` bits that have been put in. -/
def buffer (v p c : Nat) : Nat := v % 2 ^ p / 2 ^ c

/-- The field of `v` that is `w` bits wide and begins at bit `p`. -/
def field (v p w : Nat) : Nat := v / 2 ^ p % 2 ^ w

variable {v p c w : Nat}

/-- Bits beside lower ones. -/
theorem or_byte {x : Nat} (y : Nat) {n : Nat} (hx : x < 2 ^ n) : x ||| y <<< n = x + 2 ^ n * y := by
  rw [Nat.or_comm, ← Nat.shiftLeft_add_eq_or_of_lt hx, Nat.shiftLeft_eq, Nat.mul_comm, Nat.add_comm]

theorem field_lt : field v p w < 2 ^ w := Nat.mod_lt _ (Nat.two_pow_pos w)

@[simp] theorem buffer_self : buffer v p p = 0 := Nat.div_eq_of_lt (Nat.mod_lt _ (Nat.two_pow_pos p))

theorem buffer_lt (h : c ≤ p) : buffer v p c < 2 ^ (p - c) := by
  rw [buffer]
  apply Nat.div_lt_of_lt_mul
  rw [← Nat.pow_add, Nat.add_sub_cancel' h]
  exact Nat.mod_lt _ (Nat.two_pow_pos p)

/-- A field more. -/
theorem buffer_put (h : c ≤ p) : buffer v p c + field v p w * 2 ^ (p - c) = buffer v (p + w) c := by
  have hpow : 2 ^ p = 2 ^ (p - c) * 2 ^ c := by rw [← Nat.pow_add, Nat.sub_add_cancel h]
  have hscaled : 2 ^ p * (v / 2 ^ p % 2 ^ w) = field v p w * 2 ^ (p - c) * 2 ^ c := by
    rw [field, Nat.mul_assoc, ← hpow, Nat.mul_comm]
  rw [buffer, buffer, Nat.pow_add, Nat.mod_mul, hscaled, Nat.add_mul_div_right _ _ (Nat.two_pow_pos c)]

/-- The field is laid beside what is there. -/
theorem or_put (h : c ≤ p) :
    buffer v p c ||| field v p w <<< (p - c) = buffer v (p + w) c := by
  have hor := Nat.two_pow_add_eq_or_of_lt (buffer_lt (v := v) h) (field v p w)
  rw [Nat.shiftLeft_eq, ← buffer_put h, Nat.or_comm, Nat.mul_comm, ← hor, Nat.add_comm]

/-- The field that is next to be taken out. -/
theorem buffer_take (h : c + w ≤ p) : buffer v p c % 2 ^ w = field v c w := by
  obtain ⟨d, rfl⟩ := Nat.exists_eq_add_of_le h
  rw [buffer, field, Nat.add_assoc, Nat.pow_add 2 c, Nat.mod_mul_right_div_self]
  exact Nat.mod_mod_of_dvd _ (Nat.pow_dvd_pow 2 (Nat.le_add_right w d))

theorem buffer_drop : buffer v p c / 2 ^ w = buffer v p (c + w) := by
  rw [buffer, buffer, Nat.div_div_eq_div_mul, Nat.pow_add]

end BitBuffer

/-!
Groups of bits, the most significant first, and the same bits in groups of another
width.
-/

namespace BitGroups

/-- The number the groups stand for. -/
def value (w : Nat) (gs : List Nat) : Nat := gs.foldl (fun n g => n * 2 ^ w + g) 0

/-- The lowest `count` groups of a number. -/
def groups (w : Nat) : Nat → Nat → List Nat
  | 0, _ => []
  | count + 1, n => groups w count (n / 2 ^ w) ++ [n % 2 ^ w]

/-- As many whole groups of width `v` as there are; the bits behind them are dropped. -/
def unpack (w v : Nat) (gs : List Nat) : List Nat :=
  groups v (w * gs.length / v) (value w gs / 2 ^ (w * gs.length % v))

/-- Groups of width `v` that take all the bits, with zeros behind them. -/
def pack (w v : Nat) (gs : List Nat) : List Nat :=
  let count := (w * gs.length + (v - 1)) / v
  groups v count (value w gs * 2 ^ (v * count - w * gs.length))

variable {w v count n g : Nat} {gs : List Nat}

@[simp] theorem groups_length : (groups w count n).length = count := by
  induction count generalizing n with
  | zero => rfl
  | succ count ih => simp [groups, ih]

@[simp] theorem unpack_length : (unpack w v gs).length = w * gs.length / v := groups_length

theorem value_snoc : value w (gs ++ [g]) = value w gs * 2 ^ w + g := by
  simp [value]

theorem groups_lt : ∀ g ∈ groups w count n, g < 2 ^ w := by
  induction count generalizing n with
  | zero => exact fun _ h => absurd h List.not_mem_nil
  | succ count ih =>
    intro g hg
    rcases List.mem_append.mp hg with hg | hg
    · exact ih g hg
    · rw [List.mem_singleton.mp hg]
      exact Nat.mod_lt _ (Nat.two_pow_pos w)

theorem value_groups : value w (groups w count n) = n % 2 ^ (w * count) := by
  induction count generalizing n with
  | zero => simp [groups, value, Nat.mod_one]
  | succ count ih =>
    have hpow : 2 ^ (w * (count + 1)) = 2 ^ w * 2 ^ (w * count) := by
      rw [Nat.mul_succ, Nat.pow_add, Nat.mul_comm]
    rw [groups, value_snoc, ih, hpow, Nat.mod_mul]
    ring

theorem groups_value (h : ∀ g ∈ gs, g < 2 ^ w) : groups w gs.length (value w gs) = gs := by
  induction gs using List.reverseRecOn with
  | nil => rfl
  | append_singleton gs g ih =>
    have hg : g < 2 ^ w := h g (by simp)
    have hrest : groups w gs.length (value w gs) = gs := ih fun x hx => h x (by simp [hx])
    have hdiv : (value w gs * 2 ^ w + g) / 2 ^ w = value w gs := by
      rw [Nat.mul_comm, Nat.mul_add_div (Nat.two_pow_pos w), Nat.div_eq_of_lt hg, Nat.add_zero]
    have hmod : (value w gs * 2 ^ w + g) % 2 ^ w = g := by
      rw [Nat.mul_comm, Nat.mul_add_mod, Nat.mod_eq_of_lt hg]
    rw [List.length_append, List.length_singleton, groups, value_snoc, hdiv, hmod, hrest]

theorem value_lt (h : ∀ g ∈ gs, g < 2 ^ w) : value w gs < 2 ^ (w * gs.length) := by
  have hgroups : value w (groups w gs.length (value w gs)) = value w gs % 2 ^ (w * gs.length) := value_groups
  rw [groups_value h] at hgroups
  rw [hgroups]
  exact Nat.mod_lt _ (Nat.two_pow_pos _)

/-- What was packed into groups no wider comes out again. -/
theorem unpack_pack (hv : 0 < v) (hle : v ≤ w) (h : ∀ g ∈ gs, g < 2 ^ w) :
    unpack v w (pack w v gs) = gs := by
  let count := (w * gs.length + (v - 1)) / v
  have hpack : pack w v gs = groups v count (value w gs * 2 ^ (v * count - w * gs.length)) := rfl
  -- the padding is shorter than a group
  have hround : v * count + (w * gs.length + (v - 1)) % v = w * gs.length + (v - 1) :=
    Nat.div_add_mod _ v
  have hlast := Nat.mod_lt (w * gs.length + (v - 1)) hv
  have hcover : w * gs.length ≤ v * count := by omega
  have hshort : v * count - w * gs.length < w := by omega
  have hbits : v * count = (v * count - w * gs.length) + w * gs.length := by omega
  have hlen : (pack w v gs).length = count := groups_length
  have hcount : v * count / w = gs.length := by
    rw [hbits, Nat.add_mul_div_left _ _ (by omega), Nat.div_eq_of_lt hshort, Nat.zero_add]
  have hrest : v * count % w = v * count - w * gs.length := by
    rw [hbits, Nat.add_mul_mod_self_left, Nat.mod_eq_of_lt (by omega)]
    omega
  have hvalue : value v (pack w v gs) = value w gs * 2 ^ (v * count - w * gs.length) := by
    rw [hpack, value_groups]
    apply Nat.mod_eq_of_lt
    calc value w gs * 2 ^ (v * count - w * gs.length)
        < 2 ^ (w * gs.length) * 2 ^ (v * count - w * gs.length) :=
          Nat.mul_lt_mul_of_pos_right (value_lt h) (Nat.two_pow_pos _)
      _ = 2 ^ (v * count) := by rw [← Nat.pow_add, Nat.add_sub_cancel' hcover]
  rw [unpack, hlen, hcount, hrest, hvalue, Nat.mul_div_cancel _ (Nat.two_pow_pos _), groups_value h]

/-! The groups of a stream, from a buffer of so many bits. -/

/-- The buffer, how many bits in it have not come out, and the groups that have. -/
structure Stream where
  buffer : Nat := 0
  left : Nat := 0
  out : List Nat := []

def push (w v bits : Nat) (s : Stream) (g : Nat) : Stream :=
  let buffer := (s.buffer * 2 ^ w + g) % 2 ^ bits
  let left := s.left + w
  if v ≤ left then ⟨buffer, left - v, s.out ++ [buffer / 2 ^ (left - v) % 2 ^ v]⟩
  else ⟨buffer, left, s.out⟩

/-- The buffer ends in the bits that are left, the others have come out. -/
structure Follows (w v : Nat) (s : Stream) (gs : List Nat) : Prop where
  left : s.left = w * gs.length % v
  buffer : s.buffer % 2 ^ s.left = value w gs % 2 ^ s.left
  out : s.out = unpack w v gs

theorem push_follows {s : Stream} {bits : Nat} (hw : w ≤ v) (hv : 0 < v) (hbits : v + w ≤ bits + 1)
    (hg : g < 2 ^ w) (h : Follows w v s gs) : Follows w v (push w v bits s g) (gs ++ [g]) := by
  have hleft : s.left < v := by
    rw [h.left]
    exact Nat.mod_lt _ hv
  have hlen : w * (gs ++ [g]).length = w * gs.length + w := by
    rw [List.length_append, List.length_singleton, Nat.mul_succ]
  -- the buffer still ends in what is left and the new group
  have hbuffer : (s.buffer * 2 ^ w + g) % 2 ^ bits % 2 ^ (s.left + w) =
      value w (gs ++ [g]) % 2 ^ (s.left + w) := by
    rw [Nat.mod_mod_of_dvd _ (Nat.pow_dvd_pow 2 (by omega)), value_snoc]
    have hmul : s.buffer * 2 ^ w % 2 ^ (s.left + w) = value w gs * 2 ^ w % 2 ^ (s.left + w) := by
      rw [Nat.pow_add, Nat.mul_mod_mul_right, Nat.mul_mod_mul_right, h.buffer]
    rw [Nat.add_mod, hmul, ← Nat.add_mod]
  have hvalue : value w (gs ++ [g]) / 2 ^ w = value w gs := by
    rw [value_snoc, Nat.mul_comm, Nat.mul_add_div (Nat.two_pow_pos w), Nat.div_eq_of_lt hg, Nat.add_zero]
  have hdrop : value w (gs ++ [g]) / 2 ^ (s.left + w) = value w gs / 2 ^ s.left := by
    rw [Nat.add_comm, Nat.pow_add, ← Nat.div_div_eq_div_mul, hvalue]
  have hround : v * (w * gs.length / v) + s.left = w * gs.length := by
    rw [h.left]
    exact Nat.div_add_mod _ v
  unfold push
  simp only
  by_cases hfull : v ≤ s.left + w
  · have hsplit : w * (gs ++ [g]).length = v * (w * gs.length / v + 1) + (s.left + w - v) := by
      rw [hlen, Nat.mul_succ]
      omega
    have hmod : w * (gs ++ [g]).length % v = s.left + w - v := by
      rw [hsplit, Nat.mul_add_mod, Nat.mod_eq_of_lt (by omega)]
    have hdiv : w * (gs ++ [g]).length / v = w * gs.length / v + 1 := by
      have hshort : s.left + w - v < v := by omega
      rw [hsplit, Nat.mul_add_div hv, Nat.div_eq_of_lt hshort, Nat.add_zero]
    have hpow : 2 ^ (s.left + w) = 2 ^ (s.left + w - v) * 2 ^ v := by
      rw [← Nat.pow_add, Nat.sub_add_cancel hfull]
    rw [if_pos hfull]
    refine ⟨hmod.symm, ?_, ?_⟩
    · have hends := congrArg (fun x => x % 2 ^ (s.left + w - v)) hbuffer
      simp only [hpow, Nat.mod_mul_right_mod] at hends
      exact hends
    · -- the group that comes out lies right above what is left
      have hgroup := congrArg (fun x => x / 2 ^ (s.left + w - v)) hbuffer
      simp only [hpow, Nat.mod_mul_right_div_self] at hgroup
      have hnext : value w (gs ++ [g]) / 2 ^ (s.left + w - v) / 2 ^ v = value w gs / 2 ^ s.left := by
        rw [Nat.div_div_eq_div_mul, ← hpow, hdrop]
      rw [unpack, hmod, hdiv, groups, hnext, h.out, unpack, ← h.left, hgroup]
  · have hsplit : w * (gs ++ [g]).length = v * (w * gs.length / v) + (s.left + w) := by
      rw [hlen]
      omega
    have hmod : w * (gs ++ [g]).length % v = s.left + w := by
      rw [hsplit, Nat.mul_add_mod, Nat.mod_eq_of_lt (by omega)]
    have hdiv : w * (gs ++ [g]).length / v = w * gs.length / v := by
      rw [hsplit, Nat.mul_add_div hv, Nat.div_eq_of_lt (not_le.mp hfull), Nat.add_zero]
    rw [if_neg hfull]
    refine ⟨hmod.symm, hbuffer, ?_⟩
    rw [unpack, hmod, hdiv, hdrop, h.out, unpack, h.left]

/-- A buffer with room for what is left and one group more loses nothing. -/
theorem stream_unpacks {bits : Nat} (hw : w ≤ v) (hv : 0 < v) (hbits : v + w ≤ bits + 1)
    (hg : ∀ g ∈ gs, g < 2 ^ w) : (gs.foldl (push w v bits) {}).out = unpack w v gs := by
  have hfollows : Follows w v (gs.foldl (push w v bits) {}) gs := by
    induction gs using List.reverseRecOn with
    | nil => exact ⟨(Nat.zero_mod v).symm, rfl, by simp [unpack, groups]⟩
    | append_singleton gs g ih =>
      rw [List.foldl_append]
      exact push_follows hw hv hbits (hg g (by simp)) (ih fun x hx => hg x (by simp [hx]))
  exact hfollows.out

end BitGroups
