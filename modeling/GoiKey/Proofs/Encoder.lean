import GoiKey.Lib.CborOrder
import GoiKey.Proofs.RoundTrips

/-! What the encoder writes: its items one behind the other, as long as all of them fit. -/

namespace GoiKey

open CborGrammar

variable {capacity offset major v : Nat} {is is' : List Item} {i : Item} {es es' : List (Datum × Datum)}

/-! Nothing is dropped. -/

/-- The items one behind the other. -/
def written (is : List Item) : Bytes := is.flatMap Item.encoded

@[simp] theorem written_nil : written [] = [] := rfl

@[simp] theorem written_cons (i : Item) (is : List Item) : written (i :: is) = i.encoded ++ written is :=
  List.flatMap_cons

@[simp] theorem written_append (is is' : List Item) : written (is ++ is') = written is ++ written is' :=
  List.flatMap_append

/-- Every item finds room behind the ones before it. -/
def AllFit (capacity : Nat) : Nat → List Item → Prop
  | _, [] => True
  | offset, i :: is => i.fits capacity offset = true ∧ AllFit capacity (offset + i.encoded.length) is

theorem head_ne_nil (major v : Nat) : head major v ≠ [] := by
  unfold head
  simp only
  repeat' split
  all_goals exact List.cons_ne_nil _ _

theorem encoded_length_pos (i : Item) : 0 < i.encoded.length := by
  have hhead := fun major v => List.length_pos_iff.mpr (head_ne_nil major v)
  cases i with
  | uint v => exact hhead 0 v
  | nint v => exact hhead 1 _
  | bytes b =>
    have := hhead 2 b.length
    simp only [Item.encoded, List.length_append]
    omega
  | text t =>
    have := hhead 3 t.length
    simp only [Item.encoded, List.length_append]
    omega
  | map n => exact hhead 5 n
  | array n => exact hhead 4 n
  | bool b => exact Nat.one_pos

theorem foldl_write_length (capacity : Nat) (is : List Item) (b : Bytes) :
    (is.foldl (write capacity) b).length ≤ b.length + (written is).length := by
  induction is generalizing b with
  | nil => simp
  | cons i is ih =>
    have hlen := ih (write capacity b i)
    rw [List.foldl_cons, written_cons, List.length_append]
    unfold write at hlen ⊢
    split at hlen
    · next h =>
      rw [if_pos h]
      rw [List.length_append] at hlen
      omega
    · next h =>
      rw [if_neg h]
      omega

theorem foldl_write_iff (is : List Item) (b : Bytes) :
    is.foldl (write capacity) b = b ++ written is ↔ AllFit capacity b.length is := by
  induction is generalizing b with
  | nil => simp [AllFit]
  | cons i is ih =>
    rw [List.foldl_cons, written_cons, AllFit]
    by_cases h : i.fits capacity b.length = true
    · rw [write, if_pos h, ← List.append_assoc, ih, List.length_append]
      exact ⟨fun hfit => ⟨h, hfit⟩, And.right⟩
    · refine ⟨fun he => ?_, fun hfit => absurd hfit.1 h⟩
      -- What was dropped leaves the buffer too short.
      have hlen := foldl_write_length capacity is b
      rw [write, if_neg h] at he
      rw [he, List.length_append, List.length_append] at hlen
      have := encoded_length_pos i
      omega

/-- The buffer holds all items exactly when each of them found room. -/
theorem encode_eq_written_iff : encode capacity is = written is ↔ AllFit capacity 0 is :=
  foldl_write_iff is []

/-- The limits the write functions check besides the room. -/
def Item.Short : Item → Prop
  | .bytes b => b.length ≤ 0xFFFF
  | .text t => t.length ≤ 0xFF
  | .map n => n ≤ 0xFFFF
  | .array n => n ≤ 0xFF
  | .nint v => v < 0
  | _ => True

instance : DecidablePred Item.Short
  | .bytes b => inferInstanceAs (Decidable (b.length ≤ 0xFFFF))
  | .text t => inferInstanceAs (Decidable (t.length ≤ 0xFF))
  | .map n => inferInstanceAs (Decidable (n ≤ 0xFFFF))
  | .array n => inferInstanceAs (Decidable (n ≤ 0xFF))
  | .nint v => inferInstanceAs (Decidable (v < 0))
  | .uint _ => .isTrue trivial
  | .bool _ => .isTrue trivial

theorem fits_of_short (hi : i.Short) (hroom : offset + i.encoded.length + 2 < capacity) :
    i.fits capacity offset = true := by
  have hhead := fun major v => List.length_pos_iff.mpr (head_ne_nil major v)
  cases i with
  | uint v => exact decide_eq_true (by omega)
  | nint v =>
    have hi : v < 0 := hi
    simp only [Item.fits, Bool.and_eq_true, decide_eq_true_eq]
    omega
  | bytes b =>
    have hi : b.length ≤ 0xFFFF := hi
    have := hhead 2 b.length
    simp only [Item.encoded, List.length_append] at hroom
    simp only [Item.fits, Bool.and_eq_true, decide_eq_true_eq]
    omega
  | text t =>
    have hi : t.length ≤ 0xFF := hi
    have := hhead 3 t.length
    simp only [Item.encoded, List.length_append] at hroom
    simp only [Item.fits, Bool.and_eq_true, decide_eq_true_eq]
    omega
  | map n =>
    have hi : n ≤ 0xFFFF := hi
    have : (Item.map n).encoded.length = (head 5 n).length := rfl
    simp only [Item.fits, Bool.and_eq_true, decide_eq_true_eq]
    omega
  | array n =>
    have hi : n ≤ 0xFF := hi
    have : (Item.array n).encoded.length = (head 4 n).length := rfl
    simp only [Item.fits, Bool.and_eq_true, decide_eq_true_eq]
    omega
  | bool b => exact decide_eq_true (by omega)

/-- Short items all fit when the buffer is two bytes longer than they are. -/
theorem allFit_of_short (hs : ∀ i ∈ is, i.Short) (hroom : offset + (written is).length + 2 < capacity) :
    AllFit capacity offset is := by
  induction is generalizing offset with
  | nil => trivial
  | cons i is ih =>
    rw [written_cons, List.length_append] at hroom
    refine ⟨fits_of_short (hs i List.mem_cons_self) (by omega), ?_⟩
    exact ih (fun i hi => hs i (List.mem_cons_of_mem _ hi)) (by omega)

/-! The trees behind the items. -/

theorem head_spec (hm : major < 8) (v : Nat) : Head major (v % 2 ^ 64) (head major v) := by
  have argument_spec : ∀ n, argument (bigEndian n v) = v % 256 ^ n := fun n => fromBigEndian_bigEndian_mod n v
  have long : ∀ {info n : Nat}, argumentWidth info = some n → v % 2 ^ 64 = v % 256 ^ n →
      Head major (v % 2 ^ 64) (initialByte major info :: bigEndian n v) := by
    intro info n hw hv
    rw [hv, ← argument_spec n]
    exact .long (by rw [bigEndian_length, hw])
  unfold head
  simp only
  split
  next h =>
    rw [Nat.mod_eq_of_lt (by omega)]
    exact .short h
  split
  · exact long rfl (by omega)
  split
  · exact long rfl (by omega)
  split
  · exact long rfl (by omega)
  · exact long rfl (by norm_num)

theorem head_exact (hm : major < 8) (hv : v < 2 ^ 64) : Head major v (head major v) := by
  have := head_spec hm v
  rwa [Nat.mod_eq_of_lt hv] at this

/-- The tree of an item that has nothing below it. -/
def Item.datum : Item → Datum
  | .uint v => .number 0 (v % 2 ^ 64) (head 0 v)
  | .nint v => .number 1 ((-1 - v).toNat % 2 ^ 64) (head 1 (-1 - v).toNat)
  | .bytes b => .string 2 (head 2 b.length) b
  | .text t => .string 3 (head 3 t.length) t
  | .map n => .map (head 5 n) []
  | .array n => .array (head 4 n) []
  | .bool b => .number 7 (if b then 21 else 20) [if b then 0xF5 else 0xF4]

@[simp] theorem datum_bytes (i : Item) : i.datum.bytes = i.encoded := by
  cases i with
  | map n => exact List.append_nil _
  | array n => exact List.append_nil _
  | _ => rfl

/-- Nothing has to follow it. -/
def Item.Whole : Item → Prop
  | .bytes b => b.length < 2 ^ 64
  | .text t => t.length < 2 ^ 64
  | .map n => n = 0
  | .array n => n = 0
  | _ => True

instance : DecidablePred Item.Whole
  | .bytes b => inferInstanceAs (Decidable (b.length < 2 ^ 64))
  | .text t => inferInstanceAs (Decidable (t.length < 2 ^ 64))
  | .map n => inferInstanceAs (Decidable (n = 0))
  | .array n => inferInstanceAs (Decidable (n = 0))
  | .uint _ => .isTrue trivial
  | .nint _ => .isTrue trivial
  | .bool _ => .isTrue trivial

theorem datum_valid (hi : i.Whole) : i.datum.Valid := by
  cases i with
  | uint v => exact .number (.inl rfl) (head_spec (by omega) v) (by omega)
  | nint v => exact .number (.inr (.inl rfl)) (head_spec (by omega) _) (by omega)
  | bytes b => exact .string (.inl rfl) (head_exact (by omega) hi)
  | text t => exact .string (.inr rfl) (head_exact (by omega) hi)
  | map n =>
    obtain rfl : n = 0 := hi
    exact .map (.short (by decide)) (by simp) (by simp)
  | array n =>
    obtain rfl : n = 0 := hi
    exact .array (.short (by decide)) (by simp)
  | bool b =>
    cases b
    · exact .number (.inr (.inr rfl)) (.short (by decide)) (by simp)
    · exact .number (.inr (.inr rfl)) (.short (by decide)) (by simp)

theorem datum_ordered (i : Item) : i.datum.Ordered := by
  cases i with
  | map n => exact .map .nil (by simp) (by simp)
  | array n => exact .array (by simp)
  | _ => constructor

theorem datum_canonical (hi : i.Whole) : i.datum.Canonical := ⟨datum_valid hi, datum_ordered i⟩

theorem uint_canonical (v : Nat) : (Item.uint v).datum.Canonical := datum_canonical (i := .uint v) trivial

theorem nint_canonical (v : Int) : (Item.nint v).datum.Canonical := datum_canonical (i := .nint v) trivial

theorem bytes_canonical {b : Bytes} (h : b.length < 2 ^ 64) : (Item.bytes b).datum.Canonical :=
  datum_canonical (i := .bytes b) h

theorem text_canonical {t : Str} (h : t.length < 2 ^ 64) : (Item.text t).datum.Canonical :=
  datum_canonical (i := .text t) h

/-- The map of these members, as its header announces it. -/
def treeOf (ms : List (Item × Datum)) : Datum :=
  .map (head 5 ms.length) (ms.map fun m => (m.1.datum, m.2))

def arrayOf (ds : List Datum) : Datum := .array (head 4 ds.length) ds

def memberBytes (m : Item × Datum) : Bytes := m.1.encoded ++ m.2.bytes

theorem treeOf_bytes (ms : List (Item × Datum)) :
    (treeOf ms).bytes = (Item.map ms.length).encoded ++ ms.flatMap memberBytes := by
  have hmembers : Datum.entryBytes (ms.map fun m => (m.1.datum, m.2)) = ms.flatMap memberBytes := by
    rw [Datum.entryBytes_eq, List.flatMap_map]
    simp only [Datum.pairBytes, datum_bytes]
    rfl
  rw [← hmembers]
  rfl

theorem arrayOf_bytes (ds : List Datum) :
    (arrayOf ds).bytes = (Item.array ds.length).encoded ++ ds.flatMap Datum.bytes := by
  rw [← Datum.itemBytes_eq]
  rfl

variable {ms : List (Item × Datum)}

theorem treeOf_valid (hlen : ms.length < 2 ^ 64) (hms : ∀ m ∈ ms, m.1.Whole ∧ m.2.Valid) :
    (treeOf ms).Valid := by
  have hentries : ∀ e ∈ ms.map (fun m => (m.1.datum, m.2)), e.1.Valid ∧ e.2.Valid := by
    intro e he
    obtain ⟨m, hm, rfl⟩ := List.mem_map.mp he
    exact ⟨datum_valid (hms m hm).1, (hms m hm).2⟩
  refine .map ?_ (fun e he => (hentries e he).1) (fun e he => (hentries e he).2)
  rw [List.length_map]
  exact head_exact (by omega) hlen

/-- The keys rise as they are encoded. -/
def KeysRise (keys : List Item) : Prop := keys.Pairwise fun k k' => Datum.Before k.encoded k'.encoded

instance (keys : List Item) : Decidable (KeysRise keys) := inferInstanceAs (Decidable (List.Pairwise _ _))

theorem treeOf_ordered_iff (hms : ∀ m ∈ ms, m.2.Ordered) :
    (treeOf ms).Ordered ↔ KeysRise (ms.map Prod.fst) := by
  have hrise : (ms.map fun m => (m.1.datum, m.2)).Pairwise
      (fun e e' => Datum.Before e.1.bytes e'.1.bytes) ↔ KeysRise (ms.map Prod.fst) := by
    simp only [KeysRise, List.pairwise_map, datum_bytes]
  constructor
  · intro h
    cases h with
    | map rising keys values => exact hrise.mp rising
  · intro h
    refine .map (hrise.mpr h) ?_ ?_
    · intro e he
      obtain ⟨m, -, rfl⟩ := List.mem_map.mp he
      exact datum_ordered m.1
    · intro e he
      obtain ⟨m, hm, rfl⟩ := List.mem_map.mp he
      exact hms m hm

theorem treeOf_canonical (hlen : ms.length < 2 ^ 64) (hrise : KeysRise (ms.map Prod.fst))
    (hms : ∀ m ∈ ms, m.1.Whole ∧ m.2.Canonical) : (treeOf ms).Canonical where
  valid := treeOf_valid hlen fun m hm => ⟨(hms m hm).1, (hms m hm).2.valid⟩
  ordered := (treeOf_ordered_iff fun m hm => (hms m hm).2.ordered).mpr hrise

theorem arrayOf_canonical {ds : List Datum} (hlen : ds.length < 2 ^ 64) (hds : ∀ d ∈ ds, d.Canonical) :
    (arrayOf ds).Canonical where
  valid := .array (head_exact (by omega) hlen) fun d hd => (hds d hd).valid
  ordered := .array fun d hd => (hds d hd).ordered

/-- The map of pairs that have nothing below them. -/
def flatMapOf (ps : List (Item × Item)) : Datum := treeOf (ps.map fun p => (p.1, p.2.datum))

theorem flatMapOf_bytes (ps : List (Item × Item)) :
    (flatMapOf ps).bytes = written (.map ps.length :: ps.flatMap fun p => [p.1, p.2]) := by
  rw [flatMapOf, treeOf_bytes, List.length_map, written_cons]
  congr 1
  induction ps with
  | nil => rfl
  | cons p ps ih =>
    rw [List.map_cons, List.flatMap_cons, List.flatMap_cons, written_append, ih]
    simp [memberBytes]

theorem flatMapOf_valid {ps : List (Item × Item)} (hlen : ps.length < 2 ^ 64)
    (hps : ∀ p ∈ ps, p.1.Whole ∧ p.2.Whole) : (flatMapOf ps).Valid := by
  refine treeOf_valid (by rwa [List.length_map]) fun m hm => ?_
  obtain ⟨p, hp, rfl⟩ := List.mem_map.mp hm
  exact ⟨(hps p hp).1, datum_valid (hps p hp).2⟩

theorem flatMapOf_ordered_iff {ps : List (Item × Item)} :
    (flatMapOf ps).Ordered ↔ KeysRise (ps.map Prod.fst) := by
  rw [flatMapOf, treeOf_ordered_iff, List.map_map]
  · rfl
  · intro m hm
    obtain ⟨p, -, rfl⟩ := List.mem_map.mp hm
    exact datum_ordered _

theorem flatMapOf_canonical {ps : List (Item × Item)} (hlen : ps.length < 2 ^ 64)
    (hrise : KeysRise (ps.map Prod.fst)) (hps : ∀ p ∈ ps, p.1.Whole ∧ p.2.Whole) :
    (flatMapOf ps).Canonical :=
  ⟨flatMapOf_valid hlen hps, flatMapOf_ordered_iff.mpr hrise⟩

/-! How long the items are at most. -/

/-- A bound on the encoding, with the longest head. -/
def Item.cost : Item → Nat
  | .bytes b => 9 + b.length
  | .text t => 9 + t.length
  | _ => 9

theorem head_length_le (major v : Nat) : (head major v).length ≤ 9 := by
  unfold head
  simp only
  repeat' split
  all_goals simp

theorem written_length_le (is : List Item) : (written is).length ≤ (is.map Item.cost).sum := by
  induction is with
  | nil => exact Nat.le_refl 0
  | cons i is ih =>
    have hi : i.encoded.length ≤ i.cost := by
      cases i with
      | bool b => exact Nat.le_add_left 1 8
      | bytes b =>
        have := head_length_le 2 b.length
        simp only [Item.encoded, List.length_append, Item.cost]
        omega
      | text t =>
        have := head_length_le 3 t.length
        simp only [Item.encoded, List.length_append, Item.cost]
        omega
      | uint v => exact head_length_le 0 v
      | nint v => exact head_length_le 1 _
      | map n => exact head_length_le 5 n
      | array n => exact head_length_le 4 n
    rw [written_cons, List.length_append, List.map_cons, List.sum_cons]
    omega

end GoiKey
