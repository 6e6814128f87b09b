import GoiKey.Lib.CborTree
import GoiKey.Model.Requests
import GoiKey.Proofs.SkippedItems

/-!
Where a read of a request stays in step with the items of the request: what it has
to find there, and that it then takes exactly the bytes of the item.
-/

namespace GoiKey

open CborGrammar

variable {ρ α : Type} {d : Datum} {h : Bytes} {es : List (Datum × Datum)} {items : List Datum}
  {major v limit size : Nat}

/-- skipValue takes it off the input. -/
def Skippable (d : Datum) : Prop := Tolerated maxCborElements (maxCborDepth + 1) d.bytes

/-- A byte string in one piece that its buffer has room for. -/
def BytesIn (limit : Nat) (d : Datum) : Prop := ∃ h s, d = .string 2 h s ∧ s.length ≤ limit

/-- A text in one piece that its buffer has room for, with the terminator, and that
ends at no NUL of its own. -/
def TextIn (size : Nat) (d : Datum) : Prop :=
  ∃ h s, d = .string 3 h s ∧ s.length < size ∧ (0 : UInt8) ∉ s

/-- A number of major type 7 that is taken for true only when it is. -/
def IsFlag (d : Datum) : Prop := ∃ v h, d = .number 7 v h ∧ (v = 21 → h.length = 1)

/-- A definite map whose entries all are of a kind. -/
def MapOf (fits : Datum → Datum → Prop) (d : Datum) : Prop :=
  ∃ h entries, d = .map h entries ∧ ∀ e ∈ entries, fits e.1 e.2

/-- A definite array whose items all are of a kind. -/
def ArrayOf (fits : Datum → Prop) (d : Datum) : Prop :=
  ∃ h items, d = .array h items ∧ ∀ e ∈ items, fits e

/-- An entry of a map of texts, as its name asks for. -/
def Named (size : Nat) (fits : Str → Datum → Prop) (k v : Datum) : Prop :=
  TextIn size k ∧ ∀ s, k.str? 3 = some s → fits s v

/-- An entry of a map of numbers: the key is only a head, and the value as an unsigned
key asks for, or can be skipped. -/
def Numbered (fits : Nat → Datum → Prop) (k v : Datum) : Prop :=
  k.isHead = true ∧ (∀ n, k.uint? = some n → fits n v) ∧ (k.uint? = none → Skippable v)

/-! Single items. -/

theorem Skippable.reads (hd : Skippable d) : Reads skip d.bytes () := by
  have hskip : Reads skipValue d.bytes true := skipLevels_reads hd
  exact hskip.bind_pure (.pure ())

theorem skipping_reads (hd : Skippable d) (r : ρ) : Reads (skipping r) d.bytes r :=
  hd.reads.bind_pure (.pure r)

theorem readTyped_reads (wanted : Nat) (hm : major < 8) (hh : Head major v h) :
    Reads (readTyped wanted) h (if major = wanted then some v else none) :=
  (readTypeAndValue_head hm hh).bind_pure (.pure _)

theorem readString_reads {s : Bytes} (hm : major < 8) (hh : Head major s.length h) (hs : s.length ≤ limit) :
    Reads (readString major limit) (h ++ s) (some s) := by
  intro rest
  have hhead : readTypeAndValue (h ++ s ++ rest) = (some (major, s.length), s ++ rest) := by
    rw [List.append_assoc]
    exact readTypeAndValue_head hm hh _
  simp only [readString, hhead]
  rw [if_pos ⟨trivial, hs, by simp⟩, List.take_left, List.drop_left]

theorem BytesIn.reads (hd : d.Valid) (hb : BytesIn limit d) :
    ∃ s, d.str? 2 = some s ∧ s.length ≤ limit ∧ Reads (readByteString limit) d.bytes (some s) := by
  obtain ⟨h, s, rfl, hs⟩ := hb
  cases hd with
  | string type head => exact ⟨s, rfl, hs, readString_reads (by omega) head hs⟩

theorem TextIn.reads (hd : d.Valid) (ht : TextIn size d) :
    ∃ s, d.str? 3 = some s ∧ Reads (readTextString size) d.bytes (some s) := by
  obtain ⟨h, s, rfl, hs, h0⟩ := ht
  cases hd with
  | string type head =>
    refine ⟨s, rfl, fun rest => ?_⟩
    have hread : readString 3 (size - 1) (h ++ s ++ rest) = (some s, rest) :=
      readString_reads (by omega) head (by omega) rest
    simp only [readTextString]
    rw [if_neg (by omega)]
    change ((readString 3 (size - 1) (h ++ s ++ rest)).1.map cstr,
      (readString 3 (size - 1) (h ++ s ++ rest)).2) = (some s, rest)
    rw [hread, Option.map_some, cstr_of_notMem h0]

theorem IsFlag.reads (hd : d.Valid) (hf : IsFlag d) (old : Bool) :
    Reads (readFlag old) d.bytes d.isTrue := by
  obtain ⟨v, h, rfl, h21⟩ := hf
  cases hd with
  | number type head simple =>
    have hvalue : (v == 21) = (Datum.number 7 v h).isTrue := by
      by_cases hv : v = 21
      · simp [Datum.isTrue, hv, h21 hv]
      · simp [Datum.isTrue, hv]
    have hread := readTyped_reads 7 (by omega) head
    rw [if_pos rfl] at hread
    rw [← hvalue]
    exact hread.bind_pure (.pure _)

/-! Peeking. -/

theorem head_begins (hm : major < 8) (hh : Head major v h) :
    ∃ c t, h = c :: t ∧ c.toNat / 32 = major := by
  cases hh with
  | short lt =>
    refine ⟨_, _, rfl, ?_⟩
    rw [initialByte_toNat hm (by omega)]
    omega
  | long width =>
    have hlt := argumentWidth_lt width
    refine ⟨_, _, rfl, ?_⟩
    rw [initialByte_toNat hm (by omega)]
    omega

theorem open_begins (hm : major < 8) (t : Bytes) :
    ∃ c t', initialByte major 31 :: t = c :: t' ∧ c.toNat / 32 = major := by
  refine ⟨_, _, rfl, ?_⟩
  rw [initialByte_toNat hm (by omega)]
  omega

/-- An item begins with a byte of its major type. -/
theorem datum_begins (hd : d.Valid) : ∃ c t, d.bytes = c :: t ∧ c.toNat / 32 = d.major := by
  have hlong : ∀ {major v : Nat} {h : Bytes} (rest : Bytes), major < 8 → Head major v h →
      ∃ c t, h ++ rest = c :: t ∧ c.toNat / 32 = major := by
    intro major v h rest hm hh
    obtain ⟨c, t, rfl, hc⟩ := head_begins hm hh
    exact ⟨c, t ++ rest, rfl, hc⟩
  have hm := hd.major_lt
  cases hd with
  | number type head simple => exact head_begins hm head
  | string type head => exact hlong _ hm head
  | chunks type heads => exact open_begins hm _
  | array head each => exact hlong _ hm head
  | openArray each => exact open_begins hm _
  | map head keys values => exact hlong _ hm head
  | openMap keys values => exact open_begins hm _
  | tag head each => exact hlong _ hm head

/-- A look at the type of the item to come takes nothing. -/
theorem peek_reads {f : Nat → Parse α} {a : α} (hd : d.Valid) (hf : Reads (f d.major) d.bytes a) :
    Reads (peekMajorType >>= f) d.bytes a := by
  intro rest
  obtain ⟨c, t, hbytes, hc⟩ := datum_begins hd
  have hpeek : peekMajorType (d.bytes ++ rest) = (d.major, d.bytes ++ rest) := by
    rw [hbytes, ← hc]
    rfl
  change f (peekMajorType (d.bytes ++ rest)).1 (peekMajorType (d.bytes ++ rest)).2 = (a, rest)
  rw [hpeek]
  exact hf rest

/-! Containers. -/

theorem readMap_reads {f : Option Nat → Parse α} {a : α} (hd : (Datum.map h es).Valid)
    (hf : Reads (f (some es.length)) (Datum.entryBytes es) a) :
    Reads (readTyped 5 >>= f) (Datum.map h es).bytes a := by
  cases hd with
  | map head keys values =>
    have hread := readTyped_reads 5 (by omega) head
    rw [if_pos rfl] at hread
    exact hread.bind hf

theorem readArray_reads {f : Option Nat → Parse α} {a : α} (hd : (Datum.array h items).Valid)
    (hf : Reads (f (some items.length)) (Datum.itemBytes items) a) :
    Reads (readTyped 4 >>= f) (Datum.array h items).bytes a := by
  cases hd with
  | array head each =>
    have hread := readTyped_reads 4 (by omega) head
    rw [if_pos rfl] at hread
    exact hread.bind hf

theorem loop_reads_entries {body : ρ → Parse ρ} {step : ρ → Datum × Datum → ρ}
    (hbody : ∀ e ∈ es, ∀ r, Reads (body r) (e.1.bytes ++ e.2.bytes) (step r e)) (r : ρ) :
    Reads (loop body es.length r) (Datum.entryBytes es) (es.foldl step r) := by
  induction es generalizing r with
  | nil => exact .pure r
  | cons e es ih =>
    exact (hbody e List.mem_cons_self r).bind
      (ih (fun e he => hbody e (List.mem_cons_of_mem _ he)) _)

theorem loop_reads_items {body : ρ → Parse ρ} {step : ρ → Datum → ρ}
    (hbody : ∀ d ∈ items, ∀ r, Reads (body r) d.bytes (step r d)) (r : ρ) :
    Reads (loop body items.length r) (Datum.itemBytes items) (items.foldl step r) := by
  induction items generalizing r with
  | nil => exact .pure r
  | cons d items ih =>
    exact (hbody d List.mem_cons_self r).bind
      (ih (fun d hd => hbody d (List.mem_cons_of_mem _ hd)) _)

/-- What an entry with a text key does. -/
def namedStep (step : Str → Datum → ρ → ρ) (r : ρ) (e : Datum × Datum) : ρ :=
  (e.1.str? 3).elim r fun s => step s e.2 r

/-- What an entry with an unsigned key does. -/
def numberedStep (step : Nat → Datum → ρ → ρ) (r : ρ) (e : Datum × Datum) : ρ :=
  e.1.uint?.elim r fun n => step n e.2 r

theorem textLoop_reads {onEntry : Str → ρ → Parse ρ} {noKey : Parse Unit} {step : Str → Datum → ρ → ρ}
    {fits : Str → Datum → Prop} (hd : (Datum.map h es).Valid) (hfits : ∀ e ∈ es, Named size fits e.1 e.2)
    (hon : ∀ s v r, v.Valid → fits s v → Reads (onEntry s r) v.bytes (step s v r)) (r : ρ) :
    Reads (textLoop size onEntry noKey es.length r) (Datum.entryBytes es) (es.foldl (namedStep step) r) := by
  cases hd with
  | map head keys values =>
    refine loop_reads_entries (fun e he r => ?_) r
    obtain ⟨hkey, hvalue⟩ := hfits e he
    obtain ⟨s, hs, hread⟩ := hkey.reads (keys e he)
    refine hread.bind ?_
    rw [namedStep, hs]
    exact hon s e.2 r (values e he) (hvalue s hs)

/-- One round of the loop over a map of numbers. -/
def keyedRound (onEntry : Nat → ρ → Parse ρ) (r : ρ) : Parse ρ := do
  match ← readTyped 0 with
  | some key => onEntry key r
  | none =>
    skip
    return r

theorem keyedRound_reads {onEntry : Nat → ρ → Parse ρ} {step : Nat → Datum → ρ → ρ}
    {fits : Nat → Datum → Prop} {e : Datum × Datum} (hk : e.1.Valid) (hv : e.2.Valid)
    (hfits : Numbered fits e.1 e.2)
    (hon : ∀ n v r, v.Valid → fits n v → Reads (onEntry n r) v.bytes (step n v r)) (r : ρ) :
    Reads (keyedRound onEntry r) (e.1.bytes ++ e.2.bytes) (numberedStep step r e) := by
  obtain ⟨hhead, hnumber, hother⟩ := hfits
  obtain ⟨n, hn, huint⟩ := hk.head hhead
  refine (readTyped_reads 0 hk.major_lt hn).bind ?_
  rw [numberedStep, huint]
  by_cases h0 : e.1.major = 0
  · rw [if_pos h0] at huint ⊢
    exact hon n e.2 r hv (hnumber n huint)
  · rw [if_neg h0] at huint ⊢
    exact skipping_reads (hother huint) r

theorem keyedLoop_reads {onEntry : Nat → ρ → Parse ρ} {step : Nat → Datum → ρ → ρ}
    {fits : Nat → Datum → Prop} (hd : (Datum.map h es).Valid) (hfits : ∀ e ∈ es, Numbered fits e.1 e.2)
    (hon : ∀ n v r, v.Valid → fits n v → Reads (onEntry n r) v.bytes (step n v r)) (r : ρ) :
    Reads (keyedLoop onEntry es.length r) (Datum.entryBytes es) (es.foldl (numberedStep step) r) := by
  cases hd with
  | map head keys values =>
    exact loop_reads_entries (fun e he => keyedRound_reads (keys e he) (values e he) (hfits e he) hon) r

end GoiKey
