import GoiKey.Proofs.RecordFile
import Mathlib.Data.Fintype.BigOperators
import Mathlib.Data.List.Infix

/-!
Only the front of a record in the file, and another record behind it. The loops take
the missing bytes from the next record and go on inside it, and do not find it.
-/

namespace GoiKey.RecordFile

variable {stray file t x s : Bytes} {r : PasskeyRecord}

/-! The readers look at nothing behind what they take. -/

theorem read_forward (n : Nat) : Forward (read stray n) where
  suffix s := List.drop_suffix n s
  blind t x y hx hlen := by
    have hpos := List.length_pos_iff.mpr hx
    have hn : n ≤ t.length := by
      simp only [read, List.length_drop, List.length_append] at hlen
      omega
    refine ⟨t.drop n, ?_, ?_⟩
    · simp only [read, List.drop_append_of_le_length hn]
    · simp only [read, List.drop_append_of_le_length hn, List.take_append_of_le_length hn]

/-- A string whose length could be read. -/
def stringBehindLength (stray : Bytes) (length : Bytes) : StateM Bytes Str :=
  if fromLittleEndian length = 0 then return []
  else return cstr (← read stray (fromLittleEndian length))

theorem readSpiffsString_eq (s : Bytes) : readSpiffsString stray s =
    if 2 ≤ s.length then (read stray 2 >>= stringBehindLength stray) s else ([], s.drop 2) := by
  change (if (!decide (2 ≤ s.length)) = true then pure []
    else if fromLittleEndian (read stray 2 s).1 = 0 then pure [] else _ : StateM Bytes Str)
      (read stray 2 s).2 = _
  by_cases h : 2 ≤ s.length
  · rw [if_pos h, decide_eq_true h]
    rfl
  · rw [if_neg h, decide_eq_false h]
    rfl

theorem stringBehindLength_forward (length : Bytes) : Forward (stringBehindLength stray length) := by
  unfold stringBehindLength
  split
  · exact .pure []
  · exact (read_forward _).bind fun _ => .pure _

theorem readSpiffsString_forward : Forward (readSpiffsString stray) where
  suffix s := by
    rw [readSpiffsString_eq]
    split
    · exact ((read_forward 2).bind stringBehindLength_forward).suffix s
    · exact List.drop_suffix 2 s
  blind t x y hx hlen := by
    have hpos := List.length_pos_iff.mpr hx
    have hbody : Forward (read stray 2 >>= stringBehindLength stray) :=
      (read_forward 2).bind stringBehindLength_forward
    rw [readSpiffsString_eq] at hlen ⊢
    split at hlen
    next hcomplete =>
      -- The two bytes of the length are not among those left over.
      have hrest : ((read stray 2 >>= stringBehindLength stray) (t ++ x)).2 <:+ (t ++ x).drop 2 :=
        (stringBehindLength_forward _).suffix _
      have ht : 2 ≤ t.length := by
        have hle := hrest.length_le
        simp only [List.length_drop, List.length_append] at hle
        omega
      have hy : 2 ≤ (t ++ y).length := by
        rw [List.length_append]
        omega
      rw [if_pos hcomplete, readSpiffsString_eq, if_pos hy]
      exact hbody.blind t x y hx hlen
    next hshort =>
      simp only [List.length_drop] at hlen
      omega

theorem readInt_forward : Forward (readInt stray) := (read_forward 4).bind fun _ => .pure _

theorem readHeader_forward : Forward (readHeader stray) :=
  (read_forward 1).bind fun _ => readInt_forward.bind fun _ => readSpiffsString_forward.bind fun _ =>
    readSpiffsString_forward.bind fun _ => (read_forward 2).bind fun _ => .pure _

/-- One round of a loop. -/
def readPasskey (stray : Bytes) : StateM Bytes (Header × Bytes) := do
  let h ← readHeader stray
  let payload ← read stray h.payLen
  return (h, payload)

theorem readPasskey_forward : Forward (readPasskey stray) :=
  readHeader_forward.bind fun _ => (read_forward _).bind fun _ => .pure _

theorem readPasskey_reads (h : Storable r) :
    Reads (readPasskey stray) (writeRecord r) (headerOf r, r.payload) := by
  rw [writeRecord_header h]
  exact (readHeader_reads h).bind ((read_reads rfl).bind_pure (.pure _))

theorem search_succ (wanted : Header → Str → Bool) (n : Nat) (hne : file ≠ []) :
    search stray wanted (n + 1) file =
      if wanted (readPasskey stray file).1.1 (cstr (readPasskey stray file).1.2)
      then some ((readPasskey stray file).1.1, cstr (readPasskey stray file).1.2)
      else search stray wanted n (readPasskey stray file).2 := by
  rw [search, if_neg hne]
  rfl

/-- What is found begins somewhere in the file. -/
theorem search_some {wanted : Header → Str → Bool} {n : Nat} {found : Header × Str}
    (h : search stray wanted n file = some found) :
    ∃ s, s <:+ file ∧ found.1 = (readHeader stray s).1 ∧ wanted found.1 found.2 = true := by
  induction n generalizing file with
  | zero => cases h
  | succ n ih =>
    by_cases hne : file = []
    · rw [hne, search_nil] at h
      cases h
    rw [search_succ _ _ hne] at h
    split at h
    next hwanted =>
      cases h
      exact ⟨file, List.suffix_refl file, rfl, hwanted⟩
    · obtain ⟨s, hs, hfound⟩ := ih h
      exact ⟨s, hs.trans (readPasskey_forward.suffix file), hfound⟩

/-- With a torn record in front of it, no search begins a round at the next one. -/
theorem search_torn {wanted : Header → Str → Bool} {n : Nat} {found : Header × Str}
    (hr : Storable r) (ht : t <+: writeRecord r) (hproper : t ≠ writeRecord r) (hx : x ≠ [])
    (h : search stray wanted n (t ++ x) = some found) :
    ∃ s, s <:+ t ++ x ∧ found.1 = (readHeader stray s).1 ∧ wanted found.1 found.2 = true ∧
      (s = t ++ x ∨ s.length < x.length) := by
  obtain ⟨y, hy⟩ := ht
  have hyne : y ≠ [] := by
    rintro rfl
    rw [List.append_nil] at hy
    exact hproper hy
  have hreads : Reads (readPasskey stray) (t ++ y) (headerOf r, r.payload) := by
    rw [hy]
    exact readPasskey_reads hr
  have hover := readPasskey_forward.overrun hreads hyne hx
  have hne : t ++ x ≠ [] := List.append_ne_nil_of_right_ne_nil t hx
  cases n with
  | zero => cases h
  | succ n =>
    rw [search_succ _ _ hne] at h
    split at h
    next hwanted =>
      cases h
      exact ⟨t ++ x, List.suffix_refl _, rfl, hwanted, .inl rfl⟩
    · obtain ⟨s, hs, hfound, hwanted⟩ := search_some h
      exact ⟨s, hs.trans (readPasskey_forward.suffix _), hfound, hwanted,
        .inr (Nat.lt_of_le_of_lt hs.length_le hover)⟩

/-! Where an id can be read. -/

theorem cstr_zeros_front (b : Bytes) (n : Nat) : cstr (b ++ zeros n) <+: b := by
  induction b with
  | nil => cases n <;> exact List.nil_prefix
  | cons c b ih =>
    rw [cstr, List.cons_append, List.takeWhile_cons]
    split
    · exact List.cons_prefix_cons.mpr ⟨rfl, ih⟩
    · exact List.nil_prefix

theorem cstr_read_front (n : Nat) (s : Bytes) : cstr (read [] n s).1 <+: s := by
  have hzeros : (padTo n []).drop (s.take n).length = zeros (n - (s.take n).length) := by
    simp [padTo, zeros]
  rw [read, overlay, hzeros]
  exact (cstr_zeros_front _ _).trans (List.take_prefix n s)

theorem readSpiffsString_front (s : Bytes) : (readSpiffsString [] s).1 <+: s.drop 2 := by
  rw [readSpiffsString_eq]
  split
  · change (stringBehindLength [] (read [] 2 s).1 (s.drop 2)).1 <+: s.drop 2
    unfold stringBehindLength
    split
    · exact List.nil_prefix
    · exact cstr_read_front _ (s.drop 2)
  · exact List.nil_prefix

/-- In memory of zeros an id that is read stands in the file. -/
theorem readHeader_cid (s : Bytes) : (readHeader [] s).1.cid <+: s.drop 7 := by
  have hcid : (readHeader [] s).1.cid = (readSpiffsString [] ((s.drop 1).drop 4)).1 := rfl
  have hprefix := readSpiffsString_front ((s.drop 1).drop 4)
  rw [hcid]
  simpa only [List.drop_drop] using hprefix

/-! An id that stands in one place only. -/

variable {w d u A B : Bytes} {a : UInt8}

/-- A word that begins with a symbol it has nowhere else overlaps no other copy of it. -/
theorem overlap_absurd (hw : w = a :: u) (ha : a ∉ u) (hd : d ≠ []) (hshort : d.length < w.length)
    (h : w ++ A = d ++ (w ++ B)) : False := by
  have hprefix : d <+: w :=
    List.prefix_of_prefix_length_le ⟨w ++ B, h.symm⟩ (List.prefix_append w A) hshort.le
  obtain ⟨e, he⟩ := hprefix
  have hrest : e ++ A = a :: (u ++ B) := by
    rw [← he, List.append_assoc, he, hw] at h
    exact List.append_cancel_left h
  cases e with
  | nil =>
    rw [← he, List.append_nil] at hshort
    exact Nat.lt_irrefl _ hshort
  | cons b e =>
    cases d with
    | nil => exact hd rfl
    | cons c d =>
      have hb : b = a := (List.cons.inj hrest).1
      have hu : d ++ b :: e = u := (List.cons.inj (he.trans hw)).2
      rw [← hu, hb] at ha
      exact ha (by simp)

/-- Where neither side has the word, it stands between them only. -/
theorem suffix_unique (hw : w = a :: u) (ha : a ∉ u) (hA : ¬ w <:+: A) (hB : ¬ w <:+: B)
    (hs : s <:+ A ++ (w ++ B)) (hword : w <+: s) : s = w ++ B := by
  obtain ⟨front, hfront⟩ := hs
  obtain ⟨rest, rfl⟩ := hword
  rcases List.append_eq_append_iff.mp hfront with ⟨d, hd, hrest⟩ | ⟨d, hd, hrest⟩
  · by_cases hnil : d = []
    · rw [hrest, hnil, List.nil_append]
    rcases Nat.lt_or_ge d.length w.length with hshort | hlong
    · exact (overlap_absurd hw ha hnil hshort hrest).elim
    · obtain ⟨e, rfl⟩ := List.prefix_of_prefix_length_le (List.prefix_append w rest)
        ⟨w ++ B, hrest.symm⟩ hlong
      exact absurd ⟨front, e, by rw [hd, List.append_assoc]⟩ hA
  · by_cases hnil : d = []
    · rw [hnil, List.nil_append] at hrest
      exact hrest.symm
    rcases Nat.lt_or_ge d.length w.length with hshort | hlong
    · exact (overlap_absurd hw ha hnil hshort hrest).elim
    · obtain ⟨e, rfl⟩ := List.prefix_of_prefix_length_le (List.prefix_append w B)
        ⟨w ++ rest, hrest.symm⟩ hlong
      rw [List.append_assoc] at hrest
      exact absurd ⟨e, rest, by rw [List.append_assoc]; exact (List.append_cancel_left hrest).symm⟩ hB

/-! An id that stands nowhere yet. -/

/-- The ids of a family as large as any file: sixteen bytes, of which the first has a
digit that the others have not. -/
def familyId (v : Fin 15 → Fin 8) : Bytes :=
  0x01 :: List.ofFn fun j => UInt8.ofNat (17 * ((v j).val + 1))

theorem familyId_length (v : Fin 15 → Fin 8) : (familyId v).length = 16 := by
  simp [familyId]

theorem familyId_injective : Function.Injective familyId := by
  intro v v' h
  have hfn := List.ofFn_injective (List.cons.inj h).2
  funext j
  have hj : UInt8.ofNat (17 * ((v j).val + 1)) = UInt8.ofNat (17 * ((v' j).val + 1)) := congrFun hfn j
  have hn := congrArg UInt8.toNat hj
  have hv := (v j).isLt
  have hv' := (v' j).isLt
  rw [UInt8.toNat_ofNat', UInt8.toNat_ofNat'] at hn
  exact Fin.ext (by omega)

theorem notMem_encode_of_halves {b : Bytes} (h : ∀ c ∈ b, c.toNat / 16 ≠ 0 ∧ c.toNat % 16 ≠ 0) :
    Hex.digit 0 ∉ Hex.encode b := by
  induction b with
  | nil => exact List.not_mem_nil
  | cons c b ih =>
    obtain ⟨hhigh, hlow⟩ := h c List.mem_cons_self
    obtain ⟨hh, hl⟩ := Hex.byte_halves c
    simp only [Hex.encode, List.mem_cons, not_or]
    refine ⟨fun he => hhigh (Hex.digit_injective hh (by decide) he.symm),
      fun he => hlow (Hex.digit_injective hl (by decide) he.symm),
      ih fun c hc => h c (List.mem_cons_of_mem _ hc)⟩

theorem familyId_text (v : Fin 15 → Fin 8) :
    ∃ u, toHex (familyId v) = Hex.digit 0 :: u ∧ Hex.digit 0 ∉ u := by
  refine ⟨_, rfl, ?_⟩
  simp only [List.mem_cons, not_or]
  refine ⟨by decide, notMem_encode_of_halves fun c hc => ?_⟩
  obtain ⟨j, rfl⟩ := List.mem_ofFn.mp hc
  have hv := (v j).isLt
  have hsmall : 17 * ((v j).val + 1) % 2 ^ 8 = 17 * ((v j).val + 1) := Nat.mod_eq_of_lt (by omega)
  rw [UInt8.toNat_ofNat', hsmall]
  omega

/-- The words of an id's length in a text. -/
def windows (b : Bytes) : List Bytes := b.tails.map fun s => s.take 32

theorem mem_windows {b : Bytes} (hw : w.length = 32) (h : w <:+: b) : w ∈ windows b := by
  obtain ⟨front, rest, rfl⟩ := h
  refine List.mem_map.mpr ⟨w ++ rest, ?_, ?_⟩
  · rw [List.mem_tails, List.append_assoc]
    exact List.suffix_append front (w ++ rest)
  · rw [← hw, List.take_left']
    rfl

/-- Some id of the family is none of these and stands in neither text. -/
theorem familyId_fresh (ids : List Str) (A B : Bytes)
    (hsize : ids.length + A.length + B.length + 2 < 8 ^ 15) :
    ∃ v, toHex (familyId v) ∉ ids ∧ ¬ toHex (familyId v) <:+: A ∧ ¬ toHex (familyId v) <:+: B := by
  by_contra hnone
  push Not at hnone
  have hmem : ∀ v, toHex (familyId v) ∈ ids ++ (windows A ++ windows B) := by
    intro v
    have hlen : (toHex (familyId v)).length = 32 := by rw [Hex.encode_length, familyId_length]
    by_cases hid : toHex (familyId v) ∈ ids
    · exact List.mem_append_left _ hid
    by_cases hA : toHex (familyId v) <:+: A
    · exact List.mem_append_right _ (List.mem_append_left _ (mem_windows hlen hA))
    · exact List.mem_append_right _ (List.mem_append_right _ (mem_windows hlen (hnone v hid hA)))
  have hinj : Function.Injective fun v => toHex (familyId v) := fun v v' h =>
    familyId_injective (toHex_injective h)
  have hsub : Finset.univ.image (fun v => toHex (familyId v)) ⊆
      (ids ++ (windows A ++ windows B)).toFinset :=
    Finset.image_subset_iff.mpr fun v _ => List.mem_toFinset.mpr (hmem v)
  have hcard := (Finset.card_le_card hsub).trans (List.toFinset_card_le _)
  rw [Finset.card_image_of_injective _ hinj, Finset.card_univ, Fintype.card_pi_const, Fintype.card_fin] at hcard
  simp only [List.length_append, windows, List.length_map, List.length_tails] at hcard
  omega

/-! The record behind a torn one. -/

/-- What stands in front of the id of a record. -/
def recordFront (status : UInt8) (algId : Int) (cidLen : Nat) : Bytes :=
  [status] ++ (writeInt algId ++ littleEndian 2 cidLen)

/-- What stands behind it. -/
def recordBack (rp payload : Str) : Bytes := writeString rp ++ writeString payload

@[simp] theorem recordFront_length (status : UInt8) (algId : Int) (cidLen : Nat) :
    (recordFront status algId cidLen).length = 7 := by
  simp [recordFront, writeInt]

theorem writeRecord_parts (h : Delimited r.cid) : writeRecord r =
    recordFront r.status r.algId r.cid.length ++ (r.cid ++ recordBack r.rp r.payload) := by
  simp only [writeRecord_eq, recordFront, recordBack, writeString_delimited h, List.append_assoc]

theorem writeString_length_le (s : Str) : (writeString s).length < 2 ^ 16 + 2 := by
  have hmod := Nat.mod_lt s.length (by decide : 0 < 2 ^ 16)
  simp only [writeString, List.length_append, littleEndian_length, List.length_take]
  omega

theorem writeRecord_length_le (r : PasskeyRecord) : (writeRecord r).length < 2 ^ 18 := by
  have hcid := writeString_length_le r.cid
  have hrp := writeString_length_le r.rp
  have hpayload := writeString_length_le r.payload
  have hint : (writeInt r.algId).length = 4 := littleEndian_length 4 _
  simp only [writeRecord_eq, List.length_append, List.length_singleton, hint]
  omega

/-- Behind a record of which the front only was written, a record whose id stands
nowhere else in the file is not found. -/
theorem search_behind_torn (r' : PasskeyRecord) {n : Nat} (hr : Storable r) (ht : t <+: writeRecord r)
    (hproper : t ≠ writeRecord r) (hstarted : t ≠ []) (hcid : Delimited r'.cid)
    (htext : ∃ a u, r'.cid = a :: u ∧ a ∉ u)
    (hA : ¬ r'.cid <:+: t ++ recordFront r'.status r'.algId r'.cid.length)
    (hB : ¬ r'.cid <:+: recordBack r'.rp r'.payload) :
    search [] (fun h _ => h.status == 1 && h.cid == r'.cid) n (t ++ writeRecord r') = none := by
  obtain ⟨a, u, hw, ha⟩ := htext
  have hpos : 0 < t.length := List.length_pos_iff.mpr hstarted
  have hparts := writeRecord_parts hcid
  have hlen : (writeRecord r').length = 7 + (r'.cid ++ recordBack r'.rp r'.payload).length := by
    rw [hparts, List.length_append, recordFront_length]
  have hne : writeRecord r' ≠ [] := List.cons_ne_nil _ _
  by_contra hsome
  obtain ⟨found, hfound⟩ := Option.ne_none_iff_exists'.mp hsome
  obtain ⟨s, hs, hheader, hwanted, hplace⟩ := search_torn hr ht hproper hne hfound
  have hread : found.1.cid = r'.cid := by
    simp only [Bool.and_eq_true, beq_iff_eq] at hwanted
    exact hwanted.2
  have hword : r'.cid <+: s.drop 7 := by
    rw [← hread, hheader]
    exact readHeader_cid s
  have hsuffix : s.drop 7 <:+
      t ++ recordFront r'.status r'.algId r'.cid.length ++ (r'.cid ++ recordBack r'.rp r'.payload) := by
    have hall := (List.drop_suffix 7 s).trans hs
    rwa [hparts, ← List.append_assoc] at hall
  have hunique := congrArg List.length (suffix_unique hw ha hA hB hsuffix hword)
  rw [List.length_drop] at hunique
  have hcidPos : 0 < r'.cid.length := by
    rw [hw]
    exact Nat.succ_pos _
  simp only [List.length_append] at hunique hlen
  rcases hplace with rfl | hinside
  · rw [List.length_append] at hunique
    omega
  · omega

end GoiKey.RecordFile
