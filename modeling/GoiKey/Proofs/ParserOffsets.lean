import GoiKey.Lib.Simulates
import GoiKey.Model.CborEncoder
import GoiKey.Proofs.SkippedItems

/-!
The parser with its offset does what the parser on the rest of the bytes does,
and its offset stays inside the buffer.
-/

namespace GoiKey

open CborGrammar

variable {buffer b : Bytes} {s : CborParser} {offset : Nat}

/-- The offset stands in front of these bytes, and was never outside. -/
structure Tracks (buffer : Bytes) (s : CborParser) (b : Bytes) : Prop where
  within : s.offset ≤ buffer.length
  rest : b = buffer.drop s.offset
  visited : ∀ o ∈ s.visited, o ≤ buffer.length

theorem Tracks.moved (h : Tracks buffer s b) {o : Nat} (ho : o ≤ buffer.length) :
    Tracks buffer ⟨o, o :: s.visited⟩ (buffer.drop o) :=
  ⟨ho, rfl, List.forall_mem_cons.mpr ⟨ho, h.visited⟩⟩

theorem Tracks.moveTo (h : Tracks buffer s b) {o : Nat} (ho : o ≤ buffer.length) :
    Tracks buffer (CborParser.moveTo o s).2 (buffer.drop o) := h.moved ho

theorem Tracks.stepOver {n : Nat} (h : Tracks buffer s b) (hn : s.offset + n ≤ buffer.length) :
    Tracks buffer (CborParser.stepOver n s).2 (buffer.drop (s.offset + n)) := by
  induction n generalizing s b with
  | zero => exact h.rest ▸ h
  | succ n ih =>
    have hnext : Tracks buffer ⟨s.offset + 1, (s.offset + 1) :: s.visited⟩ (buffer.drop (s.offset + 1)) :=
      h.moved (by omega)
    have hrest := ih hnext (by simp only; omega)
    have hsum : s.offset + (n + 1) = s.offset + 1 + n := by omega
    rw [hsum]
    exact hrest

/-- The bytes in front of the offset are used up, or begin with the one there. -/
theorem Tracks.cases (h : Tracks buffer s b) :
    (buffer.length ≤ s.offset ∧ b = []) ∨
      (s.offset < buffer.length ∧ b = buffer.getD s.offset 0 :: buffer.drop (s.offset + 1)) := by
  by_cases hlt : s.offset < buffer.length
  · refine .inr ⟨hlt, ?_⟩
    rw [h.rest, List.drop_eq_getElem_cons hlt]
    simp [List.getD, hlt]
  · exact .inl ⟨by omega, by rw [h.rest, List.drop_of_length_le (by omega)]⟩

/-- Reading an argument of `width` bytes: the list half of it. -/
theorem readTypeAndValue_wide {c : UInt8} {t : Bytes} {w : Nat}
    (hw : valueWidth (c.toNat % 32) = some w) : readTypeAndValue (c :: t) =
      if t.length < w then (none, t)
      else (some (c.toNat / 32, fromBigEndian (t.take w)), t.drop w) := by
  have hinfo : ¬ c.toNat % 32 < 24 ∧ c.toNat % 32 ≠ 31 := by
    unfold valueWidth at hw
    split at hw <;> first | omega | cases hw
  simp only [readTypeAndValue, hw]
  rw [if_neg hinfo.1, if_neg hinfo.2]

/-- An argument is read when there are enough bytes, and moves the offset over them. -/
theorem Tracks.argument {width : Nat} {r : Option (Nat × Nat) × CborParser} {major : Nat}
    (h : Tracks buffer s b)
    (hfail : buffer.length < s.offset + width → r = (none, s))
    (hread : s.offset + width ≤ buffer.length → r.1 = some (major, CborParser.valueAt buffer s.offset width) ∧
      Tracks buffer r.2 (buffer.drop (s.offset + width))) :
    r.1 = (if b.length < width then (none, b)
      else (some (major, fromBigEndian (b.take width)), b.drop width)).1 ∧
    Tracks buffer r.2 (if b.length < width then ((none : Option (Nat × Nat)), b)
      else (some (major, fromBigEndian (b.take width)), b.drop width)).2 := by
  have hlen : b.length = buffer.length - s.offset := by rw [h.rest, List.length_drop]
  by_cases hlt : b.length < width
  · rw [if_pos hlt, hfail (by omega)]
    exact ⟨rfl, h⟩
  · rw [if_neg hlt]
    have hin := h.within
    obtain ⟨hvalue, htracks⟩ := hread (by omega)
    refine ⟨?_, ?_⟩
    · rw [hvalue, h.rest]
      rfl
    · rw [h.rest, List.drop_drop]
      exact htracks

theorem readArgument_simulates {c : UInt8} {t : Bytes} (h : Tracks buffer s t) :
    (CborParser.readArgument buffer (c.toNat / 32) (c.toNat % 32) s).1 = (readTypeAndValue (c :: t)).1 ∧
      Tracks buffer (CborParser.readArgument buffer (c.toNat / 32) (c.toNat % 32) s).2
        (readTypeAndValue (c :: t)).2 := by
  simp only [CborParser.readArgument, bind, StateT.bind, get, getThe, MonadStateOf.get, StateT.get, pure]
  by_cases h0 : c.toNat % 32 < 24
  · simp only [readTypeAndValue, if_pos h0]
    exact ⟨rfl, h⟩
  rw [if_neg h0]
  by_cases h1 : c.toNat % 32 = 24
  · rw [if_pos h1, readTypeAndValue_wide (w := 1) (by rw [h1]; rfl)]
    refine h.argument (fun hf => ?_) fun hr => ?_
    · rw [if_pos (by omega)]
      rfl
    · rw [if_neg (by omega)]
      exact ⟨rfl, h.moved hr⟩
  rw [if_neg h1]
  by_cases h2 : c.toNat % 32 = 25
  · rw [if_pos h2, readTypeAndValue_wide (w := 2) (by rw [h2]; rfl)]
    refine h.argument (fun hf => ?_) fun hr => ?_
    · rw [if_pos (by omega)]
      rfl
    · rw [if_neg (by omega)]
      exact ⟨rfl, h.moved hr⟩
  rw [if_neg h2]
  by_cases h3 : c.toNat % 32 = 26
  · rw [if_pos h3, readTypeAndValue_wide (w := 4) (by rw [h3]; rfl)]
    refine h.argument (fun hf => ?_) fun hr => ?_
    · rw [if_pos (by omega)]
      rfl
    · rw [if_neg (by omega)]
      exact ⟨rfl, h.moved hr⟩
  rw [if_neg h3]
  by_cases h4 : c.toNat % 32 = 27
  · rw [if_pos h4, readTypeAndValue_wide (w := 8) (by rw [h4]; rfl)]
    refine h.argument (fun hf => ?_) fun hr => ?_
    · rw [if_pos (by omega)]
      rfl
    · rw [if_neg (by omega)]
      exact ⟨rfl, h.stepOver hr⟩
  rw [if_neg h4]
  by_cases h5 : c.toNat % 32 = 31
  · simp only [readTypeAndValue, if_neg h0, if_pos h5]
    exact ⟨rfl, h⟩
  · have hnone : valueWidth (c.toNat % 32) = none := by
      unfold valueWidth
      split <;> first | omega | rfl
    simp only [readTypeAndValue, if_neg h0, if_neg h5, hnone]
    exact ⟨rfl, h⟩

theorem readTypeAndValue_simulates :
    Simulates (Tracks buffer) (CborParser.readTypeAndValue buffer) readTypeAndValue := by
  intro s b h
  rcases h.cases with ⟨hend, rfl⟩ | ⟨hlt, rfl⟩
  · have hread : CborParser.readTypeAndValue buffer s = (none, s) := by
      simp only [CborParser.readTypeAndValue, bind, StateT.bind, get, getThe, MonadStateOf.get, StateT.get,
        pure]
      rw [if_pos hend]
      rfl
    rw [hread]
    exact ⟨rfl, h⟩
  · have hnext : Tracks buffer ⟨s.offset + 1, (s.offset + 1) :: s.visited⟩ (buffer.drop (s.offset + 1)) :=
      h.moved (by omega)
    have hread : CborParser.readTypeAndValue buffer s =
        CborParser.readArgument buffer ((buffer.getD s.offset 0).toNat / 32)
          ((buffer.getD s.offset 0).toNat % 32) ⟨s.offset + 1, (s.offset + 1) :: s.visited⟩ := by
      simp only [CborParser.readTypeAndValue, bind, StateT.bind, get, getThe, MonadStateOf.get, StateT.get,
        pure]
      rw [if_neg (by omega)]
      rfl
    rw [hread]
    exact readArgument_simulates hnext

/-! Skipping. -/

theorem skipUntilBreak_simulates {m : CborParser.Scan Bool} {p : Parse Bool}
    (hs : Simulates (Tracks buffer) m p) (n : Nat) :
    Simulates (Tracks buffer) (CborParser.skipUntilBreak buffer m n) (skipUntilBreak p n) := by
  induction n with
  | zero => exact .pure false
  | succ n ih =>
    refine .get fun s b h => ?_
    rcases h.cases with ⟨hend, rfl⟩ | ⟨hlt, rfl⟩
    · rw [if_neg (by omega), if_pos hend]
      exact ⟨rfl, h⟩
    · simp only
      by_cases hc : buffer.getD s.offset 0 = 0xFF
      · rw [if_neg (fun hn => hn.2 hc), if_neg (by omega), if_pos hc]
        exact ⟨rfl, h.moved (by omega)⟩
      · rw [if_pos ⟨hlt, hc⟩, if_neg hc]
        exact (hs.bind fun ok => .ite (fun _ => ih) fun _ => .pure false) _ _ h

theorem skipTimes_simulates {m : CborParser.Scan Bool} {p : Parse Bool}
    (hs : Simulates (Tracks buffer) m p) (n : Nat) :
    Simulates (Tracks buffer) (CborParser.skipTimes m n) (skipTimes p n) := by
  induction n with
  | zero => exact .pure true
  | succ n ih => exact hs.bind fun ok => .ite (fun _ => ih) fun _ => .pure false

/-- The end of a definite string, or none when the buffer ends before it. -/
theorem skipString_simulates (value : Nat) : Simulates (Tracks buffer)
    (do
      let start := (← get).offset
      if value > buffer.length - start then return false
      CborParser.moveTo (start + value)
      return true)
    (do
      let left ← get
      if value > left.length then return false
      else
        set (left.drop value)
        return true) := by
  refine .get fun s b h => ?_
  have hlen : b.length = buffer.length - s.offset := by rw [h.rest, List.length_drop]
  have hin := h.within
  simp only [hlen]
  by_cases hgt : value > buffer.length - s.offset
  · rw [if_pos hgt, if_pos hgt]
    exact ⟨rfl, h⟩
  · rw [if_neg hgt, if_neg hgt]
    refine ⟨rfl, ?_⟩
    rw [h.rest, List.drop_drop]
    exact h.moved (by omega)

theorem skipLevels_simulates (levels : Nat) :
    Simulates (Tracks buffer) (CborParser.skipLevels buffer levels) (skipLevels levels) := by
  induction levels with
  | zero => exact .pure false
  | succ levels ih =>
    refine .get fun s b h => ?_
    rcases h.cases with ⟨hend, rfl⟩ | ⟨hlt, rfl⟩
    · rw [if_pos hend]
      exact ⟨rfl, h⟩
    · rw [if_neg (by omega)]
      by_cases hc : buffer.getD s.offset 0 = 0xFF
      · simp only
        rw [if_pos hc, if_pos hc]
        exact ⟨rfl, h.moved (by omega)⟩
      · simp only
        rw [if_neg hc, if_neg hc]
        have hrounds : (buffer.getD s.offset 0 :: buffer.drop (s.offset + 1)).length + 1 =
            buffer.length - s.offset + 1 := by
          rw [List.length_cons, List.length_drop]
          omega
        rw [hrounds]
        refine (readTypeAndValue_simulates.bind fun head => ?_) _ _ h
        cases head with
        | none => exact .pure false
        | some p =>
          refine .ite (fun _ => .pure true) fun _ => ?_
          refine .ite (fun _ => ?_) fun _ => ?_
          · exact .ite (fun _ => skipUntilBreak_simulates ih _) fun _ => skipString_simulates _
          refine .ite (fun _ => ?_) fun _ => ?_
          · refine .ite (fun _ => skipUntilBreak_simulates ih _) fun _ => ?_
            exact .ite (fun _ => .pure false) fun _ => skipTimes_simulates ih _
          refine .ite (fun _ => ?_) fun _ => .pure false
          refine .ite (fun _ => ?_) fun _ => ?_
          · exact skipUntilBreak_simulates
              (ih.bind fun ok => .ite (fun _ => ih) fun _ => .pure false) _
          · exact .ite (fun _ => .pure false) fun _ => skipTimes_simulates ih _

/-! What skipValue does from an offset. -/

theorem skipValue_tracks (h : offset ≤ buffer.length) :
    (CborParser.skipValue buffer ⟨offset, []⟩).1 = (skipLevels (maxCborDepth + 1) (buffer.drop offset)).1 ∧
      Tracks buffer (CborParser.skipValue buffer ⟨offset, []⟩).2
        (skipLevels (maxCborDepth + 1) (buffer.drop offset)).2 :=
  skipLevels_simulates _ _ _ ⟨h, rfl, List.forall_mem_nil _⟩

/-- Items in the bytes from an offset on. -/
def Begins (buffer : Bytes) (offset : Nat) (item : Bytes) : Prop :=
  ∃ rest, buffer.drop offset = item ++ rest

theorem Begins.unique {item item' : Bytes} (h : Begins buffer offset item) (h' : Begins buffer offset item')
    (hlength : item.length = item'.length) : item = item' := by
  obtain ⟨rest, hrest⟩ := h
  obtain ⟨rest', hrest'⟩ := h'
  exact (List.append_inj (hrest.symm.trans hrest') hlength).1

/-- True exactly in front of a well-formed item, and then behind it; never outside the buffer. -/
structure SkipsExactly (buffer : Bytes) (offset : Nat) : Prop where
  accepts : (CborParser.skipValue buffer ⟨offset, []⟩).1 = true ↔
    ∃ item, Begins buffer offset item ∧ WellFormed maxCborElements (maxCborDepth + 1) item
  advances : ∀ item, Begins buffer offset item → WellFormed maxCborElements (maxCborDepth + 1) item →
    (CborParser.skipValue buffer ⟨offset, []⟩).2.offset = offset + item.length
  within : ∀ o ∈ (CborParser.skipValue buffer ⟨offset, []⟩).2.visited, o ≤ buffer.length

/-- It is true in front of the items read leniently, and of no other bytes. -/
theorem skipValue_accepts_iff (h : offset ≤ buffer.length) :
    (CborParser.skipValue buffer ⟨offset, []⟩).1 = true ↔
      ∃ item, Begins buffer offset item ∧ Tolerated maxCborElements (maxCborDepth + 1) item := by
  rw [(skipValue_tracks h).1]
  constructor
  · intro htrue
    obtain ⟨item, hbegins, hitem⟩ := skipLevels_accepts (maxCborDepth + 1) (buffer.drop offset)
      (skipLevels (maxCborDepth + 1) (buffer.drop offset)).2 (Prod.ext htrue rfl)
    exact ⟨item, ⟨_, hbegins⟩, hitem⟩
  · rintro ⟨item, ⟨rest, hbegins⟩, hitem⟩
    rw [hbegins, skipLevels_reads hitem rest]

/-- Behind such an item it has advanced by the bytes of the item. -/
theorem skipValue_advances (h : offset ≤ buffer.length) {item : Bytes} (hbegins : Begins buffer offset item)
    (hitem : Tolerated maxCborElements (maxCborDepth + 1) item) :
    (CborParser.skipValue buffer ⟨offset, []⟩).2.offset = offset + item.length := by
  obtain ⟨rest, hrest⟩ := hbegins
  have htracks := (skipValue_tracks h).2
  rw [hrest, skipLevels_reads hitem rest] at htracks
  have hleft := congrArg List.length htracks.rest
  have htotal := congrArg List.length hrest
  have hwithin := htracks.within
  simp only [List.length_drop, List.length_append] at hleft htotal
  omega

/-- A map of one entry, an array under the text "a". -/
def nestedItem : Bytes := [0xA1] ++ [[0x61, 0x61], [0x82, 0x01, 0x02]].flatten

theorem nestedItem_wellFormed : WellFormed maxCborElements (maxCborDepth + 1) nestedItem := by
  have hint : ∀ v : Nat, v < 24 → WellFormed maxCborElements (maxCborDepth - 1) [initialByte 0 v] :=
    fun v hv => .integer (.inl rfl) (.short hv)
  have hkey : WellFormed maxCborElements maxCborDepth ([initialByte 3 1] ++ [0x61]) :=
    .string (.inr rfl) (.short (by decide)) (by decide)
  have hvalue : WellFormed maxCborElements maxCborDepth
      ([initialByte 4 2] ++ [[initialByte 0 1], [initialByte 0 2]].flatten) :=
    .array (.short (by decide)) (by decide)
      (List.forall_mem_cons.mpr ⟨hint 1 (by decide), List.forall_mem_singleton.mpr (hint 2 (by decide))⟩)
  have hmap : WellFormed maxCborElements (maxCborDepth + 1)
      ([initialByte 5 1] ++ [[0x61, 0x61], [0x82, 0x01, 0x02]].flatten) :=
    .map (.short (by decide)) (by decide) rfl
      (List.forall_mem_cons.mpr ⟨hkey, List.forall_mem_singleton.mpr hvalue⟩)
  exact hmap

/-- Exact where what begins there, read leniently, needs no lenience. -/
theorem skipValue_exact_iff (h : offset ≤ buffer.length) :
    SkipsExactly buffer offset ↔ ∀ item, Begins buffer offset item →
      Tolerated maxCborElements (maxCborDepth + 1) item →
        WellFormed maxCborElements (maxCborDepth + 1) item := by
  constructor
  · intro hexact item hbegins hitem
    obtain ⟨well, hwell, hform⟩ :=
      hexact.accepts.mp ((skipValue_accepts_iff h).mpr ⟨item, hbegins, hitem⟩)
    have hlength : item.length = well.length := by
      have hover := skipValue_advances h hbegins hitem
      have hwover := hexact.advances well hwell hform
      omega
    rwa [hbegins.unique hwell hlength]
  · intro hall
    refine ⟨?_, ?_, (skipValue_tracks h).2.visited⟩
    · rw [skipValue_accepts_iff h]
      constructor
      · rintro ⟨item, hbegins, hitem⟩
        exact ⟨item, hbegins, hall item hbegins hitem⟩
      · rintro ⟨item, hbegins, hitem⟩
        exact ⟨item, hbegins, hitem.tolerated⟩
    · exact fun item hbegins hitem => skipValue_advances h hbegins hitem.tolerated

theorem skipValue_exact_nested : SkipsExactly (nestedItem ++ [0xFF, 0x00]) 0 :=
  (skipValue_exact_iff (by decide)).mpr fun item hbegins hitem => by
    have hnested : Begins (nestedItem ++ [0xFF, 0x00]) 0 nestedItem := ⟨_, rfl⟩
    have hlength : item.length = nestedItem.length := by
      have hover := skipValue_advances (by decide) hbegins hitem
      have hnover := skipValue_advances (by decide) hnested nestedItem_wellFormed.tolerated
      omega
    rw [hbegins.unique hnested hlength]
    exact nestedItem_wellFormed

/-- A break code where an item is due is skipped as one. -/
theorem strayBreak_skipped : ¬ SkipsExactly [0xFF] 0 := by
  intro hexact
  obtain ⟨item, ⟨rest, hrest⟩, hitem⟩ := hexact.accepts.mp (by decide)
  rcases hitem.begins with ⟨-, hno⟩ | ⟨c, t, rfl, hc⟩
  · exact hno
  · exact hc (List.cons.inj hrest).1.symm

end GoiKey
