import GoiKey.Model.CborEncoder
import GoiKey.Proofs.Encoder
import GoiKey.Proofs.SkippedItems

/-!
The encoder against its memory: a write takes place as a whole or not at all, and
what was written is read back item by item.
-/

namespace GoiKey

open CborGrammar

/-- From one encoder to the other these bytes were written, all of them below the
capacity. -/
structure Appends (bytes : Bytes) (e e' : CborEncoder) : Prop where
  capacity : e'.capacity = e.capacity
  fits : e'.offset ≤ e.capacity
  offset : e'.offset = e.offset + bytes.length
  written : e'.written = e.written ++ bytes
  stores : ∀ i ∈ e'.stores, i ∈ e.stores ∨ i < e.capacity
  beyond : ∀ i, e.capacity ≤ i → e'.buffer i = e.buffer i

namespace CborEncoder

variable {e e' e'' : CborEncoder} {b b' : Bytes} {c : UInt8} {major widest longest v n : Nat}

theorem written_length (e : CborEncoder) : e.written.length = e.offset := by
  simp [written]

/-- No sum of an offset and a short length wraps. -/
theorem sizeT_add (hoffset : e.offset ≤ e.capacity) (hn : n ≤ 2 ^ 31) : sizeT (e.offset + n) = e.offset + n := by
  have hobject := e.isObject
  have hmax : ptrdiffMax = 2 ^ 31 - 1 := rfl
  apply Nat.mod_eq_of_lt
  omega

theorem appends_nil (hoffset : e.offset ≤ e.capacity) : Appends [] e e where
  capacity := rfl
  fits := hoffset
  offset := rfl
  written := (List.append_nil _).symm
  stores := fun _ hi => .inl hi
  beyond := fun _ _ => rfl

theorem appends_trans (h : Appends b e e') (h' : Appends b' e' e'') : Appends (b ++ b') e e'' where
  capacity := h'.capacity.trans h.capacity
  fits := h.capacity ▸ h'.fits
  offset := by
    rw [h'.offset, h.offset, List.length_append]
    omega
  written := by rw [h'.written, h.written, List.append_assoc]
  stores := by
    intro i hi
    rcases h'.stores i hi with hold | hnew
    · exact h.stores i hold
    · exact .inr (h.capacity ▸ hnew)
  beyond := by
    intro i hi
    exact (h'.beyond i (h.capacity.symm ▸ hi)).trans (h.beyond i hi)

theorem put_appends (h : e.offset < e.capacity) (c : UInt8) : Appends [c] e (e.put c) := by
  have hnext : (e.put c).offset = e.offset + 1 := sizeT_add h.le (by decide)
  constructor
  case capacity => rfl
  case fits => exact hnext ▸ h
  case offset => exact hnext
  case written =>
    rw [written, hnext, List.range_succ, List.map_append]
    congr 1
    · apply List.map_congr_left
      intro i hi
      exact if_neg (Nat.ne_of_lt (List.mem_range.mp hi))
    · exact congrArg (fun x => [x]) (if_pos rfl)
  case stores =>
    intro i hi
    rcases List.mem_cons.mp hi with rfl | hold
    · exact .inr h
    · exact .inl hold
  case beyond =>
    intro i hi
    exact if_neg (by omega)

theorem putAll_appends (h : e.offset + b.length ≤ e.capacity) : Appends b e (e.putAll b) := by
  induction b generalizing e with
  | nil => exact appends_nil h
  | cons c b ih =>
    rw [List.length_cons] at h
    have hput := put_appends (e := e) (by omega) c
    have hrest : (e.put c).offset + b.length ≤ (e.put c).capacity := by
      rw [hput.offset, hput.capacity, List.length_singleton]
      omega
    exact appends_trans hput (ih hrest)

theorem initial_eq {info : Nat} (h : info < 32) : initial major info = UInt8.ofNat (major * 32 + info) := by
  rw [initial, ← Nat.shiftLeft_add_eq_or_of_lt (i := 5) h, Nat.shiftLeft_eq]

/-- It writes the bytes or leaves everything as it was. -/
def Does (call : CborEncoder → Bool × CborEncoder) (b : Bytes) (fits : Prop) (e : CborEncoder) : Prop :=
  (fits ∧ ∃ e', call e = (true, e') ∧ Appends b e e') ∨ (¬fits ∧ call e = (false, e))

theorem Does.congr {call : CborEncoder → Bool × CborEncoder} {p q : Prop} (h : Does call b p e) (hpq : p ↔ q) :
    Does call b q e := by
  rwa [propext hpq] at h

theorem Does.of_eq {call call' : CborEncoder → Bool × CborEncoder} {p : Prop} (h : Does call b p e)
    (heq : call' e = call e) : Does call' b p e := by
  unfold Does at h ⊢
  rwa [heq]

theorem withRoom_does (hoffset : e.offset ≤ e.capacity) (hn : n ≤ 8) (hlength : b.length = n + 1) :
    Does (withRoom n b) b (e.offset + b.length ≤ e.capacity) e := by
  have hsum : sizeT (e.offset + n) = e.offset + n := sizeT_add hoffset (by omega)
  unfold Does withRoom
  rw [hsum]
  by_cases hfits : e.offset + b.length ≤ e.capacity
  · rw [if_neg (by omega)]
    exact .inl ⟨hfits, _, rfl, putAll_appends hfits⟩
  · rw [if_pos (by omega)]
    exact .inr ⟨hfits, rfl⟩

/-- How many bytes of argument the shortest head takes. -/
def argumentBytes (v : Nat) : Nat :=
  if v < 24 then 0 else if v ≤ 0xFF then 1 else if v ≤ 0xFFFF then 2 else if v ≤ 0xFFFFFFFF then 4 else 8

theorem argumentBytes_le (v : Nat) : argumentBytes v ≤ 8 := by
  unfold argumentBytes
  repeat' split
  all_goals omega

theorem argumentBytes_le_one : argumentBytes v ≤ 1 ↔ v ≤ 0xFF := by
  unfold argumentBytes
  repeat' split
  all_goals omega

theorem argumentBytes_le_two : argumentBytes v ≤ 2 ↔ v ≤ 0xFFFF := by
  unfold argumentBytes
  repeat' split
  all_goals omega

theorem head_length (major v : Nat) : (head major v).length = argumentBytes v + 1 := by
  unfold head argumentBytes
  simp only
  repeat' split
  all_goals simp

theorem writeHead_does (hoffset : e.offset ≤ e.capacity) (widest major v : Nat) (hwidest : 1 ≤ widest) :
    Does (writeHead major widest v) (head major v)
      (argumentBytes v ≤ widest ∧ e.offset + (head major v).length ≤ e.capacity) e := by
  have hlength := head_length major v
  by_cases hfull : e.offset ≥ e.capacity
  · refine .inr ⟨by omega, ?_⟩
    rw [writeHead, if_pos hfull]
  -- The bytes of each width are those of the head.
  have hstep : ∀ {n : Nat} {b : Bytes}, head major v = b → argumentBytes v = n → n ≤ 8 → n ≤ widest →
      writeHead major widest v e = withRoom n b e → Does (writeHead major widest v) (head major v)
        (argumentBytes v ≤ widest ∧ e.offset + (head major v).length ≤ e.capacity) e := by
    intro n b hb hn hle hwide hcall
    rw [hb, hn] at hlength
    have hroom := withRoom_does (b := b) hoffset hle hlength
    rw [hb, hn]
    unfold Does at hroom ⊢
    rw [hcall]
    rcases hroom with ⟨hfits, hdone⟩ | ⟨hfits, hsame⟩
    · exact .inl ⟨⟨hwide, hfits⟩, hdone⟩
    · exact .inr ⟨fun h => hfits h.2, hsame⟩
  have hrefused : ¬argumentBytes v ≤ widest → writeHead major widest v e = (false, e) →
      Does (writeHead major widest v) (head major v)
        (argumentBytes v ≤ widest ∧ e.offset + (head major v).length ≤ e.capacity) e :=
    fun hwide hcall => .inr ⟨fun h => hwide h.1, hcall⟩
  by_cases h24 : v < 24
  · have hb : head major v = [initial major v] := by
      rw [initial_eq (by omega), head, if_pos h24]
    have hn : argumentBytes v = 0 := if_pos h24
    rw [hb, hn]
    refine .inl ⟨⟨Nat.zero_le _, not_le.mp hfull⟩, e.put (initial major v), ?_, put_appends (not_le.mp hfull) _⟩
    rw [writeHead, if_neg hfull, if_pos h24]
  by_cases h1 : v ≤ 0xFF
  · have hb : head major v = initial major 24 :: bigEndian 1 v := by
      rw [initial_eq (by decide), head, if_neg h24, if_pos h1]
    have hn : argumentBytes v = 1 := by rw [argumentBytes, if_neg h24, if_pos h1]
    apply hstep hb hn (by decide) hwidest
    rw [writeHead, if_neg hfull, if_neg h24, if_pos h1]
  by_cases h2 : v ≤ 0xFFFF
  · have hb : head major v = initial major 25 :: bigEndian 2 v := by
      rw [initial_eq (by decide), head, if_neg h24, if_neg h1, if_pos h2]
    have hn : argumentBytes v = 2 := by rw [argumentBytes, if_neg h24, if_neg h1, if_pos h2]
    by_cases hwide : 2 ≤ widest
    · apply hstep hb hn (by decide) hwide
      rw [writeHead, if_neg hfull, if_neg h24, if_neg h1, if_pos ⟨h2, hwide⟩]
    · apply hrefused (hn ▸ hwide)
      rw [writeHead, if_neg hfull, if_neg h24, if_neg h1, if_neg (by omega), if_neg (by omega), if_neg (by omega)]
  by_cases h4 : v ≤ 0xFFFFFFFF
  · have hb : head major v = initial major 26 :: bigEndian 4 v := by
      rw [initial_eq (by decide), head, if_neg h24, if_neg h1, if_neg h2, if_pos h4]
    have hn : argumentBytes v = 4 := by rw [argumentBytes, if_neg h24, if_neg h1, if_neg h2, if_pos h4]
    by_cases hwide : 4 ≤ widest
    · apply hstep hb hn (by decide) hwide
      rw [writeHead, if_neg hfull, if_neg h24, if_neg h1, if_neg (by omega), if_pos ⟨h4, hwide⟩]
    · apply hrefused (hn ▸ hwide)
      rw [writeHead, if_neg hfull, if_neg h24, if_neg h1, if_neg (by omega), if_neg (by omega), if_neg (by omega)]
  have hb : head major v = initial major 27 :: bigEndian 8 v := by
    rw [initial_eq (by decide), head, if_neg h24, if_neg h1, if_neg h2, if_neg h4]
  have hn : argumentBytes v = 8 := by rw [argumentBytes, if_neg h24, if_neg h1, if_neg h2, if_neg h4]
  by_cases hwide : 8 ≤ widest
  · apply hstep hb hn (by decide) hwide
    rw [writeHead, if_neg hfull, if_neg h24, if_neg h1, if_neg (by omega), if_neg (by omega), if_pos hwide]
  · apply hrefused (hn ▸ hwide)
    rw [writeHead, if_neg hfull, if_neg h24, if_neg h1, if_neg (by omega), if_neg (by omega), if_neg hwide]

theorem writeString_does (hoffset : e.offset ≤ e.capacity) (longest major : Nat) (data : Bytes) (h1 : 0xFF ≤ longest)
    (h2 : longest ≤ 0xFFFF) :
    Does (writeString major longest data) (head major data.length ++ data)
      (e.offset + data.length + 3 < e.capacity ∧ data.length ≤ longest) e := by
  by_cases hlong : data.length ≤ longest
  · have hsum : sizeT (e.offset + data.length + 3) = e.offset + data.length + 3 := by
      rw [Nat.add_assoc]
      exact sizeT_add hoffset (by omega)
    by_cases hroom : e.offset + data.length + 3 < e.capacity
    · have hlength := head_length major data.length
      have hshort : argumentBytes data.length ≤ 2 := argumentBytes_le_two.mpr (by omega)
      have hhead := putAll_appends (e := e) (b := head major data.length) (by omega)
      have hbody : (e.putAll (head major data.length)).offset + data.length ≤
          (e.putAll (head major data.length)).capacity := by
        rw [hhead.offset, hhead.capacity]
        omega
      refine .inl ⟨⟨hroom, hlong⟩, (e.putAll (head major data.length)).putAll data, ?_,
        appends_trans hhead (putAll_appends hbody)⟩
      rw [writeString, hsum, if_neg (not_le.mpr hroom)]
      by_cases h24 : data.length < 24
      · rw [if_pos h24, head, if_pos h24, initial_eq (by omega)]
        rfl
      by_cases hbyte : data.length ≤ 0xFF
      · rw [if_neg h24, if_pos hbyte, head, if_neg h24, if_pos hbyte, initial_eq (by decide)]
      · rw [if_neg h24, if_neg hbyte, if_pos hlong, head, if_neg h24, if_neg hbyte, if_pos (by omega),
          initial_eq (by decide)]
    · refine .inr ⟨fun h => hroom h.1, ?_⟩
      rw [writeString, hsum, if_pos (not_lt.mp hroom)]
  · -- Whether the sum wraps or not, the length is refused.
    refine .inr ⟨fun h => hlong h.2, ?_⟩
    rw [writeString]
    split
    case isTrue => rfl
    case isFalse =>
      rw [if_neg (by omega), if_neg (by omega)]

theorem single_does (e : CborEncoder) (info : Nat) (h : info < 32) :
    Does (fun e => if e.offset ≥ e.capacity then (false, e) else (true, e.put (initial 7 info)))
      [initialByte 7 info] (e.offset < e.capacity) e := by
  by_cases hfull : e.offset ≥ e.capacity
  · exact .inr ⟨not_lt.mpr hfull, if_pos hfull⟩
  · refine .inl ⟨not_le.mp hfull, e.put (initial 7 info), if_neg hfull, ?_⟩
    rw [initial_eq h]
    exact put_appends (not_le.mp hfull) _

end CborEncoder

namespace Write

variable {e e' : CborEncoder} {w : Write} {ws : List Write}

/-- The major type of an item and the argument of its head. -/
def opening : Write → Nat × Nat
  | unsignedInt val => (0, val.toNat)
  | negativeInt val => (1, (-1 - val.toInt).toNat)
  | byteString data => (2, data.length)
  | textString text => (3, (cstr text).length)
  | mapHeader elements => (5, elements.toNat)
  | arrayHeader elements => (4, elements.toNat)
  | boolean value => (7, if value then 21 else 20)
  | null => (7, 22)

/-- What follows the head. -/
def content : Write → Bytes
  | byteString data => data
  | textString text => cstr text
  | _ => []

def bytes (w : Write) : Bytes := head w.opening.1 w.opening.2 ++ w.content

/-- The ranges the write functions take. -/
def InRange : Write → Prop
  | negativeInt val => val.toInt < 0
  | byteString data => data.length ≤ 0xFFFF
  | textString text => (cstr text).length ≤ 0xFF
  | mapHeader elements => elements.toNat ≤ 0xFFFF
  | arrayHeader elements => elements.toNat ≤ 0xFF
  | _ => True

/-- There is room; strings ask for more than they may need. -/
def Fits (w : Write) (e : CborEncoder) : Prop :=
  match w with
  | byteString data => e.offset + data.length + 3 < e.capacity
  | textString text => e.offset + (cstr text).length + 3 < e.capacity
  | w => e.offset + w.bytes.length ≤ e.capacity

theorem toNat_negated {val : BitVec 64} (h : val.toInt < 0) : (-1 - val).toNat = (-1 - val.toInt).toNat := by
  have hones : (-1 : BitVec 64).toNat = 2 ^ 64 - 1 := by decide
  rw [BitVec.toNat_sub, hones]
  rw [BitVec.toInt_eq_toNat_cond] at h ⊢
  split at h
  · omega
  · rename_i hbig
    rw [if_neg hbig]
    have := val.isLt
    omega

theorem perform_does (hoffset : e.offset ≤ e.capacity) (w : Write) :
    CborEncoder.Does w.perform w.bytes (w.InRange ∧ w.Fits e) e := by
  have hplain : ∀ major v, head major v ++ ([] : Bytes) = head major v := fun _ _ => List.append_nil _
  cases w with
  | unsignedInt val =>
    have h := CborEncoder.writeHead_does hoffset 8 0 val.toNat (by decide)
    rw [← hplain] at h
    exact h.congr ⟨fun h => ⟨trivial, h.2⟩, fun h => ⟨CborEncoder.argumentBytes_le _, h.2⟩⟩
  | negativeInt val =>
    by_cases hneg : val.toInt < 0
    · have h := CborEncoder.writeHead_does hoffset 8 1 (-1 - val).toNat (by decide)
      rw [← hplain, toNat_negated hneg] at h
      have hcall : (negativeInt val).perform e = CborEncoder.writeHead 1 8 (-1 - val.toInt).toNat e := by
        rw [← toNat_negated hneg]
        exact if_neg (not_le.mpr hneg)
      exact (h.of_eq hcall).congr ⟨fun h => ⟨hneg, h.2⟩, fun h => ⟨CborEncoder.argumentBytes_le _, h.2⟩⟩
    · refine .inr ⟨fun h => hneg h.1, ?_⟩
      exact if_pos (not_lt.mp hneg)
  | byteString data =>
    have h := CborEncoder.writeString_does hoffset 0xFFFF 2 data (by decide) (by decide)
    exact h.congr And.comm
  | textString text =>
    have h := CborEncoder.writeString_does hoffset 0xFF 3 (cstr text) (by decide) (by decide)
    exact h.congr And.comm
  | mapHeader elements =>
    have h := CborEncoder.writeHead_does hoffset 2 5 elements.toNat (by decide)
    rw [← hplain, CborEncoder.argumentBytes_le_two] at h
    exact h
  | arrayHeader elements =>
    have h := CborEncoder.writeHead_does hoffset 1 4 elements.toNat (by decide)
    rw [← hplain, CborEncoder.argumentBytes_le_one] at h
    exact h
  | boolean value =>
    have h := CborEncoder.single_does e (if value then 21 else 20) (by split <;> decide)
    have hbytes : (boolean value).bytes = [initialByte 7 (if value then 21 else 20)] := by
      cases value <;> rfl
    rw [hbytes]
    refine h.congr ?_
    simp only [InRange, Fits, hbytes, List.length_singleton, true_and]
    exact Iff.rfl
  | null =>
    have h := CborEncoder.single_does e 22 (by decide)
    exact h.congr ⟨fun h => ⟨trivial, h⟩, fun h => h.2⟩

/-! Reading back. -/

/-- The reader of the item takes its value from the front. -/
def ReadsAs (w : Write) (b rest : Bytes) : Prop :=
  match w with
  | unsignedInt val => readTypeAndValue b = (some (0, val.toNat), rest)
  | negativeInt val => ∃ u : Nat, readTypeAndValue b = (some (1, u), rest) ∧ val.toInt = -1 - u
  | byteString data => ∀ maxLen, data.length ≤ maxLen → readByteString maxLen b = (some data, rest)
  | textString text => ∀ maxLen, (cstr text).length < maxLen → readTextString maxLen b = (some (cstr text), rest)
  | mapHeader elements => readTypeAndValue b = (some (5, elements.toNat), rest)
  | arrayHeader elements => readTypeAndValue b = (some (4, elements.toNat), rest)
  | boolean value => readTypeAndValue b = (some (7, if value then 21 else 20), rest)
  | null => readTypeAndValue b = (some (7, 22), rest)

/-- The items one after the other. -/
def ReadsBack : List Write → Bytes → Bytes → Prop
  | [], b, rest => b = rest
  | w :: ws, b, rest => ∃ left, w.ReadsAs b left ∧ ReadsBack ws left rest

theorem opening_lt (h : w.InRange) : w.opening.1 < 8 ∧ w.opening.2 < 2 ^ 64 := by
  cases w <;> simp only [opening, InRange] at h ⊢
  case unsignedInt val => exact ⟨by decide, val.isLt⟩
  case negativeInt val =>
    have := BitVec.le_toInt val
    omega
  case boolean value => split <;> decide
  all_goals omega

theorem opening_head (h : w.InRange) : Head w.opening.1 w.opening.2 (head w.opening.1 w.opening.2) :=
  head_exact (opening_lt h).1 (opening_lt h).2

theorem readString_back (major limit : Nat) {data : Bytes} (hm : major < 8) (hlength : data.length < 2 ^ 64)
    (hlimit : data.length ≤ limit) (rest : Bytes) :
    readString major limit (head major data.length ++ data ++ rest) = (some data, rest) := by
  have hhead := readTypeAndValue_head hm (head_exact hm hlength) (data ++ rest)
  have hfits : data.length ≤ (data ++ rest).length := by simp
  rw [List.append_assoc, readString, hhead]
  simp only [hlimit, hfits, and_self, if_true, List.take_left, List.drop_left]

theorem reads_back (h : w.InRange) (rest : Bytes) : w.ReadsAs (w.bytes ++ rest) rest := by
  have hhead := readTypeAndValue_head (opening_lt h).1 (opening_head h)
  have hplain : ∀ major v, head major v ++ ([] : Bytes) ++ rest = head major v ++ rest := by
    intro major v
    rw [List.append_nil]
  cases w with
  | byteString data =>
    intro maxLen hlen
    exact readString_back 2 maxLen (by decide) (opening_lt h).2 hlen rest
  | textString text =>
    intro maxLen hlen
    have hread := readString_back 3 (maxLen - 1) (by decide) (opening_lt h).2
      (by omega) rest
    have hbytes : (textString text).bytes = head 3 (cstr text).length ++ cstr text := rfl
    rw [hbytes, readTextString, if_neg (by omega)]
    simp only [hread, Option.map_some, cstr_of_notMem (notMem_cstr text)]
  | negativeInt val =>
    have hneg : val.toInt < 0 := h
    refine ⟨(-1 - val.toInt).toNat, ?_, by omega⟩
    exact hplain _ _ ▸ hhead rest
  | _ => exact hplain _ _ ▸ hhead rest

/-- No head of the same value is shorter. -/
theorem head_shortest {major v : Nat} {h : Bytes} (hh : Head major v h) : (head major v).length ≤ h.length := by
  rw [CborEncoder.head_length, CborEncoder.argumentBytes]
  cases hh with
  | short lt => simp [lt]
  | @long info arg width =>
    have hlt := argument_lt arg
    have hwidth : arg.length = 1 ∨ arg.length = 2 ∨ arg.length = 4 ∨ arg.length = 8 := by
      unfold argumentWidth at width
      split at width
      all_goals simp only [Option.some.injEq, reduceCtorEq] at width
      all_goals omega
    rw [List.length_cons]
    rcases hwidth with hw | hw | hw | hw
    all_goals
      rw [hw] at hlt ⊢
      repeat' split
      all_goals omega

/-! Sequences of writes. -/

theorem performAll_appends (hoffset : e.offset ≤ e.capacity) (ws : List Write) :
    Appends ((performAll e ws).1.flatMap bytes) e (performAll e ws).2 ∧ ∀ w ∈ (performAll e ws).1, w.InRange := by
  induction ws generalizing e with
  | nil => exact ⟨CborEncoder.appends_nil hoffset, fun _ hw => absurd hw List.not_mem_nil⟩
  | cons w ws ih =>
    rcases perform_does hoffset w with ⟨hfits, e', hcall, happends⟩ | ⟨-, hcall⟩
    · obtain ⟨hrest, hrange⟩ := ih (e := e') (happends.capacity ▸ happends.fits)
      simp only [performAll, hcall, if_true, List.flatMap_cons]
      refine ⟨CborEncoder.appends_trans happends hrest, ?_⟩
      intro x hx
      rcases List.mem_cons.mp hx with rfl | hx
      · exact hfits.1
      · exact hrange x hx
    · simp only [performAll, hcall, Bool.false_eq_true, if_false]
      exact ih hoffset

theorem readsBack_all (h : ∀ w ∈ ws, w.InRange) (rest : Bytes) : ReadsBack ws (ws.flatMap bytes ++ rest) rest := by
  induction ws with
  | nil => rfl
  | cons w ws ih =>
    refine ⟨ws.flatMap bytes ++ rest, ?_, ih fun x hx => h x (List.mem_cons_of_mem _ hx)⟩
    rw [List.flatMap_cons, List.append_assoc]
    exact reads_back (h w List.mem_cons_self) _

/-- Whatever is written into a buffer of any size: nothing is stored behind it, a
write that fails changes nothing, the ones that succeed (every one that is in range
and has its room) stand one behind the other in shortest heads, and the parser reads
each of them back. -/
theorem writes_read_back (buffer : Nat → UInt8) (capacity : Nat) (isObject : capacity ≤ ptrdiffMax)
    (ws : List Write) :
    let start := CborEncoder.new buffer capacity isObject
    let done := (performAll start ws).1
    let e := (performAll start ws).2
    (∀ i ∈ e.stores, i < capacity) ∧
      (∀ i, capacity ≤ i → e.buffer i = buffer i) ∧
      e.written = done.flatMap bytes ∧
      (∀ rest, ReadsBack done (e.written ++ rest) rest) ∧
      (∀ w ∈ done, ∀ h, Head w.opening.1 w.opening.2 h → (head w.opening.1 w.opening.2).length ≤ h.length) ∧
      ∀ w : Write, ((w.perform e).1 = true ↔ w.InRange ∧ w.Fits e) ∧
        ((w.perform e).1 = false → (w.perform e).2 = e) := by
  intro start done e
  obtain ⟨happends, hrange⟩ := performAll_appends (e := start) (Nat.zero_le _) ws
  have hwritten : e.written = done.flatMap bytes := happends.written
  refine ⟨?_, happends.beyond, hwritten, ?_, fun w _ h hh => head_shortest hh, ?_⟩
  · intro i hi
    rcases happends.stores i hi with hold | hnew
    · exact absurd hold List.not_mem_nil
    · exact hnew
  · intro rest
    rw [hwritten]
    exact readsBack_all hrange rest
  · intro w
    have hdoes := perform_does (e := e) (happends.capacity.symm ▸ happends.fits) w
    rcases hdoes with ⟨hfits, e', hcall, -⟩ | ⟨hfits, hcall⟩
    · rw [hcall]
      exact ⟨iff_of_true rfl hfits, fun h => by cases h⟩
    · rw [hcall]
      exact ⟨iff_of_false Bool.false_ne_true hfits, fun _ => rfl⟩

theorem writes_read_back_three :
    let done := (performAll (CborEncoder.new (fun _ => 0) 4 (by decide))
      [.mapHeader 1, .negativeInt (-7), .byteString [1, 2, 3], .boolean true]).1
    done = [.mapHeader 1, .negativeInt (-7), .boolean true] ∧
      ∀ rest, ReadsBack done ([0xA1, 0x26, 0xF5] ++ rest) rest :=
  ⟨by decide, (writes_read_back (fun _ => 0) 4 (by decide)
    [.mapHeader 1, .negativeInt (-7), .byteString [1, 2, 3], .boolean true]).2.2.2.1⟩

/-! The items of the handlers. -/

/-- The write behind an item, which knows nothing of widths. -/
def item : Write → Option Item
  | unsignedInt val => some (.uint val.toNat)
  | negativeInt val => some (.nint val.toInt)
  | byteString data => some (.bytes data)
  | textString text => some (.text (cstr text))
  | mapHeader elements => some (.map elements.toNat)
  | arrayHeader elements => some (.array elements.toNat)
  | boolean value => some (.bool value)
  | null => none

theorem bytes_item {i : Item} (hi : w.item = some i) : w.bytes = i.encoded := by
  cases w with
  | null => cases hi
  | boolean value =>
    obtain rfl := Option.some.inj hi
    cases value <;> rfl
  | byteString data =>
    obtain rfl := Option.some.inj hi
    rfl
  | textString text =>
    obtain rfl := Option.some.inj hi
    rfl
  | _ =>
    obtain rfl := Option.some.inj hi
    exact List.append_nil _

theorem fits_item {i : Item} (hi : w.item = some i) :
    w.InRange ∧ w.Fits e ↔ i.fits e.capacity e.offset = true := by
  have hbytes := bytes_item hi
  cases w with
  | null => cases hi
  | _ =>
    obtain rfl := Option.some.inj hi
    simp only [InRange, Fits, hbytes, Item.fits, Bool.and_eq_true, decide_eq_true_eq, true_and]
    try simp only [Item.encoded]
    try omega

/-- The buffer of the handlers is what has been written into this one. -/
theorem perform_write (hoffset : e.offset ≤ e.capacity) {i : Item} (hi : w.item = some i) :
    (w.perform e).2.written = write e.capacity e.written i := by
  rw [write, CborEncoder.written_length]
  rcases perform_does hoffset w with ⟨hfits, e', hcall, happends⟩ | ⟨hfits, hcall⟩
  · rw [hcall, if_pos ((fits_item hi).mp hfits), happends.written, bytes_item hi]
  · rw [hcall, if_neg fun h => hfits ((fits_item hi).mpr h)]

end Write

end GoiKey
