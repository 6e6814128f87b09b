import GoiKey.Lib.CborTree

/-!
No item begins another: bytes that start with an item start with no other one, so
there is one tree behind them. The order the keys of a map are put in.
-/

namespace CborGrammar

variable {α : Type} {major major' v v' : Nat} {h h' r r' : List Byte}

/-! Heads. -/

theorem initialByte_inj {info info' : Nat} (hm : major < 8) (hi : info < 32) (hm' : major' < 8)
    (hi' : info' < 32) (he : initialByte major info = initialByte major' info') :
    major = major' ∧ info = info' := by
  have hv := congrArg UInt8.toNat he
  rw [initialByte, initialByte, UInt8.toNat_ofNat_of_lt' (by simp only [UInt8.size]; omega),
    UInt8.toNat_ofNat_of_lt' (by simp only [UInt8.size]; omega)] at hv
  omega

theorem Head.starts (hh : Head major v h) : ∃ info t, h = initialByte major info :: t ∧ info < 28 := by
  cases hh with
  | short lt => exact ⟨_, _, rfl, by omega⟩
  | long width => exact ⟨_, _, rfl, argumentWidth_lt width⟩

theorem Head.inj (hh : Head major v h) (hh' : Head major' v' h') (hm : major < 8) (hm' : major' < 8)
    (he : h ++ r = h' ++ r') : major = major' ∧ v = v' ∧ h = h' ∧ r = r' := by
  cases hh with
  | short lt =>
    cases hh' with
    | short lt' =>
      obtain ⟨hbyte, hrest⟩ := List.cons.inj he
      obtain ⟨rfl, rfl⟩ := initialByte_inj hm (by omega) hm' (by omega) hbyte
      exact ⟨rfl, rfl, rfl, hrest⟩
    | long width =>
      obtain ⟨hbyte, -⟩ := List.cons.inj he
      obtain ⟨-, rfl⟩ := initialByte_inj hm (by omega) hm' (by have := argumentWidth_lt width; omega) hbyte
      unfold argumentWidth at width
      split at width <;> first | omega | cases width
  | @long info arg width =>
    have hlt := argumentWidth_lt width
    cases hh' with
    | short lt' =>
      obtain ⟨hbyte, -⟩ := List.cons.inj he
      obtain ⟨-, rfl⟩ := initialByte_inj hm (by omega) hm' (by omega) hbyte
      unfold argumentWidth at width
      split at width <;> first | omega | cases width
    | @long info' arg' width' =>
      have hlt' := argumentWidth_lt width'
      obtain ⟨hbyte, hrest⟩ := List.cons.inj he
      obtain ⟨rfl, rfl⟩ := initialByte_inj hm (by omega) hm' (by omega) hbyte
      have hlen : arg.length = arg'.length := Option.some.inj (width.symm.trans width')
      obtain ⟨rfl, rfl⟩ := List.append_inj hrest hlen
      exact ⟨rfl, rfl, rfl, rfl⟩

/-! Sequences of what begins nothing else. -/

/-- Whatever starts with `x` starts with nothing else that is of the kind. -/
def Starts (enc : α → List Byte) (kind : α → Prop) (x : α) : Prop :=
  ∀ y, kind y → ∀ r r', enc x ++ r = enc y ++ r' → x = y ∧ r = r'

variable {enc : α → List Byte} {kind : α → Prop} {xs ys : List α}

theorem counted_inj (hx : ∀ x ∈ xs, Starts enc kind x) (hy : ∀ y ∈ ys, kind y)
    (hlen : xs.length = ys.length) (he : xs.flatMap enc ++ r = ys.flatMap enc ++ r') :
    xs = ys ∧ r = r' := by
  induction xs generalizing ys with
  | nil =>
    obtain rfl := List.length_eq_zero_iff.mp hlen.symm
    exact ⟨rfl, he⟩
  | cons x xs ih =>
    obtain - | ⟨y, ys⟩ := ys
    · cases hlen
    · rw [List.flatMap_cons, List.flatMap_cons, List.append_assoc, List.append_assoc] at he
      obtain ⟨rfl, hrest⟩ := hx x List.mem_cons_self y (hy y List.mem_cons_self) _ _ he
      obtain ⟨rfl, rfl⟩ := ih (fun x h => hx x (List.mem_cons_of_mem _ h))
        (fun y h => hy y (List.mem_cons_of_mem _ h)) (Nat.succ.inj hlen) hrest
      exact ⟨rfl, rfl⟩

/-- As long as nothing in the sequence can be taken for the byte that ends it. -/
theorem closed_inj {stop : Byte} (hx : ∀ x ∈ xs, Starts enc kind x) (hy : ∀ y ∈ ys, kind y)
    (hb : ∀ x, x ∈ xs ∨ x ∈ ys → ∃ c t, enc x = c :: t ∧ c ≠ stop)
    (he : xs.flatMap enc ++ stop :: r = ys.flatMap enc ++ stop :: r') : xs = ys ∧ r = r' := by
  induction xs generalizing ys with
  | nil =>
    obtain - | ⟨y, ys⟩ := ys
    · exact ⟨rfl, (List.cons.inj he).2⟩
    · obtain ⟨c, t, hc, hne⟩ := hb y (.inr List.mem_cons_self)
      rw [List.flatMap_cons, hc] at he
      exact absurd (List.cons.inj he).1.symm hne
  | cons x xs ih =>
    obtain - | ⟨y, ys⟩ := ys
    · obtain ⟨c, t, hc, hne⟩ := hb x (.inl List.mem_cons_self)
      rw [List.flatMap_cons, hc] at he
      exact absurd (List.cons.inj he).1 hne
    · rw [List.flatMap_cons, List.flatMap_cons, List.append_assoc, List.append_assoc] at he
      obtain ⟨rfl, hrest⟩ := hx x List.mem_cons_self y (hy y List.mem_cons_self) _ _ he
      obtain ⟨rfl, rfl⟩ := ih (fun x h => hx x (List.mem_cons_of_mem _ h))
        (fun y h => hy y (List.mem_cons_of_mem _ h))
        (fun z h => hb z (h.imp (List.mem_cons_of_mem _) (List.mem_cons_of_mem _))) hrest
      exact ⟨rfl, rfl⟩

namespace Datum

variable {d d' : Datum}

theorem itemBytes_eq (items : List Datum) : itemBytes items = items.flatMap bytes := by
  induction items with
  | nil => rfl
  | cons d items ih => rw [itemBytes, ih, List.flatMap_cons]

/-- What a pair of a map is written as. -/
def pairBytes (e : Datum × Datum) : List Byte := e.1.bytes ++ e.2.bytes

theorem entryBytes_eq (es : List (Datum × Datum)) : entryBytes es = es.flatMap pairBytes := by
  induction es with
  | nil => rfl
  | cons e es ih =>
    obtain ⟨k, v⟩ := e
    rw [entryBytes, ih, List.flatMap_cons]
    rfl

/-- Ended by a break, not by a count. -/
def isOpen : Datum → Bool
  | chunks _ _ => true
  | openArray _ => true
  | openMap _ => true
  | _ => false

/-- The first byte tells the major type, and whether a break ends the item. -/
theorem Valid.starts (hd : d.Valid) :
    ∃ info t, d.bytes = initialByte d.major info :: t ∧ info < 32 ∧ (info = 31 ↔ d.isOpen = true) := by
  have closed : ∀ {major v : Nat} {h : List Byte} (rest : List Byte), Head major v h →
      ∃ info t, h ++ rest = initialByte major info :: t ∧ info < 32 ∧ (info = 31 ↔ false = true) := by
    intro major v h rest hh
    obtain ⟨info, t, rfl, hlt⟩ := hh.starts
    exact ⟨info, t ++ rest, rfl, by omega, by simp; omega⟩
  cases hd with
  | @number major v h type head simple =>
    obtain ⟨info, t, he, hrest⟩ := closed [] head
    rw [List.append_nil] at he
    exact ⟨info, t, he, hrest⟩
  | string type head => exact closed _ head
  | chunks type heads => exact ⟨31, _, rfl, by simp [isOpen]⟩
  | array head each => exact closed _ head
  | openArray each => exact ⟨31, _, rfl, by simp [isOpen]⟩
  | map head keys values => exact closed _ head
  | openMap keys values => exact ⟨31, _, rfl, by simp [isOpen]⟩
  | tag head each => exact closed _ head

theorem Valid.begins (hd : d.Valid) : ∃ c t, d.bytes = c :: t ∧ c ≠ breakCode := by
  obtain ⟨info, t, he, hlt, hopen⟩ := hd.starts
  refine ⟨_, t, he, ?_⟩
  by_cases h31 : info = 31
  · obtain hopen := hopen.mp h31
    intro hb
    have hm := (initialByte_inj hd.major_lt hlt (show 7 < 8 by omega) (show 31 < 32 by omega) hb).1
    cases hd with
    | chunks type heads =>
      simp only [major] at hm
      omega
    | openArray each => cases hm
    | openMap keys values => cases hm
    | number type head simple => cases hopen
    | string type head => cases hopen
    | array head each => cases hopen
    | map head keys values => cases hopen
    | tag head each => cases hopen
  · exact initialByte_ne_breakCode hd.major_lt (by omega)

theorem Valid.same (hd : d.Valid) (hd' : d'.Valid) (he : d.bytes ++ r = d'.bytes ++ r') :
    d.major = d'.major ∧ d.isOpen = d'.isOpen := by
  obtain ⟨info, t, hs, hlt, hopen⟩ := hd.starts
  obtain ⟨info', t', hs', hlt', hopen'⟩ := hd'.starts
  rw [hs, hs'] at he
  obtain ⟨hm, rfl⟩ := initialByte_inj hd.major_lt hlt hd'.major_lt hlt' (List.cons.inj he).1
  exact ⟨hm, Bool.eq_iff_iff.mpr (hopen.symm.trans hopen')⟩

theorem pairs_start {e : Datum × Datum} (hk : Starts bytes Valid e.1) (hv : Starts bytes Valid e.2) :
    Starts pairBytes (fun e => e.1.Valid ∧ e.2.Valid) e := by
  rintro ⟨k, v⟩ ⟨hk', hv'⟩ r r' he
  simp only [pairBytes, List.append_assoc] at he
  obtain ⟨hkey, hrest⟩ := hk k hk' _ _ he
  obtain ⟨hvalue, hrest⟩ := hv v hv' _ _ hrest
  exact ⟨Prod.ext hkey hvalue, hrest⟩

theorem chunk_starts {major : Nat} {p : List Byte × List Byte} (type : major = 2 ∨ major = 3)
    (hp : Head major p.2.length p.1) :
    Starts (fun p => p.1 ++ p.2) (fun p : List Byte × List Byte => Head major p.2.length p.1) p := by
  rintro ⟨h', s'⟩ hp' r r' he
  simp only [List.append_assoc] at he
  obtain ⟨-, hlen, hhead, hrest⟩ := hp.inj hp' (by omega) (by omega) he
  obtain ⟨hs, hrest⟩ := List.append_inj hrest hlen
  exact ⟨Prod.ext hhead hs, hrest⟩

/-- Bytes that start with an item start with no other one. -/
theorem Valid.unique (hd : d.Valid) : Starts bytes Valid d := by
  induction hd with
  | @number major v h type head simple =>
    intro d' hd' r r' he
    obtain ⟨hm, ho⟩ := (Valid.number type head simple).same hd' he
    cases hd' with
    | number type' head' simple' =>
      obtain ⟨rfl, rfl, rfl, hrest⟩ := head.inj head' (by omega) (by omega) he
      exact ⟨rfl, hrest⟩
    | _ => first | (cases ho; done) | (simp only [Datum.major] at hm; omega)
  | @string major h s type head =>
    intro d' hd' r r' he
    obtain ⟨hm, ho⟩ := (Valid.string type head).same hd' he
    cases hd' with
    | string type' head' =>
      simp only [bytes, List.append_assoc] at he
      obtain ⟨rfl, hlen, rfl, hrest⟩ := head.inj head' (by omega) (by omega) he
      obtain ⟨rfl, rfl⟩ := List.append_inj hrest hlen
      exact ⟨rfl, rfl⟩
    | _ => first | (cases ho; done) | (simp only [Datum.major] at hm; omega)
  | @chunks major parts type heads =>
    intro d' hd' r r' he
    obtain ⟨hm, ho⟩ := (Valid.chunks type heads).same hd' he
    cases hd' with
    | @chunks major' parts' type' heads' =>
      obtain rfl : major = major' := hm
      have hrest : parts.flatMap (fun p => p.1 ++ p.2) ++ breakCode :: r =
          parts'.flatMap (fun p => p.1 ++ p.2) ++ breakCode :: r' := by
        simpa [← List.flatMap_def] using (List.cons.inj he).2
      obtain ⟨rfl, rfl⟩ := closed_inj (fun p hp => chunk_starts type (heads p hp)) heads'
        (fun p hp => begins_append ((hp.elim (heads p) (heads' p)).begins (by omega)) _) hrest
      exact ⟨rfl, rfl⟩
    | _ => first | (cases ho; done) | (simp only [Datum.major] at hm; omega)
  | @array h items head each ih =>
    intro d' hd' r r' he
    obtain ⟨hm, ho⟩ := (Valid.array head each).same hd' he
    cases hd' with
    | array head' each' =>
      simp only [bytes, itemBytes_eq, List.append_assoc] at he
      obtain ⟨-, hlen, rfl, hrest⟩ := head.inj head' (by omega) (by omega) he
      obtain ⟨rfl, rfl⟩ := counted_inj ih each' hlen hrest
      exact ⟨rfl, rfl⟩
    | _ => first | (cases ho; done) | (cases hm; done) | (simp only [Datum.major] at hm; omega)
  | @openArray items each ih =>
    intro d' hd' r r' he
    obtain ⟨hm, ho⟩ := (Valid.openArray each).same hd' he
    cases hd' with
    | @openArray items' each' =>
      have hrest : items.flatMap bytes ++ breakCode :: r = items'.flatMap bytes ++ breakCode :: r' := by
        simpa [bytes, itemBytes_eq] using (List.cons.inj he).2
      obtain ⟨rfl, rfl⟩ := closed_inj ih each'
        (fun d hd => (hd.elim (each d) (each' d)).begins) hrest
      exact ⟨rfl, rfl⟩
    | _ => first | (cases ho; done) | (cases hm; done) | (simp only [Datum.major] at hm; omega)
  | @map h es head keys values ihk ihv =>
    intro d' hd' r r' he
    obtain ⟨hm, ho⟩ := (Valid.map head keys values).same hd' he
    cases hd' with
    | map head' keys' values' =>
      simp only [bytes, entryBytes_eq, List.append_assoc] at he
      obtain ⟨-, hlen, rfl, hrest⟩ := head.inj head' (by omega) (by omega) he
      obtain ⟨rfl, rfl⟩ := counted_inj (fun e he => pairs_start (ihk e he) (ihv e he))
        (fun e he => ⟨keys' e he, values' e he⟩) hlen hrest
      exact ⟨rfl, rfl⟩
    | _ => first | (cases ho; done) | (cases hm; done) | (simp only [Datum.major] at hm; omega)
  | @openMap es keys values ihk ihv =>
    intro d' hd' r r' he
    obtain ⟨hm, ho⟩ := (Valid.openMap keys values).same hd' he
    cases hd' with
    | @openMap es' keys' values' =>
      have hrest : es.flatMap pairBytes ++ breakCode :: r = es'.flatMap pairBytes ++ breakCode :: r' := by
        simpa [bytes, entryBytes_eq] using (List.cons.inj he).2
      obtain ⟨rfl, rfl⟩ := closed_inj (fun e he => pairs_start (ihk e he) (ihv e he))
        (fun e he => ⟨keys' e he, values' e he⟩)
        (fun e h => begins_append (h.elim (keys e) (keys' e)).begins e.2.bytes) hrest
      exact ⟨rfl, rfl⟩
    | _ => first | (cases ho; done) | (cases hm; done) | (simp only [Datum.major] at hm; omega)
  | @tag n h content head each ih =>
    intro d' hd' r r' he
    obtain ⟨hm, ho⟩ := (Valid.tag head each).same hd' he
    cases hd' with
    | tag head' each' =>
      simp only [bytes, List.append_assoc] at he
      obtain ⟨-, rfl, rfl, hrest⟩ := head.inj head' (by omega) (by omega) he
      obtain ⟨rfl, rfl⟩ := ih _ each' _ _ hrest
      exact ⟨rfl, rfl⟩
    | _ => first | (cases ho; done) | (cases hm; done) | (simp only [Datum.major] at hm; omega)

theorem Valid.inj (hd : d.Valid) (hd' : d'.Valid) (he : d.bytes = d'.bytes) : d = d' :=
  (hd.unique d' hd' [] [] (by rw [he])).1

/-! The order of keys. -/

/-- By length first, then by the bytes. -/
def Before (a b : List Byte) : Prop := a.length < b.length ∨ (a.length = b.length ∧ a < b)

instance (a b : List Byte) : Decidable (Before a b) := inferInstanceAs (Decidable (_ ∨ _))

/-- The keys of every map rise. -/
inductive Ordered : Datum → Prop where
  | number (major v : Nat) (h : List Byte) : Ordered (number major v h)
  | string (major : Nat) (h s : List Byte) : Ordered (string major h s)
  | chunks (major : Nat) (parts : List (List Byte × List Byte)) : Ordered (chunks major parts)
  | array {h : List Byte} {items : List Datum} (each : ∀ d ∈ items, Ordered d) : Ordered (array h items)
  | openArray {items : List Datum} (each : ∀ d ∈ items, Ordered d) : Ordered (openArray items)
  | map {h : List Byte} {entries : List (Datum × Datum)}
    (rising : entries.Pairwise fun e e' => Before e.1.bytes e'.1.bytes)
    (keys : ∀ e ∈ entries, Ordered e.1) (values : ∀ e ∈ entries, Ordered e.2) : Ordered (map h entries)
  | openMap {entries : List (Datum × Datum)}
    (rising : entries.Pairwise fun e e' => Before e.1.bytes e'.1.bytes)
    (keys : ∀ e ∈ entries, Ordered e.1) (values : ∀ e ∈ entries, Ordered e.2) :
    Ordered (openMap entries)
  | tag {n : Nat} {h : List Byte} {content : Datum} (each : Ordered content) : Ordered (tag n h content)

/-- Well-formed, with its keys in order. -/
structure Canonical (d : Datum) : Prop where
  valid : d.Valid
  ordered : d.Ordered

end Datum

end CborGrammar
