import GoiKey.Lib.CborGrammar
import GoiKey.Lib.Reads
import GoiKey.Model.Cbor

/-!
What skipValue accepts: the items of the grammar with every departure let
through, each of them to its last byte.
-/

namespace GoiKey

open CborGrammar

variable {levels major v : Nat} {b h rest left : Bytes} {parts : List Bytes}

/-! Heads. -/

theorem initialByte_toNat {info : Nat} (hm : major < 8) (hi : info < 32) :
    (initialByte major info).toNat = major * 32 + info := by
  rw [initialByte, UInt8.toNat_ofNat_of_lt' (by simp [UInt8.size]; omega)]

theorem valueWidth_eq (info : Nat) : valueWidth info = argumentWidth info := by
  unfold valueWidth argumentWidth
  rfl

theorem readTypeAndValue_short {info : Nat} (hm : major < 8) (hi : info < 24) (rest : Bytes) :
    readTypeAndValue (initialByte major info :: rest) = (some (major, info), rest) := by
  have hn : (initialByte major info).toNat = major * 32 + info := initialByte_toNat hm (by omega)
  have hinfo : (initialByte major info).toNat % 32 = info := by omega
  have hmajor : (initialByte major info).toNat / 32 = major := by omega
  simp only [readTypeAndValue, hinfo, hmajor]
  rw [if_pos hi]

theorem readTypeAndValue_open (hm : major < 8) (rest : Bytes) :
    readTypeAndValue (initialByte major 31 :: rest) = (some (major, indefiniteLength), rest) := by
  have hn : (initialByte major 31).toNat = major * 32 + 31 := initialByte_toNat hm (by omega)
  have hinfo : (initialByte major 31).toNat % 32 = 31 := by omega
  have hmajor : (initialByte major 31).toNat / 32 = major := by omega
  simp only [readTypeAndValue, hinfo, hmajor]
  rw [if_neg (by omega), if_pos trivial]

theorem readTypeAndValue_long {info : Nat} {arg : Bytes} (hm : major < 8)
    (hw : argumentWidth info = some arg.length) (rest : Bytes) :
    readTypeAndValue (initialByte major info :: (arg ++ rest)) = (some (major, argument arg), rest) := by
  have hlt := argumentWidth_lt hw
  have hge : 24 ≤ info := by
    unfold argumentWidth at hw
    split at hw <;> first | omega | cases hw
  have hn : (initialByte major info).toNat = major * 32 + info := initialByte_toNat hm (by omega)
  have hinfo : (initialByte major info).toNat % 32 = info := by omega
  have hmajor : (initialByte major info).toNat / 32 = major := by omega
  simp only [readTypeAndValue, hinfo, hmajor, valueWidth_eq, hw]
  rw [if_neg (by omega), if_neg (by omega), if_neg (by simp), List.take_left, List.drop_left]
  rfl

theorem readTypeAndValue_head (hm : major < 8) (hh : Head major v h) :
    Reads readTypeAndValue h (some (major, v)) := by
  intro rest
  cases hh with
  | short lt => exact readTypeAndValue_short hm lt rest
  | long width => exact readTypeAndValue_long hm width rest

theorem readTypeAndValue_opener {allowed : Departure → Prop} (hm : major < 8)
    (hh : Opener allowed major h) : Reads readTypeAndValue h (some (major, indefiniteLength)) := by
  intro rest
  cases hh with
  | indefinite => exact readTypeAndValue_open hm rest
  | longest ok =>
    have hw : argumentWidth 27 = some (List.replicate 8 (0xFF : UInt8)).length := rfl
    exact readTypeAndValue_long hm hw rest

theorem initialByte_div_mod (c : UInt8) : initialByte (c.toNat / 32) (c.toNat % 32) = c := by
  rw [initialByte, Nat.div_add_mod', UInt8.ofNat_toNat]

/-- Every head that is read is one of the grammar. -/
theorem readTypeAndValue_some (hr : readTypeAndValue b = (some (major, v), rest)) :
    ∃ h, b = h ++ rest ∧ major < 8 ∧
      (Head major v h ∨ (h = [initialByte major 31] ∧ v = indefiniteLength)) := by
  cases b with
  | nil => cases hr
  | cons c t =>
    have hc := initialByte_div_mod c
    have hm : c.toNat / 32 < 8 := by have := c.toNat_lt; omega
    simp only [readTypeAndValue] at hr
    split at hr
    next hi =>
      cases hr
      refine ⟨[c], rfl, hm, .inl ?_⟩
      have hhead : Head (c.toNat / 32) (c.toNat % 32) [initialByte (c.toNat / 32) (c.toNat % 32)] := .short hi
      rwa [hc] at hhead
    split at hr
    next hi =>
      cases hr
      rw [hi] at hc
      exact ⟨[c], rfl, hm, .inr ⟨by rw [hc], rfl⟩⟩
    split at hr
    · cases hr
    next n hw =>
      split at hr
      · cases hr
      next hlen =>
        cases hr
        have htake : (t.take n).length = n := by rw [List.length_take]; omega
        refine ⟨c :: t.take n, by simp, hm, .inl ?_⟩
        have hhead : Head (c.toNat / 32) (argument (t.take n))
            (initialByte (c.toNat / 32) (c.toNat % 32) :: t.take n) :=
          .long (by rw [← valueWidth_eq, hw, htake])
        rwa [hc] at hhead

/-! What follows a head. -/

/-- skipValue behind a head, for containers of `limit` elements. -/
def skipArgument (skip : Parse Bool) (rounds major value : Nat) : Parse Bool := do
  if major = 0 ∨ major = 1 ∨ major = 7 then return true
  else if major = 2 ∨ major = 3 then
    if value = indefiniteLength then skipUntilBreak skip rounds
    else
      let left ← get
      if value > left.length then return false
      else
        set (left.drop value)
        return true
  else if major = 4 then
    if value = indefiniteLength then skipUntilBreak skip rounds
    else if value > maxCborElements then return false
    else skipTimes skip value
  else if major = 5 then
    if value = indefiniteLength then
      skipUntilBreak (do if ← skip then skip else return false) rounds
    else if value > maxCborElements then return false
    else skipTimes skip (value * 2)
  else return false

variable {skip : Parse Bool}

/-- Every success of it takes one of these off the input. -/
def Accepts (skip : Parse Bool) (Q : Bytes → Prop) : Prop :=
  ∀ b rest, skip b = (true, rest) → ∃ p, b = p ++ rest ∧ Q p

theorem skipTimes_reads (each : ∀ p ∈ parts, Reads skip p true) :
    Reads (skipTimes skip parts.length) parts.flatten true := by
  induction parts with
  | nil => exact .pure true
  | cons p parts ih =>
    refine (each p List.mem_cons_self).bind ?_
    rw [if_pos rfl]
    exact ih fun p hp => each p (List.mem_cons_of_mem _ hp)

theorem skipTimes_accepts {Q : Bytes → Prop} (hs : Accepts skip Q) (n : Nat) :
    Accepts (skipTimes skip n) fun b => ∃ parts : List Bytes, parts.length = n ∧ b = parts.flatten ∧
      ∀ p ∈ parts, Q p := by
  induction n with
  | zero =>
    intro b rest hb
    cases hb
    exact ⟨[], rfl, [], rfl, rfl, List.forall_mem_nil _⟩
  | succ n ih =>
    intro b rest hb
    simp only [skipTimes, bind, StateT.bind] at hb
    rcases hskip : skip b with ⟨ok, left⟩
    rw [hskip] at hb
    cases ok with
    | false => cases hb
    | true =>
      obtain ⟨p, rfl, hp⟩ := hs _ _ hskip
      obtain ⟨_, rfl, parts, hlen, rfl, hparts⟩ := ih left rest hb
      refine ⟨(p :: parts).flatten, by simp, p :: parts, by simp [hlen], rfl, ?_⟩
      exact List.forall_mem_cons.mpr ⟨hp, hparts⟩

theorem skipUntilBreak_reads {n : Nat} (each : ∀ p ∈ parts, Reads skip p true)
    (closed : ∀ p ∈ parts, ∃ c t, p = c :: t ∧ c ≠ breakCode) (hn : parts.length < n) :
    Reads (skipUntilBreak skip n) (parts.flatten ++ [breakCode]) true := by
  induction parts generalizing n with
  | nil =>
    obtain ⟨n, rfl⟩ : ∃ m, n = m + 1 := ⟨n - 1, by omega⟩
    exact fun rest => rfl
  | cons p parts ih =>
    obtain ⟨n, rfl⟩ : ∃ m, n = m + 1 := ⟨n - 1, by omega⟩
    obtain ⟨c, t, rfl, hc⟩ := closed p List.mem_cons_self
    refine .get fun rest => ?_
    have hrest : Reads (skipUntilBreak skip n) (parts.flatten ++ [breakCode]) true :=
      ih (fun p hp => each p (List.mem_cons_of_mem _ hp))
        (fun p hp => closed p (List.mem_cons_of_mem _ hp)) (by simpa using hn)
    have hboth : Reads (skip >>= fun ok => if ok = true then skipUntilBreak skip n else pure false)
        ((c :: t) ++ (parts.flatten ++ [breakCode])) true := by
      refine (each _ List.mem_cons_self).bind ?_
      rw [if_pos rfl]
      exact hrest
    have hall := hboth rest
    rw [← List.append_assoc] at hall
    simp only [List.flatten_cons, List.cons_append] at hall ⊢
    rw [if_neg (show c ≠ 0xFF from hc)]
    exact hall

theorem skipUntilBreak_accepts {Q : Bytes → Prop} (hs : Accepts skip Q) (n : Nat) :
    Accepts (skipUntilBreak skip n) fun b => ∃ parts : List Bytes,
      b = parts.flatten ++ [breakCode] ∧ ∀ p ∈ parts, Q p ∧ p.head? ≠ some breakCode := by
  induction n with
  | zero =>
    intro b rest hb
    cases hb
  | succ n ih =>
    intro b rest hb
    cases b with
    | nil => cases hb
    | cons c t =>
      rw [skipUntilBreak] at hb
      simp only [bind, StateT.bind, get, getThe, MonadStateOf.get, StateT.get, pure] at hb
      by_cases hc : c = 0xFF
      · rw [if_pos hc] at hb
        cases hb
        exact ⟨[breakCode], by rw [hc]; rfl, [], rfl, List.forall_mem_nil _⟩
      · rw [if_neg hc] at hb
        rcases hskip : skip (c :: t) with ⟨ok, left⟩
        simp only [StateT.bind, hskip, bind] at hb
        cases ok with
        | false => cases hb
        | true =>
          obtain ⟨p, hp, hq⟩ := hs _ _ hskip
          obtain ⟨_, rfl, parts, rfl, hparts⟩ := ih left rest hb
          refine ⟨(p :: parts).flatten ++ [breakCode], by simp [hp], p :: parts, rfl, ?_⟩
          refine List.forall_mem_cons.mpr ⟨⟨hq, ?_⟩, hparts⟩
          intro hhead
          cases p with
          | nil => cases hhead
          | cons d p =>
            cases hp
            exact hc (Option.some.inj hhead)

theorem skipLevels_break (levels : Nat) (rest : Bytes) :
    skipLevels (levels + 1) (0xFF :: rest) = (true, rest) := rfl

theorem skipLevels_noHead {c : UInt8} {t : Bytes} (hc : c ≠ 0xFF)
    (hr : readTypeAndValue (c :: t) = (none, left)) : skipLevels (levels + 1) (c :: t) = (false, left) := by
  unfold skipLevels
  simp only [bind, StateT.bind, get, getThe, MonadStateOf.get, StateT.get, pure, if_neg hc, hr]
  rfl

theorem skipLevels_head {c : UInt8} {t : Bytes} (hc : c ≠ 0xFF)
    (hr : readTypeAndValue (c :: t) = (some (major, v), left)) : skipLevels (levels + 1) (c :: t) =
      skipArgument (skipLevels levels) ((c :: t).length + 1) major v left := by
  conv_lhs => unfold skipLevels
  simp only [bind, StateT.bind, get, getThe, MonadStateOf.get, StateT.get, pure, if_neg hc, hr]
  rfl

/-! Every item is accepted. -/

theorem skipLevels_reads_head {body : Bytes} (hr : Reads readTypeAndValue h (some (major, v)))
    (hbegins : ∃ c t, h = c :: t ∧ c ≠ breakCode)
    (ha : ∀ rounds, body.length < rounds → Reads (skipArgument (skipLevels levels) rounds major v) body true) :
    Reads (skipLevels (levels + 1)) (h ++ body) true := by
  intro rest
  obtain ⟨c, t, rfl, hc⟩ := hbegins
  have hread : readTypeAndValue (c :: (t ++ (body ++ rest))) = (some (major, v), body ++ rest) :=
    hr (body ++ rest)
  have hrounds : body.length < (c :: (t ++ (body ++ rest))).length + 1 := by simp; omega
  rw [List.append_assoc, List.cons_append, skipLevels_head hc hread]
  exact ha _ hrounds rest

theorem skipArgument_plain {rounds : Nat} (hm : major = 0 ∨ major = 1 ∨ major = 7) :
    Reads (skipArgument skip rounds major v) [] true := by
  unfold skipArgument
  rw [if_pos hm]
  exact .pure true

theorem skipLevels_reads_plain (hm : major = 0 ∨ major = 1 ∨ major = 7)
    (hr : Reads readTypeAndValue h (some (major, v))) (hbegins : ∃ c t, h = c :: t ∧ c ≠ breakCode) :
    Reads (skipLevels (levels + 1)) h true := by
  have hbody : Reads (skipLevels (levels + 1)) (h ++ []) true :=
    skipLevels_reads_head hr hbegins fun _ _ => skipArgument_plain hm
  rwa [List.append_nil] at hbody

theorem skipArgument_string {rounds : Nat} {s : Bytes} (hm : major = 2 ∨ major = 3)
    (hs : s.length < 2 ^ 64 - 1) : Reads (skipArgument skip rounds major s.length) s true := by
  have hlen : s.length ≠ indefiniteLength := by unfold indefiniteLength; omega
  unfold skipArgument
  rw [if_neg (by omega), if_pos hm, if_neg hlen]
  refine .get fun rest => ?_
  rw [if_neg (by simp), List.drop_left]
  rfl

theorem length_le_flatten {parts : List Bytes} (h : ∀ p ∈ parts, ∃ c t, p = c :: t ∧ c ≠ breakCode) :
    parts.length ≤ parts.flatten.length := by
  induction parts with
  | nil => exact Nat.zero_le _
  | cons p parts ih =>
    obtain ⟨c, t, rfl, -⟩ := h p List.mem_cons_self
    have hrest := ih fun p hp => h p (List.mem_cons_of_mem _ hp)
    simp only [List.length_cons, List.flatten_cons, List.length_append]
    omega

theorem skipUntilBreak_reads_rounds {rounds : Nat} (each : ∀ p ∈ parts, Reads skip p true)
    (closed : ∀ p ∈ parts, ∃ c t, p = c :: t ∧ c ≠ breakCode)
    (hn : (parts.flatten ++ [breakCode]).length < rounds) :
    Reads (skipUntilBreak skip rounds) (parts.flatten ++ [breakCode]) true := by
  have hle := length_le_flatten closed
  rw [List.length_append] at hn
  exact skipUntilBreak_reads each closed (by omega)

theorem skipArgument_open {rounds : Nat} (hm : major = 2 ∨ major = 3 ∨ major = 4)
    (each : ∀ p ∈ parts, Reads skip p true) (closed : ∀ p ∈ parts, ∃ c t, p = c :: t ∧ c ≠ breakCode)
    (hn : (parts.flatten ++ [breakCode]).length < rounds) :
    Reads (skipArgument skip rounds major indefiniteLength) (parts.flatten ++ [breakCode]) true := by
  have hloop := skipUntilBreak_reads_rounds each closed hn
  unfold skipArgument
  rw [if_neg (by omega)]
  by_cases hs : major = 2 ∨ major = 3
  · rw [if_pos hs, if_pos rfl]
    exact hloop
  · rw [if_neg hs, if_pos (by omega), if_pos rfl]
    exact hloop

theorem skipArgument_openMap {rounds : Nat} {pairs : List (Bytes × Bytes)}
    (keys : ∀ p ∈ pairs, Reads skip p.1 true) (values : ∀ p ∈ pairs, Reads skip p.2 true)
    (closed : ∀ p ∈ pairs, ∃ c t, p.1 = c :: t ∧ c ≠ breakCode)
    (hn : ((pairs.map fun p => p.1 ++ p.2).flatten ++ [breakCode]).length < rounds) :
    Reads (skipArgument skip rounds 5 indefiniteLength)
      ((pairs.map fun p => p.1 ++ p.2).flatten ++ [breakCode]) true := by
  unfold skipArgument
  rw [if_neg (by omega), if_neg (by omega), if_neg (by omega), if_pos rfl, if_pos rfl]
  refine skipUntilBreak_reads_rounds ?_ ?_ hn
  · intro e he
    obtain ⟨p, hp, rfl⟩ := List.mem_map.mp he
    refine (keys p hp).bind ?_
    rw [if_pos rfl]
    exact values p hp
  · intro e he
    obtain ⟨p, hp, rfl⟩ := List.mem_map.mp he
    exact begins_append (closed p hp) _

theorem skipArgument_array {rounds : Nat} (few : parts.length ≤ maxCborElements)
    (each : ∀ p ∈ parts, Reads skip p true) :
    Reads (skipArgument skip rounds 4 parts.length) parts.flatten true := by
  have hlen : parts.length ≠ indefiniteLength := by
    unfold indefiniteLength maxCborElements at *
    omega
  unfold skipArgument
  rw [if_neg (by omega), if_neg (by omega), if_pos rfl, if_neg hlen, if_neg (by omega)]
  exact skipTimes_reads each

theorem skipArgument_map {rounds n : Nat} (few : n ≤ maxCborElements) (hn : parts.length = n * 2)
    (each : ∀ p ∈ parts, Reads skip p true) :
    Reads (skipArgument skip rounds 5 n) parts.flatten true := by
  have hlen : n ≠ indefiniteLength := by
    unfold indefiniteLength maxCborElements at *
    omega
  unfold skipArgument
  rw [if_neg (by omega), if_neg (by omega), if_neg (by omega), if_pos rfl, if_neg hlen,
    if_neg (by omega), ← hn]
  exact skipTimes_reads each

/-- By induction on the item: skipValue takes it off the input, whatever follows. -/
theorem skipLevels_reads (hb : Tolerated maxCborElements levels b) : Reads (skipLevels levels) b true := by
  unfold Tolerated at hb
  induction hb with
  | integer type head =>
    exact skipLevels_reads_plain (by omega) (readTypeAndValue_head (by omega) head) (head.begins (by omega))
  | @openInteger levels major type ok =>
    have hopen : Opener (fun _ => True) major [initialByte major 31] := .indefinite
    exact skipLevels_reads_plain (by omega) (readTypeAndValue_opener (by omega) hopen)
      (hopen.begins (by omega))
  | simple head ok =>
    exact skipLevels_reads_plain (by omega) (readTypeAndValue_head (by omega) head) (head.begins (by omega))
  | strayBreak ok => exact fun rest => skipLevels_break _ rest
  | string type head lt =>
    exact skipLevels_reads_head (readTypeAndValue_head (by omega) head) (head.begins (by omega))
      fun _ _ => skipArgument_string type lt
  | chunks type head each closed ok ih =>
    exact skipLevels_reads_head (readTypeAndValue_opener (by omega) head) (head.begins (by omega))
      fun _ hn => skipArgument_open (by omega) ih (fun p hp => (each p hp).begins_of_ne (closed p hp)) hn
  | array head few each ih =>
    exact skipLevels_reads_head (readTypeAndValue_head (by omega) head) (head.begins (by omega))
      fun _ _ => skipArgument_array few ih
  | openArray head each closed few ih =>
    exact skipLevels_reads_head (readTypeAndValue_opener (by omega) head) (head.begins (by omega))
      fun _ hn => skipArgument_open (by omega) ih (fun p hp => (each p hp).begins_of_ne (closed p hp)) hn
  | map head few pairs each ih =>
    exact skipLevels_reads_head (readTypeAndValue_head (by omega) head) (head.begins (by omega))
      fun _ _ => skipArgument_map few pairs ih
  | openMap head keys closed values few ihk ihv =>
    exact skipLevels_reads_head (readTypeAndValue_opener (by omega) head) (head.begins (by omega))
      fun _ hn => skipArgument_openMap ihk ihv (fun p hp => (keys p hp).begins_of_ne (closed p hp)) hn

/-! Nothing else is accepted. -/

theorem opener_of_head {h : Bytes} (hh : Head major indefiniteLength h) :
    Opener (fun _ => True) major h := by
  generalize hv : indefiniteLength = v at hh
  cases hh with
  | short lt =>
    rw [← hv, indefiniteLength] at lt
    omega
  | @long info arg width =>
    have hlt := argument_lt arg
    have hbound : 2 ^ 64 - 1 < 256 ^ arg.length := by rwa [← hv, indefiniteLength] at hlt
    have hwide : info = 27 ∧ arg.length = 8 := by
      unfold argumentWidth at width
      split at width
      · rw [← Option.some.inj width] at hbound
        omega
      · rw [← Option.some.inj width] at hbound
        omega
      · rw [← Option.some.inj width] at hbound
        omega
      · exact ⟨rfl, (Option.some.inj width).symm⟩
      · cases width
    have harg : arg = List.replicate arg.length 0xFF := by
      refine eq_replicate_of_argument ?_
      rw [← hv, hwide.2, indefiniteLength]
      rfl
    rw [hwide.2] at harg
    rw [hwide.1, harg]
    exact .longest trivial

/-- A head whose value is read as an indefinite length. -/
theorem opener_of_read {h : Bytes}
    (hh : Head major v h ∨ (h = [initialByte major 31] ∧ v = indefiniteLength))
    (hv : v = indefiniteLength) : Opener (fun _ => True) major h := by
  rcases hh with hh | ⟨rfl, -⟩
  · rw [hv] at hh
    exact opener_of_head hh
  · exact .indefinite

theorem pairs_of_parts {parts : List Bytes} {R : Bytes → Bytes → Prop}
    (h : ∀ p ∈ parts, ∃ k v, p = k ++ v ∧ R k v) :
    ∃ pairs : List (Bytes × Bytes), parts = (pairs.map fun p => p.1 ++ p.2) ∧
      ∀ p ∈ pairs, R p.1 p.2 := by
  induction parts with
  | nil => exact ⟨[], rfl, List.forall_mem_nil _⟩
  | cons p parts ih =>
    obtain ⟨k, v, rfl, hr⟩ := h p List.mem_cons_self
    obtain ⟨pairs, rfl, hpairs⟩ := ih fun p hp => h p (List.mem_cons_of_mem _ hp)
    exact ⟨(k, v) :: pairs, rfl, List.forall_mem_cons.mpr ⟨hr, hpairs⟩⟩

theorem skipPair_accepts {Q : Bytes → Prop} (hs : Accepts skip Q) :
    Accepts (do if ← skip then skip else return false) fun b => ∃ k v, b = k ++ v ∧ Q k ∧ Q v := by
  intro b rest hb
  simp only [bind, StateT.bind] at hb
  rcases hskip : skip b with ⟨ok, left⟩
  rw [hskip] at hb
  cases ok with
  | false => cases hb
  | true =>
    obtain ⟨k, rfl, hk⟩ := hs _ _ hskip
    obtain ⟨v, rfl, hv⟩ := hs left rest hb
    exact ⟨k ++ v, by rw [List.append_assoc], k, v, rfl, hk, hv⟩

/-- What the argument of a head is followed by, for each type. -/
theorem skipArgument_accepts {rounds : Nat} {h : Bytes}
    (hs : Accepts (skipLevels levels) (Tolerated maxCborElements levels)) (hm : major < 8)
    (hclosed : h ≠ [breakCode])
    (hh : Head major v h ∨ (h = [initialByte major 31] ∧ v = indefiniteLength)) :
    Accepts (skipArgument (skipLevels levels) rounds major v) fun b =>
      Tolerated maxCborElements (levels + 1) (h ++ b) := by
  intro b rest hb
  unfold skipArgument at hb
  split at hb
  next hplain =>
    cases hb
    refine ⟨[], rfl, ?_⟩
    simp only [List.append_nil]
    rcases hplain with hm | hm | hm
    · rcases hh with hh | ⟨rfl, -⟩
      · exact .integer (.inl hm) hh
      · exact .openInteger (.inl hm) trivial
    · rcases hh with hh | ⟨rfl, -⟩
      · exact .integer (.inr hm) hh
      · exact .openInteger (.inr hm) trivial
    · subst hm
      rcases hh with hh | ⟨rfl, -⟩
      · exact .simple hh (.inr trivial)
      · exact absurd rfl hclosed
  split at hb
  next hstring =>
    split at hb
    next hv =>
      obtain ⟨_, rfl, parts, rfl, hparts⟩ := skipUntilBreak_accepts hs _ _ _ hb
      refine ⟨_, rfl, .chunks hstring (opener_of_read hh hv) (fun p hp => (hparts p hp).1) ?_ (.inr trivial)⟩
      rintro p hp rfl
      exact (hparts _ hp).2 rfl
    next hv =>
      have hhead : Head major v h := hh.resolve_right fun h => hv h.2
      have hlt := hhead.lt
      have hshort : v < 2 ^ 64 - 1 := by
        unfold indefiniteLength at hv
        omega
      simp only [bind, StateT.bind, get, getThe, MonadStateOf.get, StateT.get, pure] at hb
      split at hb
      · cases hb
      next hle =>
        cases hb
        have htake : (b.take v).length = v := by rw [List.length_take]; omega
        refine ⟨b.take v, (List.take_append_drop v b).symm, .string hstring ?_ (by omega)⟩
        rwa [htake]
  split at hb
  next harray =>
    subst harray
    split at hb
    next hv =>
      obtain ⟨_, rfl, parts, rfl, hparts⟩ := skipUntilBreak_accepts hs _ _ _ hb
      refine ⟨_, rfl, .openArray (opener_of_read hh hv) (fun p hp => (hparts p hp).1) ?_ (.inr trivial)⟩
      rintro p hp rfl
      exact (hparts _ hp).2 rfl
    next hv =>
      have hhead : Head 4 v h := hh.resolve_right fun h => hv h.2
      split at hb
      · cases hb
      next hfew =>
        obtain ⟨_, rfl, parts, rfl, rfl, hparts⟩ := skipTimes_accepts hs _ _ _ hb
        exact ⟨_, rfl, .array hhead (by omega) hparts⟩
  split at hb
  next hmap =>
    subst hmap
    split at hb
    next hv =>
      obtain ⟨_, rfl, parts, rfl, hparts⟩ := skipUntilBreak_accepts (skipPair_accepts hs) _ _ _ hb
      obtain ⟨pairs, rfl, hpairs⟩ := pairs_of_parts
        (R := fun k v => (Tolerated maxCborElements levels k ∧ Tolerated maxCborElements levels v) ∧
          (k ++ v).head? ≠ some breakCode) fun p hp => by
            obtain ⟨⟨k, v, rfl, hboth⟩, hne⟩ := hparts p hp
            exact ⟨k, v, rfl, hboth, hne⟩
      refine ⟨_, rfl, .openMap (opener_of_read hh hv) (fun p hp => (hpairs p hp).1.1) ?_
        (fun p hp => (hpairs p hp).1.2) (.inr trivial)⟩
      intro p hp he
      refine (hpairs p hp).2 ?_
      rw [he]
      rfl
    next hv =>
      have hhead : Head 5 v h := hh.resolve_right fun h => hv h.2
      split at hb
      · cases hb
      next hfew =>
        obtain ⟨_, rfl, parts, hlen, rfl, hparts⟩ := skipTimes_accepts hs _ _ _ hb
        exact ⟨_, rfl, .map hhead (by omega) hlen hparts⟩
  · cases hb

/-- By induction on the levels: what skipValue takes off the input is an item. -/
theorem skipLevels_accepts (levels : Nat) :
    Accepts (skipLevels levels) (Tolerated maxCborElements levels) := by
  induction levels with
  | zero =>
    intro b rest hb
    cases hb
  | succ levels ih =>
    intro b rest hb
    cases b with
    | nil => cases hb
    | cons c t =>
      by_cases hc : c = 0xFF
      · rw [hc, skipLevels_break] at hb
        cases hb
        exact ⟨[breakCode], by rw [hc]; rfl, .strayBreak trivial⟩
      · rcases hr : readTypeAndValue (c :: t) with ⟨head, left⟩
        cases head with
        | none =>
          rw [skipLevels_noHead hc hr] at hb
          cases hb
        | some p =>
          obtain ⟨major, v⟩ := p
          rw [skipLevels_head hc hr] at hb
          obtain ⟨h, happ, hm, hh⟩ := readTypeAndValue_some hr
          have hclosed : h ≠ [breakCode] := by
            rintro rfl
            cases happ
            exact hc rfl
          obtain ⟨body, rfl, hbody⟩ := skipArgument_accepts ih hm hclosed hh _ _ hb
          exact ⟨h ++ body, by rw [happ, List.append_assoc], hbody⟩

end GoiKey
