import GoiKey.Lib.Trace
import GoiKey.Model.RootOfTrust

/-!
The key store of the root of trust over any edges: a slot keeps its first key as long as no
reset lets another one in, and what is read is the key of the slot unless it is erased on
the same clock.
-/

namespace GoiKey.Rtl

variable {slots bits : Nat}

def KeyEdge.resets : KeyEdge bits → Bool
  | .negedgeRst => true
  | .posedgeClk i => !i.rstN

def KeyEdge.zeroizes : KeyEdge bits → Bool
  | .negedgeRst => false
  | .posedgeClk i => !i.zeroizeN

/-- An authorized write outside reset and zeroize. -/
def KeyEdge.written (slots : Nat) : KeyEdge bits → Option (Fin slots × BitVec bits)
  | .negedgeRst => none
  | .posedgeClk i => if i.rstN ∧ i.zeroizeN then i.writes slots else none

/-- An authorized read outside reset. -/
def KeyEdge.read (slots : Nat) : KeyEdge bits → Option (Fin slots)
  | .negedgeRst => none
  | .posedgeClk i => if i.rstN then i.reads slots else none

/-- The key that is written to the slot. -/
def KeyEdge.keyFor (e : KeyEdge bits) (s : Fin slots) : Option (BitVec bits) :=
  (e.written slots).bind fun w => if w.1 = s then some w.2 else none

abbrev KeyEntry (slots bits : Nat) := Trace.Entry (KeyStore slots bits) (KeyEdge bits) (BitVec bits)

/-- The first key written to the slot since the last edge that `stops`. -/
def firstKey (stops : KeyEdge bits → Bool) : List (KeyEntry slots bits) → Fin slots → Option (BitVec bits)
  | [], _ => none
  | e :: past, s => if stops e.input then none else (firstKey stops past s).or (e.input.keyFor s)

/-- Its first key since the last zeroize, whatever resets there were. -/
def provisioned : List (KeyEntry slots bits) → Fin slots → Option (BitVec bits) := firstKey KeyEdge.zeroizes

/-- Its first key since the last reset or zeroize. -/
def usable : List (KeyEntry slots bits) → Fin slots → Option (BitVec bits) :=
  firstKey fun e => e.resets || e.zeroizes

/-- A provisioned slot keeps its content up to a zeroize, and a key comes out on the clock
of an authorized read of its slot and never on or behind the zeroize that erases it. -/
structure KeySafe (past : List (KeyEntry slots bits)) (e : KeyEntry slots bits) : Prop where
  kept : e.input.zeroizes = false → ∀ s, (provisioned past s).isSome → e.after.keyMem s = e.before.keyMem s
  output : e.output ≠ 0 → e.input.zeroizes = false ∧
    ∃ s, e.input.read slots = some s ∧ usable past s = some e.output

instance (past : List (KeyEntry slots bits)) (e : KeyEntry slots bits) : Decidable (KeySafe past e) :=
  decidable_of_iff (_ ∧ _) ⟨fun h => ⟨h.1, h.2⟩, fun h => ⟨h.kept, h.output⟩⟩

/-- No other key is written to a provisioned slot behind a reset, and a zeroize does not
fall together with the read of a key. -/
structure KeyGuard (past : List (KeyEntry slots bits)) (e : KeyEdge bits) : Prop where
  sameKey : ∀ w ∈ e.written slots, usable past w.1 = none → ∀ old ∈ provisioned past w.1, w.2 = old
  unread : e.zeroizes = true → ∀ s ∈ e.read slots, ∀ key ∈ usable past s, key = 0

/-- The slots and their flags against what was written. -/
structure Stores (past : List (KeyEntry slots bits)) (k : KeyStore slots bits) : Prop where
  flags : ∀ s, k.keyWritten s = (usable past s).isSome
  valid : k.keyValid = k.keyWritten
  content : ∀ s, ∀ key ∈ provisioned past s, k.keyMem s = key
  agrees : ∀ s, ∀ key ∈ usable past s, key ∈ provisioned past s

section Edge

variable {past : List (KeyEntry slots bits)} {k : KeyStore slots bits} {e : KeyEdge bits}

/-- What an edge does to the slots: they lose their flags, all of them with their
contents, or an empty one takes a key. -/
theorem edge_cases (k : KeyStore slots bits) (e : KeyEdge bits) :
    (e.resets = true ∧ e.written slots = none ∧ (k.edge e).2.keyMem = k.keyMem ∧
        (k.edge e).2.keyValid = (fun _ => false) ∧ (k.edge e).2.keyWritten = fun _ => false) ∨
      (e.resets = false ∧ e.zeroizes = true ∧ e.written slots = none ∧
        (k.edge e).2.keyValid = (fun _ => false) ∧ (k.edge e).2.keyWritten = fun _ => false) ∨
      (e.resets = false ∧ e.zeroizes = false ∧ (∀ w ∈ e.written slots, k.keyWritten w.1 = true) ∧
        (k.edge e).2.keyMem = k.keyMem ∧ (k.edge e).2.keyValid = k.keyValid ∧
        (k.edge e).2.keyWritten = k.keyWritten) ∨
      ∃ s key, e.resets = false ∧ e.zeroizes = false ∧ e.written slots = some (s, key) ∧
        k.keyWritten s = false ∧ (k.edge e).2.keyMem = Function.update k.keyMem s key ∧
        (k.edge e).2.keyValid = Function.update k.keyValid s true ∧
        (k.edge e).2.keyWritten = Function.update k.keyWritten s true := by
  cases e with
  | negedgeRst => exact .inl ⟨rfl, rfl, rfl, rfl, rfl⟩
  | posedgeClk i =>
    cases hr : i.rstN with
    | false =>
      refine .inl ⟨?_, ?_, ?_, ?_, ?_⟩ <;>
        simp [KeyEdge.resets, KeyEdge.written, KeyStore.edge, KeyStore.writeLogic, KeyStore.resetFlags, hr]
    | true =>
      cases hz : i.zeroizeN with
      | false =>
        refine .inr (.inl ⟨?_, ?_, ?_, ?_, ?_⟩) <;>
          simp [KeyEdge.resets, KeyEdge.zeroizes, KeyEdge.written, KeyStore.edge, KeyStore.writeLogic,
            KeyStore.resetFlags, hr, hz]
      | true =>
        have hwritten : (KeyEdge.posedgeClk i).written slots = i.writes slots := by
          simp [KeyEdge.written, hr, hz]
        rw [hwritten]
        cases hw : i.writes slots with
        | none =>
          refine .inr (.inr (.inl ⟨?_, ?_, ?_, ?_, ?_, ?_⟩)) <;>
            simp [KeyEdge.resets, KeyEdge.zeroizes, KeyStore.edge, KeyStore.writeLogic, hr, hz, hw]
        | some w =>
          obtain ⟨s, key⟩ := w
          cases hs : k.keyWritten s with
          | true =>
            refine .inr (.inr (.inl ⟨?_, ?_, ?_, ?_, ?_, ?_⟩)) <;>
              simp [KeyEdge.resets, KeyEdge.zeroizes, KeyStore.edge, KeyStore.writeLogic, hr, hz, hw, hs]
          | false =>
            refine .inr (.inr (.inr ⟨s, key, ?_, ?_, rfl, hs, ?_, ?_, ?_⟩)) <;>
              simp [KeyEdge.resets, KeyEdge.zeroizes, KeyStore.edge, KeyStore.writeLogic, hr, hz, hw, hs]

/-- What comes out is the key in a slot that is read and flagged. -/
theorem edge_output (k : KeyStore slots bits) (e : KeyEdge bits) : (k.edge e).1 =
    (e.read slots).elim 0 fun s => if k.keyValid s then k.keyMem s else 0 := by
  cases e with
  | negedgeRst => rfl
  | posedgeClk i =>
    simp only [KeyStore.edge, KeyStore.readLogic, KeyEdge.read]
    cases i.rstN with
    | false => rfl
    | true => cases i.reads slots <;> rfl

/-! What has been written, one edge on. -/

theorem firstKey_stopped {stops : KeyEdge bits → Bool} (h : stops e = true) (s : Fin slots) :
    firstKey stops (Trace.entry KeyStore.edge k e :: past) s = none := if_pos h

theorem firstKey_running {stops : KeyEdge bits → Bool} (h : stops e = false) (s : Fin slots) :
    firstKey stops (Trace.entry KeyStore.edge k e :: past) s = (firstKey stops past s).or (e.keyFor s) :=
  if_neg (by rw [show (Trace.entry KeyStore.edge k e).input = e from rfl, h]; exact Bool.false_ne_true)

theorem keyFor_none (h : e.written slots = none) (s : Fin slots) : e.keyFor s = none := by
  rw [KeyEdge.keyFor, h]
  rfl

theorem keyFor_some {s : Fin slots} {key : BitVec bits} (h : e.written slots = some (s, key)) (t : Fin slots) :
    e.keyFor t = if s = t then some key else none := by
  rw [KeyEdge.keyFor, h]
  rfl

/-- A write to a slot that has its key is no first one. -/
theorem or_keyFor {keys : Fin slots → Option (BitVec bits)}
    (h : ∀ w ∈ e.written slots, (keys w.1).isSome) (s : Fin slots) : (keys s).or (e.keyFor s) = keys s := by
  cases hw : e.written slots with
  | none => rw [keyFor_none hw, Option.or_none]
  | some w =>
    rw [keyFor_some hw]
    by_cases hs : w.1 = s
    · obtain ⟨key, hkey⟩ := Option.isSome_iff_exists.mp (h w hw)
      rw [hs] at hkey
      rw [hkey, Option.some_or]
    · rw [if_neg hs, Option.or_none]

/-- Behind a reset or a zeroize no slot is flagged. -/
theorem Stores.cleared (h : Stores past k) (hstop : e.resets = true ∨ e.zeroizes = true)
    (hwritten : e.written slots = none) (hmem : e.zeroizes = false → (k.edge e).2.keyMem = k.keyMem)
    (hvalid : (k.edge e).2.keyValid = fun _ => false) (hflag : (k.edge e).2.keyWritten = fun _ => false) :
    Stores (Trace.entry KeyStore.edge k e :: past) (k.edge e).2 := by
  have husable : ∀ s, usable (Trace.entry KeyStore.edge k e :: past) s = none :=
    firstKey_stopped (by rcases hstop with h | h <;> simp [h])
  refine ⟨fun s => ?_, hvalid.trans hflag.symm, fun s key hkey => ?_, fun s key hkey => ?_⟩
  · rw [husable s, hflag]
    rfl
  · cases hz : e.zeroizes with
    | true =>
      rw [provisioned, firstKey_stopped hz] at hkey
      cases hkey
    | false =>
      rw [provisioned, firstKey_running hz, keyFor_none hwritten, Option.or_none] at hkey
      rw [hmem hz]
      exact h.content s key hkey
  · rw [husable s] at hkey
    cases hkey

theorem stores_step (h : Stores past k) (hg : KeyGuard past e) :
    Stores (Trace.entry KeyStore.edge k e :: past) (k.edge e).2 := by
  rcases edge_cases k e with ⟨hr, hw, hmem, hvalid, hflag⟩ | ⟨hr, hz, hw, hvalid, hflag⟩ |
    ⟨hr, hz, hw, hmem, hvalid, hflag⟩ | ⟨s, key, hr, hz, hw, hs, hmem, hvalid, hflag⟩
  · exact h.cleared (.inl hr) hw (fun _ => hmem) hvalid hflag
  · refine h.cleared (.inr hz) hw (fun hn => ?_) hvalid hflag
    rw [hz] at hn
    cases hn
  · have hstop : (e.resets || e.zeroizes) = false := by rw [hr, hz]; rfl
    have husable : ∀ w ∈ e.written slots, (usable past w.1).isSome := fun w hin => by
      rw [← h.flags]
      exact hw w hin
    have hprovisioned : ∀ w ∈ e.written slots, (provisioned past w.1).isSome := fun w hin => by
      obtain ⟨key, hkey⟩ := Option.isSome_iff_exists.mp (husable w hin)
      exact Option.isSome_iff_exists.mpr ⟨key, h.agrees w.1 key hkey⟩
    have hu (s) : usable (Trace.entry KeyStore.edge k e :: past) s = usable past s :=
      (firstKey_running hstop s).trans (or_keyFor husable s)
    have hp (s) : provisioned (Trace.entry KeyStore.edge k e :: past) s = provisioned past s :=
      (firstKey_running hz s).trans (or_keyFor hprovisioned s)
    refine ⟨fun s => ?_, ?_, fun s key hkey => ?_, fun s key hkey => ?_⟩
    · rw [hu, hflag, h.flags]
    · rw [hvalid, hflag, h.valid]
    · rw [hp] at hkey
      rw [hmem]
      exact h.content s key hkey
    · rw [hu] at hkey
      rw [hp]
      exact h.agrees s key hkey
  · have hstop : (e.resets || e.zeroizes) = false := by rw [hr, hz]; rfl
    have hnone : usable past s = none := by
      have := h.flags s
      rw [hs] at this
      exact Option.not_isSome_iff_eq_none.mp (by rw [← this]; exact Bool.false_ne_true)
    have hu (t) : usable (Trace.entry KeyStore.edge k e :: past) t =
        if s = t then some key else usable past t := by
      refine (firstKey_running hstop t).trans ?_
      rw [keyFor_some hw]
      by_cases ht : s = t
      · rw [if_pos ht, if_pos ht, ← ht]
        exact (congrArg (Option.or · (some key)) hnone).trans rfl
      · rw [if_neg ht, if_neg ht, Option.or_none]
        rfl
    have hp (t) : provisioned (Trace.entry KeyStore.edge k e :: past) t =
        if s = t then some key else provisioned past t := by
      refine (firstKey_running hz t).trans ?_
      rw [keyFor_some hw]
      by_cases ht : s = t
      · rw [if_pos ht, if_pos ht, ← ht]
        cases hold : provisioned past s with
        | none => exact (congrArg (Option.or · (some key)) hold).trans rfl
        | some old =>
          refine (congrArg (Option.or · (some key)) hold).trans ?_
          exact congrArg some (hg.sameKey (s, key) hw hnone old hold).symm
      · rw [if_neg ht, if_neg ht, Option.or_none]
        rfl
    refine ⟨fun t => ?_, ?_, fun t k' hk' => ?_, fun t k' hk' => ?_⟩
    · rw [hu, hflag]
      by_cases ht : s = t
      · rw [if_pos ht, ← ht, Function.update_self]
        rfl
      · rw [if_neg ht, Function.update_of_ne (Ne.symm ht), h.flags]
    · rw [hvalid, hflag, h.valid]
    · rw [hp] at hk'
      rw [hmem]
      by_cases ht : s = t
      · rw [if_pos ht] at hk'
        cases hk'
        rw [← ht, Function.update_self]
      · rw [if_neg ht] at hk'
        rw [Function.update_of_ne (Ne.symm ht)]
        exact h.content t k' hk'
    · rw [hu] at hk'
      rw [hp]
      by_cases ht : s = t
      · rwa [if_pos ht] at hk' ⊢
      · rw [if_neg ht] at hk' ⊢
        exact h.agrees t k' hk'

/-- One edge is safe exactly when it meets the guard. -/
theorem keySafe_iff (h : Stores past k) : KeySafe past (Trace.entry KeyStore.edge k e) ↔ KeyGuard past e := by
  have hflag (s) : k.keyValid s = true ↔ ∃ key, usable past s = some key := by
    rw [h.valid, h.flags, Option.isSome_iff_exists]
  have hcontent (s key) (hkey : usable past s = some key) : k.keyMem s = key :=
    h.content s key (h.agrees s key hkey)
  have houtput : (Trace.entry KeyStore.edge k e).output = (k.edge e).1 := rfl
  constructor
  · rintro ⟨hkept, hout⟩
    constructor
    · rintro ⟨s, key⟩ hw hnone old hold
      rcases edge_cases k e with ⟨-, hw', -⟩ | ⟨-, -, hw', -⟩ | ⟨-, -, hw', -⟩ | ⟨t, key', -, hz, hw', -, hmem, -⟩
      · rw [hw'] at hw
        cases hw
      · rw [hw'] at hw
        cases hw
      · have hs := hw' (s, key) hw
        rw [h.flags] at hs
        exact absurd hnone (Option.ne_none_iff_isSome.mpr hs)
      · rw [hw'] at hw
        cases hw
        have hsame := hkept hz s (Option.isSome_iff_exists.mpr ⟨old, hold⟩)
        change (k.edge e).2.keyMem s = k.keyMem s at hsame
        rw [hmem, Function.update_self, h.content s old hold] at hsame
        exact hsame
    · intro hz s hs key hkey
      rw [houtput, edge_output, show e.read slots = some s from hs] at hout
      by_contra hne
      simp only [Option.elim_some, (hflag s).mpr ⟨key, hkey⟩, if_true, hcontent s key hkey] at hout
      have hlow := (hout hne).1
      change e.zeroizes = false at hlow
      rw [hz] at hlow
      cases hlow
  · rintro ⟨hsame, hunread⟩
    constructor
    · intro hz s hs
      change e.zeroizes = false at hz
      obtain ⟨old, hold⟩ := Option.isSome_iff_exists.mp hs
      change (k.edge e).2.keyMem s = k.keyMem s
      rcases edge_cases k e with ⟨-, -, hmem, -⟩ | ⟨-, hz', -⟩ | ⟨-, -, -, hmem, -⟩ | ⟨t, key, -, -, hw, ht, hmem, -⟩
      · rw [hmem]
      · rw [hz'] at hz
        cases hz
      · rw [hmem]
      · rw [hmem]
        by_cases hst : s = t
        · have hnone : usable past t = none := by
            have hf := h.flags t
            rw [ht] at hf
            exact Option.not_isSome_iff_eq_none.mp (by rw [← hf]; exact Bool.false_ne_true)
          have hkey := hsame (t, key) hw hnone old (hst ▸ hold)
          rw [hst, Function.update_self, h.content t old (hst ▸ hold)]
          exact hkey
        · rw [Function.update_of_ne hst]
    · intro hne
      rw [houtput, edge_output] at hne
      cases hr : e.read slots with
      | none =>
        rw [hr] at hne
        exact absurd rfl hne
      | some s =>
        rw [hr, Option.elim_some] at hne
        by_cases hv : k.keyValid s = true
        · obtain ⟨key, hkey⟩ := (hflag s).mp hv
          rw [if_pos hv, hcontent s key hkey] at hne
          refine ⟨?_, s, hr, ?_⟩
          · change e.zeroizes = false
            cases hz : e.zeroizes with
            | false => rfl
            | true => exact absurd (hunread hz s hr key hkey) hne
          · rw [houtput, edge_output, hr]
            rw [Option.elim_some, if_pos hv, hcontent s key hkey]
            exact hkey
        · rw [if_neg hv] at hne
          exact absurd rfl hne

end Edge

theorem stores_powerUp (q : BitVec bits) : Stores ([] : List (KeyEntry slots bits)) (KeyStore.powerUp q) where
  flags _ := rfl
  valid := rfl
  content _ _ h := by cases h
  agrees _ _ h := by cases h

/-- What happens to the store, edge by edge. -/
def KeyStore.edges (k : KeyStore slots bits) (es : List (KeyEdge bits)) : List (KeyEntry slots bits) :=
  Trace.history KeyStore.edge k es

/-- The key store keeps its law over the edges that meet the guard and over no others. -/
theorem keyStore_safe_iff (slots bits : Nat) (q : BitVec bits) (es : List (KeyEdge bits)) :
    Trace.Always KeySafe ((KeyStore.powerUp q : KeyStore slots bits).edges es) ↔
      Trace.Guarded KeyStore.edge (fun past _ e => KeyGuard past e)
        (KeyStore.powerUp q : KeyStore slots bits) es :=
  Trace.always_iff_guarded (fun _ _ _ h hg => stores_step h hg) (fun _ _ _ h => keySafe_iff h)
    (stores_powerUp q)

/-- A key, a reset and another key for the same slot. -/
def rewritten : List (KeyEdge 256) :=
  [.posedgeClk { writeKeyData := 0xA5, writeEn := true, writeAuth := true }, .negedgeRst,
    .posedgeClk { writeKeyData := 0x5A, writeEn := true, writeAuth := true }]

/-- A key that is read on the clock of the zeroize. -/
def readOnZeroize : List (KeyEdge 256) :=
  [.posedgeClk { writeKeyData := 0xA5, writeEn := true, writeAuth := true },
    .posedgeClk { zeroizeN := false, readEn := true, readAuth := true }]

theorem keyStore_unsafe :
    ¬ Trace.Always KeySafe ((KeyStore.powerUp 0 : KeyStore 4 256).edges rewritten) ∧
      ¬ Trace.Always KeySafe ((KeyStore.powerUp 0 : KeyStore 4 256).edges readOnZeroize) := by
  decide +kernel

end GoiKey.Rtl
