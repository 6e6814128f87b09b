import Mathlib.Data.List.Infix
import GoiKey.Lib.Hoare
import GoiKey.Proofs.LinkFrames

/-!
Whose response a call returns. Bytes of earlier responses may be read first; the call
takes the first start byte for the begin of its own.
-/

namespace GoiKey.FpgaLink

open Accel
open RecordFile (littleEndian)

variable {A : Answers} {E : Nat → Window} {T : Transport} {k : Nat}

/-! Reading. -/

theorem tpWaitSof_skip {a : Bytes} (h : (0x5A : UInt8) ∉ a) (b : Bytes) :
    tpWaitSof (a ++ b) = tpWaitSof b := by
  induction a with
  | nil => rfl
  | cons x a ih =>
    obtain ⟨hx, ha⟩ := List.ne_and_not_mem_of_not_mem_cons h
    rw [List.cons_append, tpWaitSof, if_neg (Ne.symm hx), ih ha]

theorem tpWaitSof_eq {seen rest : Bytes} (h : tpWaitSof seen = some rest) :
    ∃ skipped, seen = skipped ++ 0x5A :: rest ∧ (0x5A : UInt8) ∉ skipped := by
  induction seen with
  | nil => exact nomatch h
  | cons x seen ih =>
    rw [tpWaitSof] at h
    by_cases hx : x = 0x5A
    · rw [if_pos hx, Option.some.injEq] at h
      exact ⟨[], by rw [hx, h]; rfl, List.not_mem_nil⟩
    · rw [if_neg hx] at h
      obtain ⟨skipped, hseen, hnot⟩ := ih h
      refine ⟨x :: skipped, by rw [hseen]; rfl, ?_⟩
      rw [List.mem_cons, not_or]
      exact ⟨Ne.symm hx, hnot⟩

theorem tpWaitSof_append {a rest : Bytes} (h : tpWaitSof a = some rest) (b : Bytes) :
    tpWaitSof (a ++ b) = some (rest ++ b) := by
  obtain ⟨skipped, rfl, hnot⟩ := tpWaitSof_eq h
  rw [List.append_assoc, tpWaitSof_skip hnot]
  rfl

theorem tpWaitSof_none {a : Bytes} (h : tpWaitSof a = none) : (0x5A : UInt8) ∉ a := by
  intro hm
  obtain ⟨x, y, rfl, hx⟩ := List.eq_append_cons_of_mem hm
  rw [tpWaitSof_skip hx] at h
  exact nomatch h

/-- SPI finds the start byte that the UART finds, and keeps what is behind it. -/
theorem spiWaitSof_eq : ∀ {seen left rest : Bytes}, spiWaitSof seen = some (left, rest) →
    tpWaitSof seen = some (left ++ rest) := by
  intro seen
  induction hn : seen.length using Nat.strong_induction_on generalizing seen with
  | _ n ih =>
    intro left rest h
    rw [spiWaitSof] at h
    split at h
    · exact nomatch h
    next hlong =>
      split at h
      next found hfound =>
        obtain ⟨rfl, rfl⟩ := Prod.mk.inj (Option.some.inj h)
        rw [← tpWaitSof_append hfound, List.take_append_drop]
      next hnone =>
        rw [← List.take_append_drop 8 seen, tpWaitSof_skip (tpWaitSof_none hnone)]
        exact ih (seen.drop 8).length (by rw [List.length_drop]; omega) rfl h

/-- An intact frame stands behind the start byte. -/
def Valid (rest : Bytes) (status : UInt8) (body : Bytes) : Prop :=
  readFrame rest = .frame status body (frameCrc status body)

theorem reply_valid {seen : Bytes} {status : UInt8} {body : Bytes}
    (h : T.reply seen = .frame status body (frameCrc status body)) :
    ∃ rest, tpWaitSof seen = some rest ∧ Valid rest status body := by
  cases T with
  | uart =>
    rw [Transport.reply, replyOf] at h
    split at h
    · cases h
    next rest hrest => exact ⟨rest, hrest, h⟩
  | spi =>
    rw [Transport.reply, spiReplyOf] at h
    split at h
    · cases h
    next left rest hrest => exact ⟨left ++ rest, spiWaitSof_eq hrest, h⟩

theorem tpRead_some {n : Nat} {a x y : Bytes} (h : tpRead n a = some (x, y)) (b : Bytes) :
    tpRead n (a ++ b) = some (x, y ++ b) := by
  rw [tpRead] at h
  split at h
  · cases h
  next hlong =>
    obtain ⟨rfl, rfl⟩ := Prod.mk.inj (Option.some.inj h)
    have hread := tpRead_append (a := a.take n) (b := a.drop n ++ b) (n := n)
      (by rw [List.length_take]; omega)
    rwa [← List.append_assoc, List.take_append_drop] at hread

/-- What stands behind a frame is not looked at. -/
theorem Valid.append {rest : Bytes} {status : UInt8} {body : Bytes} (h : Valid rest status body)
    (b : Bytes) : Valid (rest ++ b) status body := by
  unfold Valid readFrame at *
  split at h
  · cases h
  next hd r hhead =>
    rw [tpRead_some hhead]
    simp only [readBody] at h ⊢
    split at h
    · cases h
    next bd r' hbody =>
      rw [tpRead_some hbody]
      simp only [readCrc] at h ⊢
      split at h
      · cases h
      next cc r'' hcrc =>
        rw [tpRead_some hcrc]
        exact h

/-! What is on the wire. -/

/-- Everything belongs to exchanges before this one. -/
def Before (k : Nat) (w : Wire) : Prop := (∀ j ∈ w.taken, j < k) ∧ ∀ m ∈ w.flight, m.answers < k

theorem marks_answers {m : Mark} (h : m ∈ marks A k) : m.answers = k := by
  obtain ⟨place, hplace, rfl⟩ := List.mem_mapIdx.mp h
  rfl

theorem Before.answer {w : Wire} (h : Before k w) (lost : Bool) : Before k (w.answer A lost) := by
  unfold Wire.answer
  split
  · exact h
  next j taken htaken =>
    have hj : j < k := h.1 j (by rw [htaken]; exact List.mem_cons_self)
    refine ⟨fun i hi => h.1 i (by rw [htaken]; exact List.mem_cons_of_mem j hi), fun m hm => ?_⟩
    cases lost with
    | true => exact h.2 m hm
    | false =>
      rcases List.mem_append.mp hm with hm | hm
      · exact h.2 m hm
      · rw [marks_answers hm]
        exact hj

theorem Before.answers {w : Wire} (h : Before k w) (ls : List Bool) :
    Before k (ls.foldl (Wire.answer A) w) := by
  induction ls generalizing w with
  | nil => exact h
  | cons l ls ih => exact ih (h.answer l)

/-- Behind what belongs to earlier exchanges there is at most one thing: the request of this
one, or all of its answer. -/
inductive Own (A : Answers) (k : Nat) : Wire → Prop where
  | none (h : Before k w) : Own A k w
  | waits (h : ∀ j ∈ taken, j < k) (hm : ∀ m ∈ old, m.answers < k) : Own A k ⟨taken ++ [k], old⟩
  | answered (hm : ∀ m ∈ old, m.answers < k) : Own A k ⟨[], old ++ marks A k⟩

theorem Own.answer {w : Wire} (h : Own A k w) (lost : Bool) : Own A k (w.answer A lost) := by
  cases h with
  | none h => exact .none (h.answer lost)
  | answered hm => exact .answered hm
  | @waits taken old h hm =>
    cases taken with
    | nil =>
      cases lost with
      | true => exact .none ⟨(fun j hj => nomatch hj), hm⟩
      | false => exact .answered hm
    | cons j taken =>
      refine .waits (fun i hi => h i (List.mem_cons_of_mem j hi)) fun m hin => ?_
      cases lost with
      | true => exact hm m hin
      | false =>
        rcases List.mem_append.mp hin with hin | hin
        · exact hm m hin
        · rw [marks_answers hin]
          exact h j List.mem_cons_self

theorem Own.answers {w : Wire} (h : Own A k w) (ls : List Bool) :
    Own A k (ls.foldl (Wire.answer A) w) := by
  induction ls generalizing w with
  | nil => exact h
  | cons l ls ih => exact ih (h.answer l)

theorem mem_of_mem_ite_drop {m : Mark} {l : List Mark} {n : Nat} {c : Prop} [Decidable c]
    (h : m ∈ if c then l.drop n else l) : m ∈ l := by
  split at h
  · exact List.mem_of_mem_drop h
  · exact h

theorem own_answered {w : Wire} (h : Before k w) (e : Window) : Own A k (w.answered A k e) := by
  have hearly := h.answers (A := A) e.early
  have hflight : ∀ m ∈ (w.written A k e).flight, m.answers < k := by
    intro m hm
    exact hearly.2 m (mem_of_mem_ite_drop hm)
  apply Own.answers
  by_cases hs : (e.sent && e.accepted) = true
  · have heq : w.written A k e = ⟨(e.early.foldl (Wire.answer A) w).taken ++ [k], (w.written A k e).flight⟩ := by
      simp only [Wire.written, hs, if_true]
    rw [heq]
    exact .waits hearly.1 hflight
  · refine .none ⟨fun j hj => ?_, hflight⟩
    rw [Wire.written, if_neg hs] at hj
    exact hearly.1 j hj

theorem Own.before {w : Wire} (h : Own A k w) : Before (k + 1) w := by
  cases h with
  | none h => exact ⟨fun j hj => Nat.lt_succ_of_lt (h.1 j hj), fun m hm => Nat.lt_succ_of_lt (h.2 m hm)⟩
  | waits h hm =>
    refine ⟨fun j hj => ?_, fun m hin => Nat.lt_succ_of_lt (hm m hin)⟩
    rcases List.mem_append.mp hj with hj | hj
    · exact Nat.lt_succ_of_lt (h j hj)
    · rw [List.mem_singleton.mp hj]
      exact Nat.lt_succ_self k
  | answered hm =>
    refine ⟨(fun j hj => nomatch hj), fun m hin => ?_⟩
    rcases List.mem_append.mp hin with hin | hin
    · exact Nat.lt_succ_of_lt (hm m hin)
    · rw [marks_answers hin]
      exact Nat.lt_succ_self k

theorem wireAt_before (A : Answers) (E : Nat → Window) (k : Nat) : Before k (wireAt A E k) := by
  induction k with
  | zero => exact ⟨(fun j hj => nomatch hj), fun m hm => nomatch hm⟩
  | succ k ih =>
    have h := (own_answered ih (E k)).before (A := A)
    exact ⟨h.1, fun m hm => h.2 m (mem_of_mem_ite_drop hm)⟩

/-- On the wire there are bytes of earlier responses, and behind them the own one or nothing. -/
theorem flight_own (A : Answers) (E : Nat → Window) (k : Nat) :
    ∃ old own, flight A E k = old ++ own ∧ (∀ m ∈ old, m.answers < k) ∧ (own = [] ∨ own = marks A k) := by
  have h := own_answered (A := A) (wireAt_before A E k) (E k)
  unfold flight
  cases hw : (wireAt A E k).answered A k (E k) with
  | mk taken fl =>
    rw [hw] at h
    cases h with
    | none h => exact ⟨fl, [], (List.append_nil fl).symm, h.2, .inl rfl⟩
    | waits _ hm => exact ⟨fl, [], (List.append_nil fl).symm, hm, .inl rfl⟩
    | @answered old hm => exact ⟨old, marks A k, rfl, hm, .inr rfl⟩

/-! What a call reads of it. -/

/-- The bytes behind the start byte of a response. -/
def Response.tail (r : Response) : Bytes :=
  r.status :: (littleEndian 2 r.body.length ++ r.body) ++ littleEndian 2 (frameCrc r.status r.body).toNat

theorem Response.valid (r : Response) (rest : Bytes) : Valid (r.tail ++ rest) r.status r.body :=
  readFrame_frame r.short rest

theorem Valid.unique {rest : Bytes} {status status' : UInt8} {body body' : Bytes}
    (h : Valid rest status body) (h' : Valid rest status' body') : status = status' ∧ body = body' := by
  have heq := h.symm.trans h'
  injection heq with hstatus hbody
  exact ⟨hstatus, hbody⟩

/-- A beginning of a response that reads as a frame with nothing behind it is that response. -/
theorem Response.eq_of_valid_take {r : Response} {n : Nat} {status : UInt8} {body : Bytes}
    (h : Valid (r.tail.take n) status body) : r.status = status ∧ r.body = body := by
  have hall := h.append (r.tail.drop n)
  rw [List.take_append_drop] at hall
  have hown := r.valid []
  rw [List.append_nil] at hown
  exact hown.unique hall

theorem marks_eq (A : Answers) (k : Nat) :
    marks A k = ⟨k, 0, 0x5A⟩ :: (A k).tail.mapIdx fun place byte => ⟨k, place + 1, byte⟩ := by
  rw [marks, Response.bytes, response, List.mapIdx_cons]
  rfl

theorem zeros_not_start (n : Nat) : (0x5A : UInt8) ∉ zeros n := by
  intro h
  exact absurd (List.eq_of_mem_replicate h) (by decide)

theorem trail_not_start (e : Window) (ms : List Mark) : (0x5A : UInt8) ∉ e.trail ms := by
  unfold Window.trail
  split
  · exact zeros_not_start _
  · exact List.not_mem_nil

/-- Inside a response nothing is read but its bytes. -/
theorem read_inside {e : Window} {ms : List Mark} (h : ∀ m ∈ ms, m.place ≠ 0) :
    ms.flatMap e.read = ms.map Mark.byte := by
  induction ms with
  | nil => rfl
  | cons m ms ih =>
    rw [List.flatMap_cons, List.map_cons, ih fun x hx => h x (List.mem_cons_of_mem m hx), Window.read,
      if_neg (h m List.mem_cons_self)]
    rfl

theorem read_tail {e : Window} {n : Nat} :
    (((A k).tail.mapIdx fun place byte => (⟨k, place + 1, byte⟩ : Mark)).take n).flatMap e.read
      = (A k).tail.take n := by
  rw [read_inside, List.map_take]
  · congr 1
    apply List.ext_getElem
    · rw [List.length_map, List.length_mapIdx]
    · intro i _ _
      rw [List.getElem_map, List.getElem_mapIdx]
  · intro m hm
    obtain ⟨place, hplace, rfl⟩ := List.mem_mapIdx.mp (List.mem_of_mem_take hm)
    exact Nat.succ_ne_zero place

/-- While a call reads, no response to an earlier request begins. -/
def Punctual (A : Answers) (E : Nat → Window) (k : Nat) : Prop :=
  ∀ m ∈ (flight A E k).take (E k).arrived, m.place = 0 → m.answers = k

/-- Inside the responses a call reads no intact frame begins. -/
def Unembedded (A : Answers) (E : Nat → Window) (k : Nat) : Prop :=
  ∀ old m new, (flight A E k).take (E k).arrived = old ++ m :: new → m.place ≠ 0 → m.byte = 0x5A →
    ∀ status body, ¬Valid (new.flatMap (E k).read ++ (E k).trail (flight A E k)) status body

theorem own_of_valid {e : Window} {own : List Mark} (hown : own = [] ∨ own = marks A k) {n : Nat}
    {trail rest : Bytes} (htrail : (0x5A : UInt8) ∉ trail) (hall : own.length ≤ n ∨ trail = [])
    (h : tpWaitSof ((own.take n).flatMap e.read ++ trail) = some rest) {status : UInt8} {body : Bytes}
    (hv : Valid rest status body) : (A k).status = status ∧ (A k).body = body := by
  have hnone : tpWaitSof trail ≠ some rest := by
    intro hsome
    obtain ⟨skipped, rfl, -⟩ := tpWaitSof_eq hsome
    exact htrail (List.mem_append_right _ List.mem_cons_self)
  rcases hown with rfl | rfl
  · rw [List.take_nil] at h
    exact absurd h hnone
  · rw [marks_eq] at h hall
    cases n with
    | zero => exact absurd h hnone
    | succ n =>
      rw [List.take_succ_cons, List.flatMap_cons, read_tail, Window.read, if_pos rfl, List.append_assoc,
        List.append_assoc, tpWaitSof_skip (zeros_not_start _), List.singleton_append, tpWaitSof, if_pos rfl] at h
      obtain rfl := Option.some.inj h
      rcases hall with hlong | rfl
      · rw [List.length_cons, List.length_mapIdx] at hlong
        rw [List.take_of_length_le (by omega)] at hv
        exact ((A k).valid trail).unique hv
      · rw [List.append_nil] at hv
        exact Response.eq_of_valid_take hv

theorem outcome_own {status : UInt8} {body : Bytes} (hbegins : Punctual A E k)
    (hintact : Unembedded A E k)
    (h : outcome T A E k = .frame status body (frameCrc status body)) :
    (A k).status = status ∧ (A k).body = body := by
  unfold outcome at h
  split at h
  · exact nomatch h
  split at h
  · exact nomatch h
  obtain ⟨rest, hsof, hv⟩ := reply_valid h
  obtain ⟨old, own, hflight, hold, hown⟩ := flight_own A E k
  unfold Punctual at hbegins
  unfold Unembedded at hintact
  rw [Window.readAll] at hsof
  generalize htrail : (E k).trail (flight A E k) = trail at hsof hintact
  have hstart : (0x5A : UInt8) ∉ trail := by
    rw [← htrail]
    exact trail_not_start _ _
  have hall : own.length ≤ (E k).arrived - old.length ∨ trail = [] := by
    rw [← htrail, Window.trail, hflight, List.length_append]
    by_cases hle : old.length + own.length ≤ (E k).arrived
    · exact .inl (by omega)
    · exact .inr (if_neg hle)
  rw [hflight, List.take_append] at hsof hintact hbegins
  have holder : ∀ m ∈ old.take (E k).arrived, m.answers < k :=
    fun m hm => hold m (List.mem_of_mem_take hm)
  have hinside : ∀ m ∈ old.take (E k).arrived, m.place ≠ 0 := by
    intro m hm hzero
    exact Nat.ne_of_lt (holder m hm) (hbegins m (List.mem_append_left _ hm) hzero)
  generalize old.take (E k).arrived = left at hsof hintact hinside holder
  rw [List.flatMap_append, List.append_assoc] at hsof
  by_cases hm : (0x5A : UInt8) ∈ left.map Mark.byte
  · -- The start byte is one that is left over.
    obtain ⟨skipped, behind, heq, hskipped⟩ := List.eq_append_cons_of_mem hm
    obtain ⟨a, b, rfl, rfl, hb⟩ := List.map_eq_append_iff.mp heq
    obtain ⟨m, new, rfl, hbyte, rfl⟩ := List.map_eq_cons_iff.mp hb
    rw [read_inside hinside, heq, List.append_assoc, tpWaitSof_skip hskipped, List.cons_append, tpWaitSof,
      if_pos rfl] at hsof
    obtain rfl := Option.some.inj hsof
    have hnew : ∀ x ∈ new, x.place ≠ 0 := fun x hx => hinside x (by simp [hx])
    refine absurd ?_ (hintact a m (new ++ own.take ((E k).arrived - old.length)) (by simp)
      (hinside m (by simp)) hbyte status body)
    rwa [List.flatMap_append, read_inside hnew, List.append_assoc]
  · rw [read_inside hinside, tpWaitSof_skip hm] at hsof
    exact own_of_valid hown hstart hall hsof hv

/-! The calls. -/

section Calls

variable {B : Board} {cmd : UInt8} {pl : Bytes} {rspMax : Nat}

/-- A call that succeeds says what the last exchange did, which is one of its own. -/
def Last (B : Board) (n : Nat) (r : Called) (s : Link) : Prop :=
  n ≤ s.exchanges ∧ (r.ok = true → ∃ k key cmd pl, n ≤ k ∧ s.exchanges = k + 1 ∧
    B.reply k key cmd pl = .frame statusOk r.rsp (frameCrc statusOk r.rsp))

theorem Last.failed {n : Nat} {rsp : Bytes} {s : Link} (h : n ≤ s.exchanges) : Last B n ⟨false, rsp⟩ s :=
  ⟨h, fun hok => nomatch hok⟩

theorem react_last {n k : Nat} {key : Option Bytes} (hn : n ≤ k) :
    Hoare (fun s => s.exchanges = k + 1) (react B cmd pl rspMax (B.reply k key cmd pl)) (Last B n) := by
  intro s hs
  have hle : n ≤ s.exchanges := by omega
  cases hr : B.reply k key cmd pl with
  | noMemory => exact .failed hle
  | unsent => exact .failed hle
  | silent => exact .failed hle
  | headerLost => exact .failed hle
  | bodyLost length received =>
    rw [react]
    split
    · exact .failed hle
    · exact .failed hle
  | crcLost body =>
    rw [react]
    split
    · exact .failed hle
    · exact .failed hle
  | frame status body crc =>
    rw [react]
    split
    · exact .failed hle
    split
    · exact .failed hle
    next _ hcrc =>
      rw [ne_eq, Decidable.not_not] at hcrc
      refine ⟨hle, fun hok => ?_⟩
      obtain rfl : status = statusOk := beq_iff_eq.mp hok
      exact ⟨k, key, cmd, pl, hn, hs, by rw [hr, ← hcrc]; rfl⟩

theorem callRaw_last {n : Nat} : Hoare (fun s => n ≤ s.exchanges) (callRaw B cmd pl rspMax) (Last B n) := by
  intro s hs
  change Last B n
    ((if !s.tpReady ∨ fpgaMaxPayload < pl.length then absent else exchange B cmd pl rspMax) s).1
    ((if !s.tpReady ∨ fpgaMaxPayload < pl.length then absent else exchange B cmd pl rspMax) s).2
  split
  · exact .failed hs
  · exact react_last hs _ rfl

theorem fpgaAvailable_last {n : Nat} :
    Hoare (fun s => n ≤ s.exchanges) (fpgaAvailable B) fun _ s => n ≤ s.exchanges := by
  have hset : ∀ f : Link → Link, (∀ s, (f s).exchanges = s.exchanges) → ∀ b : Bool,
      Hoare (fun s => n ≤ s.exchanges) (do modify f; return b) fun _ s => n ≤ s.exchanges := by
    intro f hf b s hs
    exact (hf s).symm ▸ hs
  unfold fpgaAvailable
  refine Hoare.bind (Hoare.of_get (q := fun _ s => n ≤ s.exchanges) fun _ hs => hs) fun s => ?_
  apply Hoare.ite
  · exact Hoare.pure fun _ hs => hs
  apply Hoare.ite
  · exact Hoare.pure fun _ hs => hs
  refine Hoare.bind (r := fun _ s => n ≤ s.exchanges) (fun _ hs => hs) fun now => ?_
  apply Hoare.ite
  · exact Hoare.pure fun _ hs => hs
  refine Hoare.bind (callRaw_last.imp (fun _ hs => hs) fun _ _ h => h.1) fun r => ?_
  apply Hoare.ite
  · exact hset _ (fun _ => rfl) true
  · refine Hoare.bind (r := fun _ s => n ≤ s.exchanges) (fun _ hs => hs) fun now => ?_
    exact hset _ (fun _ => rfl) false

theorem call_last {n : Nat} : Hoare (fun s => n ≤ s.exchanges) (call B cmd pl rspMax) (Last B n) := by
  unfold call
  refine Hoare.bind fpgaAvailable_last fun ready => ?_
  apply Hoare.ite
  · exact callRaw_last
  · exact fun s hs => .failed hs

theorem callExact_last {n want : Nat} :
    Hoare (fun s => n ≤ s.exchanges) (callExact B cmd pl want) (Last B n) := by
  unfold callExact
  refine Hoare.bind call_last fun r => Hoare.pure fun s hs => ⟨hs.1, fun hok => ?_⟩
  exact hs.2 (Bool.and_eq_true_iff.mp hok).1

end Calls

end GoiKey.FpgaLink

namespace GoiKey

open FpgaLink Accel

/-- A call that succeeds made an exchange, and returns what the accelerator said to the last
one, if no response to an earlier request begins in it and no frame inside a response. -/
def FpgaLink.OwnAnswer (A : Answers) (E : Nat → Window) (n : Nat) (r : Called) (s : Link) : Prop :=
  r.ok = true → ∃ k, n ≤ k ∧ s.exchanges = k + 1 ∧
    (Punctual A E k → Unembedded A E k → (A k).status = statusOk ∧ (A k).body = r.rsp)

theorem FpgaLink.Last.own {T : Transport} {A : Answers} {E : Nat → Window} {now : Nat → UInt32}
    {allocates : Nat → Bool} {n : Nat} {r : Called} {s : Link} (h : Last (board T A E now allocates) n r s) :
    OwnAnswer A E n r s := by
  intro hok
  obtain ⟨k, key, cmd, pl, hle, hlast, hreply⟩ := h.2 hok
  exact ⟨k, hle, hlast, fun hbegins hintact => outcome_own hbegins hintact hreply⟩

namespace FpgaLink

/-- No frame stands whole in the payload of a response. -/
def Unframed (A : Answers) : Prop :=
  ∀ k pre rest, (A k).body = pre ++ 0x5A :: rest → ∀ status body, ¬Valid rest status body

/-- The state after some calls; each waits long enough before the next. -/
def calls (B : Board) : List (UInt8 × Bytes × Nat) → Link → Link
  | [], s => s
  | (cmd, pl, want) :: cs, s => calls B cs (callExact B cmd pl want s).2

namespace Bench

def later (n : Nat) : UInt32 := UInt32.ofNat (60000 * n)

/-- The probe's answer, and two digests. -/
def digests : Answers
  | 0 => ⟨0, text "TROACC01" ++ [0, 0, 0, 7], by decide⟩
  | 1 => ⟨0, text "TROACC01" ++ [0, 0, 0, 7], by decide⟩
  | 2 => ⟨0, List.replicate 32 0x11, by decide⟩
  | _ => ⟨0, List.replicate 32 0x22, by decide⟩

/-- The first probe is answered only in the window of the second, and so on. -/
def oneBehind (k : Nat) : Window :=
  if k = 0 then {} else { late := [false], arrived := 64 }

/-- A long answer that ends as a frame could begin, and one that goes on with it. -/
def joined : Answers
  | 0 => ⟨0, text "TROACC01" ++ [0, 0, 0, 7], by decide⟩
  | 1 => ⟨0, [0, 0, 0, 0, 0, 0, 0, 0, 0x5A, 0, 6, 0], by decide⟩
  | _ => ⟨0, [91, 190, 0, 0, 0, 0, 0, 0], by decide⟩

/-- The second call reads only a header, and the third what is left and its own answer. -/
def leftOver (k : Nat) : Window :=
  if k = 0 then { late := [false], arrived := 18 }
  else if k = 1 then { late := [false], arrived := 4 }
  else if k = 2 then { late := [false], arrived := 28 }
  else {}

/-- Every request is answered at once; SPI reads fillers first. -/
def inTime (_ : Nat) : Window := { late := [false], arrived := 18, fillers := fun _ => 3, trailers := 3 }

end Bench

def framed : Accel.Reply → Bool
  | .frame _ _ _ => true
  | _ => false

theorem unframed_of_tails {A : Answers}
    (h : ∀ k, ∀ t ∈ (A k).body.tails, t.head? = some 0x5A → framed (readFrame t.tail) = false) : Unframed A := by
  intro k pre rest hbody status body hv
  have hmem : 0x5A :: rest ∈ (A k).body.tails := (List.mem_tails _ _).mpr ⟨pre, hbody.symm⟩
  have hframed := h k _ hmem rfl
  rw [List.tail_cons, hv] at hframed
  exact nomatch hframed

end FpgaLink

end GoiKey
