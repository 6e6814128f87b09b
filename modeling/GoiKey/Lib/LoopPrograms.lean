import Mathlib.Init

/-!
Programs that take an input off its front, kept with their loops: what a run yields
and the rounds that it makes.
-/

namespace LoopProg

variable {σ α β κ ρ : Type}

/-! What never gives input back. -/

def Shrinks (m : StateM (List σ) α) : Prop := ∀ s, (m s).2.length ≤ s.length

theorem Shrinks.pure (a : α) : Shrinks (σ := σ) (Pure.pure a) := fun _ => Nat.le_refl _

theorem Shrinks.bind {m : StateM (List σ) α} {f : α → StateM (List σ) β} (hm : Shrinks m)
    (hf : ∀ a, Shrinks (f a)) : Shrinks (m >>= f) :=
  fun s => Nat.le_trans (hf (m s).1 (m s).2) (hm s)

/-- A reading that never gives input back. -/
structure Taking (σ β : Type) where
  run : StateM (List σ) β
  shrinks : Shrinks run

/-- What a round of a loop reads first. Where that finds nothing, something else is
taken in its place, or the round leaves the loop. -/
structure Key (σ κ : Type) where
  read : Taking σ (Option κ)
  missed : Option (Taking σ Unit)
  /-- The inputs that a round gets on with. -/
  feeds : List σ → Bool
  found : ∀ s x, (read.run s).1 = some x → (read.run s).2.length < s.length ∧ feeds s = true
  replaced : ∀ s m, missed = some m → (read.run s).1 = none →
    ((m.run (read.run s).2).2.length < s.length ↔ feeds s = true)
  leaves : missed = none → ∀ s, feeds s = true

inductive Prog (σ : Type) : Type → Type 1 where
  | done {α : Type} (a : α) : Prog σ α
  | take {α β : Type} (t : Taking σ β) (k : β → Prog σ α) : Prog σ α
  /-- At most `n` rounds. What comes behind the loop learns whether it was left. -/
  | loop {α κ ρ : Type} (key : Key σ κ) (onEntry : κ → ρ → Prog σ ρ) (n : Nat) (r : ρ)
    (k : Bool → ρ → Prog σ α) : Prog σ α

/-- A round: the input before it and behind it, and whether it left its loop. -/
structure Round (σ : Type) where
  feeds : List σ → Bool
  before : List σ
  after : List σ
  left : Bool

def rounds (key : Key σ κ) (body : κ → ρ → StateM (List σ) ρ) : Nat → ρ → StateM (List σ) (Bool × ρ)
  | 0, r => return (false, r)
  | n + 1, r => do
    match ← key.read.run with
    | some x => rounds key body n (← body x r)
    | none =>
      match key.missed with
      | some m =>
        m.run
        rounds key body n r
      | none => return (true, r)

/-- The rounds of a loop, each with those of the loops inside it behind it. -/
def roundsTrace (key : Key σ κ) (body : κ → ρ → StateM (List σ) ρ) (inner : κ → ρ → List σ → List (Round σ)) :
    Nat → ρ → List σ → List (Round σ)
  | 0, _, _ => []
  | n + 1, r, s =>
    let behind := (key.read.run s).2
    match (key.read.run s).1 with
    | some x =>
      let after := body x r behind
      ⟨key.feeds, s, after.2, false⟩ :: (inner x r behind ++ roundsTrace key body inner n after.1 after.2)
    | none =>
      match key.missed with
      | some m =>
        let after := (m.run behind).2
        ⟨key.feeds, s, after, false⟩ :: roundsTrace key body inner n r after
      | none => [⟨key.feeds, s, behind, true⟩]

namespace Prog

def bind : Prog σ α → (α → Prog σ β) → Prog σ β
  | .done a, f => f a
  | .take t k, f => .take t fun x => (k x).bind f
  | .loop key onEntry n r k, f => .loop key onEntry n r fun left r => (k left r).bind f

instance : Monad (Prog σ) where
  pure := done
  bind := bind

def run : {α : Type} → Prog σ α → StateM (List σ) α
  | _, .done a => return a
  | _, .take t k => do (k (← t.run)).run
  | _, .loop key onEntry n r k => do
    let out ← rounds key (fun x r => (onEntry x r).run) n r
    (k out.1 out.2).run

/-- Every round of every loop. -/
def trace : {α : Type} → Prog σ α → List σ → List (Round σ)
  | _, .done _, _ => []
  | _, .take t k, s => (k (t.run s).1).trace (t.run s).2
  | _, .loop key onEntry n r k, s =>
    let body := fun x r => (onEntry x r).run
    let behind := rounds key body n r s
    roundsTrace key body (fun x r => (onEntry x r).trace) n r s ++ (k behind.1.1 behind.1.2).trace behind.2

/-- A reading alone. -/
def read (t : Taking σ β) : Prog σ β := .take t .done

@[simp] theorem run_pure (a : α) : (Pure.pure a : Prog σ α).run = Pure.pure a := rfl

@[simp] theorem run_bind (p : Prog σ α) (f : α → Prog σ β) : (p >>= f).run = p.run >>= fun a => (f a).run := by
  change (p.bind f).run = _
  induction p with
  | done a => rfl
  | take t k ih =>
    simp only [bind, run, bind_assoc]
    exact bind_congr fun x => ih x f
  | loop key onEntry n r k _ ih =>
    simp only [bind, run, bind_assoc]
    exact bind_congr fun out => ih out.1 out.2 f

@[simp] theorem run_read (t : Taking σ β) : (read t).run = t.run := bind_pure _

end Prog

section Step

variable {key : Key σ κ} {body : κ → ρ → StateM (List σ) ρ} {n : Nat} {r : ρ} {s : List σ}

theorem rounds_found {x : κ} (h : (key.read.run s).1 = some x) : rounds key body (n + 1) r s =
    rounds key body n (body x r (key.read.run s).2).1 (body x r (key.read.run s).2).2 := by
  have hs : key.read.run s = (some x, (key.read.run s).2) := Prod.ext h rfl
  simp only [rounds, Bind.bind, StateT.bind]
  rw [hs]
  rfl

theorem rounds_missed {m : Taking σ Unit} (h : (key.read.run s).1 = none) (hm : key.missed = some m) :
    rounds key body (n + 1) r s = rounds key body n r (m.run (key.read.run s).2).2 := by
  have hs : key.read.run s = (none, (key.read.run s).2) := Prod.ext h rfl
  simp only [rounds, Bind.bind, StateT.bind, hm]
  rw [hs]
  rfl

theorem rounds_left (h : (key.read.run s).1 = none) (hm : key.missed = none) :
    rounds key body (n + 1) r s = ((true, r), (key.read.run s).2) := by
  have hs : key.read.run s = (none, (key.read.run s).2) := Prod.ext h rfl
  simp only [rounds, Bind.bind, StateT.bind, hm]
  rw [hs]
  rfl

end Step

/-! No run gives input back. -/

theorem rounds_shrinks (key : Key σ κ) {body : κ → ρ → StateM (List σ) ρ} (hbody : ∀ x r, Shrinks (body x r))
    (n : Nat) (r : ρ) : Shrinks (rounds key body n r) := by
  induction n generalizing r with
  | zero => exact .pure _
  | succ n ih =>
    refine .bind key.read.shrinks fun x => ?_
    cases x with
    | some x => exact .bind (hbody x r) fun r => ih r
    | none =>
      cases key.missed with
      | some m => exact .bind m.shrinks fun _ => ih r
      | none => exact .pure _

theorem Prog.run_shrinks (p : Prog σ α) : Shrinks p.run := by
  induction p with
  | done a => exact .pure a
  | take t k ih => exact .bind t.shrinks ih
  | loop key onEntry n r k ihEntry ih =>
    exact .bind (rounds_shrinks key ihEntry n r) fun out => ih out.1 out.2

/-! What holds of every round. -/

/-- It has got further, or leaves its loop. -/
def Round.Advances (round : Round σ) : Prop := round.after.length < round.before.length ∨ round.left = true

/-- It began at an input that it gets on with. -/
def Round.Fed (round : Round σ) : Prop := round.feeds round.before = true

theorem roundsTrace_advances (key : Key σ κ) {body : κ → ρ → StateM (List σ) ρ}
    {inner : κ → ρ → List σ → List (Round σ)} (hbody : ∀ x r, Shrinks (body x r))
    (hinner : ∀ x r s, ∀ round ∈ inner x r s, round.Advances ↔ round.Fed) (n : Nat) (r : ρ) (s : List σ) :
    ∀ round ∈ roundsTrace key body inner n r s, round.Advances ↔ round.Fed := by
  induction n generalizing r s with
  | zero => exact fun _ h => absurd h List.not_mem_nil
  | succ n ih =>
    rw [roundsTrace]
    cases hread : (key.read.run s).1 with
    | some x =>
      obtain ⟨hless, hfeeds⟩ := key.found s x hread
      refine List.forall_mem_cons.mpr ⟨⟨fun _ => hfeeds, fun _ => .inl ?_⟩, ?_⟩
      · exact Nat.lt_of_le_of_lt (hbody x r _) hless
      · intro round hround
        rcases List.mem_append.mp hround with h | h
        · exact hinner x r _ round h
        · exact ih _ _ round h
    | none =>
      cases hmissed : key.missed with
      | some m =>
        have hiff := key.replaced s m hmissed hread
        refine List.forall_mem_cons.mpr ⟨⟨fun h => ?_, fun h => .inl (hiff.mpr h)⟩, ih _ _⟩
        rcases h with hless | hleft
        · exact hiff.mp hless
        · cases hleft
      | none =>
        refine List.forall_mem_singleton.mpr ⟨fun _ => key.leaves hmissed s, fun _ => .inr rfl⟩

/-- A round gets further, or leaves its loop, exactly if it began at an input that it
gets on with. -/
theorem Prog.round_advances_iff (p : Prog σ α) (s : List σ) : ∀ round ∈ p.trace s, round.Advances ↔ round.Fed := by
  induction p generalizing s with
  | done a => exact fun _ h => absurd h List.not_mem_nil
  | take t k ih => exact ih _ _
  | loop key onEntry n r k ihEntry ih =>
    intro round hround
    rcases List.mem_append.mp hround with h | h
    · exact roundsTrace_advances key (fun x r => (onEntry x r).run_shrinks) ihEntry n r s round h
    · exact ih _ _ _ round h

/-! How many rounds there are. -/

/-- The rounds that did not leave their loop. -/
def kept (trace : List (Round σ)) : Nat := trace.countP fun round => !round.left

theorem roundsTrace_kept (key : Key σ κ) {body : κ → ρ → StateM (List σ) ρ}
    {inner : κ → ρ → List σ → List (Round σ)}
    (hinner : ∀ x r s, (∀ round ∈ inner x r s, round.Fed) →
      kept (inner x r s) + (body x r s).2.length ≤ s.length) (n : Nat) (r : ρ) (s : List σ)
    (hfed : ∀ round ∈ roundsTrace key body inner n r s, round.Fed) :
    kept (roundsTrace key body inner n r s) + (rounds key body n r s).2.length ≤ s.length := by
  induction n generalizing r s with
  | zero => exact Nat.le_of_eq (Nat.zero_add _)
  | succ n ih =>
    have hread := key.read.shrinks s
    rw [roundsTrace] at hfed ⊢
    cases hkey : (key.read.run s).1 with
    | some x =>
      obtain ⟨hless, -⟩ := key.found s x hkey
      simp only [hkey, List.forall_mem_cons, List.forall_mem_append] at hfed
      have hentry := hinner x r _ hfed.2.1
      have hrest := ih _ _ hfed.2.2
      rw [rounds_found hkey]
      simp only [kept, List.countP_cons, List.countP_append, Bool.not_false, if_true] at hentry hrest ⊢
      omega
    | none =>
      cases hm : key.missed with
      | some m =>
        simp only [hkey, hm, List.forall_mem_cons] at hfed
        have hless := (key.replaced s m hm hkey).mpr hfed.1
        have hrest := ih _ _ hfed.2
        rw [rounds_missed hkey hm]
        simp only [kept, List.countP_cons, Bool.not_false, if_true] at hrest ⊢
        omega
      | none =>
        rw [rounds_left hkey hm]
        simpa [kept] using hread

/-- Rounds that all get further are no more than the symbols taken. -/
theorem Prog.kept_le (p : Prog σ α) (s : List σ) (hfed : ∀ round ∈ p.trace s, round.Fed) :
    kept (p.trace s) + (p.run s).2.length ≤ s.length := by
  induction p generalizing s with
  | done a => exact Nat.le_of_eq (Nat.zero_add _)
  | take t k ih => exact Nat.le_trans (ih _ _ hfed) (t.shrinks s)
  | loop key onEntry n r k ihEntry ih =>
    simp only [trace, List.forall_mem_append] at hfed
    have hrounds := roundsTrace_kept key ihEntry n r s hfed.1
    have hrest := ih _ _ _ hfed.2
    rw [trace, kept, List.countP_append]
    simp only [kept] at hrounds hrest
    change _ + ((k _ _).run _).2.length ≤ _
    omega

end LoopProg
