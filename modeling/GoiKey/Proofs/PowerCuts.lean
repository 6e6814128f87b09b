import GoiKey.Model.FileOps
import GoiKey.Proofs.SavedRecords

/-!
A rewriting of the record file that stops for want of power. Up to the removal the
readers see the old file and from the renaming on the copy; in between there is
no file, and nothing at start-up puts the copy in its place.
-/

namespace GoiKey.RecordFile

variable {P : Platform} {env : Env} {stray file : Bytes} {f : Files}

/-- The functions that rewrite /passkeys.bin. -/
inductive Rewriting where
  | deletePasskeyRecord (cid : Str)
  | deleteFidoWebsite (rpId : Str)
  deriving DecidableEq, Repr

def Rewriting.hit : Rewriting → PasskeyRecord → Bool
  | .deletePasskeyRecord cid, r => r.cid == cid
  | .deleteFidoWebsite rpId, r => r.rp == rpId

def Rewriting.ops (env : Env) (stray : Bytes) (f : Files) : Rewriting → Bool × List FileOp
  | .deletePasskeyRecord cid => deletePasskeyRecordOps env stray f cid
  | .deleteFidoWebsite rpId => deleteFidoWebsiteOps env stray f rpId

/-- What getPasskeyRecord gives under each id, once the device runs again. -/
def usable (P : Platform) (f : Files) (env : Env) (stray : Bytes) (cid : Str) : Option StoredCredential :=
  f.bin.bind fun file => getPasskeyRecord P env stray file cid

def NothingUsable (P : Platform) (f : Files) : Prop :=
  ∀ env stray cid, usable P f env stray cid = none

/-- The file of the live records that the operation does not hit. -/
def Rewriting.others (op : Rewriting) (stray : Bytes) (f : Files) : Files where
  bin := f.bin.map fun file =>
    ofRecords ((recordsIn stray file.length file).filter fun r => r.status == 1 && !op.hit r)
  tmp := none

/-- Stopped after `n` operations on the files, it leaves the credentials of before or
those of after. -/
def BeforeOrAfter (P : Platform) (f : Files) (ops : List FileOp) (n : Nat) : Prop :=
  usable P (PowerLoss.cut Files.apply f ops n) = usable P f ∨
    usable P (PowerLoss.cut Files.apply f ops n) = usable P (PowerLoss.run Files.apply f ops)

/-! The operations. -/

variable {hit : PasskeyRecord → Bool}

theorem stringWrites_flatten (s : Str) : (stringWrites s).flatten = writeString s := by
  simp [stringWrites, writeString]

theorem recordWrites_flatten (r : PasskeyRecord) : (recordWrites r).flatten = writeRecord r := by
  simp [recordWrites, writeRecord, stringWrites_flatten]

theorem copyWrites_eq (hit : PasskeyRecord → Bool) (n : Nat) (file : Bytes) :
    copyWrites stray hit n file = ((recordsIn stray n file).any fun r => r.status == 1 && hit r,
      ((recordsIn stray n file).filter fun r => r.status == 1 && !hit r).flatMap recordWrites) := by
  induction n generalizing file with
  | zero => rfl
  | succ n ih =>
    by_cases hnil : file = []
    · rw [copyWrites, recordsIn, if_pos hnil, if_pos hnil]
      rfl
    · rw [copyWrites, recordsIn, if_neg hnil, if_neg hnil]
      obtain ⟨r, rest⟩ := readRecord stray file
      simp only [ih, List.any_cons, List.filter_cons]
      cases r.status == 1 <;> cases hit r <;> simp

theorem run_writes (writes : List Bytes) (bin : Option Bytes) (copy : Bytes) :
    PowerLoss.run Files.apply ⟨bin, some copy⟩ (writes.map .writeTmp) = ⟨bin, some (copy ++ writes.flatten)⟩ := by
  induction writes generalizing copy with
  | nil => simp [PowerLoss.run]
  | cons b writes ih =>
    have hrest := ih (copy ++ b)
    rw [List.append_assoc] at hrest
    exact hrest

/-- The part that makes the copy. -/
def copyOps (stray : Bytes) (hit : PasskeyRecord → Bool) (file : Bytes) : List FileOp :=
  .createTmp :: (copyWrites stray hit file.length file).2.map .writeTmp

theorem copyOps_bin : ∀ o ∈ copyOps stray hit file, ∀ f : Files, (f.apply o).bin = f.bin := by
  intro o ho f
  rcases List.mem_cons.mp ho with rfl | hw
  · rfl
  · obtain ⟨b, -, rfl⟩ := List.mem_map.mp hw
    rfl

theorem copyOps_ne_removeBin : FileOp.removeBin ∉ copyOps stray hit file := by
  simp [copyOps]

theorem run_copyOps (f : Files) : PowerLoss.run Files.apply f (copyOps stray hit file) =
    ⟨f.bin, some (copyRecords stray hit file.length file).2⟩ := by
  have hcopy : (copyWrites stray hit file.length file).2.flatten =
      (copyRecords stray hit file.length file).2 := by
    rw [copyWrites_eq, copyRecords_eq]
    simp only [ofRecords, List.flatMap, List.flatten_flatten, List.map_map]
    congr 1
    exact List.map_congr_left fun r _ => recordWrites_flatten r
  have hwrites := run_writes (copyWrites stray hit file.length file).2 f.bin []
  rw [List.nil_append, hcopy] at hwrites
  exact hwrites

/-- The operations of a rewriting that could open its files. -/
def replaceOps (stray : Bytes) (hit : PasskeyRecord → Bool) (file : Bytes) : List FileOp :=
  copyOps stray hit file ++
    if (copyRecords stray hit file.length file).1 then [.removeBin, .renameTmp] else [.removeTmp]

theorem copyWrites_copyRecords : (copyWrites stray hit file.length file).1 =
    (copyRecords stray hit file.length file).1 := by
  rw [copyWrites_eq, copyRecords_eq]

theorem rewriteOps_cases (env : Env) (stray : Bytes) (f : Files) (hit : PasskeyRecord → Bool) :
    (rewriteOps env stray f hit).2 = [] ∨
      ∃ file, f.bin = some file ∧ (rewriteOps env stray f hit).2 = replaceOps stray hit file := by
  unfold rewriteOps
  split
  · exact .inl rfl
  next file hbin =>
    split
    · exact .inl rfl
    · refine .inr ⟨file, hbin, ?_⟩
      rw [replaceOps, ← copyWrites_copyRecords]
      rfl

theorem run_replaceOps (stray : Bytes) (hit : PasskeyRecord → Bool) (hbin : f.bin = some file) :
    (PowerLoss.run Files.apply f (replaceOps stray hit file)).bin =
      some (if (copyRecords stray hit file.length file).1
        then (copyRecords stray hit file.length file).2 else file) := by
  rw [replaceOps, PowerLoss.run_append, run_copyOps, hbin]
  split <;> rfl

/-- All of them together do to /passkeys.bin what the rewriting does to its bytes. -/
theorem run_rewriteOps (hbin : f.bin = some file) :
    (rewriteOps env stray f hit).1 = (rewrite env stray file hit).1 ∧
      (PowerLoss.run Files.apply f (rewriteOps env stray f hit).2).bin =
        some (rewrite env stray file hit).2 := by
  unfold rewriteOps rewrite
  rw [hbin]
  simp only
  split
  · exact ⟨rfl, hbin⟩
  · have hrun := run_replaceOps stray hit hbin
    rw [replaceOps, ← copyWrites_copyRecords] at hrun
    refine ⟨copyWrites_copyRecords, ?_⟩
    rw [← copyWrites_copyRecords]
    exact hrun

/-! Where they can stop. -/

/-- In front of the removal the old file is there, behind the renaming the copy. -/
theorem cut_replaceOps (stray : Bytes) (hit : PasskeyRecord → Bool) (file : Bytes) (f : Files) (n : Nat) :
    let ops := replaceOps stray hit file
    let crash := PowerLoss.cut Files.apply f ops n
    (crash.bin = f.bin ∧ (ops.take n).getLast? ≠ some .removeBin) ∨
      (crash.bin = none ∧ (ops.take n).getLast? = some .removeBin ∧
        (copyRecords stray hit file.length file).1 = true) ∨
      (crash = PowerLoss.run Files.apply f ops ∧ (ops.take n).getLast? ≠ some .removeBin) := by
  intro ops crash
  have hcopyLast : ∀ m, ((copyOps stray hit file).take m).getLast? ≠ some .removeBin :=
    fun m hlast => copyOps_ne_removeBin (List.mem_of_mem_take (List.mem_of_getLast? hlast))
  by_cases hn : n ≤ (copyOps stray hit file).length
  · left
    constructor
    · change (PowerLoss.cut Files.apply f (replaceOps stray hit file) n).bin = f.bin
      rw [replaceOps, PowerLoss.cut_before hn]
      exact PowerLoss.cut_frame copyOps_bin
    · change ((replaceOps stray hit file).take n).getLast? ≠ _
      rw [replaceOps, List.take_append_of_le_length hn]
      exact hcopyLast n
  right
  obtain ⟨k, rfl⟩ : ∃ k, n = (copyOps stray hit file).length + (k + 1) :=
    ⟨n - (copyOps stray hit file).length - 1, by omega⟩
  change (PowerLoss.cut Files.apply f (replaceOps stray hit file) _).bin = _ ∧
    ((replaceOps stray hit file).take _).getLast? = _ ∧ _ ∨
      PowerLoss.cut Files.apply f (replaceOps stray hit file) _ = _ ∧
        ((replaceOps stray hit file).take _).getLast? ≠ _
  unfold ops replaceOps
  rw [PowerLoss.cut_after, List.take_length_add_append, PowerLoss.run_append]
  cases (copyRecords stray hit file.length file).1 with
  | false =>
    -- The copy is removed again.
    right
    refine ⟨PowerLoss.cut_full ?_, ?_⟩
    · simp
    · simp
  | true =>
    cases k with
    | zero => exact .inl ⟨rfl, by simp, rfl⟩
    | succ k =>
      right
      refine ⟨PowerLoss.cut_full ?_, ?_⟩
      · simp
      · simp

theorem usable_none (h : f.bin = none) : usable P f = fun _ _ _ => none := by
  unfold usable
  rw [h]
  rfl

theorem nothingUsable_iff : NothingUsable P f ↔ (fun _ _ _ => none) = usable P f := by
  constructor
  · intro h
    funext env stray cid
    exact (h env stray cid).symm
  · intro h env stray cid
    rw [← h]

theorem usable_congr {f' : Files} (h : f.bin = f'.bin) : usable P f = usable P f' := by
  unfold usable
  rw [h]

theorem Rewriting.ops_eq (op : Rewriting) : op.ops env stray f = rewriteOps env stray f op.hit := by
  cases op <;> rfl

/-- What a rewriting that hit a record leaves. -/
theorem usable_others (op : Rewriting) (hbin : f.bin = some file)
    (hdeleted : (copyRecords stray op.hit file.length file).1 = true) :
    usable P (PowerLoss.run Files.apply f (replaceOps stray op.hit file)) = usable P (op.others stray f) := by
  refine usable_congr ?_
  rw [run_replaceOps stray op.hit hbin, if_pos hdeleted, copyRecords_eq, Rewriting.others, hbin]
  rfl

/-- Power loss leaves the credentials of before or those of after, unless it comes
right after the removal and takes some from both. -/
theorem powerCut_beforeOrAfter_iff (P : Platform) (env : Env) (stray : Bytes) (f : Files)
    (op : Rewriting) (n : Nat) :
    BeforeOrAfter P f (op.ops env stray f).2 n ↔
      (((op.ops env stray f).2.take n).getLast? = some .removeBin →
        NothingUsable P f ∨ NothingUsable P (op.others stray f)) := by
  rw [op.ops_eq]
  rcases rewriteOps_cases env stray f op.hit with hnone | ⟨file, hbin, hops⟩
  · rw [hnone, List.take_nil]
    refine iff_of_true (.inl ?_) (fun h => ?_)
    · rw [PowerLoss.cut_full (Nat.zero_le n)]
      rfl
    · cases h
  rw [hops]
  rcases cut_replaceOps stray op.hit file f n with
    ⟨hbefore, hlast⟩ | ⟨hgone, hlast, hdeleted⟩ | ⟨hafter, hlast⟩
  · exact iff_of_true (.inl (usable_congr hbefore)) fun h => absurd h hlast
  · have hothers := usable_others (P := P) op hbin hdeleted
    rw [BeforeOrAfter, usable_none hgone, hothers, ← nothingUsable_iff, ← nothingUsable_iff]
    exact (imp_iff_right hlast).symm
  · exact iff_of_true (.inr (by rw [hafter])) fun h => absurd h hlast

section Bench

open Bench

def benchCredential (user : Str) : StoredCredential where
  rpId := site
  userIdHex := text "01"
  userName := user
  privateKeyHex := toHex (List.replicate 32 1)
  algId := -7

/-- Two credentials, under the ids "01" and "02". -/
def twoCredentials : Files where
  bin := do
    let file ← savePasskeyRecord platform (idleEnv 1 0) [] (text "01") (benchCredential (text "ann"))
    savePasskeyRecord platform (idleEnv 1 0) file (text "02") (benchCredential (text "bob"))
  tmp := none

def deleteFirst : List FileOp :=
  ((Rewriting.deletePasskeyRecord (text "01")).ops (idleEnv 1 0) [] twoCredentials).2

/-- The second one was not to be deleted, and is not there after the power loss. -/
theorem powerCut_loses_others : ¬ BeforeOrAfter platform twoCredentials deleteFirst 10 := by
  have hcrash : usable platform (PowerLoss.cut Files.apply twoCredentials deleteFirst 10)
      (idleEnv 1 0) [] (text "02") = none := by decide +kernel
  have hbefore : (usable platform twoCredentials (idleEnv 1 0) [] (text "02")).isSome := by
    decide +kernel
  have hafter : (usable platform (PowerLoss.run Files.apply twoCredentials deleteFirst)
      (idleEnv 1 0) [] (text "02")).isSome := by decide +kernel
  rintro (hsame | hsame)
  · rw [← hsame, hcrash] at hbefore
    cases hbefore
  · rw [← hsame, hcrash] at hafter
    cases hafter

end Bench

end GoiKey.RecordFile
