import GoiKey.Model.CliBench
import GoiKey.Proofs.StoredPayloads
import Mathlib.Data.List.GetD

/-!
Passwords made by generateRandomPassword: the shuffle only moves the characters that
were picked, and the audit of the vault finds nothing weak in them.
-/

namespace GoiKey

variable {P : Platform} {env : Env}

/-! The shuffle. -/

theorem swapAt_perm {s : Str} {i j : Nat} (hi : i < s.length) (hj : j < s.length) :
    (swapAt s i j).Perm s := by
  have heq : swapAt s i j = (s.set i s[j]).set j s[i] := by
    rw [swapAt, List.getD_eq_getElem _ _ hi, List.getD_eq_getElem _ _ hj]
  rw [heq]
  exact List.set_set_perm hi hj

/-- Swaps within the text, whatever the indices are drawn from. -/
theorem shuffle_perm {target : Nat → Nat} {s : Str} {is : List Nat}
    (h : ∀ i ∈ is, i < s.length ∧ target i < s.length) :
    (is.foldl (fun s i => swapAt s i (target i)) s).Perm s := by
  induction is generalizing s with
  | nil => exact .refl _
  | cons i is ih =>
    have hswap := swapAt_perm (h i List.mem_cons_self).1 (h i List.mem_cons_self).2
    refine (ih fun k hk => ?_).trans hswap
    rw [hswap.length_eq]
    exact h k (List.mem_cons_of_mem i hk)

/-! The characters picked. -/

theorem pick_mem {pool : Str} (h : pool ≠ []) (r : UInt8) : pick pool r ∈ pool := by
  have hlt : r.toNat % pool.length < pool.length := Nat.mod_lt _ (List.length_pos_iff.mpr h)
  rw [pick, List.getD_eq_getElem _ _ hlt]
  exact List.getElem_mem hlt

theorem poolAt_ne_nil (i : Nat) : poolAt i ≠ [] := by
  unfold poolAt
  split <;> decide

theorem mem_allPool {i : Nat} {c : UInt8} (h : c ∈ poolAt i) : c ∈ allPool := by
  simp only [allPool, List.mem_append]
  unfold poolAt at h
  split at h
  · exact .inl (.inl (.inl h))
  · exact .inl (.inl (.inr h))
  · exact .inl (.inr h)
  · exact .inr h
  · simpa only [allPool, List.mem_append] using h

/-- The characters before the shuffle, one from each pool first. -/
def pickedPassword (env : Env) (length : Nat) : Str :=
  (List.range length).map fun i => pick (poolAt i) ((env.draw .password length).getD i 0)

theorem generateRandomPassword_perm {length : Nat} (hlength : 4 ≤ length)
    (hroom : env.allocates .cipher = true) :
    (generateRandomPassword env length).Perm (pickedPassword env length) := by
  unfold generateRandomPassword
  simp only [Nat.max_eq_right hlength, hroom, Bool.not_true, Bool.false_eq_true, if_false]
  refine shuffle_perm fun i hi => ?_
  simp only [List.length_map, List.length_range]
  exact ⟨List.mem_range.mp hi, Nat.mod_lt _ (by omega)⟩

/-- A password of the length asked for, over the alphabet, with each class in it. -/
structure Generated (length : Nat) (password : Str) : Prop where
  length_eq : password.length = length
  alphabet : ∀ c ∈ password, c ∈ allPool
  lower : ∃ c ∈ password, c ∈ lowerPool
  upper : ∃ c ∈ password, c ∈ upperPool
  number : ∃ c ∈ password, c ∈ numPool
  symbol : ∃ c ∈ password, c ∈ symPool

theorem generateRandomPassword_generated {length : Nat} (hlength : 4 ≤ length)
    (hroom : env.allocates .cipher = true) : Generated length (generateRandomPassword env length) := by
  have hperm := generateRandomPassword_perm hlength hroom
  have hclass (i : Nat) (hi : i < 4) : ∃ c ∈ generateRandomPassword env length, c ∈ poolAt i := by
    refine ⟨_, hperm.mem_iff.mpr (List.mem_map.mpr ⟨i, List.mem_range.mpr (by omega), rfl⟩), ?_⟩
    exact pick_mem (poolAt_ne_nil i) _
  refine ⟨?_, ?_, hclass 0 (by omega), hclass 1 (by omega), hclass 2 (by omega), hclass 3 (by omega)⟩
  · rw [hperm.length_eq]
    simp [pickedPassword]
  · intro c hc
    obtain ⟨i, -, rfl⟩ := List.mem_map.mp (hperm.mem_iff.mp hc)
    exact mem_allPool (pick_mem (poolAt_ne_nil i) _)

/-! The audit. -/

theorem any_of_pool {pool password : Str} {f : UInt8 → Bool} (hf : pool.all f = true)
    (h : ∃ c ∈ password, c ∈ pool) : password.any f = true := by
  obtain ⟨c, hc, hpool⟩ := h
  exact List.any_eq_true.mpr ⟨c, hc, List.all_eq_true.mp hf c hpool⟩

/-- The classes of the audit are those of the pools. -/
theorem Generated.not_weak {length : Nat} {password : Str} {passwords : List Str}
    (h : Generated length password) (hlength : 12 ≤ length) (hcount : passwords.count password ≤ 1) :
    isWeak passwords password = false := by
  have hnum := any_of_pool (f := isDecimal) rfl h.number
  have hupper := any_of_pool (f := isUpper) rfl h.upper
  have hlower := any_of_pool (f := isLower) rfl h.lower
  have hspec := any_of_pool (f := fun c => !isDecimal c && !isUpper c && !isLower c) rfl h.symbol
  have hlong : ¬ password.length < 12 := by
    rw [h.length_eq]
    omega
  simp only [isWeak, hnum, hupper, hlower, hspec, hlong, decide_false, Bool.not_true, Bool.or_false,
    Bool.false_or, decide_eq_false_iff_not]
  omega

/-! The listing. -/

theorem count_le_one_of_only {α : Type} [BEq α] [LawfulBEq α] {a : α} {l : List α} {i : Nat}
    (h : ∀ j, j ≠ i → l[j]? ≠ some a) : l.count a ≤ 1 := by
  induction l generalizing i with
  | nil => exact Nat.zero_le _
  | cons b l ih =>
    rw [List.count_cons]
    cases i with
    | zero =>
      have hrest : l.count a = 0 := by
        refine List.count_eq_zero.mpr fun hmem => ?_
        obtain ⟨j, hj⟩ := List.mem_iff_getElem?.mp hmem
        exact h (j + 1) (Nat.succ_ne_zero j) (by rw [List.getElem?_cons_succ, hj])
      split <;> omega
    | succ i =>
      have hhead : ¬ (b == a) = true := fun hb => h 0 (Nat.succ_ne_zero i).symm (by
        rw [List.getElem?_cons_zero, beq_iff_eq.mp hb])
      rw [if_neg hhead]
      refine ih (i := i) fun j hj => ?_
      have hlater := h (j + 1) fun he => hj (Nat.succ.inj he)
      rwa [List.getElem?_cons_succ] at hlater

/-- The entries of the vault in the order of the file: site, login and payload. -/
def vaultEntries (v : Vault) : List (Str × Str × Str) :=
  v.passwords.flatMap fun site => site.2.map fun login => (site.1, login.1, login.2)

def valueOf (P : Platform) (C : CliEnv) (key : Bytes) (e : Str × Str × Str) : Str :=
  decryptStoragePayload P C.env e.2.2 key

theorem listPasswords_eq {C : CliEnv} {key : Bytes} {v : Vault} {listed : List ListedPassword}
    (h : listPasswords P C (some key) v = some listed) :
    listed = (vaultEntries v).map fun e =>
      ⟨e.1, e.2.1, isWeak ((vaultEntries v).map (valueOf P C key)) (valueOf P C key e)⟩ := by
  unfold listPasswords at h
  split at h
  next hempty =>
    cases h
    rw [vaultEntries, hempty.1]
    rfl
  · split at h
    · cases h
    · cases h
      simp only [vaultEntries, valueOf, Option.getD_some, List.map_flatMap, List.map_map, Function.comp_def]

/-- The entry that keeps a generated password is reported with the rest of the vault
as it may be, if no other entry opens to the same. -/
theorem Generated.listed {length : Nat} {password : Str} {C : CliEnv} {key : Bytes} {v : Vault}
    {listed : List ListedPassword} {i : Nat} {e : Str × Str × Str} (h : Generated length password)
    (hlength : 12 ≤ length) (hlist : listPasswords P C (some key) v = some listed)
    (he : (vaultEntries v)[i]? = some e) (hvalue : valueOf P C key e = password)
    (hother : ∀ j e', j ≠ i → (vaultEntries v)[j]? = some e' → valueOf P C key e' ≠ password) :
    listed[i]? = some ⟨e.1, e.2.1, false⟩ := by
  have hcount : ((vaultEntries v).map (valueOf P C key)).count password ≤ 1 := by
    refine count_le_one_of_only (i := i) fun j hj hsome => ?_
    rw [List.getElem?_map] at hsome
    obtain ⟨e', he', hvalue'⟩ := Option.map_eq_some_iff.mp hsome
    exact hother j e' hj he' hvalue'
  rw [listPasswords_eq hlist, List.getElem?_map, he, Option.map_some, hvalue,
    h.not_weak hlength hcount]

theorem nul_notMem {length : Nat} {password : Str} (h : Generated length password) :
    (0 : UInt8) ∉ password := fun hnul => absurd (h.alphabet 0 hnul) (by decide)

/-- A generated password has its length and every class, and once it is stored the audit
reports nothing against it. -/
theorem generated_reported_ok (P : Platform) (hp : GcmSound P) (env : Env) (length : Nat)
    (hlength : 12 ≤ length) (hadmitted : env.allocates .cipher = true) :
    Generated length (generateRandomPassword env length) ∧
      ∀ (C : CliEnv) (saving : Env) (key : Bytes) (v : Vault) (listed : List ListedPassword)
        (i : Nat) (site login : Str),
        encryptStoragePayload P saving (generateRandomPassword env length) key ≠ [] →
        C.env.allocates .plaintext = true → listPasswords P C (some key) v = some listed →
        (vaultEntries v)[i]? =
          some (site, login, encryptStoragePayload P saving (generateRandomPassword env length) key) →
        (∀ j e, j ≠ i → (vaultEntries v)[j]? = some e →
          valueOf P C key e ≠ generateRandomPassword env length) →
        listed[i]? = some ⟨site, login, false⟩ := by
  have hgen : Generated length (generateRandomPassword env length) :=
    generateRandomPassword_generated (by omega) hadmitted
  refine ⟨hgen, fun C saving key v listed i site login henc hroom hlist he hother => ?_⟩
  refine hgen.listed hlength hlist he ?_ hother
  rw [valueOf, decrypt_encrypted_text hp henc hroom, cstr_of_notMem (nul_notMem hgen)]

section Examples

open Bench

/-- The key of the vault below. -/
def auditKey : Bytes := List.replicate 32 7

/-- A generated password beside one that the user chose. -/
def auditVault : Vault :=
  { passwords := [(text "example.com",
      [(text "alice", encryptStoragePayload platform (idleEnv 1 0)
          (generateRandomPassword (idleEnv 0 0) 16) auditKey),
        (text "bob", encryptStoragePayload platform (idleEnv 2 0) (text "hunter2") auditKey)])] }

theorem generated_reported_ok_bench :
    Generated 16 (generateRandomPassword (idleEnv 0 0) 16) ∧
      ((listPasswords platform (cliEnv (idleEnv 0 0) 0) (some auditKey) auditVault).getD [])[0]? =
        some ⟨text "example.com", text "alice", false⟩ := by
  have h := generated_reported_ok platform gcmSound_bench (idleEnv 0 0) 16 (by decide) rfl
  refine ⟨h.1, h.2 (cliEnv (idleEnv 0 0) 0) (idleEnv 1 0) auditKey auditVault _ 0 (text "example.com") (text "alice")
    (by decide +kernel) rfl (by decide +kernel) (by decide +kernel) fun j e hj he => ?_⟩
  rcases j with _ | _ | j
  · exact absurd rfl hj
  · cases he
    decide +kernel
  · cases he

end Examples

end GoiKey
