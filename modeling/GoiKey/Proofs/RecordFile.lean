import GoiKey.Lib.Reads
import GoiKey.Model.RecordLists
import GoiKey.Proofs.RoundTrips

/-! The record file holds the records written to it, for every reader of it. -/

namespace GoiKey.RecordFile

variable {P : Platform} {env : Env} {stray rest : Bytes} {s : Str} {r : PasskeyRecord}
variable {records : List PasskeyRecord}

/-- A string that its length field and its terminator can delimit. -/
structure Delimited (s : Str) : Prop where
  length : s.length < 2 ^ 16
  notMem : (0 : UInt8) ∉ s

/-- A record of which nothing is lost in the file. -/
structure Storable (r : PasskeyRecord) : Prop where
  algId : toInt32 (r.algId % 2 ^ 32).toNat = r.algId
  cid : Delimited r.cid
  rp : Delimited r.rp
  payload : Delimited r.payload

/-- A file of records, none of which lost anything. -/
structure PasskeyFile where
  records : List PasskeyRecord
  storable : ∀ r ∈ records, Storable r

def PasskeyFile.bytes (f : PasskeyFile) : Bytes := ofRecords f.records

/-! Reading back what was written. -/

@[simp] theorem littleEndian_length (n v : Nat) : (littleEndian n v).length = n := by
  simp [littleEndian]

theorem fromLittleEndian_littleEndian {n v : Nat} (h : v < 256 ^ n) :
    fromLittleEndian (littleEndian n v) = v := by
  simp [fromLittleEndian, littleEndian, fromBigEndian_bigEndian h]

theorem read_reads {b : Bytes} {n : Nat} (h : b.length = n) : Reads (read stray n) b b := by
  intro rest
  subst h
  have hover : overlay (padTo b.length stray) b = b := by
    rw [overlay, List.drop_of_length_le (by rw [padTo_length]), List.append_nil]
  simp [read, hover]

theorem writeString_delimited (h : Delimited s) : writeString s = littleEndian 2 s.length ++ s := by
  have hmod : s.length % 2 ^ 16 = s.length := Nat.mod_eq_of_lt h.length
  rw [writeString, hmod, List.take_length]

theorem readSpiffsString_reads (h : Delimited s) : Reads (readSpiffsString stray) (writeString s) s := by
  have hlen : fromLittleEndian (littleEndian 2 s.length) = s.length :=
    fromLittleEndian_littleEndian h.length
  rw [writeString_delimited h]
  refine .get fun rest => ?_
  have hcomplete : 2 ≤ (littleEndian 2 s.length ++ s ++ rest).length := by
    simp only [List.length_append, littleEndian_length]
    omega
  refine (Reads.bind (read_reads (littleEndian_length _ _)) ?_) rest
  rw [hlen, decide_eq_true hcomplete, if_neg (by decide)]
  by_cases he : s.length = 0
  · rw [if_pos he, List.length_eq_zero_iff.mp he]
    exact .pure []
  · rw [if_neg he]
    refine (read_reads rfl).bind_pure ?_
    rw [cstr_of_notMem h.notMem]
    exact .pure s

theorem readInt_reads {v : Int} (h : toInt32 (v % 2 ^ 32).toNat = v) :
    Reads (readInt stray) (writeInt v) v := by
  have hv : (v % 2 ^ 32).toNat < 256 ^ 4 := by omega
  refine (read_reads (littleEndian_length _ _)).bind_pure ?_
  rw [fromLittleEndian_littleEndian hv, h]
  exact .pure v

theorem readStatus_reads (r : PasskeyRecord) : Reads (read stray 1) [r.status] [r.status] :=
  read_reads rfl

theorem writeRecord_eq (r : PasskeyRecord) : writeRecord r = [r.status] ++ (writeInt r.algId ++
    (writeString r.cid ++ (writeString r.rp ++ writeString r.payload))) := by
  simp [writeRecord]

theorem readRecord_reads (h : Storable r) : Reads (readRecord stray) (writeRecord r) r := by
  rw [writeRecord_eq]
  refine (readStatus_reads r).bind ?_
  refine (readInt_reads h.algId).bind ?_
  refine (readSpiffsString_reads h.cid).bind ?_
  refine (readSpiffsString_reads h.rp).bind ?_
  exact (readSpiffsString_reads h.payload).bind_pure (.pure r)

/-- What a reader gets to know of a record before its payload. -/
def headerOf (r : PasskeyRecord) : Header := ⟨r.status, r.algId, r.cid, r.rp, r.payload.length⟩

/-- The part of a record in front of its payload. -/
def headerBytes (r : PasskeyRecord) : Bytes := [r.status] ++ (writeInt r.algId ++
  (writeString r.cid ++ (writeString r.rp ++ littleEndian 2 r.payload.length)))

theorem readHeader_reads (h : Storable r) : Reads (readHeader stray) (headerBytes r) (headerOf r) := by
  have hlen : fromLittleEndian (littleEndian 2 r.payload.length) = r.payload.length :=
    fromLittleEndian_littleEndian h.payload.length
  refine (readStatus_reads r).bind ?_
  refine (readInt_reads h.algId).bind ?_
  refine (readSpiffsString_reads h.cid).bind ?_
  refine (readSpiffsString_reads h.rp).bind ?_
  refine (read_reads (littleEndian_length _ _)).bind_pure ?_
  rw [hlen]
  exact .pure (headerOf r)

theorem writeRecord_header (h : Storable r) : writeRecord r = headerBytes r ++ r.payload := by
  simp only [writeRecord_eq, headerBytes, List.append_assoc, writeString_delimited h.payload]

/-! The loops over a file. -/

theorem ofRecords_cons : ofRecords (r :: records) = writeRecord r ++ ofRecords records := by
  rw [ofRecords, List.flatMap_cons, ofRecords]

theorem ofRecords_cons_ne_nil : ofRecords (r :: records) ≠ [] := by
  simp [ofRecords_cons, writeRecord]

/-- Every record takes a round of its loop, and there are enough of them. -/
theorem length_le_ofRecords (records : List PasskeyRecord) :
    records.length ≤ (ofRecords records).length := by
  induction records with
  | nil => exact Nat.zero_le _
  | cons r records ih =>
    rw [ofRecords_cons, List.length_append, List.length_cons, writeRecord, List.length_cons]
    omega

/-- Whole records in front of anything else are gone through one by one. -/
theorem search_append (wanted : Header → Str → Bool) (hs : ∀ r ∈ records, Storable r) (tail : Bytes)
    (n : Nat) : search stray wanted (records.length + n) (ofRecords records ++ tail) =
      match records.find? fun r => wanted (headerOf r) r.payload with
      | some r => some (headerOf r, r.payload)
      | none => search stray wanted n tail := by
  induction records with
  | nil => simp [ofRecords]
  | cons r records ih =>
    have hr := hs r List.mem_cons_self
    have hfuel : (r :: records).length + n = records.length + n + 1 := by
      rw [List.length_cons]
      omega
    have hfile : ofRecords (r :: records) ++ tail =
        headerBytes r ++ (r.payload ++ (ofRecords records ++ tail)) := by
      simp only [ofRecords_cons, writeRecord_header hr, List.append_assoc]
    have hpayload : read stray (headerOf r).payLen (r.payload ++ (ofRecords records ++ tail)) =
        (r.payload, ofRecords records ++ tail) := read_reads rfl _
    have hnil : ofRecords (r :: records) ++ tail ≠ [] := by simp [ofRecords_cons_ne_nil]
    rw [hfuel, search, if_neg hnil, hfile, readHeader_reads hr]
    simp only [hpayload, cstr_of_notMem hr.payload.notMem, List.find?_cons]
    cases wanted (headerOf r) r.payload with
    | true => rfl
    | false => exact ih fun r hr => hs r (List.mem_cons_of_mem _ hr)

theorem search_nil (wanted : Header → Str → Bool) (n : Nat) : search stray wanted n [] = none := by
  cases n <;> rfl

theorem search_ofRecords (wanted : Header → Str → Bool) (hs : ∀ r ∈ records, Storable r) {n : Nat}
    (hn : records.length ≤ n) : search stray wanted n (ofRecords records) =
      (records.find? fun r => wanted (headerOf r) r.payload).map fun r => (headerOf r, r.payload) := by
  obtain ⟨m, rfl⟩ := Nat.exists_eq_add_of_le hn
  rw [← List.append_nil (ofRecords records), search_append wanted hs [] m, search_nil]
  cases records.find? fun r => wanted (headerOf r) r.payload <;> rfl

theorem find_ofRecords (wanted : Header → Str → Bool) (hs : ∀ r ∈ records, Storable r) :
    find env stray (ofRecords records) wanted = if env.opens .passkeys .read then
      (records.find? fun r => wanted (headerOf r) r.payload).map fun r => (headerOf r, r.payload)
    else none := by
  rw [find, search_ofRecords wanted hs (length_le_ofRecords records)]

/-- The records that the rewriting loops read off a file. -/
def recordsIn (stray : Bytes) : Nat → Bytes → List PasskeyRecord
  | 0, _ => []
  | n + 1, file =>
    if file = [] then []
    else (readRecord stray file).1 :: recordsIn stray n (readRecord stray file).2

theorem copyRecords_eq (hit : PasskeyRecord → Bool) (n : Nat) (file : Bytes) :
    copyRecords stray hit n file = ((recordsIn stray n file).any fun r => r.status == 1 && hit r,
      ofRecords ((recordsIn stray n file).filter fun r => r.status == 1 && !hit r)) := by
  induction n generalizing file with
  | zero => rfl
  | succ n ih =>
    by_cases hnil : file = []
    · rw [copyRecords, recordsIn, if_pos hnil, if_pos hnil]
      rfl
    · rw [copyRecords, recordsIn, if_neg hnil, if_neg hnil]
      obtain ⟨r, rest⟩ := readRecord stray file
      simp only [ih, List.any_cons, List.filter_cons]
      cases r.status == 1 <;> cases hit r <;> simp [ofRecords_cons]

theorem recordsIn_ofRecords (hs : ∀ r ∈ records, Storable r) {n : Nat} (hn : records.length ≤ n) :
    recordsIn stray n (ofRecords records) = records := by
  induction records generalizing n with
  | nil => cases n <;> simp [recordsIn, ofRecords]
  | cons r records ih =>
    obtain ⟨n, rfl⟩ : ∃ m, n = m + 1 := ⟨n - 1, by simp at hn; omega⟩
    have hrest := ih (fun r hr => hs r (List.mem_cons_of_mem _ hr)) (n := n) (by simpa using hn)
    rw [recordsIn, if_neg ofRecords_cons_ne_nil, ofRecords_cons,
      readRecord_reads (hs r List.mem_cons_self), hrest]

theorem copyRecords_ofRecords (hit : PasskeyRecord → Bool) (hs : ∀ r ∈ records, Storable r) {n : Nat}
    (hn : records.length ≤ n) : copyRecords stray hit n (ofRecords records) =
      (records.any fun r => r.status == 1 && hit r,
        ofRecords (records.filter fun r => r.status == 1 && !hit r)) := by
  rw [copyRecords_eq, recordsIn_ofRecords hs hn]

theorem rewrite_ofRecords (hit : PasskeyRecord → Bool) (k : Keystore)
    (hs : ∀ r ∈ k.passkeys, Storable r) :
    rewrite env stray (ofRecords k.passkeys) hit = ((rewritePasskeys env k hit).1,
      ofRecords (rewritePasskeys env k hit).2.passkeys) := by
  unfold rewrite rewritePasskeys
  rw [copyRecords_ofRecords hit hs (length_le_ofRecords _)]
  split
  · rfl
  · cases k.passkeys.any fun r => r.status == 1 && hit r <;> rfl

/-! The functions of the model on the bytes of its records. -/

theorem savePasskeyRecord_ofRecords (k : Keystore) (cid : Str) (c : StoredCredential) :
    savePasskeyRecord P env (ofRecords k.passkeys) cid c =
      (GoiKey.savePasskeyRecord P env k cid c).map fun k => ofRecords k.passkeys := by
  unfold savePasskeyRecord GoiKey.savePasskeyRecord
  simp only
  split
  · rfl
  · split
    · simp [ofRecords]
    · rfl

theorem getPasskeyRecord_ofRecords (k : Keystore) (hs : ∀ r ∈ k.passkeys, Storable r) (cid : Str) :
    getPasskeyRecord P env stray (ofRecords k.passkeys) cid = GoiKey.getPasskeyRecord P env k cid := by
  unfold getPasskeyRecord GoiKey.getPasskeyRecord readPasskeys
  rw [find_ofRecords _ hs]
  cases env.opens .passkeys .read with
  | false => rfl
  | true =>
    simp only [if_true, headerOf]
    cases k.passkeys.find? fun r => r.status == 1 && r.cid == cid with
    | none => rfl
    | some r => rfl

theorem findCredentialIdByRpAndUser_ofRecords (k : Keystore) (hs : ∀ r ∈ k.passkeys, Storable r)
    (rpId userIdHex : Str) :
    findCredentialIdByRpAndUser P env stray (ofRecords k.passkeys) rpId userIdHex =
      GoiKey.findCredentialIdByRpAndUser P env k rpId userIdHex := by
  unfold findCredentialIdByRpAndUser GoiKey.findCredentialIdByRpAndUser readPasskeys
  rw [find_ofRecords _ hs]
  cases env.opens .passkeys .read with
  | false => rfl
  | true =>
    simp only [if_true, headerOf, recordUserId, decryptRecord]
    split
    next h => simp only [Option.map_eq_none_iff] at h; rw [h]
    next h payload hfind =>
      obtain ⟨r, hr, he⟩ := Option.map_eq_some_iff.mp hfind
      cases he
      rw [hr]

end GoiKey.RecordFile
