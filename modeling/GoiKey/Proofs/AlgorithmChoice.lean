import GoiKey.Model.Bench
import GoiKey.Proofs.Extraction
import GoiKey.Proofs.Handlers
import Mathlib.Data.List.Induction

/-!
The algorithm that MakeCredential makes a key for, out of those that a request lists.
-/

namespace GoiKey

open CborGrammar

variable {P : Platform} {env : Env} {defaultCryptoAlg a : Int} {algs : List Int} {v : Datum}

/-! The preference. -/

/-- Those that a key can be made for. -/
def supportedAlgorithms : List Int := [-48, -49, -50, -7, -8, -257]

def isEdDsaOrRsa (algId : Int) : Bool := algId == -8 || algId == -257

def listsMlDsa (algs : List Int) : Bool := algs.any isMlDsa

@[simp] theorem listsMlDsa_snoc : listsMlDsa (algs ++ [a]) = (listsMlDsa algs || isMlDsa a) := by
  simp [listsMlDsa, List.any_append]

/-- The default if it is listed, else the last ML-DSA, else ES256, else the last of the
other two. -/
def preferred (defaultCryptoAlg : Int) (algs : List Int) : Option Int :=
  if defaultCryptoAlg ∈ algs then some defaultCryptoAlg
  else if listsMlDsa algs then (algs.filter isMlDsa).getLast?
  else if -7 ∈ algs then some (-7)
  else (algs.filter isEdDsaOrRsa).getLast?

theorem isMlDsa_supported (h : isMlDsa a = true) : a ∈ supportedAlgorithms := by
  simp only [isMlDsa, Bool.or_eq_true, beq_iff_eq] at h
  simp only [supportedAlgorithms, List.mem_cons]
  omega

theorem isEdDsaOrRsa_supported (h : isEdDsaOrRsa a = true) : a ∈ supportedAlgorithms := by
  simp only [isEdDsaOrRsa, Bool.or_eq_true, beq_iff_eq] at h
  simp only [supportedAlgorithms, List.mem_cons]
  omega

theorem supported_cases (h : a ∈ supportedAlgorithms) :
    isMlDsa a = true ∨ a = -7 ∨ isEdDsaOrRsa a = true := by
  simp only [supportedAlgorithms, List.mem_cons, List.not_mem_nil, or_false] at h
  simp only [isMlDsa, isEdDsaOrRsa, Bool.or_eq_true, beq_iff_eq]
  omega

/-- There is no key for any other. -/
theorem generateCredentialKey_unsupported (h : a ∉ supportedAlgorithms) :
    generateCredentialKey P env a = none := by
  have hml : ¬isMlDsa a := fun hml => h (isMlDsa_supported hml)
  simp only [supportedAlgorithms, List.mem_cons, not_or] at h
  rw [generateCredentialKey, if_neg h.2.2.2.1, if_neg h.2.2.2.2.1, if_neg h.2.2.2.2.2.1, if_neg hml]

theorem getLast_filter_mem {p : Int → Bool} (h : a ∈ (algs.filter p).getLast?) : a ∈ algs ∧ p a = true :=
  List.mem_filter.mp (List.mem_of_getLast? h)

/-- What is preferred is listed, and the default or one there are keys for. -/
theorem preferred_mem (h : a ∈ preferred defaultCryptoAlg algs) :
    a ∈ algs ∧ (a = defaultCryptoAlg ∨ a ∈ supportedAlgorithms) := by
  unfold preferred at h
  split at h
  next hd =>
    obtain rfl := Option.some.inj h
    exact ⟨hd, .inl rfl⟩
  next =>
  split at h
  next =>
    obtain ⟨hmem, hml⟩ := getLast_filter_mem h
    exact ⟨hmem, .inr (isMlDsa_supported hml)⟩
  next =>
  split at h
  next hes =>
    obtain rfl := Option.some.inj h
    exact ⟨hes, .inr (by decide)⟩
  next =>
    obtain ⟨hmem, hother⟩ := getLast_filter_mem h
    exact ⟨hmem, .inr (isEdDsaOrRsa_supported hother)⟩

/-- Nothing is preferred only where neither the default nor a supported one is listed. -/
theorem preferred_eq_none_iff : preferred defaultCryptoAlg algs = none ↔
    ∀ a ∈ algs, a ≠ defaultCryptoAlg ∧ a ∉ supportedAlgorithms := by
  constructor
  · intro h a ha
    unfold preferred at h
    split at h
    next => cases h
    next hd =>
    refine ⟨fun he => hd (he ▸ ha), fun hs => ?_⟩
    split at h
    next hany =>
      obtain ⟨x, hx, hml⟩ := List.any_eq_true.mp hany
      exact List.ne_nil_of_mem (List.mem_filter.mpr ⟨hx, hml⟩) (List.getLast?_eq_none_iff.mp h)
    next hany =>
    split at h
    next => cases h
    next hes =>
      rcases supported_cases hs with hml | rfl | hother
      · exact hany (List.any_eq_true.mpr ⟨a, ha, hml⟩)
      · exact hes ha
      · exact List.ne_nil_of_mem (List.mem_filter.mpr ⟨ha, hother⟩) (List.getLast?_eq_none_iff.mp h)
  · intro h
    cases hp : preferred defaultCryptoAlg algs with
    | none => rfl
    | some a =>
      obtain ⟨hmem, hd | hs⟩ := preferred_mem hp
      · exact absurd hd (h a hmem).1
      · exact absurd hs (h a hmem).2

/-! The loop. -/

/-- The choice after a number of offers. -/
structure Chosen (defaultCryptoAlg before : Int) (algs : List Int) (c : AlgorithmChoice) : Prop where
  selected : c.selectedAlgId = (preferred defaultCryptoAlg algs).getD before
  foundDefault : c.foundDefault = decide (defaultCryptoAlg ∈ algs)
  foundPQC : defaultCryptoAlg ∉ algs → c.foundPQC = listsMlDsa algs
  foundES256 : defaultCryptoAlg ∉ algs → listsMlDsa algs = false → c.foundES256 = decide (-7 ∈ algs)

theorem offer_eq (c : AlgorithmChoice) (a : Int) : c.offer defaultCryptoAlg a =
    if a = defaultCryptoAlg then { c with selectedAlgId := defaultCryptoAlg, foundDefault := true }
    else if c.foundDefault then c
    else if isMlDsa a then { c with selectedAlgId := a, foundPQC := true }
    else if !c.foundPQC && a == -7 then { c with selectedAlgId := -7, foundES256 := true }
    else if !c.foundPQC && !c.foundES256 && isEdDsaOrRsa a then { c with selectedAlgId := a }
    else c := rfl

theorem chosen_offer {before : Int} {c : AlgorithmChoice} (h : Chosen defaultCryptoAlg before algs c) (a : Int) :
    Chosen defaultCryptoAlg before (algs ++ [a]) (c.offer defaultCryptoAlg a) := by
  obtain ⟨hs, hd, hp, he⟩ := h
  rw [offer_eq]
  by_cases had : a = defaultCryptoAlg
  · subst had
    constructor <;> simp [preferred]
  have hda : ¬defaultCryptoAlg = a := fun h => had h.symm
  by_cases hdef : defaultCryptoAlg ∈ algs
  · constructor <;> simp [preferred, had, hdef, hd, hs]
  have hpqc := hp hdef
  cases hml : isMlDsa a with
  | true => constructor <;> simp [preferred, had, hda, hdef, hd, hml]
  | false =>
  cases hany : listsMlDsa algs with
  | true => constructor <;> simp [preferred, had, hda, hdef, hd, hml, hany, hpqc, hs]
  | false =>
  have hes := he hdef hany
  by_cases h7 : a = -7
  · subst h7
    constructor <;> simp [preferred, had, hda, hdef, hd, hml, hany, hpqc]
  have h7a : ¬-7 = a := fun h => h7 h.symm
  by_cases h7s : -7 ∈ algs
  · constructor <;> simp [preferred, had, hda, hdef, hd, hml, hany, hpqc, h7, h7s, hes, hs]
  cases hother : isEdDsaOrRsa a with
  | true => constructor <;> simp [preferred, had, hda, hdef, hd, hml, hany, hpqc, h7, h7a, h7s, hes, hother]
  | false => constructor <;> simp [preferred, had, hda, hdef, hd, hml, hany, hpqc, h7, h7a, h7s, hes, hs, hother]

def chosenOf (defaultCryptoAlg before : Int) (algs : List Int) : AlgorithmChoice :=
  algs.foldl (fun c a => c.offer defaultCryptoAlg a) { selectedAlgId := before }

theorem chosen_offers (before : Int) (algs : List Int) : Chosen defaultCryptoAlg before algs
    (chosenOf defaultCryptoAlg before algs) := by
  unfold chosenOf
  induction algs using List.reverseRecOn with
  | nil => constructor <;> simp [preferred, listsMlDsa]
  | append_singleton algs a ih =>
    rw [List.foldl_append]
    exact chosen_offer ih a

/-- A round of the loop over the parameters. -/
def offerRound (defaultCryptoAlg : Int) (c : AlgorithmChoice) : Parse AlgorithmChoice := do
  match ← readTyped 5 with
  | some m => return c.offer defaultCryptoAlg (← readAlgorithm m)
  | none => skipping c

/-- The same round, with the algorithms that were read so far. -/
def readRound (algs : List Int) : Parse (List Int) := do
  match ← readTyped 5 with
  | some m => return algs ++ [← readAlgorithm m]
  | none => skipping algs

/-- The algorithms that the rounds of the loop read. -/
def offeredAlgorithms : Parse (List Int) := do
  match ← readTyped 4 with
  | some n => loop readRound n []
  | none => skipping []

/-- What a loop computes can be computed behind a second one that keeps less or more. -/
theorem loop_map {ρ τ : Type} {f : ρ → τ} {body : ρ → Parse ρ} {image : τ → Parse τ}
    (h : ∀ r, image (f r) = f <$> body r) (n : Nat) (r : ρ) : loop image n (f r) = f <$> loop body n r := by
  induction n generalizing r with
  | zero => rfl
  | succ n ih =>
    change (image (f r) >>= loop image n) = f <$> (body r >>= loop body n)
    rw [h, map_bind, bind_map_left]
    exact bind_congr ih

theorem offerRound_chosenOf (before : Int) (algs : List Int) :
    offerRound defaultCryptoAlg (chosenOf defaultCryptoAlg before algs) =
      chosenOf defaultCryptoAlg before <$> readRound algs := by
  simp only [offerRound, readRound, map_bind]
  refine bind_congr fun m => ?_
  cases m with
  | none => simp only [skipping, map_bind, map_pure]
  | some m => simp only [map_bind, map_pure, chosenOf, List.foldl_append, List.foldl_cons, List.foldl_nil]

theorem readAlgorithms_offers (before : Int) (n : Nat) :
    readAlgorithms defaultCryptoAlg n { selectedAlgId := before } =
      chosenOf defaultCryptoAlg before <$> loop readRound n [] :=
  loop_map (offerRound_chosenOf before) n []

/-- Whatever the bytes, the algorithm is the preferred one of those that the rounds read. -/
theorem readCreateField_algorithm (r : MakeCredentialRequest) : readCreateField defaultCryptoAlg 0x04 r =
    (fun algs => { r with selectedAlgId := (preferred defaultCryptoAlg algs).getD r.selectedAlgId }) <$>
      offeredAlgorithms := by
  simp only [readCreateField, offeredAlgorithms, map_bind]
  refine bind_congr fun n => ?_
  cases n with
  | none =>
    simp only [skipping, map_bind, map_pure]
    rfl
  | some n =>
    simp only [readAlgorithms_offers, bind_pure_comp, Functor.map_map, (chosen_offers _ _).selected]

/-! Well-formed arrays. -/

def integer? : Datum → Option Int
  | .number 0 v _ => some v
  | .number 1 v _ => some (-1 - v)
  | _ => none

/-- The algorithm of a parameter; 0 where it names none. -/
def parameterAlgorithm (p : Datum) : Int := latest ((p.atName (text "alg")).filterMap integer?) 0

def listedAlgorithms (d : Datum) : List Int := d.items.map parameterAlgorithm

/-- A number as an `int`. -/
def narrow (a : Int) : Int := a.bmod (2 ^ 32)

/-- An `int`, or one that is taken for no algorithm that counts. -/
def Unmistaken (defaultCryptoAlg a : Int) : Prop :=
  narrow a = a ∨ (narrow a ≠ defaultCryptoAlg ∧ narrow a ∉ supportedAlgorithms)

theorem toInt32_narrow (n : Nat) : toInt32 n = narrow n := rfl

theorem narrow_sub (a : Int) : -1 - narrow a = narrow (-1 - a) := by
  unfold narrow
  have hsize : (2 : Nat) ^ 32 = 4294967296 := by norm_num
  rw [hsize, Int.bmod_def, Int.bmod_def]
  split <;> split <;> omega

theorem algorithmOf_narrow (v : Datum) (a : Int) :
    algorithmOf toInt32 v (narrow a) = narrow ((integer? v).getD a) := by
  cases v with
  | number major n h =>
    match major with
    | 0 => rw [algorithmOf, integer?, Option.getD_some, toInt32_narrow]
    | 1 => rw [algorithmOf, integer?, Option.getD_some, toInt32_narrow, narrow_sub]
    | _ + 2 => rfl
  | _ => rfl

theorem algorithmEntry (e : Datum × Datum) (a : Int) : namedStep algorithmStep (narrow a) e =
    narrow (if e.1.str? 3 = some (text "alg") then (integer? e.2).getD a else a) := by
  unfold namedStep
  cases hk : e.1.str? 3 with
  | none => rfl
  | some s =>
    by_cases hs : s = text "alg"
    · simp [algorithmStep, hs, algorithmOf_narrow]
    · simp [algorithmStep, hs]

theorem algorithmEntries (h : Bytes) (es : List (Datum × Datum)) (a : Int) :
    es.foldl (namedStep algorithmStep) (narrow a) =
      narrow (latest (((Datum.map h es).atName (text "alg")).filterMap integer?) a) := by
  induction es generalizing a with
  | nil => rfl
  | cons e es ih =>
    rw [List.foldl_cons, algorithmEntry, ih, atName_cons, List.filterMap_append, latest_append]
    by_cases hs : e.1.str? 3 = some (text "alg")
    · cases hv : integer? e.2 <;> simp [hs, hv]
    · simp [hs]

theorem parameterAlgorithm_entries (p : Datum) :
    p.entries.foldl (namedStep algorithmStep) 0 = narrow (parameterAlgorithm p) :=
  algorithmEntries [] p.entries 0

theorem chosenAlgorithm_eq (v : Datum) (before : Int) : chosenAlgorithm defaultCryptoAlg v before =
    (preferred defaultCryptoAlg ((listedAlgorithms v).map narrow)).getD before := by
  rw [← (chosen_offers before _).selected, chosenOf, listedAlgorithms, List.map_map, List.foldl_map]
  simp only [chosenAlgorithm, parameterAlgorithm_entries, Function.comp_apply]

theorem mem_map_narrow (hu : ∀ a ∈ algs, Unmistaken defaultCryptoAlg a) (ha : narrow a = a)
    (hcounts : a = defaultCryptoAlg ∨ a ∈ supportedAlgorithms) : a ∈ algs.map narrow ↔ a ∈ algs := by
  constructor
  · intro h
    obtain ⟨x, hx, rfl⟩ := List.mem_map.mp h
    rcases hu x hx with hsame | ⟨hdef, hsup⟩
    · rwa [hsame]
    · exact absurd hcounts (not_or.mpr ⟨hdef, hsup⟩)
  · exact fun h => List.mem_map.mpr ⟨a, h, ha⟩

theorem narrow_supported : ∀ a ∈ supportedAlgorithms, narrow a = a := by decide

theorem filter_map_narrow {p : Int → Bool} (hp : ∀ a, p a = true → a ∈ supportedAlgorithms)
    (hu : ∀ a ∈ algs, Unmistaken defaultCryptoAlg a) : (algs.map narrow).filter p = algs.filter p := by
  induction algs with
  | nil => rfl
  | cons a algs ih =>
    have hrest := ih fun x hx => hu x (List.mem_cons_of_mem _ hx)
    rw [List.map_cons, List.filter_cons, List.filter_cons, hrest]
    rcases hu a List.mem_cons_self with hsame | ⟨-, hsup⟩
    · rw [hsame]
    · have hnarrow : ¬p (narrow a) = true := fun h => hsup (hp _ h)
      have hplain : ¬p a = true := fun h => hsup (by rw [narrow_supported a (hp a h)]; exact hp a h)
      rw [if_neg hnarrow, if_neg hplain]

/-- Where no number is mistaken for another, the same one is preferred. -/
theorem preferred_narrow (hd : narrow defaultCryptoAlg = defaultCryptoAlg)
    (hu : ∀ a ∈ algs, Unmistaken defaultCryptoAlg a) :
    preferred defaultCryptoAlg (algs.map narrow) = preferred defaultCryptoAlg algs := by
  have hmldsa := filter_map_narrow (p := isMlDsa) (fun _ => isMlDsa_supported) hu
  have hother := filter_map_narrow (p := isEdDsaOrRsa) (fun _ => isEdDsaOrRsa_supported) hu
  have hany : listsMlDsa (algs.map narrow) = listsMlDsa algs := by
    have hlisted : ∀ l, listsMlDsa l = true ↔ l.filter isMlDsa ≠ [] := by simp [listsMlDsa]
    rw [Bool.eq_iff_iff, hlisted, hlisted, hmldsa]
  have hdefault : defaultCryptoAlg ∈ algs.map narrow ↔ defaultCryptoAlg ∈ algs := mem_map_narrow hu hd (.inl rfl)
  have hes : -7 ∈ algs.map narrow ↔ -7 ∈ algs := mem_map_narrow hu (by decide) (.inr (by decide))
  simp only [preferred, hmldsa, hother, hany, hdefault, hes]

/-! Whole requests. -/

/-- The parameters are taken off the input, and the one preferred among them is selected. -/
theorem readParams_preferred (hd : narrow defaultCryptoAlg = defaultCryptoAlg) (hv : v.Valid)
    (hf : createFits 0x04 v) (hu : ∀ a ∈ listedAlgorithms v, Unmistaken defaultCryptoAlg a)
    (r : MakeCredentialRequest) : Reads (readCreateField defaultCryptoAlg 0x04 r) v.bytes
      { r with selectedAlgId := (preferred defaultCryptoAlg (listedAlgorithms v)).getD r.selectedAlgId } := by
  have hread : Reads (readCreateField defaultCryptoAlg 0x04 r) v.bytes (createStep defaultCryptoAlg 0x04 v r) :=
    readParams_reads r hv hf
  rwa [createStep, chosenAlgorithm_eq, preferred_narrow hd hu] at hread

theorem parseMakeCredential_algorithm {d : Datum} (hd : d.Valid) (hf : CreateFits d) (hparams : d.atKey 0x04 = [v]) :
    (parseMakeCredential defaultCryptoAlg d.bytes).selectedAlgId =
      chosenAlgorithm defaultCryptoAlg v defaultCryptoAlg := by
  obtain ⟨⟨h, es, rfl, hes⟩, hfew⟩ := hf
  have hall : parseMakeCredential defaultCryptoAlg ((Datum.map h es).bytes ++ []) =
      es.foldl (numberedStep (createStep defaultCryptoAlg)) { selectedAlgId := defaultCryptoAlg } := by
    unfold parseMakeCredential
    exact congrArg Prod.fst (readMap_reads hd
      (keyedLoop_reads hd hes (fun n v r hv hf => readCreateField_reads r hv hf) _) [])
  rw [List.append_nil] at hall
  rw [hall, createEntries, hparams]
  rfl

/-- No request is refused for its algorithms. -/
theorem makeCredential_reply_ne (d : Device) (req : MakeCredentialRequest) :
    (makeCredential P env d req).reply ≠ .status 0x26 := by
  intro h
  unfold makeCredential at h
  split at h
  · cases h
  split at h
  · cases h
  split at h
  · cases h
  · cases h
  · rcases register_status h with hcode | hcode <;> cases hcode

/-- Which algorithm MakeCredential selects, and that it never finds none supported. -/
structure AlgorithmSelected (defaultCryptoAlg : Int) : Prop where
  /-- Whatever the bytes: by the algorithms that the rounds of the loop read. -/
  rounds : ∀ r b, (readCreateField defaultCryptoAlg 0x04 r b).1.selectedAlgId =
    (preferred defaultCryptoAlg (offeredAlgorithms b).1).getD r.selectedAlgId
  field : ∀ v, v.Valid → createFits 0x04 v →
    (∀ a ∈ listedAlgorithms v, Unmistaken defaultCryptoAlg a) → ∀ r,
      Reads (readCreateField defaultCryptoAlg 0x04 r) v.bytes
        { r with selectedAlgId := (preferred defaultCryptoAlg (listedAlgorithms v)).getD r.selectedAlgId }
  request : ∀ d v, d.Valid → CreateFits d → d.atKey 0x04 = [v] → v.Valid →
    (∀ a ∈ listedAlgorithms v, Unmistaken defaultCryptoAlg a) →
      (parseMakeCredential defaultCryptoAlg d.bytes).selectedAlgId =
        (preferred defaultCryptoAlg (listedAlgorithms v)).getD defaultCryptoAlg
  present : ∀ algs, ∀ a ∈ preferred defaultCryptoAlg algs,
    a ∈ algs ∧ (a = defaultCryptoAlg ∨ a ∈ supportedAlgorithms)
  absent : ∀ algs, preferred defaultCryptoAlg algs = none ↔
    ∀ a ∈ algs, a ≠ defaultCryptoAlg ∧ a ∉ supportedAlgorithms
  noError : ∀ P env d req, (makeCredential P env d req).reply ≠ .status 0x26

theorem algorithm_selected (hd : narrow defaultCryptoAlg = defaultCryptoAlg) :
    AlgorithmSelected defaultCryptoAlg where
  rounds r b := by
    rw [readCreateField_algorithm]
    rfl
  field v hv hf hu r := readParams_preferred hd hv hf hu r
  request d v hv hf hparams hvalid hu := by
    rw [parseMakeCredential_algorithm hv hf hparams, chosenAlgorithm_eq, preferred_narrow hd hu]
  present algs a ha := preferred_mem ha
  absent algs := preferred_eq_none_iff
  noError P env d req := makeCredential_reply_ne d req

/-- RS256 and then ES256. -/
def paramsSample : Datum :=
  .array [initialByte 4 2]
    [.map [initialByte 5 1] [(shortText "alg", .number 1 256 [0x39, 0x01, 0x00])],
     .map [initialByte 5 1] [(shortText "alg", .number 1 6 [initialByte 1 6])]]

theorem paramsSample_valid : paramsSample.Valid := by
  have halg : (shortText "alg").Valid := shortText_valid (by decide)
  have hwidth : argumentWidth 25 = some [(0x01 : UInt8), 0x00].length := rfl
  refine .array (.short (by decide)) (List.forall_mem_cons.mpr ⟨?_, List.forall_mem_singleton.mpr ?_⟩)
  · refine .map (.short (by decide)) (List.forall_mem_singleton.mpr halg) (List.forall_mem_singleton.mpr ?_)
    exact .number (by decide) (.long hwidth) (by decide)
  · refine .map (.short (by decide)) (List.forall_mem_singleton.mpr halg) (List.forall_mem_singleton.mpr ?_)
    exact .number (by decide) (.short (by decide)) (by decide)

theorem paramsSample_fits : createFits 0x04 paramsSample := by
  have halg : ∀ v : Datum, v.isHead = true → Named 32 parameterFits (shortText "alg") v := by
    intro v hv
    refine named_shortText (by decide) (by decide) ?_
    rw [parameterFits, if_pos rfl]
    exact hv
  refine ⟨_, _, rfl, List.forall_mem_cons.mpr ⟨?_, List.forall_mem_singleton.mpr ?_⟩⟩
  · exact ⟨_, _, rfl, List.forall_mem_singleton.mpr (halg _ rfl)⟩
  · exact ⟨_, _, rfl, List.forall_mem_singleton.mpr (halg _ rfl)⟩

theorem algorithm_selected_es256 : AlgorithmSelected (-48) ∧
    Reads (readCreateField (-48) 0x04 { selectedAlgId := -48 }) paramsSample.bytes { selectedAlgId := -7 } := by
  have hall : AlgorithmSelected (-48) := algorithm_selected (by decide)
  have hlisted : listedAlgorithms paramsSample = [-257, -7] := by decide
  refine ⟨hall, ?_⟩
  have hread := hall.field paramsSample paramsSample_valid paramsSample_fits
    (by rw [hlisted]; exact fun a ha => .inl (by revert a; decide)) { selectedAlgId := -48 }
  rwa [hlisted] at hread

/-- For a signature scheme that there are no keys for. -/
def unsupportedSample : Datum :=
  .map [initialByte 5 4]
    [(numberKey 1, sampleHash),
     (numberKey 2, .map [initialByte 5 1] [(shortText "id", shortText "a.b")]),
     (numberKey 3, .map [initialByte 5 1] [(shortText "id", .string 2 [initialByte 2 1] [1])]),
     (numberKey 4, .array [initialByte 4 1]
       [.map [initialByte 5 1] [(shortText "alg", .number 1 0xFFFE [0x39, 0xFF, 0xFE])]])]

open Bench in
/-- It is answered with a key of the default. -/
theorem unsupported_not_refused :
    ¬ ((makeCredential platform (touchedEnv 1 70000 99) enrolled
          (parseMakeCredential (-7) unsupportedSample.bytes)).reply = .status 0x26 ↔
        ∀ v ∈ unsupportedSample.atKey 0x04, ∀ a ∈ listedAlgorithms v, a ∉ supportedAlgorithms) ∧
      ∀ v ∈ unsupportedSample.atKey 0x04,
        (parseMakeCredential (-7) unsupportedSample.bytes).selectedAlgId ∉ listedAlgorithms v := by
  decide +kernel

end GoiKey
