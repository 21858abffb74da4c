import Minnal.Index.BitsetContainer

/-!
# Containers of three kinds

A container is an array, a bitset or a list of runs, and changes its kind as its contents
change. Whatever the kind, it stands for **the ascending list of its values** (`toValues`); its
cached cardinality is the length of that list, and optimising it leaves the list as it is. The
operations dispatch over all pairs of kinds; each is a set operation on the values, the
difference of two run containers excepted (`mem_toValues_andNot`).
-/

namespace Minnal

open BitsetContainer

open SortedMap (Ascending)

/-- The three kinds of containers. -/
inductive Container where
  | array (a : ArrayContainer)
  | bitset (b : BitsetContainer)
  | run (r : RunContainer)
deriving DecidableEq

namespace Container

/-- The values in order. -/
def toValues : Container → List ℕ
  | array a => a.values
  | bitset b => b.toValues
  | run r => r.toValues

@[simp] theorem toValues_array (a : ArrayContainer) : (array a).toValues = a.values := rfl

@[simp] theorem toValues_bitset (b : BitsetContainer) : (bitset b).toValues = b.toValues := rfl

@[simp] theorem toValues_run (r : RunContainer) : (run r).toValues = r.toValues := rfl

theorem sortedLows_toValues (c : Container) : SortedLows c.toValues := by
  cases c with
  | array a => exact a.sorted
  | bitset b => exact b.sortedLows_toValues
  | run r => exact r.sortedLows_toValues

theorem lt_of_mem_toValues {c : Container} {v : ℕ} (h : v ∈ c.toValues) : v < 65536 :=
  c.sortedLows_toValues.bounded v h

/-- `new_array`: the empty container. -/
def newArray : Container := array ArrayContainer.new

/-- The cached count of the container. -/
def cardinality : Container → ℕ
  | array a => a.cardinality
  | bitset b => b.cardinality
  | run r => r.cardinality

theorem cardinality_eq (c : Container) : c.cardinality = c.toValues.length := by
  cases c with
  | array a => rfl
  | bitset b => exact b.cardinality_eq
  | run r => exact r.cardinality_eq

def isEmpty (c : Container) : Bool := c.cardinality = 0

theorem isEmpty_iff {c : Container} : c.isEmpty = true ↔ c.toValues = [] := by
  rw [isEmpty, cardinality_eq, decide_eq_true_iff, List.length_eq_zero_iff]

def contains (c : Container) (v : ℕ) : Bool :=
  match c with
  | array a => a.contains v
  | bitset b => b.contains v
  | run r => r.contains v

@[simp] theorem contains_eq (c : Container) (v : ℕ) : c.contains v = decide (v ∈ c.toValues) := by
  cases c with
  | array a => exact a.contains_eq v
  | bitset b => exact b.contains_eq v
  | run r => exact r.contains_eq v

/-! ### Choosing the kind -/

/-- An array that has grown too long becomes a bitset. -/
def promote (a : ArrayContainer) : Container :=
  if a.shouldPromote then bitset (BitsetContainer.fromValues a.values a.sorted) else array a

/-- A bitset that has become too sparse becomes an array. -/
def demote (b : BitsetContainer) : Container :=
  if b.shouldDemote then array (ArrayContainer.fromSorted b.toValues b.sortedLows_toValues)
  else bitset b

/-- A list of values becomes a bitset or an array, by its length. -/
def ofValues (values : List ℕ) (h : SortedLows values) : Container :=
  if arrayToBitsetThreshold ≤ values.length then bitset (BitsetContainer.fromValues values h)
  else array (ArrayContainer.fromSorted values h)

/-- A list of runs stays one only while it takes less memory than an array. -/
def ofRuns (r : RunContainer) : Container :=
  if r.isEfficient then run r else ofValues r.toValues r.sortedLows_toValues

/-- Containers of the same values are lists of the same values. -/
theorem toValues_eq_of_mem {c : Container} {l : List ℕ} (hl : SortedLows l)
    (h : ∀ v, v ∈ c.toValues ↔ v ∈ l) : c.toValues = l :=
  c.sortedLows_toValues.eq_of_mem_iff hl h

@[simp] theorem toValues_bitset_fromValues {values : List ℕ} (h : SortedLows values) :
    (fromValues values h).toValues = values :=
  (BitsetContainer.sortedLows_toValues _).eq_of_mem_iff h fun v => by
    rw [mem_toValues_fromValues]

@[simp] theorem toValues_promote (a : ArrayContainer) : (promote a).toValues = a.values := by
  rw [promote]
  split_ifs with h
  · exact toValues_bitset_fromValues a.sorted
  · rfl

@[simp] theorem toValues_demote (b : BitsetContainer) : (demote b).toValues = b.toValues := by
  rw [demote]
  split_ifs <;> rfl

@[simp] theorem toValues_ofValues {values : List ℕ} (h : SortedLows values) :
    (ofValues values h).toValues = values := by
  rw [ofValues]
  split_ifs
  · exact toValues_bitset_fromValues h
  · rfl

@[simp] theorem toValues_ofRuns (r : RunContainer) : (ofRuns r).toValues = r.toValues := by
  rw [ofRuns]
  split_ifs
  · rfl
  · exact toValues_ofValues _

@[simp] theorem toValues_fromSortedValues {values : List ℕ} (h : SortedLows values) :
    (RunContainer.fromSortedValues values h).toValues = values := runValues_runsOfValues values

/-- Re-evaluate which kind is best for the current data. -/
def optimize : Container → Container
  | array a =>
    let r := RunContainer.fromSortedValues a.values a.sorted
    if r.isEfficient then run r else promote a
  | bitset b =>
    let r := RunContainer.fromSortedValues b.toValues b.sortedLows_toValues
    if b.shouldDemote then
      if r.isEfficient then run r
      else array (ArrayContainer.fromSorted b.toValues b.sortedLows_toValues)
    else if r.numRuns * 4 < 8192 then run r
    else bitset b
  | run r => ofRuns r

/-- **Optimising a container** leaves its values as they are. -/
@[simp] theorem toValues_optimize (c : Container) : c.optimize.toValues = c.toValues := by
  cases c with
  | array a =>
    rw [optimize]
    split_ifs
    · exact toValues_fromSortedValues a.sorted
    · exact toValues_promote a
  | bitset b =>
    rw [optimize]
    split_ifs
    · exact toValues_fromSortedValues b.sortedLows_toValues
    · rfl
    · exact toValues_fromSortedValues b.sortedLows_toValues
    · rfl
  | run r => exact toValues_ofRuns r

/-! ### Changing one value -/

def insert (c : Container) (v : ℕ) (hv : v < 65536) : Bool × Container :=
  match c with
  | array a =>
    let (inserted, a) := a.insert v hv
    (inserted, if inserted then promote a else array a)
  | bitset b => let (inserted, b) := b.insert v hv; (inserted, bitset b)
  | run r => let (inserted, r) := r.insert v hv; (inserted, run r)

def remove (c : Container) (v : ℕ) (hv : v < 65536) : Bool × Container :=
  match c with
  | array a => let (removed, a) := a.remove v; (removed, array a)
  | bitset b =>
    let (removed, b) := b.remove v hv
    (removed, if removed then demote b else bitset b)
  | run r => let (removed, r) := r.remove v; (removed, run r)

/-- **Inserting a value** adds it, and says whether it was new. -/
theorem insert_spec (c : Container) {v : ℕ} (hv : v < 65536) :
    (c.insert v hv).1 = decide (v ∉ c.toValues) ∧
      ∀ x, x ∈ (c.insert v hv).2.toValues ↔ x = v ∨ x ∈ c.toValues := by
  cases c with
  | array a =>
    obtain ⟨-, hflag, hmem⟩ := insertValue_spec a.sorted hv
    refine ⟨hflag, fun x => Iff.trans ?_ (hmem x)⟩
    simp only [insert]
    split_ifs
    · rw [toValues_promote]
      rfl
    · rfl
  | bitset b => exact b.insert_spec hv
  | run r =>
    obtain ⟨-, hflag, hmem⟩ := insertRun_spec r.sorted hv
    exact ⟨hflag, hmem⟩

/-- **Removing a value** takes it out, and says whether it was there. -/
theorem remove_spec (c : Container) {v : ℕ} (hv : v < 65536) :
    (c.remove v hv).1 = decide (v ∈ c.toValues) ∧
      ∀ x, x ∈ (c.remove v hv).2.toValues ↔ x ≠ v ∧ x ∈ c.toValues := by
  cases c with
  | array a =>
    obtain ⟨-, hflag, hmem⟩ := removeValue_spec a.sorted v
    exact ⟨hflag, hmem⟩
  | bitset b =>
    obtain ⟨hflag, hmem⟩ := b.remove_spec hv
    refine ⟨hflag, fun x => Iff.trans ?_ (hmem x)⟩
    simp only [remove]
    split_ifs
    · rw [toValues_demote]
    · rfl
  | run r =>
    obtain ⟨-, hflag, hmem⟩ := removeRun_spec r.sorted v
    exact ⟨hflag, hmem⟩

/-! ### Ranges -/

/-- The values as a bitset. -/
def toBitset : Container → BitsetContainer
  | bitset b => b
  | c => BitsetContainer.fromSortedValues c.toValues

/-- Complement all values in `lo..=hi`. -/
def flipRange (c : Container) (lo hi : ℕ) : Container :=
  let b := c.toBitset.flipRange lo hi
  if b.cardinality = 0 then newArray
  else if b.cardinality < arrayToBitsetThreshold then
    array (ArrayContainer.fromSorted b.toValues b.sortedLows_toValues)
  else bitset b

theorem mem_toValues_toBitset (c : Container) (v : ℕ) : v ∈ c.toBitset.toValues ↔ v ∈ c.toValues := by
  cases c with
  | array a => exact mem_toValues_fromSortedValues a.sorted v
  | bitset b => exact Iff.rfl
  | run r => exact mem_toValues_fromSortedValues r.sortedLows_toValues v

/-- **Flipping a range** changes for its values whether they are held, and for no others. -/
theorem mem_toValues_flipRange (c : Container) (lo hi : ℕ) {v : ℕ} (hv : v < 65536) :
    v ∈ (c.flipRange lo hi).toValues ↔ (v ∈ c.toValues ↔ ¬ (lo ≤ v ∧ v ≤ hi)) := by
  rw [← mem_toValues_toBitset c v, ← c.toBitset.mem_toValues_flipRange lo hi hv, flipRange]
  split_ifs with hzero hfew
  · rw [BitsetContainer.cardinality_eq, List.length_eq_zero_iff] at hzero
    rw [hzero]
    rfl
  · rfl
  · rfl

/-- The runs cut to `lo..=hi`. -/
def clipRuns (runs : List Run) (lo hi : ℕ) : List Run :=
  runs.filterMap fun run =>
    let start := max run.start lo
    let last := min run.end hi
    if start ≤ last then some (Run.span start last) else none

theorem mem_clipRuns {runs : List Run} {lo hi v : ℕ} :
    v ∈ runValues (clipRuns runs lo hi) ↔ v ∈ runValues runs ∧ lo ≤ v ∧ v ≤ hi := by
  simp only [mem_runValues, clipRuns, List.mem_filterMap, Option.ite_none_right_eq_some,
    Option.some.injEq]
  constructor
  · rintro ⟨-, ⟨r, hr, hle, rfl⟩, h₁, h₂⟩
    rw [Run.span_end hle] at h₂
    rw [Run.span_start] at h₁
    exact ⟨⟨r, hr, by omega, by omega⟩, by omega, by omega⟩
  · rintro ⟨⟨r, hr, h₁, h₂⟩, h₃, h₄⟩
    have hle : max r.start lo ≤ min r.end hi := by omega
    refine ⟨_, ⟨r, hr, hle, rfl⟩, ?_, ?_⟩
    · rw [Run.span_start]
      omega
    · rw [Run.span_end hle]
      omega

theorem sortedRuns_clipRuns {runs : List Run} (h : SortedRuns runs) (lo hi : ℕ) :
    SortedRuns (clipRuns runs lo hi) := by
  constructor
  · refine List.Pairwise.filterMap _ (fun a a' haa' b hb b' hb' => ?_) h.ordered
    simp only [Option.ite_none_right_eq_some, Option.some.injEq] at hb hb'
    obtain ⟨hle, rfl⟩ := hb
    obtain ⟨-, rfl⟩ := hb'
    rw [Run.span_end hle, Run.span_start]
    omega
  · intro r hr
    simp only [clipRuns, List.mem_filterMap, Option.ite_none_right_eq_some, Option.some.injEq] at hr
    obtain ⟨a, ha, hle, rfl⟩ := hr
    have := h.fits a ha
    rw [Run.span_end hle]
    omega

/-- Keep the values in `lo..=hi` only. Slicing an array would panic on bounds that cross, so a
caller shows that they do not. -/
def clipToRange (c : Container) (lo hi : ℕ) (_h : lo ≤ hi) : Container :=
  if lo = 0 ∧ hi = 65535 then c
  else
    match c with
    | array a =>
      array (ArrayContainer.fromSorted ((a.values.dropWhile (· < lo)).takeWhile (· ≤ hi))
        (a.sorted.sublist ((List.takeWhile_sublist _).trans (List.dropWhile_sublist _))))
    | bitset b =>
      let b := BitsetContainer.recounted (clipAbove (clipBelow b.bits lo) hi)
      if b.cardinality = 0 then newArray else demote b
    | run r =>
      let clipped := clipRuns r.runs lo hi
      if clipped.isEmpty then newArray
      else run (RunContainer.fromRuns clipped (sortedRuns_clipRuns r.sorted lo hi))

/-- **Clipping** keeps the values of the range. -/
theorem mem_toValues_clipToRange (c : Container) {lo hi : ℕ} (h : lo ≤ hi) {v : ℕ} :
    v ∈ (c.clipToRange lo hi h).toValues ↔ v ∈ c.toValues ∧ lo ≤ v ∧ v ≤ hi := by
  unfold clipToRange
  split_ifs with hall
  · refine ⟨fun hv => ⟨hv, ?_⟩, And.left⟩
    have := lt_of_mem_toValues hv
    omega
  · cases c with
    | array a =>
      have hdrop := a.sorted.ascending.dropWhile_eq_filter lo
      have htake := (a.sorted.filter (lo ≤ ·)).ascending.takeWhile_eq_filter hi
      simp only [id] at hdrop htake
      simp only [toValues, ArrayContainer.fromSorted, hdrop, htake, List.mem_filter,
        decide_eq_true_eq, and_assoc]
    | bitset b =>
      have hclip : v ∈ extractValues (clipAbove (clipBelow b.bits lo) hi) ↔
          v ∈ b.toValues ∧ lo ≤ v ∧ v ≤ hi := by
        rw [mem_extractValues, mem_toValues]
        by_cases hv : v < 65536
        · rw [bitAt_clipAbove _ hi hv, bitAt_clipBelow _ lo hv]
          simp [and_assoc]
        · rw [bitAt_eq_false (not_lt.mp hv), bitAt_eq_false (not_lt.mp hv)]
          simp
      dsimp only
      split_ifs with hzero
      · rw [BitsetContainer.cardinality_eq, List.length_eq_zero_iff] at hzero
        refine Iff.trans ?_ hclip
        rw [show extractValues (clipAbove (clipBelow b.bits lo) hi) = [] from hzero]
        rfl
      · rw [toValues_demote]
        exact hclip
    | run r =>
      dsimp only
      split_ifs with hnone
      · have hempty : clipRuns r.runs lo hi = [] := by simpa using hnone
        have := @mem_clipRuns r.runs lo hi v
        rw [hempty] at this
        exact this
      · exact mem_clipRuns

/-! ### Set operations across kinds -/

/-- `array_and_bitset`, `array_and_run`: the values the other container holds. -/
def arrayAnd (a : ArrayContainer) (holds : ℕ → Bool) : ArrayContainer :=
  ArrayContainer.fromSorted (a.values.filter holds) (a.sorted.filter holds)

/-- `array_andnot_bitset`, `array_andnot_run`: the values the other container does not hold. -/
def arrayAndNot (a : ArrayContainer) (holds : ℕ → Bool) : ArrayContainer :=
  ArrayContainer.fromSorted (a.values.filter fun v => !holds v) (a.sorted.filter _)

/-- `array_or_bitset`: a copy of the bitset with the array's bits set. -/
def arrayOrBitset (a : ArrayContainer) (b : BitsetContainer) : BitsetContainer :=
  BitsetContainer.recounted (setBitsFromArray b.bits a.values)

/-- `bitset_andnot_array`: a copy of the bitset with the array's bits cleared. -/
def bitsetAndNotArray (b : BitsetContainer) (a : ArrayContainer) : BitsetContainer :=
  BitsetContainer.recounted (clearBitsFromArray b.bits a.values)

/-- `array_or_run_values`: the values of both, merged. -/
def arrayOrRunValues (a : ArrayContainer) (r : RunContainer) : List ℕ :=
  orSortedU16 a.values r.toValues

/-- `run_andnot_array`, `run_andnot_bitset`: the run's values the other container does not hold. -/
def runAndNotValues (r : RunContainer) (holds : ℕ → Bool) : List ℕ :=
  r.toValues.filter fun v => !holds v

theorem sortedLows_arrayOrRunValues (a : ArrayContainer) (r : RunContainer) :
    SortedLows (arrayOrRunValues a r) := sortedLows_orSortedU16 a.sorted r.sortedLows_toValues

theorem sortedLows_runAndNotValues (r : RunContainer) (holds : ℕ → Bool) :
    SortedLows (runAndNotValues r holds) := r.sortedLows_toValues.filter _

/-- `bitset_and_run`. -/
def bitsetAndRun (b : BitsetContainer) (r : RunContainer) : BitsetContainer :=
  BitsetContainer.recounted (andWords b.bits (runsToBitmask r.runs))

/-- `bitset_or_run`. -/
def bitsetOrRun (b : BitsetContainer) (r : RunContainer) : BitsetContainer :=
  BitsetContainer.recounted (orWords b.bits (runsToBitmask r.runs))

/-- `bitset_andnot_run`. -/
def bitsetAndNotRun (b : BitsetContainer) (r : RunContainer) : BitsetContainer :=
  BitsetContainer.recounted (andNotWords b.bits (runsToBitmask r.runs))

/-- The bit of a value in the mask of a run container. -/
private theorem bitAt_runs (r : RunContainer) (v : ℕ) :
    bitAt (runsToBitmask r.runs) v = decide (v ∈ r.toValues) := by
  rw [Bool.eq_iff_iff, decide_eq_true_iff]
  by_cases hv : v < 65536
  · exact bitAt_runsToBitmask r.runs hv
  · rw [bitAt_eq_false (not_lt.mp hv)]
    exact iff_of_false Bool.false_ne_true fun h => hv (r.sortedLows_toValues.bounded v h)

@[simp] theorem mem_arrayOrBitset (a : ArrayContainer) (b : BitsetContainer) (v : ℕ) :
    v ∈ (arrayOrBitset a b).toValues ↔ v ∈ a.values ∨ v ∈ b.toValues := by
  simp [arrayOrBitset, recounted, bitAt_setBitsFromArray a.sorted.bounded]

@[simp] theorem mem_bitsetAndNotArray (b : BitsetContainer) (a : ArrayContainer) (v : ℕ) :
    v ∈ (bitsetAndNotArray b a).toValues ↔ v ∈ b.toValues ∧ v ∉ a.values := by
  simp [bitsetAndNotArray, recounted, bitAt_clearBitsFromArray a.sorted.bounded,
    and_comm]

@[simp] theorem mem_bitsetAndRun (b : BitsetContainer) (r : RunContainer) (v : ℕ) :
    v ∈ (bitsetAndRun b r).toValues ↔ v ∈ b.toValues ∧ v ∈ r.toValues := by
  simp [bitsetAndRun, recounted, bitAt_runs]

@[simp] theorem mem_bitsetOrRun (b : BitsetContainer) (r : RunContainer) (v : ℕ) :
    v ∈ (bitsetOrRun b r).toValues ↔ v ∈ b.toValues ∨ v ∈ r.toValues := by
  simp [bitsetOrRun, recounted, bitAt_runs]

@[simp] theorem mem_bitsetAndNotRun (b : BitsetContainer) (r : RunContainer) (v : ℕ) :
    v ∈ (bitsetAndNotRun b r).toValues ↔ v ∈ b.toValues ∧ v ∉ r.toValues := by
  simp [bitsetAndNotRun, recounted, bitAt_runs]

/-- AND, for all nine pairs of kinds. -/
protected def and : Container → Container → Container
  | array a, array b => array (a.and b)
  | bitset a, bitset b => demote (a.and b)
  | run a, run b => run (a.and b)
  | array a, bitset b => array (arrayAnd a b.contains)
  | bitset b, array a => array (arrayAnd a b.contains)
  | array a, run r => array (arrayAnd a r.contains)
  | run r, array a => array (arrayAnd a r.contains)
  | bitset b, run r => demote (bitsetAndRun b r)
  | run r, bitset b => demote (bitsetAndRun b r)

/-- OR, for all nine pairs of kinds. -/
protected def or : Container → Container → Container
  | array a, array b => promote (a.or b)
  | bitset a, bitset b => bitset (a.or b)
  | run a, run b => run (a.or b)
  | array a, bitset b => bitset (arrayOrBitset a b)
  | bitset b, array a => bitset (arrayOrBitset a b)
  | array a, run r => ofValues (arrayOrRunValues a r) (sortedLows_arrayOrRunValues a r)
  | run r, array a => ofValues (arrayOrRunValues a r) (sortedLows_arrayOrRunValues a r)
  | bitset b, run r => bitset (bitsetOrRun b r)
  | run r, bitset b => bitset (bitsetOrRun b r)

/-- AND NOT, for all nine pairs of kinds. -/
def andNot : Container → Container → Container
  | array a, array b => array (a.andNot b)
  | bitset a, bitset b => demote (a.andNot b)
  | run a, run b => ofRuns (a.andNot b)
  | array a, bitset b => array (arrayAndNot a b.contains)
  | bitset b, array a => demote (bitsetAndNotArray b a)
  | array a, run r => array (arrayAndNot a r.contains)
  | run r, array a => ofValues (runAndNotValues r a.contains) (sortedLows_runAndNotValues r _)
  | bitset b, run r => demote (bitsetAndNotRun b r)
  | run r, bitset b => ofValues (runAndNotValues r b.contains) (sortedLows_runAndNotValues r _)

/-- **Intersection** of containers, whatever their kinds. -/
theorem mem_toValues_and (a b : Container) (v : ℕ) :
    v ∈ (a.and b).toValues ↔ v ∈ a.toValues ∧ v ∈ b.toValues := by
  match a, b with
  | array a, array b => exact mem_andSortedU16 a.sorted b.sorted v
  | bitset a, bitset b => simp [Container.and, -mem_toValues]
  | run a, run b => exact mem_andRuns a.sorted b.sorted v
  | array a, bitset b | array a, run b => simp [Container.and, arrayAnd, ArrayContainer.fromSorted]
  | bitset b, array a | run b, array a =>
    simp [Container.and, arrayAnd, ArrayContainer.fromSorted, and_comm]
  | bitset b, run r => simp [Container.and, -mem_toValues]
  | run r, bitset b => simp [Container.and, -mem_toValues, and_comm]

/-- **Union** of containers, whatever their kinds. -/
theorem mem_toValues_or (a b : Container) (v : ℕ) :
    v ∈ (a.or b).toValues ↔ v ∈ a.toValues ∨ v ∈ b.toValues := by
  match a, b with
  | array a, array b =>
    rw [Container.or, toValues_promote]
    exact mem_orSortedU16 a.sorted b.sorted v
  | bitset a, bitset b => exact BitsetContainer.mem_toValues_or a b v
  | run a, run b => exact (orRuns_spec a.sorted b.sorted).2 v
  | array a, bitset b => exact mem_arrayOrBitset a b v
  | bitset b, array a => exact (mem_arrayOrBitset a b v).trans or_comm
  | array a, run r =>
    rw [Container.or, toValues_ofValues]
    exact mem_orSortedU16 a.sorted r.sortedLows_toValues v
  | run r, array a =>
    rw [Container.or, toValues_ofValues, or_comm]
    exact mem_orSortedU16 a.sorted r.sortedLows_toValues v
  | bitset b, run r => exact mem_bitsetOrRun b r v
  | run r, bitset b => exact (mem_bitsetOrRun b r v).trans or_comm

/-- Both containers keep runs, and both hold the last value of all. -/
def bothRunsToLast : Container → Container → Bool
  | run a, run b => a.contains 65535 && b.contains 65535
  | _, _ => false

/-- **Difference** of containers: the left values the right does not hold, and the last value
of all besides where two run containers both hold it. -/
theorem mem_toValues_andNot (a b : Container) (v : ℕ) :
    v ∈ (a.andNot b).toValues ↔
      (v ∈ a.toValues ∧ v ∉ b.toValues) ∨ (v = 65535 ∧ bothRunsToLast a b = true) := by
  match a, b with
  | array a, array b =>
    have h := mem_andNotSortedU16 a.sorted b.sorted v
    simpa [bothRunsToLast, andNot, ArrayContainer.andNot] using h
  | bitset a, bitset b => simp [andNot, -mem_toValues, bothRunsToLast]
  | run a, run b =>
    rw [andNot, toValues_ofRuns, bothRunsToLast, Bool.and_eq_true, RunContainer.contains_eq,
      RunContainer.contains_eq, decide_eq_true_iff, decide_eq_true_iff]
    exact mem_andNotRuns a.sorted b.sorted v
  | array a, bitset b | array a, run b =>
    simp [andNot, arrayAndNot, ArrayContainer.fromSorted, bothRunsToLast]
  | bitset b, array a => simp [andNot, -mem_toValues, bothRunsToLast]
  | run r, array a | run r, bitset a => simp [andNot, runAndNotValues, bothRunsToLast]
  | bitset b, run r => simp [andNot, -mem_toValues, bothRunsToLast]

end Container

end Minnal
