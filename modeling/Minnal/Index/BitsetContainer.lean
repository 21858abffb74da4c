import Minnal.Index.RunContainer

/-!
# Bitset containers

A bitset container keeps one bit for each of the `2^16` low values, in 1024 words of 64 bits,
with the number of set bits beside them. `bitAt bits v` is **the bit of `v`**; every kernel is
judged by what it does to it. Range kernels work a word at a time with masks at both ends of
the range; the values come back out by clearing the lowest set bit of each word in turn.
-/

namespace Minnal

/-- The words of a bitset. -/
abbrev Words := Vector (BitVec 64) 1024

/-! ### Masks -/

/-- `(1u64 << n) - 1`: the lowest `n` bits. -/
def lowOnes (n : ℕ) : BitVec 64 := (1#64 <<< n) - 1#64

/-- The bits from `n` on: `u64::MAX << n`. -/
def loMask (n : ℕ) : BitVec 64 := BitVec.allOnes 64 <<< n

/-- The bits up to `n`. -/
def hiMask (n : ℕ) : BitVec 64 := if n = 63 then BitVec.allOnes 64 else lowOnes (n + 1)

/-- `word_mask`: the bits `lo..=hi` of one word. -/
def wordMask (lo hi : ℕ) : BitVec 64 :=
  let len := hi - lo + 1
  if len = 64 then BitVec.allOnes 64 else lowOnes len <<< lo

theorem getLsbD_lowOnes {n : ℕ} (hn : n < 64) (i : ℕ) : (lowOnes n).getLsbD i = decide (i < n) := by
  have hpow : 2 ^ n < 2 ^ 64 := Nat.pow_lt_pow_right (by norm_num) hn
  have hone : (1#64 <<< n).toNat = 2 ^ n := by
    simpa [BitVec.toNat_shiftLeft, Nat.shiftLeft_eq] using hpow
  have hle : 1#64 ≤ 1#64 <<< n := by
    rw [BitVec.le_def, hone]
    exact Nat.one_le_two_pow
  rw [BitVec.getLsbD, lowOnes, BitVec.toNat_sub_of_le hle, hone]
  exact Nat.testBit_two_pow_sub_one n i

@[simp] theorem getLsbD_loMask (n i : ℕ) :
    (loMask n).getLsbD i = (decide (i < 64) && decide (n ≤ i)) := by
  rw [loMask, BitVec.getLsbD_shiftLeft, BitVec.getLsbD_allOnes]
  grind

variable {i : ℕ}

theorem getLsbD_hiMask {n : ℕ} (hn : n < 64) (hi : i < 64) :
    (hiMask n).getLsbD i = decide (i ≤ n) := by
  rw [hiMask]
  split_ifs with h
  · rw [BitVec.getLsbD_allOnes]
    grind
  · rw [getLsbD_lowOnes (by omega)]
    grind

theorem getLsbD_wordMask {lo hi : ℕ} (h : lo ≤ hi) (hhi : hi < 64) (hi' : i < 64) :
    (wordMask lo hi).getLsbD i = (decide (lo ≤ i) && decide (i ≤ hi)) := by
  simp only [wordMask]
  split_ifs with hlen
  · rw [BitVec.getLsbD_allOnes]
    grind
  · rw [BitVec.getLsbD_shiftLeft, getLsbD_lowOnes (by omega)]
    grind

/-! ### Bits -/

/-- The word that stands at `i`. -/
def wordAt (bits : Words) (i : ℕ) : BitVec 64 := bits[i]?.getD 0

/-- The bit of `v`. -/
def bitAt (bits : Words) (v : ℕ) : Bool := (wordAt bits (v / 64)).getLsbD (v % 64)

/-- `word_and_bit`: the word of `v` and its bit there. -/
def wordAndBit (v : ℕ) : ℕ × BitVec 64 := (v >>> 6, 1#64 <<< (v &&& 63))

/-- Set the bit of `v`. -/
def setBit (bits : Words) (v : ℕ) : Words :=
  bits.setIfInBounds (wordAndBit v).1 (wordAt bits (wordAndBit v).1 ||| (wordAndBit v).2)

/-- Clear the bit of `v`. -/
def clearBit (bits : Words) (v : ℕ) : Words :=
  bits.setIfInBounds (wordAndBit v).1 (wordAt bits (wordAndBit v).1 &&& ~~~(wordAndBit v).2)

theorem wordAndBit_eq (v : ℕ) : wordAndBit v = (v / 64, 1#64 <<< (v % 64)) := by
  have h : v &&& 63 = v % 64 := Nat.and_two_pow_sub_one_eq_mod v 6
  rw [wordAndBit, h, Nat.shiftRight_eq_div_pow]

variable {bits : Words} {v : ℕ}

theorem bitAt_eq_false (h : 65536 ≤ v) : bitAt bits v = false := by
  have : bits[v / 64]? = none := by
    rw [Vector.getElem?_eq_none_iff]
    omega
  simp [bitAt, wordAt, this]

private theorem bit_eq_twoPow (v : ℕ) : (wordAndBit v).2 = BitVec.twoPow 64 (v % 64) := by
  rw [wordAndBit_eq]
  rfl

/-- A word holds the bit of `v` exactly when masking it out leaves something. -/
theorem and_bit_ne_zero (w : BitVec 64) (v : ℕ) :
    (w &&& (wordAndBit v).2 != 0) = w.getLsbD (v % 64) := by
  have hlt : v % 64 < 64 := Nat.mod_lt _ (by norm_num)
  rw [bit_eq_twoPow, BitVec.and_twoPow]
  cases h : w.getLsbD (v % 64)
  · simp
  · have hne : BitVec.twoPow 64 (v % 64) ≠ 0#64 := by
      intro hz
      have := congrArg (fun x => BitVec.getLsbD x (v % 64)) hz
      simp [hlt] at this
    simpa using hne

/-- A word changed in one place. -/
theorem wordAt_setIfInBounds (hi : i < 1024) (w : BitVec 64) (j : ℕ) :
    wordAt (bits.setIfInBounds i w) j = if i = j then w else wordAt bits j := by
  rw [wordAt, Vector.getElem?_setIfInBounds]
  split_ifs <;> simp [wordAt]

theorem bitAt_setBit (hv : v < 65536) (x : ℕ) :
    bitAt (setBit bits v) x = (decide (x = v) || bitAt bits x) := by
  have hword : (wordAndBit v).1 = v / 64 := by rw [wordAndBit_eq]
  rw [bitAt, setBit, hword, wordAt_setIfInBounds (by omega), bit_eq_twoPow]
  split_ifs with h
  · rw [BitVec.getLsbD_or, BitVec.getLsbD_twoPow, bitAt, h]
    grind
  · have : x ≠ v := by
      rintro rfl
      exact h rfl
    simp [this, bitAt]

theorem bitAt_clearBit (hv : v < 65536) (x : ℕ) :
    bitAt (clearBit bits v) x = (decide (x ≠ v) && bitAt bits x) := by
  have hword : (wordAndBit v).1 = v / 64 := by rw [wordAndBit_eq]
  rw [bitAt, clearBit, hword, wordAt_setIfInBounds (by omega), bit_eq_twoPow]
  split_ifs with h
  · rw [BitVec.getLsbD_and, BitVec.getLsbD_not, BitVec.getLsbD_twoPow, bitAt, h]
    grind
  · have : x ≠ v := by
      rintro rfl
      exact h rfl
    simp [this, bitAt]

/-! ### Counting bits and reading them out -/

/-- `u64::count_ones`. -/
def countOnes (w : BitVec 64) : ℕ := (List.range 64).countP w.getLsbD

/-- `popcount_u64_slice`. -/
def popcount (bits : Words) : ℕ := (bits.toList.map countOnes).sum

/-- `u64::trailing_zeros`: the lowest set bit. -/
def trailingZeros (w : BitVec 64) : ℕ := ((List.range 64).find? w.getLsbD).getD 64

/-- The inner loop of `extract_scalar`: hand out the lowest set bit and clear it. -/
def wordPositions : ℕ → BitVec 64 → List ℕ
  | 0, _ => []
  | fuel + 1, w =>
    if w = 0 then [] else trailingZeros w :: wordPositions fuel (w &&& (w - 1))

/-- `extract_bitset_to_values`: the positions of all set bits, in order. -/
def extractValues (bits : Words) : List ℕ :=
  bits.toList.zipIdx.flatMap fun (w, i) => (wordPositions 64 w).map (i * 64 + ·)

variable {w : BitVec 64}

/-- The lowest set bit of a word that has one. -/
theorem trailingZeros_spec (hw : w ≠ 0) :
    trailingZeros w < 64 ∧ w.getLsbD (trailingZeros w) = true ∧
      ∀ i < trailingZeros w, w.getLsbD i = false := by
  obtain ⟨i, hi, hbit⟩ : ∃ i < 64, w.getLsbD i = true := by
    by_contra hnone
    refine hw (BitVec.eq_of_getLsbD_eq fun i hi => ?_)
    simpa using fun h => hnone ⟨i, hi, h⟩
  obtain ⟨p, hp⟩ : ∃ p, (List.range 64).find? w.getLsbD = some p := by
    rw [← Option.isSome_iff_exists, List.find?_isSome]
    exact ⟨i, List.mem_range.mpr hi, hbit⟩
  have hz : trailingZeros w = p := by rw [trailingZeros, hp, Option.getD_some]
  rw [hz]
  obtain ⟨hset, hmem, hbelow⟩ := List.find?_range_eq_some.mp hp
  exact ⟨List.mem_range.mp hmem, hset, fun j hj => by simpa using hbelow j hj⟩

/-- Clearing the lowest set bit clears that bit only. -/
theorem getLsbD_and_sub_one (hw : w ≠ 0) (i : ℕ) :
    (w &&& (w - 1)).getLsbD i = (decide (i ≠ trailingZeros w) && w.getLsbD i) := by
  obtain ⟨-, hset, hbelow⟩ := trailingZeros_spec hw
  generalize trailingZeros w = p at hset hbelow
  have hpos : 1#64 ≤ w := by
    rw [BitVec.le_def]
    have : w.toNat ≠ 0 := fun h => hw (BitVec.eq_of_toNat_eq h)
    simpa using Nat.one_le_iff_ne_zero.mpr this
  have hsub : (w - 1).toNat = w.toNat - 1 := BitVec.toNat_sub_of_le hpos
  -- above its lowest set bit the word is some `q`
  obtain ⟨q, hq⟩ : ∃ q, w.toNat = 2 ^ (p + 1) * q + 2 ^ p := by
    refine ⟨w.toNat / 2 ^ (p + 1), ?_⟩
    have hmod : w.toNat % 2 ^ (p + 1) = 2 ^ p := by
      refine Nat.eq_of_testBit_eq fun j => ?_
      rw [Nat.testBit_mod_two_pow, Nat.testBit_two_pow]
      rcases lt_trichotomy j p with h | rfl | h
      · have := hbelow j h
        rw [BitVec.getLsbD] at this
        simp [this, h.ne']
      · rw [BitVec.getLsbD] at hset
        simp [hset]
      · have : ¬ j < p + 1 := by omega
        simp [this, h.ne]
    conv_lhs => rw [← Nat.div_add_mod w.toNat (2 ^ (p + 1)), hmod]
  have hlt : 2 ^ p < 2 ^ (p + 1) := Nat.pow_lt_pow_right (by norm_num) (Nat.lt_succ_self p)
  have hone : 1 ≤ 2 ^ p := Nat.one_le_two_pow
  have hq' : w.toNat - 1 = 2 ^ (p + 1) * q + (2 ^ p - 1) := by omega
  rw [BitVec.getLsbD_and, BitVec.getLsbD, BitVec.getLsbD, hsub, hq', hq,
    Nat.testBit_two_pow_mul_add _ hlt, Nat.testBit_two_pow_mul_add _ (by omega)]
  split_ifs with h
  · rw [Nat.testBit_two_pow, Nat.testBit_two_pow_sub_one]
    grind
  · have : i ≠ p := by omega
    simp [this]

variable {fuel : ℕ}

/-- Each turn uses up one bit, so as many turns are left as bits can be. -/
private theorem fuel_after (hw : w ≠ 0) (hfuel : ∀ i, i + (fuel + 1) < 64 → w.getLsbD i = false)
    (j : ℕ) (hj : j + fuel < 64) : (w &&& (w - 1)).getLsbD j = false := by
  obtain ⟨hlt, hset, hbelow⟩ := trailingZeros_spec hw
  have hp : ¬ trailingZeros w + (fuel + 1) < 64 := fun h => by
    rw [hfuel _ h] at hset
    cases hset
  rw [getLsbD_and_sub_one hw]
  by_cases hjp : j < trailingZeros w
  · rw [hbelow j hjp, Bool.and_false]
  · have : j = trailingZeros w := by omega
    simp [this]

/-- Reading a word out hands over the positions of its set bits. -/
private theorem mem_wordPositions (hfuel : ∀ i, i + fuel < 64 → w.getLsbD i = false) (i : ℕ) :
    i ∈ wordPositions fuel w ↔ w.getLsbD i = true := by
  induction fuel generalizing w with
  | zero =>
    have : w.getLsbD i = false := by
      by_cases hi : i < 64
      · exact hfuel i hi
      · exact BitVec.getLsbD_of_ge w i (by omega)
    simp [wordPositions, this]
  | succ fuel ih =>
    rw [wordPositions]
    split_ifs with hw
    · simp [hw]
    · obtain ⟨-, hset, -⟩ := trailingZeros_spec hw
      rw [List.mem_cons, ih (fuel_after hw hfuel), getLsbD_and_sub_one hw]
      grind

private theorem pairwise_wordPositions (hfuel : ∀ i, i + fuel < 64 → w.getLsbD i = false) :
    (wordPositions fuel w).Pairwise (· < ·) := by
  induction fuel generalizing w with
  | zero => exact List.Pairwise.nil
  | succ fuel ih =>
    rw [wordPositions]
    split_ifs with hw
    · exact List.Pairwise.nil
    · have hfuel' := fuel_after hw hfuel
      refine List.pairwise_cons.mpr ⟨fun i hi => ?_, ih hfuel'⟩
      rw [mem_wordPositions hfuel', getLsbD_and_sub_one hw] at hi
      by_contra hle
      have hbelow := (trailingZeros_spec hw).2.2 i
      grind

/-- **Reading a word out** is listing its set bits in order. -/
theorem wordPositions_eq (w : BitVec 64) : wordPositions 64 w = (List.range 64).filter w.getLsbD := by
  have hfuel : ∀ i, i + 64 < 64 → w.getLsbD i = false := fun i hi => by omega
  refine List.Pairwise.eq_of_mem_iff (pairwise_wordPositions hfuel)
    (List.pairwise_lt_range.filter _) fun {i} => ?_
  rw [mem_wordPositions hfuel, List.mem_filter, List.mem_range]
  exact ⟨fun h => ⟨BitVec.lt_of_getLsbD h, h⟩, And.right⟩

theorem length_wordPositions (w : BitVec 64) : (wordPositions 64 w).length = countOnes w := by
  rw [wordPositions_eq, countOnes, List.countP_eq_length_filter]

/-- The words with their places. -/
theorem zipIdx_words (bits : Words) :
    bits.toList.zipIdx = (List.range 1024).map fun i => (wordAt bits i, i) := by
  refine List.ext_getElem? fun i => ?_
  rw [List.getElem?_zipIdx, List.getElem?_map, Vector.getElem?_toList]
  by_cases hi : i < 1024 <;> simp [wordAt, hi]

theorem mem_extractValues : v ∈ extractValues bits ↔ bitAt bits v = true := by
  rw [extractValues, zipIdx_words]
  simp only [List.mem_flatMap, List.mem_map, List.mem_range, wordPositions_eq, List.mem_filter]
  constructor
  · rintro ⟨-, ⟨i, hi, rfl⟩, p, ⟨hp, hbit⟩, rfl⟩
    have h₁ : (i * 64 + p) / 64 = i := by omega
    have h₂ : (i * 64 + p) % 64 = p := by omega
    rw [bitAt, h₁, h₂]
    exact hbit
  · intro h
    have hv : v < 65536 := by
      by_contra hge
      rw [bitAt_eq_false (not_lt.mp hge)] at h
      cases h
    exact ⟨_, ⟨v / 64, by omega, rfl⟩, v % 64, ⟨Nat.mod_lt _ (by norm_num), h⟩, by omega⟩

theorem sortedLows_extractValues (bits : Words) : SortedLows (extractValues bits) := by
  constructor
  · rw [extractValues, zipIdx_words, List.flatMap_map]
    refine List.pairwise_flatMap.mpr ⟨fun i _ => ?_, List.pairwise_lt_range.imp fun {i j} hij => ?_⟩
    · dsimp only
      rw [wordPositions_eq, List.pairwise_map]
      exact (List.pairwise_lt_range.filter _).imp fun h => Nat.add_lt_add_left h _
    · intro x hx y hy
      simp only [wordPositions_eq, List.mem_map, List.mem_filter, List.mem_range] at hx hy
      obtain ⟨p, ⟨hp, -⟩, rfl⟩ := hx
      obtain ⟨q, -, rfl⟩ := hy
      simp only [id]
      omega
  · intro v hv
    by_contra hge
    rw [mem_extractValues, bitAt_eq_false (not_lt.mp hge)] at hv
    cases hv

/-- The set bits are as many as the values read out. -/
theorem popcount_eq (bits : Words) : popcount bits = (extractValues bits).length := by
  have hwords : bits.toList = (List.range 1024).map (wordAt bits) := by
    have := congrArg (List.map Prod.fst) (zipIdx_words bits)
    rw [List.zipIdx_map_fst, List.map_map] at this
    exact this
  rw [popcount, extractValues, zipIdx_words, List.length_flatMap, hwords]
  simp [length_wordPositions, Function.comp_def]

/-! ### Kernels on whole bitsets -/

/-- `bitwise::and`. -/
def andWords (a b : Words) : Words := Vector.zipWith (· &&& ·) a b

/-- `bitwise::or`. -/
def orWords (a b : Words) : Words := Vector.zipWith (· ||| ·) a b

/-- `bitwise::and_not`. -/
def andNotWords (a b : Words) : Words := Vector.zipWith (fun x y => x &&& ~~~y) a b

/-- `set_bits_from_array`. -/
def setBitsFromArray (bits : Words) (values : List ℕ) : Words := values.foldl setBit bits

/-- `clear_bits_from_array`. -/
def clearBitsFromArray (bits : Words) (values : List ℕ) : Words := values.foldl clearBit bits

/-- No bit set. -/
def noBits : Words := Vector.replicate 1024 0

/-- The words of a run set: a partial word at each end, whole words between. -/
def setRunInto (bits : Words) (run : Run) : Words :=
  let first := run.start
  let last := run.end
  if first / 64 = last / 64 then
    bits.mapIdx fun i w => if i = first / 64 then w ||| wordMask (first % 64) (last % 64) else w
  else
    bits.mapIdx fun i w =>
      if i = first / 64 then w ||| loMask (first % 64)
      else if first / 64 < i ∧ i < last / 64 then BitVec.allOnes 64
      else if i = last / 64 then w ||| wordMask 0 (last % 64)
      else w

/-- `runs_to_bitmask`: a bitset of all values of the runs. -/
def runsToBitmask (runs : List Run) : Words := runs.foldl setRunInto noBits

/-- `BitsetContainer::flip_range` on the words. -/
def flipWords (bits : Words) (lo hi : ℕ) : Words :=
  if lo > hi then bits
  else if lo / 64 = hi / 64 then
    bits.mapIdx fun i w => if i = lo / 64 then w ^^^ (loMask (lo % 64) &&& hiMask (hi % 64)) else w
  else
    bits.mapIdx fun i w =>
      if i = lo / 64 then w ^^^ loMask (lo % 64)
      else if lo / 64 < i ∧ i < hi / 64 then w ^^^ BitVec.allOnes 64
      else if i = hi / 64 then w ^^^ hiMask (hi % 64)
      else w

/-- Zero the words before `lo`, and the bits before it in its own word. -/
def clipBelow (bits : Words) (lo : ℕ) : Words :=
  if lo > 0 then
    bits.mapIdx fun i w =>
      if i < lo / 64 then 0 else if i = lo / 64 then w &&& loMask (lo % 64) else w
  else bits

/-- Zero the words after `hi`, and the bits after it in its own word. -/
def clipAbove (bits : Words) (hi : ℕ) : Words :=
  bits.mapIdx fun i w =>
    if hi / 64 < i then 0
    else if i = hi / 64 then (if hi % 64 < 63 then w &&& lowOnes (hi % 64 + 1) else w)
    else w

theorem wordAt_zipWith {f : BitVec 64 → BitVec 64 → BitVec 64} (hf : f 0 0 = 0) (a b : Words)
    (i : ℕ) : wordAt (Vector.zipWith f a b) i = f (wordAt a i) (wordAt b i) := by
  rw [wordAt, wordAt, wordAt, Vector.getElem?_zipWith]
  by_cases hi : i < 1024
  · simp [hi]
  · simpa [hi] using hf.symm

theorem wordAt_mapIdx (f : ℕ → BitVec 64 → BitVec 64) (bits : Words) (hi : i < 1024) :
    wordAt (bits.mapIdx f) i = f i (wordAt bits i) := by
  rw [wordAt, wordAt, Vector.getElem?_mapIdx]
  simp [hi]

@[simp] theorem bitAt_andWords (a b : Words) (v : ℕ) :
    bitAt (andWords a b) v = (bitAt a v && bitAt b v) := by
  rw [bitAt, andWords, wordAt_zipWith (by decide), BitVec.getLsbD_and, bitAt, bitAt]

@[simp] theorem bitAt_orWords (a b : Words) (v : ℕ) :
    bitAt (orWords a b) v = (bitAt a v || bitAt b v) := by
  rw [bitAt, orWords, wordAt_zipWith (by decide), BitVec.getLsbD_or, bitAt, bitAt]

@[simp] theorem bitAt_andNotWords (a b : Words) (v : ℕ) :
    bitAt (andNotWords a b) v = (bitAt a v && !bitAt b v) := by
  have hlt : v % 64 < 64 := Nat.mod_lt _ (by norm_num)
  rw [bitAt, andNotWords, wordAt_zipWith (by decide), BitVec.getLsbD_and, BitVec.getLsbD_not, bitAt,
    bitAt, decide_eq_true hlt, Bool.true_and]

@[simp] theorem bitAt_noBits (v : ℕ) : bitAt noBits v = false := by
  rw [bitAt, wordAt, noBits, Vector.getElem?_replicate]
  split_ifs <;> simp

variable {values : List ℕ}

theorem bitAt_setBitsFromArray (hvals : ∀ v ∈ values, v < 65536) (bits : Words) (v : ℕ) :
    bitAt (setBitsFromArray bits values) v = (decide (v ∈ values) || bitAt bits v) := by
  induction values generalizing bits with
  | nil => simp [setBitsFromArray]
  | cons x values ih =>
    have hrest := ih (fun y hy => hvals y (List.mem_cons_of_mem _ hy)) (setBit bits x)
    rw [setBitsFromArray] at hrest ⊢
    rw [List.foldl_cons, hrest, bitAt_setBit (hvals x List.mem_cons_self)]
    grind

theorem bitAt_clearBitsFromArray (hvals : ∀ v ∈ values, v < 65536) (bits : Words) (v : ℕ) :
    bitAt (clearBitsFromArray bits values) v = (decide (v ∉ values) && bitAt bits v) := by
  induction values generalizing bits with
  | nil => simp [clearBitsFromArray]
  | cons x values ih =>
    have hrest := ih (fun y hy => hvals y (List.mem_cons_of_mem _ hy)) (clearBit bits x)
    rw [clearBitsFromArray] at hrest ⊢
    rw [List.foldl_cons, hrest, bitAt_clearBit (hvals x List.mem_cons_self)]
    grind

section Ranges

variable (bits : Words) {v : ℕ}

/-- A value of the run is set, any other keeps its bit. -/
theorem bitAt_setRunInto (run : Run) (hv : v < 65536) :
    bitAt (setRunInto bits run) v = true ↔
      (run.start ≤ v ∧ v ≤ run.end) ∨ bitAt bits v = true := by
  have hle := run.start_le_end
  have hi : v / 64 < 1024 := by omega
  have hm : v % 64 < 64 := Nat.mod_lt _ (by norm_num)
  have hend : run.end % 64 < 64 := Nat.mod_lt _ (by norm_num)
  have htail := getLsbD_wordMask (Nat.zero_le (run.end % 64)) hend hm
  rw [bitAt, bitAt, setRunInto, or_comm]
  split_ifs with hone
  · have hmask := getLsbD_wordMask (show run.start % 64 ≤ run.end % 64 by omega) hend hm
    rw [wordAt_mapIdx _ _ hi]
    split_ifs with hw
    · rw [BitVec.getLsbD_or, hmask, Bool.or_eq_true]
      refine or_congr_right ?_
      simp only [Bool.and_eq_true, decide_eq_true_eq]
      omega
    · exact (or_iff_left (by omega)).symm
  · rw [wordAt_mapIdx _ _ hi]
    split_ifs with hfirst hmid hlast
    · rw [BitVec.getLsbD_or, getLsbD_loMask, Bool.or_eq_true]
      refine or_congr_right ?_
      simp only [Bool.and_eq_true, decide_eq_true_eq]
      omega
    · rw [BitVec.getLsbD_allOnes]
      exact iff_of_true (decide_eq_true hm) (.inr (by omega))
    · rw [BitVec.getLsbD_or, htail, Bool.or_eq_true]
      refine or_congr_right ?_
      simp only [Bool.and_eq_true, decide_eq_true_eq]
      omega
    · exact (or_iff_left (by omega)).symm

omit bits in
theorem bitAt_runsToBitmask (runs : List Run) (hv : v < 65536) :
    bitAt (runsToBitmask runs) v = true ↔ v ∈ runValues runs := by
  have hfold : ∀ (runs : List Run) (bits : Words),
      bitAt (runs.foldl setRunInto bits) v = true ↔ v ∈ runValues runs ∨ bitAt bits v = true := by
    intro runs
    induction runs with
    | nil => simp
    | cons r runs ih =>
      intro bits
      rw [List.foldl_cons, ih, bitAt_setRunInto bits r hv, runValues_cons, List.mem_append,
        Run.mem_values]
      tauto
  rw [runsToBitmask, hfold runs noBits]
  simp

/-- The values of the range change their bit, any other keeps it. -/
theorem bitAt_flipWords (lo hi : ℕ) (hv : v < 65536) :
    bitAt (flipWords bits lo hi) v = (bitAt bits v ^^ decide (lo ≤ v ∧ v ≤ hi)) := by
  have hi' : v / 64 < 1024 := by omega
  have hm : v % 64 < 64 := Nat.mod_lt _ (by norm_num)
  have hmask := getLsbD_hiMask (n := hi % 64) (Nat.mod_lt _ (by norm_num)) hm
  -- a word is xored with a mask, whose bit says whether the value is of the range
  have hflip : ∀ {w m : BitVec 64} {p : Prop} [Decidable p], (m.getLsbD (v % 64) = true ↔ p) →
      (w ^^^ m).getLsbD (v % 64) = (w.getLsbD (v % 64) ^^ decide p) := by
    intro w m p _ h
    rw [BitVec.getLsbD_xor, Bool.eq_iff_iff.mpr (h.trans decide_eq_true_iff.symm)]
  have hkeep : ∀ {b : Bool} {p : Prop} [Decidable p], ¬ p → b = (b ^^ decide p) := by
    intro b p _ h
    rw [decide_eq_false h, Bool.xor_false]
  rw [flipWords]
  split_ifs with hnone hone
  · exact hkeep (by omega)
  · rw [bitAt, bitAt, wordAt_mapIdx _ _ hi']
    split_ifs with hw
    · refine hflip ?_
      rw [BitVec.getLsbD_and, getLsbD_loMask, hmask]
      simp only [Bool.and_eq_true, decide_eq_true_eq]
      omega
    · exact hkeep (by omega)
  · rw [bitAt, bitAt, wordAt_mapIdx _ _ hi']
    split_ifs with hfirst hmid hlast
    · refine hflip ?_
      rw [getLsbD_loMask]
      simp only [Bool.and_eq_true, decide_eq_true_eq]
      omega
    · refine hflip ?_
      rw [BitVec.getLsbD_allOnes]
      simp only [decide_eq_true_eq]
      omega
    · refine hflip ?_
      rw [hmask]
      simp only [decide_eq_true_eq]
      omega
    · exact hkeep (by omega)

/-- The values from `lo` on keep their bit, any other loses it. -/
theorem bitAt_clipBelow (lo : ℕ) (hv : v < 65536) :
    bitAt (clipBelow bits lo) v = (bitAt bits v && decide (lo ≤ v)) := by
  have hi' : v / 64 < 1024 := by omega
  have hm : v % 64 < 64 := Nat.mod_lt _ (by norm_num)
  rw [clipBelow]
  split_ifs with hpos
  · rw [bitAt, bitAt, wordAt_mapIdx _ _ hi']
    split_ifs with hbelow hw
    · have h : ¬ lo ≤ v := by omega
      simp [h]
    · have h : lo % 64 ≤ v % 64 ↔ lo ≤ v := by omega
      rw [BitVec.getLsbD_and, getLsbD_loMask, decide_eq_true hm, Bool.true_and]
      simp only [h]
    · have h : lo ≤ v := by omega
      simp [h]
  · have h : lo ≤ v := by omega
    simp [h]

/-- The values up to `hi` keep their bit, any other loses it. -/
theorem bitAt_clipAbove (hi : ℕ) (hv : v < 65536) :
    bitAt (clipAbove bits hi) v = (bitAt bits v && decide (v ≤ hi)) := by
  have hi' : v / 64 < 1024 := by omega
  rw [clipAbove, bitAt, bitAt, wordAt_mapIdx _ _ hi']
  split_ifs with habove hw hpart
  · have h : ¬ v ≤ hi := by omega
    simp [h]
  · have h : v % 64 < hi % 64 + 1 ↔ v ≤ hi := by omega
    rw [BitVec.getLsbD_and, getLsbD_lowOnes (by omega)]
    simp only [h]
  · have h : v ≤ hi := by omega
    simp [h]
  · have h : v ≤ hi := by omega
    simp [h]

end Ranges

/-! ### The container -/

/-- `BITSET_TO_ARRAY_THRESHOLD`. -/
def bitsetToArrayThreshold : ℕ := 4096

/-- A bitset container: the words, and how many bits are set in them. -/
structure BitsetContainer where
  bits : Words
  cardinality : ℕ
  counted : cardinality = popcount bits
deriving DecidableEq

namespace BitsetContainer

/-- A bitset whose cardinality is recounted from its words. -/
def recounted (bits : Words) : BitsetContainer := ⟨bits, popcount bits, rfl⟩

/-- Extract all set bits, in order. -/
def toValues (self : BitsetContainer) : List ℕ := extractValues self.bits

theorem sortedLows_toValues (self : BitsetContainer) : SortedLows self.toValues :=
  sortedLows_extractValues self.bits

theorem cardinality_eq (self : BitsetContainer) : self.cardinality = self.toValues.length := by
  rw [self.counted, popcount_eq, toValues]

@[simp] theorem mem_toValues {self : BitsetContainer} :
    v ∈ self.toValues ↔ bitAt self.bits v = true := mem_extractValues

/-- No value. -/
def new : BitsetContainer := recounted noBits

def contains (self : BitsetContainer) (v : ℕ) : Bool :=
  wordAt self.bits (wordAndBit v).1 &&& (wordAndBit v).2 != 0

theorem contains_eq_bitAt (self : BitsetContainer) (v : ℕ) :
    self.contains v = bitAt self.bits v := by
  rw [contains, and_bit_ne_zero, bitAt, wordAndBit_eq]

@[simp] theorem contains_eq (self : BitsetContainer) (v : ℕ) :
    self.contains v = decide (v ∈ self.toValues) := by
  rw [contains_eq_bitAt, Bool.eq_iff_iff, decide_eq_true_iff, mem_toValues]

/-- One more bit. -/
private theorem popcount_setBit (hv : v < 65536) (h : bitAt bits v = false) :
    popcount (setBit bits v) = popcount bits + 1 := by
  rw [popcount_eq, popcount_eq]
  refine (sortedLows_extractValues bits).length_of_insert (sortedLows_extractValues _)
    (v := v) (by simp [mem_extractValues, h]) fun x => ?_
  simp [mem_extractValues, bitAt_setBit hv]

/-- One bit less. -/
private theorem popcount_clearBit (hv : v < 65536) (h : bitAt bits v = true) :
    popcount (clearBit bits v) = popcount bits - 1 := by
  rw [popcount_eq, popcount_eq]
  refine (sortedLows_extractValues bits).length_of_remove (sortedLows_extractValues _)
    (v := v) (by simp [mem_extractValues, h]) fun x => ?_
  simp [mem_extractValues, bitAt_clearBit hv]

def insert (self : BitsetContainer) (v : ℕ) (hv : v < 65536) : Bool × BitsetContainer :=
  if h : self.contains v then (false, self)
  else (true, ⟨setBit self.bits v, self.cardinality + 1, by
    rw [contains_eq_bitAt, Bool.not_eq_true] at h
    rw [popcount_setBit hv h, self.counted]⟩)

def remove (self : BitsetContainer) (v : ℕ) (hv : v < 65536) : Bool × BitsetContainer :=
  if h : self.contains v then
    (true, ⟨clearBit self.bits v, self.cardinality - 1, by
      rw [contains_eq_bitAt] at h
      rw [popcount_clearBit hv h, self.counted]⟩)
  else (false, self)

/-- **Inserting a value** adds it, and says whether it was new. -/
theorem insert_spec (self : BitsetContainer) (hv : v < 65536) :
    (self.insert v hv).1 = decide (v ∉ self.toValues) ∧
      ∀ x, x ∈ (self.insert v hv).2.toValues ↔ x = v ∨ x ∈ self.toValues := by
  rw [insert]
  split_ifs with h
  · have hmem : v ∈ self.toValues := by simpa [contains_eq_bitAt] using h
    refine ⟨(decide_eq_false (not_not.mpr hmem)).symm, fun x => ⟨.inr, ?_⟩⟩
    rintro (rfl | hx)
    · exact hmem
    · exact hx
  · have hmem : v ∉ self.toValues := by simpa [contains_eq_bitAt] using h
    refine ⟨(decide_eq_true hmem).symm, fun x => ?_⟩
    simp [bitAt_setBit hv]

/-- **Removing a value** takes it out, and says whether it was there. -/
theorem remove_spec (self : BitsetContainer) (hv : v < 65536) :
    (self.remove v hv).1 = decide (v ∈ self.toValues) ∧
      ∀ x, x ∈ (self.remove v hv).2.toValues ↔ x ≠ v ∧ x ∈ self.toValues := by
  rw [remove]
  split_ifs with h
  · have hmem : v ∈ self.toValues := by simpa [contains_eq_bitAt] using h
    refine ⟨(decide_eq_true hmem).symm, fun x => ?_⟩
    simp [bitAt_clearBit hv]
  · have hmem : v ∉ self.toValues := by simpa [contains_eq_bitAt] using h
    refine ⟨(decide_eq_false hmem).symm, fun x => ⟨fun hx => ⟨?_, hx⟩, And.right⟩⟩
    rintro rfl
    exact hmem hx

/-- `from_values`: set one value after the other, counting as they come. -/
def fromValues (values : List ℕ) (h : SortedLows values) : BitsetContainer :=
  values.attach.foldl (fun c v => (c.insert v.1 (h.bounded v.1 v.2)).2) new

/-- `from_sorted_values`: set all values at once, then count. -/
def fromSortedValues (values : List ℕ) : BitsetContainer :=
  recounted (setBitsFromArray noBits values)

/-- Whether this container should be converted to an array. -/
def shouldDemote (self : BitsetContainer) : Bool := self.cardinality < bitsetToArrayThreshold

def flipRange (self : BitsetContainer) (lo hi : ℕ) : BitsetContainer :=
  if lo > hi then self else recounted (flipWords self.bits lo hi)

protected def and (self other : BitsetContainer) : BitsetContainer :=
  recounted (andWords self.bits other.bits)

protected def or (self other : BitsetContainer) : BitsetContainer :=
  recounted (orWords self.bits other.bits)

def andNot (self other : BitsetContainer) : BitsetContainer :=
  recounted (andNotWords self.bits other.bits)

@[simp] theorem mem_toValues_new (v : ℕ) : v ∉ new.toValues := by simp [new, recounted]

@[simp] theorem mem_toValues_fromValues (h : SortedLows values) (v : ℕ) :
    v ∈ (fromValues values h).toValues ↔ v ∈ values := by
  have hfold : ∀ (l : List { x // x ∈ values }) (c : BitsetContainer),
      v ∈ (l.foldl (fun c x => (c.insert x.1 (h.bounded x.1 x.2)).2) c).toValues ↔
        v ∈ l.map Subtype.val ∨ v ∈ c.toValues := by
    intro l
    induction l with
    | nil => simp
    | cons x l ih =>
      intro c
      rw [List.foldl_cons, ih, (c.insert_spec (h.bounded x.1 x.2)).2, List.map_cons, List.mem_cons]
      tauto
  rw [fromValues, hfold, List.attach_map_subtype_val]
  simp only [mem_toValues_new, or_false]

@[simp] theorem mem_toValues_fromSortedValues (h : SortedLows values) (v : ℕ) :
    v ∈ (fromSortedValues values).toValues ↔ v ∈ values := by
  simp [fromSortedValues, recounted, bitAt_setBitsFromArray h.bounded]

theorem mem_toValues_flipRange (self : BitsetContainer) (lo hi : ℕ) (hv : v < 65536) :
    v ∈ (self.flipRange lo hi).toValues ↔
      (v ∈ self.toValues ↔ ¬ (lo ≤ v ∧ v ≤ hi)) := by
  rw [flipRange]
  split_ifs with h
  · have : ¬ (lo ≤ v ∧ v ≤ hi) := by omega
    simp [this]
  · rw [mem_toValues, mem_toValues, recounted, bitAt_flipWords _ lo hi hv]
    by_cases hr : lo ≤ v ∧ v ≤ hi <;> simp [hr]

@[simp] theorem mem_toValues_and (a b : BitsetContainer) (v : ℕ) :
    v ∈ (a.and b).toValues ↔ v ∈ a.toValues ∧ v ∈ b.toValues := by
  simp [BitsetContainer.and, recounted]

@[simp] theorem mem_toValues_or (a b : BitsetContainer) (v : ℕ) :
    v ∈ (a.or b).toValues ↔ v ∈ a.toValues ∨ v ∈ b.toValues := by
  simp [BitsetContainer.or, recounted]

@[simp] theorem mem_toValues_andNot (a b : BitsetContainer) (v : ℕ) :
    v ∈ (a.andNot b).toValues ↔ v ∈ a.toValues ∧ v ∉ b.toValues := by
  simp [BitsetContainer.andNot, recounted]

end BitsetContainer

end Minnal
