import Minnal.Index.RoaringBitmap

/-!
# Bitmaps as sets

Values handed over in bulk fall into blocks, one for each high key, and come out again as they
went in. A bitmap lists its values in strictly ascending order (`pairwise_iter`), as many as its
cached cardinality says (`cardinality_eq`).

Intersection, union, ranges and flips are the set operations on the values, and no change of a
container's kind changes a value (`operations_exact`). The difference is that of sets **exactly
when** no high key has run containers on both sides that hold the last low value
(`andNot_exact_iff`).
-/

namespace Minnal

open SortedMap (Ascending)
open FiniteTable (weight)
open List (mem_cons mem_map map_singleton pairwise_singleton pairwise_cons mem_pmap mem_cons_self)

namespace RoaringBitmap

/-! ### Bulk load -/

/-- `build_container`: a bitset or an array of the low values, by their number. -/
def buildContainer (lows : List ℕ) (h : SortedLows lows) : Container :=
  if arrayToBitsetThreshold ≤ lows.length then .bitset (BitsetContainer.fromSortedValues lows)
  else .array (ArrayContainer.fromSorted lows h)

/-- The loop of `from_sorted_iter`: the low values gathered for each high key in turn. -/
def collectBlocks (high : ℕ) (lows : List ℕ) : List ℕ → List (ℕ × List ℕ)
  | [] => [(high, lows)]
  | key :: keys =>
    if (decompose key).1 = high then collectBlocks high (lows ++ [(decompose key).2]) keys
    else (high, lows) :: collectBlocks (decompose key).1 [(decompose key).2] keys

/-- The blocks of an iterator. -/
def blocksOf : List ℕ → List (ℕ × List ℕ)
  | [] => []
  | key :: keys => collectBlocks (decompose key).1 [(decompose key).2] keys

@[simp] theorem compose_decompose (v : ℕ) : compose (decompose v).1 (decompose v).2 = v :=
  Nat.div_add_mod' v 65536

/-- Strictly ascending keys, the open block first, fall into blocks in order. -/
private theorem collectBlocks_spec {high : ℕ} {lows keys : List ℕ} (hlows : SortedLows lows)
    (hne : lows ≠ []) (hasc : (lows.map (compose high) ++ keys).Pairwise (· < ·)) :
    (∀ b ∈ collectBlocks high lows keys, SortedLows b.2 ∧ b.2 ≠ []) ∧
      Ascending Prod.fst (collectBlocks high lows keys) ∧
      (∀ b ∈ collectBlocks high lows keys, high ≤ b.1) ∧
      (collectBlocks high lows keys).flatMap (fun b => b.2.map (compose b.1)) =
        lows.map (compose high) ++ keys := by
  induction keys generalizing high lows with
  | nil =>
    rw [collectBlocks]
    exact ⟨by simpa using ⟨hlows, hne⟩, by simp [Ascending], by simp, by simp⟩
  | cons key keys ih =>
    obtain ⟨-, hkeys, hbelow⟩ := List.pairwise_append.mp hasc
    have hlow := decompose_lt key
    have hkey := compose_decompose key
    rw [collectBlocks]
    split_ifs with hsame
    · have hmap : (lows ++ [(decompose key).2]).map (compose high) ++ keys =
          lows.map (compose high) ++ key :: keys := by
        rw [List.map_append, map_singleton, ← hsame, hkey]
        simp
      rw [← hmap]
      refine ih ⟨List.pairwise_append.mpr ⟨hlows.ascending, pairwise_singleton _ _, ?_⟩, ?_⟩
        (by simp) (hmap ▸ hasc)
      · intro x hx y hy
        have hlt := hbelow _ (List.mem_map_of_mem hx) key mem_cons_self
        rw [← hkey, hsame] at hlt
        rw [List.mem_singleton.mp hy]
        simp only [compose, id] at hlt ⊢
        omega
      · intro x hx
        rcases List.mem_append.mp hx with hx | hx
        · exact hlows.bounded x hx
        · rw [List.mem_singleton.mp hx]
          exact hlow
    · obtain ⟨hvalid, hord, hge, hflat⟩ := @ih (decompose key).1 [(decompose key).2]
        ⟨pairwise_singleton _ _, by simpa using hlow⟩ (by simp)
        (by rw [map_singleton, hkey]; exact hkeys)
      have hgt : high < (decompose key).1 := by
        obtain ⟨x, hx⟩ := List.exists_mem_of_ne_nil _ hne
        have hlt := hbelow _ (List.mem_map_of_mem hx) key mem_cons_self
        simp only [compose, decompose] at hlt hsame ⊢
        omega
      refine ⟨?_, SortedMap.ascending_cons.mpr ⟨fun b hb => hgt.trans_le (hge b hb), hord⟩, ?_, ?_⟩
      · intro b hb
        rcases mem_cons.mp hb with rfl | hb
        · exact ⟨hlows, hne⟩
        · exact hvalid b hb
      · intro b hb
        rcases mem_cons.mp hb with rfl | hb
        · exact le_rfl
        · exact hgt.le.trans (hge b hb)
      · rw [List.flatMap_cons, hflat, map_singleton, hkey]
        rfl

/-- **The blocks of strictly ascending values**: each in order and not empty, and nothing lost. -/
theorem blocksOf_spec {keys : List ℕ} (h : keys.Pairwise (· < ·)) :
    (∀ b ∈ blocksOf keys, SortedLows b.2 ∧ b.2 ≠ []) ∧ Ascending Prod.fst (blocksOf keys) ∧
      (blocksOf keys).flatMap (fun b => b.2.map (compose b.1)) = keys := by
  cases keys with
  | nil => exact ⟨by simp [blocksOf], SortedMap.ascending_nil, rfl⟩
  | cons key keys =>
    have hmap : [(decompose key).2].map (compose (decompose key).1) ++ keys = key :: keys := by
      rw [map_singleton, compose_decompose, List.singleton_append]
    obtain ⟨hvalid, hord, -, hflat⟩ := @collectBlocks_spec (decompose key).1 [(decompose key).2] keys
      ⟨pairwise_singleton _ _, by simpa using decompose_lt key⟩ (by simp) (hmap ▸ h)
    exact ⟨hvalid, hord, hflat.trans hmap⟩

@[simp] theorem toValues_buildContainer {lows : List ℕ} (h : SortedLows lows) :
    (buildContainer lows h).toValues = lows := by
  rw [buildContainer]
  split_ifs
  · exact (BitsetContainer.sortedLows_toValues _).eq_of_mem_iff h fun v =>
      BitsetContainer.mem_toValues_fromSortedValues h v
  · rfl

/-- The entries of a bulk load. -/
def bulkEntries (keys : List ℕ) (h : keys.Pairwise (· < ·)) : List (ℕ × Container) :=
  (blocksOf keys).pmap (fun b hb => (b.1, buildContainer b.2 hb)) fun b hb =>
    ((blocksOf_spec h).1 b hb).1

theorem isEmpty_bulkEntries {keys : List ℕ} (h : keys.Pairwise (· < ·)) :
    ∀ e ∈ bulkEntries keys h, e.2.isEmpty = false := by
  intro e he
  obtain ⟨b, hb, rfl⟩ := mem_pmap.mp he
  rw [Bool.eq_false_iff, Ne, Container.isEmpty_iff, toValues_buildContainer]
  exact ((blocksOf_spec h).1 b hb).2

/-- `from_sorted_iter`: a bitmap of values handed over sorted and deduplicated. -/
def fromSortedIter (keys : List ℕ) (h : keys.Pairwise (· < ·)) : RoaringBitmap :=
  ofEntries (bulkEntries keys h) (isEmpty_bulkEntries h)

/-- `Vec::dedup`: drop repeats of the value before. -/
def dedup : List ℕ → List ℕ
  | [] => []
  | a :: l =>
    match dedup l with
    | [] => [a]
    | b :: l => if a = b then b :: l else a :: b :: l

/-- Sorting and then dropping repeats leaves strictly ascending values. -/
theorem dedup_spec {l : List ℕ} (h : l.Pairwise (· ≤ ·)) :
    (dedup l).Pairwise (· < ·) ∧ ∀ v, v ∈ dedup l ↔ v ∈ l := by
  induction l with
  | nil => exact ⟨List.Pairwise.nil, fun v => Iff.rfl⟩
  | cons a l ih =>
    obtain ⟨ha, hl⟩ := pairwise_cons.mp h
    obtain ⟨hasc, hmem⟩ := ih hl
    rw [dedup]
    cases hd : dedup l with
    | nil =>
      rw [hd] at hmem
      refine ⟨pairwise_singleton _ _, fun v => ?_⟩
      have := hmem v
      simp only [List.not_mem_nil, false_iff] at this
      simp [this]
    | cons b d =>
      rw [hd] at hasc hmem
      have hb : a ≤ b := ha b ((hmem b).mp mem_cons_self)
      dsimp only
      split_ifs with hab
      · refine ⟨hasc, fun v => ?_⟩
        rw [hmem, mem_cons]
        exact ⟨.inr, fun hv => hv.elim (fun hv => (hmem v).mp (by simp [hv, hab])) id⟩
      · refine ⟨pairwise_cons.mpr ⟨fun x hx => ?_, hasc⟩, fun v => ?_⟩
        · rcases mem_cons.mp hx with rfl | hx
          · omega
          · have := (pairwise_cons.mp hasc).1 x hx
            omega
        · rw [mem_cons, hmem, mem_cons]

theorem pairwise_sorted_dedup (keys : List ℕ) :
    (dedup (keys.mergeSort (· ≤ ·))).Pairwise (· < ·) := by
  refine (dedup_spec ?_).1
  simpa using @List.pairwise_mergeSort ℕ (fun a b => decide (a ≤ b)) (by simp; omega)
    (by simp; omega) keys

/-- `from_unsorted_iter`: sort, drop repeats, and load. -/
def fromUnsortedIter (keys : List ℕ) : RoaringBitmap :=
  fromSortedIter (dedup (keys.mergeSort (· ≤ ·))) (pairwise_sorted_dedup keys)

/-- A bitmap holds a value when a container of its block does. -/
theorem contains_iff_mem (self : RoaringBitmap) (v : ℕ) :
    self.contains v = true ↔
      ∃ e ∈ self.store.map, ∃ low ∈ e.2.toValues, compose e.1 low = v := by
  have hblock : ∀ {k low : ℕ}, low < 65536 → (compose k low = v ↔ k = v / 65536 ∧ low = v % 65536) := by
    intro k low hlow
    simp only [compose]
    omega
  rw [contains_iff]
  constructor
  · intro h
    cases hget : self.store.get (v / 65536) with
    | none =>
      rw [hget] at h
      cases h
    | some c =>
      rw [hget] at h
      exact ⟨_, (mem_iff_lookup self.store.sorted).mpr hget, _, h, compose_decompose v⟩
  · rintro ⟨⟨k, c⟩, hmem, low, hlow, hv⟩
    obtain ⟨rfl, rfl⟩ := (hblock (Container.lt_of_mem_toValues hlow)).mp hv
    rw [show self.store.get (v / 65536) = some c from (mem_iff_lookup self.store.sorted).mp hmem]
    exact hlow

theorem contains_fromSortedIter {keys : List ℕ} (h : keys.Pairwise (· < ·)) (v : ℕ) :
    (fromSortedIter keys h).contains v = true ↔ v ∈ keys := by
  obtain ⟨-, hord, hflat⟩ := blocksOf_spec h
  have hasc : Ascending Prod.fst (bulkEntries keys h) :=
    (List.pairwise_pmap _).mpr (hord.imp fun hlt _ _ => hlt)
  have hmap : ∀ e, e ∈ (fromSortedIter keys h).store.map ↔ e ∈ bulkEntries keys h := by
    rintro ⟨k, c⟩
    rw [mem_iff_lookup (fromSortedIter keys h).store.sorted, mem_iff_lookup hasc,
      ← HeapStore.get_ofUpserts hasc]
    rfl
  conv_rhs => rw [← hflat]
  simp only [contains_iff_mem, hmap, bulkEntries, mem_pmap, List.mem_flatMap, mem_map]
  constructor
  · rintro ⟨-, ⟨b, hb, rfl⟩, low, hlow, hv⟩
    rw [toValues_buildContainer] at hlow
    exact ⟨b, hb, low, hlow, hv⟩
  · rintro ⟨b, hb, low, hlow, hv⟩
    exact ⟨_, ⟨b, hb, rfl⟩, low, by rwa [toValues_buildContainer], hv⟩

theorem contains_fromUnsortedIter (keys : List ℕ) (v : ℕ) :
    (fromUnsortedIter keys).contains v = true ↔ v ∈ keys := by
  have hsorted := @List.pairwise_mergeSort ℕ (fun a b => decide (a ≤ b)) (by simp; omega)
    (by simp; omega) keys
  rw [fromUnsortedIter, contains_fromSortedIter, (dedup_spec (by simpa using hsorted)).2]
  exact List.mem_mergeSort

/-! ### Counting -/

section Counting

variable (a : RoaringBitmap)

theorem mem_iter (v : ℕ) : v ∈ a.iter ↔ a.contains v = true := by
  rw [contains_iff_mem, iter, List.mem_flatMap]
  simp only [mem_map]

/-- The values come in strictly ascending order. -/
theorem pairwise_iter : a.iter.Pairwise (· < ·) := by
  refine List.pairwise_flatMap.mpr ⟨fun e _ => ?_, a.store.sorted.imp fun {e e'} hlt x hx y hy => ?_⟩
  · rw [List.pairwise_map]
    exact e.2.sortedLows_toValues.ascending.imp fun h => Nat.add_lt_add_left h _
  · obtain ⟨low, hlow, rfl⟩ := mem_map.mp hx
    obtain ⟨low', -, rfl⟩ := mem_map.mp hy
    have := Container.lt_of_mem_toValues hlow
    simp only [compose]
    omega

/-- **The cached cardinality** is the number of values. -/
theorem cardinality_eq : a.cardinality = a.iter.length := by
  rw [cardinality, a.store.counted, iter, List.length_flatMap, totalCount, weight]
  simp only [List.length_map, Container.cardinality_eq]

/-- A bitmap with the values of another that pass a test has as many as pass it. -/
theorem cardinality_eq_filter {b : RoaringBitmap} {p : ℕ → Bool}
    (h : ∀ v, b.contains v = true ↔ a.contains v = true ∧ p v = true) :
    b.cardinality = (a.iter.filter p).length := by
  have hlist : b.iter = a.iter.filter p := by
    refine List.Pairwise.eq_of_mem_iff b.pairwise_iter (a.pairwise_iter.filter _) fun {v} => ?_
    rw [List.mem_filter, mem_iter, mem_iter, h]
  rw [cardinality_eq, hlist]

end Counting

/-! ### Main results -/

/-- The difference of two bitmaps is that of sets: it holds the left values that the right side
does not hold, counts them, and keeps no empty container. -/
def ExactDifference (a b : RoaringBitmap) : Prop :=
  (∀ v, (a.andNot b).contains v = true ↔ a.contains v = true ∧ b.contains v = false) ∧
    (a.andNot b).cardinality = (a.iter.filter fun v => !b.contains v).length ∧
    ∀ e ∈ (a.andNot b).store.map, e.2.isEmpty = false

/-- A high key is that of its last value. -/
private theorem exists_last_of_key (key : ℕ) : ∃ v, v / 65536 = key ∧ v % 65536 = 65535 :=
  ⟨key * 65536 + 65535, by omega, by omega⟩

/-- Without stuck keys the difference holds what it should. -/
private theorem contains_andNot_of_not_stuck {a b : RoaringBitmap}
    (h : ∀ key, a.stuckAt b key = false) (v : ℕ) :
    (a.andNot b).contains v = true ↔ a.contains v = true ∧ b.contains v = false := by
  rw [contains_andNot, h, Bool.not_eq_true]
  simp

theorem isEmpty_iff (a : RoaringBitmap) : a.isEmpty = true ↔ ∀ v, a.contains v = false := by
  rw [isEmpty, cardinality_eq, decide_eq_true_iff, List.length_eq_zero_iff,
    List.eq_nil_iff_forall_not_mem]
  simp only [mem_iter, Bool.not_eq_true]

/-- **The difference is exact** if and only if no high key has run containers on both sides that
hold the last low value; so a bitmap less itself is empty if and only if none of its run
containers holds it. -/
theorem andNot_exact_iff (a b : RoaringBitmap) :
    (ExactDifference a b ↔ ∀ key, a.stuckAt b key = false) ∧
      ((a.andNot a).isEmpty = true ↔ ∀ key, a.stuckAt a key = false) := by
  refine ⟨⟨fun h key => ?_, fun h => ?_⟩, ⟨fun h key => ?_, fun h => ?_⟩⟩
  · by_contra hstuck
    obtain ⟨v, rfl, hlow⟩ := exists_last_of_key key
    obtain ⟨hleft, hright⟩ := contains_of_stuckAt hlow (Bool.not_eq_false _ ▸ hstuck)
    rw [((h.1 _).mp hleft).2] at hright
    cases hright
  · refine ⟨contains_andNot_of_not_stuck h, a.cardinality_eq_filter fun v => ?_,
      fun e he => (a.andNot b).isEmpty_of_mem he⟩
    rw [contains_andNot_of_not_stuck h, Bool.not_eq_true']
  · by_contra hstuck
    obtain ⟨v, rfl, hlow⟩ := exists_last_of_key key
    have hleft := (contains_of_stuckAt hlow (Bool.not_eq_false _ ▸ hstuck)).1
    rw [(isEmpty_iff _).mp h] at hleft
    cases hleft
  · refine (isEmpty_iff _).mpr fun v => Bool.eq_false_iff.mpr fun hv => ?_
    obtain ⟨h₁, h₂⟩ := (contains_andNot_of_not_stuck h v).mp hv
    rw [h₁] at h₂
    cases h₂

/-- A bitmap of two adjacent last values, kept as a run, less itself keeps the last one. -/
theorem andNot_self_keeps_last :
    ((fromSortedIter [65534, 65535] (by decide)).optimize.andNot
      (fromSortedIter [65534, 65535] (by decide)).optimize).contains 65535 = true := by
  decide +kernel

/-- **The other operations are exact**: intersection, union, their ranges, and flips within the
admitted span are the set operations for every pair of bitmaps and every range, and neither
optimising nor any change of a container's kind changes a value. -/
theorem operations_exact (a b : RoaringBitmap) (lo hi v : ℕ) :
    ((a.and b).contains v = true ↔ a.contains v = true ∧ b.contains v = true) ∧
    ((a.or b).contains v = true ↔ a.contains v = true ∨ b.contains v = true) ∧
    ((a.rangeAnd b lo hi).contains v = true ↔
      (a.contains v = true ∧ b.contains v = true) ∧ lo ≤ v ∧ v < hi) ∧
    ((a.rangeOr b lo hi).contains v = true ↔
      (a.contains v = true ∨ b.contains v = true) ∧ lo ≤ v ∧ v < hi) ∧
    ((a.flip lo hi).isSome = true ↔ flipAdmitted lo hi) ∧
    (∀ r, a.flip lo hi = some r →
      (r.contains v = true ↔ (a.contains v = true ↔ ¬ (lo ≤ v ∧ v < hi)))) ∧
    (a.optimize.contains v = true ↔ a.contains v = true) ∧
    (∀ c : Container, c.optimize.toValues = c.toValues) ∧
    (∀ c : ArrayContainer, (Container.promote c).toValues = c.values) ∧
    (∀ c : BitsetContainer, (Container.demote c).toValues = c.toValues) ∧
    (∀ c : RunContainer, (Container.ofRuns c).toValues = c.toValues) ∧
    ∀ values h, (Container.ofValues values h).toValues = values :=
  ⟨contains_and a b v, contains_or a b v, contains_rangeAnd a b v lo hi,
    contains_rangeOr a b v lo hi, flip_isSome_iff a lo hi, fun _ h => contains_flip a h v,
    contains_optimize a v, Container.toValues_optimize, Container.toValues_promote,
    Container.toValues_demote, Container.toValues_ofRuns, fun _ h => Container.toValues_ofValues h⟩

end RoaringBitmap

end Minnal
