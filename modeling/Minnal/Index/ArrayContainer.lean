import Minnal.Library.SortedJoin

/-!
# Array containers

A bitmap keeps, for each block of `2^16` values, the low sixteen bits of its values in a
container. The plainest container is a sorted array of them. `SortedLows` is what every
container's list of values is: **strictly ascending**, each below `2^16`; an
`ArrayContainer` carries it as a field. The kernels on sorted slices are walks with two
pointers (the vector kernels of the source compute the same lists).
-/

namespace Minnal

open SortedMap (Ascending mergeJoin)
open List (mem_cons mem_append)

/-- The values of a container in order: strictly ascending numbers of sixteen bits. -/
structure SortedLows (l : List ℕ) : Prop where
  ascending : Ascending id l
  bounded : ∀ v ∈ l, v < 65536

namespace SortedLows

variable {l l' : List ℕ}

theorem nil : SortedLows [] := ⟨SortedMap.ascending_nil, by simp⟩

theorem sublist (h : SortedLows l) (hs : l'.Sublist l) : SortedLows l' :=
  ⟨h.ascending.sublist hs, fun v hv => h.bounded v (hs.subset hv)⟩

theorem filter (h : SortedLows l) (p : ℕ → Bool) : SortedLows (l.filter p) :=
  h.sublist List.filter_sublist

theorem nodup (h : SortedLows l) : l.Nodup :=
  h.ascending.imp fun hlt => ne_of_lt hlt

/-- A container's values are as many as the set of them. -/
theorem length_eq_card (h : SortedLows l) : l.length = l.toFinset.card :=
  (List.toFinset_card_of_nodup h.nodup).symm

/-- Two lists with the same values are one list. -/
theorem eq_of_mem_iff (h : SortedLows l) (h' : SortedLows l') (hmem : ∀ v, v ∈ l ↔ v ∈ l') :
    l = l' :=
  List.Pairwise.eq_of_mem_iff h.ascending h'.ascending fun {v} => hmem v

/-- One value more. -/
theorem length_of_insert (h : SortedLows l) (h' : SortedLows l') {v : ℕ} (hv : v ∉ l)
    (hmem : ∀ x, x ∈ l' ↔ x = v ∨ x ∈ l) : l'.length = l.length + 1 := by
  have hset : l'.toFinset = insert v l.toFinset := by
    ext x
    simp [hmem]
  rw [h'.length_eq_card, hset, Finset.card_insert_of_notMem (by simpa using hv), h.length_eq_card]

/-- One value less. -/
theorem length_of_remove (h : SortedLows l) (h' : SortedLows l') {v : ℕ} (hv : v ∈ l)
    (hmem : ∀ x, x ∈ l' ↔ x ≠ v ∧ x ∈ l) : l'.length = l.length - 1 := by
  have hset : l'.toFinset = l.toFinset.erase v := by
    ext x
    simp [hmem]
  rw [h'.length_eq_card, hset, Finset.card_erase_of_mem (by simpa using hv), h.length_eq_card]

end SortedLows

/-! ### Searching and changing a sorted slice -/

/-- `slice::binary_search`: the place of `v`, or the place where it would stand. -/
def binarySearch (values : List ℕ) (v : ℕ) : Except ℕ ℕ :=
  let pos := (values.takeWhile (· < v)).length
  if values[pos]? = some v then .ok pos else .error pos

/-- `ArrayContainer::insert` on the values: whether `v` is new, and the values with it. -/
def insertValue (values : List ℕ) (v : ℕ) : Bool × List ℕ :=
  match binarySearch values v with
  | .ok _ => (false, values)
  | .error pos => (true, values.insertIdx pos v)

/-- `ArrayContainer::remove` on the values: whether `v` was there, and the values without. -/
def removeValue (values : List ℕ) (v : ℕ) : Bool × List ℕ :=
  match binarySearch values v with
  | .ok pos => (true, values.eraseIdx pos)
  | .error _ => (false, values)

variable {l : List ℕ}

/-- A search cuts an ascending slice at `v`, which it finds or not. -/
theorem binarySearch_cut (hl : Ascending id l) (v : ℕ) :
    ∃ lo hi, (∀ x ∈ lo, x < v) ∧ (∀ x ∈ hi, v < x) ∧
      (l = lo ++ v :: hi ∧ binarySearch l v = .ok lo.length ∨
        l = lo ++ hi ∧ binarySearch l v = .error lo.length) := by
  have hlo : ∀ x ∈ l.takeWhile (· < v), x < v := fun x hx => by
    simpa using List.mem_takeWhile_imp hx
  have hcut : l.takeWhile (· < v) ++ l.dropWhile (· < v) = l := List.takeWhile_append_dropWhile
  have hget : l[(l.takeWhile (· < v)).length]? = (l.dropWhile (· < v)).head? := by
    conv_lhs => rw [← hcut]
    rw [List.takeWhile_append_dropWhile, ← hcut, List.getElem?_append_right (by simp)]
    simp [List.head?_eq_getElem?]
  generalize hdrop : l.dropWhile (· < v) = hi at hcut hget
  cases hi with
  | nil =>
    refine ⟨_, [], hlo, by simp, .inr ⟨hcut.symm, ?_⟩⟩
    simp [binarySearch, hget]
  | cons a hi =>
    -- the first value not below `v` is `v` or above it
    have ha : v ≤ a := by
      have := List.head?_dropWhile_not (· < v) l
      rw [hdrop] at this
      simpa using this
    have hhi := (SortedMap.ascending_cons.mp
      (hl.sublist (hcut ▸ List.sublist_append_right _ (a :: hi)))).1
    rcases ha.eq_or_lt with rfl | hlt
    · refine ⟨_, hi, hlo, hhi, .inl ⟨hcut.symm, ?_⟩⟩
      simp [binarySearch, hget]
    · refine ⟨_, a :: hi, hlo, ?_, .inr ⟨hcut.symm, ?_⟩⟩
      · intro x hx
        rcases mem_cons.mp hx with rfl | hx
        · exact hlt
        · exact hlt.trans (hhi x hx)
      · simp [binarySearch, hget, hlt.ne']

/-- A search succeeds exactly on the values of the slice. -/
theorem binarySearch_isOk (hl : Ascending id l) (v : ℕ) :
    (binarySearch l v).isOk = decide (v ∈ l) := by
  obtain ⟨lo, hi, hlo, hhi, ⟨rfl, hs⟩ | ⟨rfl, hs⟩⟩ := binarySearch_cut hl v
  · simp [hs, Except.isOk, Except.toBool]
  · have hmem : v ∉ lo ++ hi := by
      rw [mem_append]
      rintro (h | h)
      · exact lt_irrefl v (hlo v h)
      · exact lt_irrefl v (hhi v h)
    simp [hs, Except.isOk, Except.toBool, mem_append.not.mp hmem]

variable {v : ℕ}

/-- Two ascending stretches with `v` between them. -/
theorem SortedLows.insert_between {lo hi : List ℕ} (h : SortedLows (lo ++ hi))
    (hlo : ∀ x ∈ lo, x < v) (hhi : ∀ x ∈ hi, v < x) (hv : v < 65536) :
    SortedLows (lo ++ v :: hi) := by
  obtain ⟨hl, hh, hlh⟩ := List.pairwise_append.mp h.ascending
  refine ⟨List.pairwise_append.mpr ⟨hl, List.pairwise_cons.mpr ⟨hhi, hh⟩, ?_⟩, ?_⟩
  · intro x hx y hy
    rcases mem_cons.mp hy with rfl | hy
    · exact hlo x hx
    · exact hlh x hx y hy
  · intro x hx
    have := h.bounded x
    simp only [mem_append, mem_cons] at hx this
    rcases hx with hx | rfl | hx
    · exact this (.inl hx)
    · exact hv
    · exact this (.inr hx)

/-- **Inserting a value** adds it, and says whether it was new. -/
theorem insertValue_spec (hl : SortedLows l) (hv : v < 65536) :
    SortedLows (insertValue l v).2 ∧ (insertValue l v).1 = decide (v ∉ l) ∧
      ∀ x, x ∈ (insertValue l v).2 ↔ x = v ∨ x ∈ l := by
  have hok := binarySearch_isOk hl.ascending v
  obtain ⟨lo, hi, hlo, hhi, ⟨rfl, hs⟩ | ⟨rfl, hs⟩⟩ := binarySearch_cut hl.ascending v
  · simp only [insertValue, hs]
    exact ⟨hl, by simp, fun x => by simp; tauto⟩
  · have hmem : v ∉ lo ++ hi := by simpa [hs, Except.isOk, Except.toBool] using hok
    have hins : (lo ++ hi).insertIdx lo.length v = lo ++ v :: hi := by
      clear hs hok hmem hlo hhi hl
      induction lo with
      | nil => rfl
      | cons a lo ih => rw [List.cons_append, List.length_cons, List.insertIdx_succ_cons, ih]; rfl
    simp only [insertValue, hs, hins]
    exact ⟨hl.insert_between hlo hhi hv, by simpa using hmem, fun x => by simp; tauto⟩

/-- **Removing a value** takes it out, and says whether it was there. -/
theorem removeValue_spec (hl : SortedLows l) (v : ℕ) :
    SortedLows (removeValue l v).2 ∧ (removeValue l v).1 = decide (v ∈ l) ∧
      ∀ x, x ∈ (removeValue l v).2 ↔ x ≠ v ∧ x ∈ l := by
  have hok := binarySearch_isOk hl.ascending v
  obtain ⟨lo, hi, hlo, hhi, ⟨rfl, hs⟩ | ⟨rfl, hs⟩⟩ := binarySearch_cut hl.ascending v
  · have hdel : (lo ++ v :: hi).eraseIdx lo.length = lo ++ hi := by
      simp [List.eraseIdx_append_of_length_le]
    simp only [removeValue, hs, hdel]
    refine ⟨hl.sublist (by simp), by simp, fun x => ?_⟩
    have hne : x ∈ lo ++ hi → x ≠ v := by
      rw [mem_append]
      rintro (h | h)
      · exact (hlo x h).ne
      · exact (hhi x h).ne'
    simp only [mem_append, mem_cons] at hne ⊢
    tauto
  · have hmem : v ∉ lo ++ hi := by simpa [hs, Except.isOk, Except.toBool] using hok
    simp only [removeValue, hs]
    refine ⟨hl, by simpa using hmem, fun x => ⟨fun hx => ⟨?_, hx⟩, And.right⟩⟩
    rintro rfl
    exact hmem hx

/-! ### Set operations on sorted slices -/

/-- `and_sorted_u16`: the values met on both sides. -/
def andSortedU16 : List ℕ → List ℕ → List ℕ :=
  mergeJoin id id (fun _ => none) (fun a _ => some a) fun _ => none

/-- `or_sorted_u16`: the values met on either side, once each. -/
def orSortedU16 : List ℕ → List ℕ → List ℕ :=
  mergeJoin id id some (fun a _ => some a) some

/-- `and_not_sorted_u16`: the right pointer skips what is below each left value. -/
def andNotSortedU16 : List ℕ → List ℕ → List ℕ
  | [], _ => []
  | a :: as, bs =>
    let bs := bs.dropWhile (· < a)
    if bs.head? = some a then andNotSortedU16 as bs else a :: andNotSortedU16 as bs

variable {a b : List ℕ}

theorem mem_andSortedU16 (ha : SortedLows a) (hb : SortedLows b) (v : ℕ) :
    v ∈ andSortedU16 a b ↔ v ∈ a ∧ v ∈ b := by
  rw [andSortedU16, SortedMap.mem_mergeJoin ha.ascending hb.ascending]
  simp

theorem mem_orSortedU16 (ha : SortedLows a) (hb : SortedLows b) (v : ℕ) :
    v ∈ orSortedU16 a b ↔ v ∈ a ∨ v ∈ b := by
  rw [orSortedU16, SortedMap.mem_mergeJoin ha.ascending hb.ascending]
  simp only [id, Option.some.injEq]
  grind

theorem andNotSortedU16_sublist (a b : List ℕ) : (andNotSortedU16 a b).Sublist a := by
  induction a generalizing b with
  | nil => exact List.Sublist.refl _
  | cons x a ih =>
    rw [andNotSortedU16]
    split_ifs
    · exact (ih _).cons _
    · exact (ih _).cons_cons _

theorem mem_andNotSortedU16 (ha : SortedLows a) (hb : SortedLows b) (v : ℕ) :
    v ∈ andNotSortedU16 a b ↔ v ∈ a ∧ v ∉ b := by
  induction a generalizing b with
  | nil => simp [andNotSortedU16]
  | cons x a ih =>
    obtain ⟨hx, -⟩ := SortedMap.ascending_cons.mp ha.ascending
    have hdrop := hb.ascending.dropWhile_eq_filter x
    simp only [id] at hdrop hx
    rw [andNotSortedU16]
    simp only [hdrop]
    -- what was skipped lies below `x`, so nothing to the left of it is missed
    have hrest := ih (ha.sublist (List.sublist_cons_self x a)) (hb.filter (x ≤ ·))
    have hhead : (b.filter (x ≤ ·)).head? = some x ↔ x ∈ b := by
      have hmem : x ∈ b.filter (x ≤ ·) ↔ x ∈ b := by simp
      have hge : ∀ y ∈ b.filter (x ≤ ·), x ≤ y := fun y hy => by
        simpa using List.of_mem_filter hy
      have hasc := (hb.filter (x ≤ ·)).ascending
      rw [← hmem]
      generalize b.filter (x ≤ ·) = l at hge hasc
      cases l with
      | nil => simp
      | cons y l =>
        have hy := (SortedMap.ascending_cons.mp hasc).1
        refine ⟨fun h => List.mem_of_head? h, fun h => ?_⟩
        rcases mem_cons.mp h with rfl | h
        · rfl
        · exact absurd (hge y List.mem_cons_self) (not_le.mpr (hy x h))
    have hmiss : v ∈ a → (v ∈ b.filter (x ≤ ·) ↔ v ∈ b) := fun hv => by
      simp [(hx v hv).le]
    simp only [hhead]
    split_ifs with h
    · rw [hrest, mem_cons]
      constructor
      · rintro ⟨hv, hnot⟩
        exact ⟨.inr hv, (hmiss hv).not.mp hnot⟩
      · rintro ⟨rfl | hv, hnot⟩
        · exact absurd h hnot
        · exact ⟨hv, (hmiss hv).not.mpr hnot⟩
    · rw [mem_cons, hrest, mem_cons]
      constructor
      · rintro (rfl | ⟨hv, hnot⟩)
        · exact ⟨.inl rfl, h⟩
        · exact ⟨.inr hv, (hmiss hv).not.mp hnot⟩
      · rintro ⟨rfl | hv, hnot⟩
        · exact .inl rfl
        · exact .inr ⟨hv, (hmiss hv).not.mpr hnot⟩

theorem sortedLows_andSortedU16 (ha : SortedLows a) (hb : SortedLows b) :
    SortedLows (andSortedU16 a b) := by
  refine ⟨SortedMap.ascending_mergeJoin (by simp) (by simp) (by simp) ha.ascending hb.ascending,
    fun v hv => ha.bounded v ((mem_andSortedU16 ha hb v).mp hv).1⟩

theorem sortedLows_orSortedU16 (ha : SortedLows a) (hb : SortedLows b) :
    SortedLows (orSortedU16 a b) := by
  refine ⟨SortedMap.ascending_mergeJoin (by simp) (by simp) (by simp) ha.ascending hb.ascending,
    fun v hv => ?_⟩
  rcases (mem_orSortedU16 ha hb v).mp hv with h | h
  · exact ha.bounded v h
  · exact hb.bounded v h

/-! ### The container -/

/-- `ARRAY_TO_BITSET_THRESHOLD`. -/
def arrayToBitsetThreshold : ℕ := 4096

/-- An array container: a sorted array without duplicates. -/
structure ArrayContainer where
  values : List ℕ
  sorted : SortedLows values
deriving DecidableEq

namespace ArrayContainer

/-- The empty container. -/
def new : ArrayContainer := ⟨[], SortedLows.nil⟩

/-- `from_sorted`: its debug assertion is the proof it takes. -/
def fromSorted (values : List ℕ) (h : SortedLows values) : ArrayContainer := ⟨values, h⟩

def insert (self : ArrayContainer) (v : ℕ) (hv : v < 65536) : Bool × ArrayContainer :=
  ((insertValue self.values v).1, ⟨(insertValue self.values v).2, (insertValue_spec self.sorted hv).1⟩)

def remove (self : ArrayContainer) (v : ℕ) : Bool × ArrayContainer :=
  ((removeValue self.values v).1, ⟨(removeValue self.values v).2, (removeValue_spec self.sorted v).1⟩)

def contains (self : ArrayContainer) (v : ℕ) : Bool := (binarySearch self.values v).isOk

def cardinality (self : ArrayContainer) : ℕ := self.values.length

/-- Whether this container should be converted to a bitset. -/
def shouldPromote (self : ArrayContainer) : Bool := arrayToBitsetThreshold ≤ self.values.length

/-- Intersection of two sorted arrays. -/
protected def and (self other : ArrayContainer) : ArrayContainer :=
  ⟨andSortedU16 self.values other.values, sortedLows_andSortedU16 self.sorted other.sorted⟩

/-- Union of two sorted arrays. -/
protected def or (self other : ArrayContainer) : ArrayContainer :=
  ⟨orSortedU16 self.values other.values, sortedLows_orSortedU16 self.sorted other.sorted⟩

/-- The elements of `self` that are not in `other`. -/
def andNot (self other : ArrayContainer) : ArrayContainer :=
  ⟨andNotSortedU16 self.values other.values,
    self.sorted.sublist (andNotSortedU16_sublist self.values other.values)⟩

@[simp] theorem contains_eq (c : ArrayContainer) (v : ℕ) : c.contains v = decide (v ∈ c.values) :=
  binarySearch_isOk c.sorted.ascending v

end ArrayContainer

end Minnal
