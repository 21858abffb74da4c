import Minnal.Index.HeapStore

/-!
# Roaring bitmaps

A roaring bitmap splits a value into its high key and its low sixteen bits and keeps one
container for each high key. A bitmap is a value of `RoaringBitmap` only with its containers in
order, **none of them empty** and the count exact, so whatever sequence of operations builds
one, these hold of it. Set operations walk the entries of two bitmaps together; changes in
place touch the blocks they are about. Each is given by what the result holds: an intersection
or union of the two, a range of it, a value more or less, a range complemented. The difference
holds one value more for each key that is **stuck** (`contains_andNot`).
-/

namespace Minnal

open SortedMap (Ascending findBy mergeJoin)

/-! ### The bitmap -/

/-- The high key of a value and its low sixteen bits. -/
def decompose (key : ℕ) : ℕ × ℕ := (key / 65536, key % 65536)

/-- The value of a high key and low sixteen bits. -/
def compose (high low : ℕ) : ℕ := high * 65536 + low

theorem decompose_lt (key : ℕ) : (decompose key).2 < 65536 := Nat.mod_lt _ (by norm_num)

/-- A transient bitmap: containers by high key, none of them empty. -/
structure RoaringBitmap where
  store : HeapStore
  noneEmpty : store.NoneEmpty

variable {lo last low : ℕ} {c : Container} {s t : HeapStore}

namespace RoaringBitmap

/-- The empty bitmap. -/
def new : RoaringBitmap := ⟨HeapStore.new, fun _ _ h => by cases h⟩

def contains (self : RoaringBitmap) (value : ℕ) : Bool :=
  match self.store.get (decompose value).1 with
  | some c => c.contains (decompose value).2
  | none => false

/-- The cached count of all values. -/
def cardinality (self : RoaringBitmap) : ℕ := self.store.cardinality

def isEmpty (self : RoaringBitmap) : Bool := self.cardinality = 0

/-- All values in order. -/
def iter (self : RoaringBitmap) : List ℕ :=
  self.store.map.flatMap fun e => e.2.toValues.map (compose e.1)

def insert (self : RoaringBitmap) (value : ℕ) : Bool × RoaringBitmap :=
  let r := self.store.modify (decompose value).1 true
    fun c => c.insert (decompose value).2 (decompose_lt value)
  (r.1, ⟨r.2, self.noneEmpty.modify _ _ _⟩)

def remove (self : RoaringBitmap) (value : ℕ) : Bool × RoaringBitmap :=
  let r := self.store.modify (decompose value).1 false
    fun c => c.remove (decompose value).2 (decompose_lt value)
  (r.1, ⟨r.2, self.noneEmpty.modify _ _ _⟩)

/-- Re-evaluate the kinds of all containers. -/
def optimize (self : RoaringBitmap) : RoaringBitmap :=
  (self.store.map.map Prod.fst).foldl (fun b key =>
    ⟨(b.store.modify key false fun c => (true, c.optimize)).2, b.noneEmpty.modify _ _ _⟩) self

/-- What of a block of low values the range `lo..=last` covers. -/
def blockRange (lo last high : ℕ) : ℕ × ℕ :=
  (if high = (decompose lo).1 then (decompose lo).2 else 0,
    if high = (decompose last).1 then (decompose last).2 else 65535)

/-- `MAX_FLIP_CONTAINER_SPAN`. -/
def maxFlipContainerSpan : ℕ := 2 ^ 20

/-- How many blocks the range `lo..hi` touches. -/
def flipSpan (lo hi : ℕ) : ℕ := (decompose (hi - 1)).1 - (decompose lo).1 + 1

/-- Complement the bits in `lo..hi`; nothing where the range spans too many blocks, on which
the source panics. -/
def flip (self : RoaringBitmap) (lo hi : ℕ) : Option RoaringBitmap :=
  if lo ≥ hi then some self
  else if flipSpan lo hi > maxFlipContainerSpan then none
  else
    some ((List.range' (decompose lo).1 (flipSpan lo hi)).foldl (fun b high =>
      ⟨(b.store.modify high true fun c =>
          (true, c.flipRange (blockRange lo (hi - 1) high).1 (blockRange lo (hi - 1) high).2)).2,
        b.noneEmpty.modify _ _ _⟩) self)

/-- A container that is not empty. -/
def keepNonEmpty (c : Container) : Option Container := if c.isEmpty then none else some c

/-- The walk of a set operation over the entries of two bitmaps: what it stores for each key. -/
def joinEntries (left : ℕ → Container → Option Container)
    (both : ℕ → Container → Container → Option Container)
    (right : ℕ → Container → Option Container) (as bs : List (ℕ × Container)) :
    List (ℕ × Container) :=
  mergeJoin Prod.fst Prod.fst (fun e => (left e.1 e.2).map (e.1, ·))
    (fun e f => (both e.1 e.2 f.2).map (e.1, ·)) (fun e => (right e.1 e.2).map (e.1, ·)) as bs

/-- What the walk stores at a key. -/
def joinAt (left : ℕ → Container → Option Container)
    (both : ℕ → Container → Container → Option Container)
    (right : ℕ → Container → Option Container) (key : ℕ) :
    Option Container → Option Container → Option Container
  | some c, some d => both key c d
  | some c, none => left key c
  | none, some d => right key d
  | none, none => none

section Join

variable {left : ℕ → Container → Option Container}
  {both : ℕ → Container → Container → Option Container}
  {right : ℕ → Container → Option Container} {as bs : List (ℕ × Container)}

theorem ascending_joinEntries (ha : Ascending Prod.fst as) (hb : Ascending Prod.fst bs) :
    Ascending Prod.fst (joinEntries left both right as bs) := by
  refine SortedMap.ascending_mergeJoin ?_ ?_ ?_ ha hb <;> simp only [Option.map_eq_some_iff] <;>
    grind

theorem lookup_joinEntries (ha : Ascending Prod.fst as) (hb : Ascending Prod.fst bs) (key : ℕ) :
    lookup key (joinEntries left both right as bs) =
      joinAt left both right key (lookup key as) (lookup key bs) := by
  ext c
  rw [← mem_iff_lookup (ascending_joinEntries ha hb), joinEntries, SortedMap.mem_mergeJoin ha hb]
  have hA : ∀ e ∈ as, e.1 = key → lookup key as = some e.2 := by
    rintro ⟨k, d⟩ he rfl
    exact (mem_iff_lookup ha).mp he
  have hB : ∀ e ∈ bs, e.1 = key → lookup key bs = some e.2 := by
    rintro ⟨k, d⟩ he rfl
    exact (mem_iff_lookup hb).mp he
  have hA' : ∀ d, lookup key as = some d → (key, d) ∈ as := fun d hd => (mem_iff_lookup ha).mpr hd
  have hB' : ∀ d, lookup key bs = some d → (key, d) ∈ bs := fun d hd => (mem_iff_lookup hb).mpr hd
  simp only [Option.map_eq_some_iff, Prod.mk.injEq]
  constructor
  · rintro (⟨e, he, hmiss, d, hd, rfl, rfl⟩ | ⟨e, he, f, hf, hkey, d, hd, rfl, rfl⟩ |
      ⟨f, hf, hmiss, d, hd, rfl, rfl⟩)
    · have hnone : lookup e.1 bs = none := by
        refine Option.eq_none_iff_forall_ne_some.mpr fun x hx => hmiss _ (hB' x hx) rfl
      rw [hA e he rfl, hnone]
      exact hd
    · rw [hA e he rfl, hB f hf hkey.symm]
      exact hd
    · have hnone : lookup f.1 as = none := by
        refine Option.eq_none_iff_forall_ne_some.mpr fun x hx => hmiss _ (hA' x hx) rfl
      rw [hnone, hB f hf rfl]
      exact hd
  · intro h
    cases hx : lookup key as with
    | none =>
      cases hy : lookup key bs with
      | none => simp [hx, hy, joinAt] at h
      | some d =>
        rw [hx, hy] at h
        refine .inr (.inr ⟨_, hB' d hy, fun e he hk => ?_, c, h, rfl, rfl⟩)
        rw [hA e he hk] at hx
        cases hx
    | some d =>
      cases hy : lookup key bs with
      | none =>
        rw [hx, hy] at h
        refine .inl ⟨_, hA' d hx, fun f hf hk => ?_, c, h, rfl, rfl⟩
        rw [hB f hf hk] at hy
        cases hy
      | some d' =>
        rw [hx, hy] at h
        exact .inr (.inl ⟨_, hA' d hx, _, hB' d' hy, rfl, c, h, rfl, rfl⟩)

end Join

/-- AND: the containers of common keys, intersected. -/
def andEntries : List (ℕ × Container) → List (ℕ × Container) → List (ℕ × Container) :=
  joinEntries (fun _ _ => none) (fun _ c d => keepNonEmpty (c.and d)) fun _ _ => none

/-- OR: the containers of common keys united, the others as they are. -/
def orEntries : List (ℕ × Container) → List (ℕ × Container) → List (ℕ × Container) :=
  joinEntries (fun _ c => some c) (fun _ c d => some (c.or d)) fun _ d => some d

/-- AND NOT: the left containers, less those of the same key on the right. -/
def andNotEntries : List (ℕ × Container) → List (ℕ × Container) → List (ℕ × Container) :=
  joinEntries (fun _ c => keepNonEmpty c) (fun _ c d => keepNonEmpty (c.andNot d)) fun _ _ => none

theorem blockRange_le (h : lo ≤ last) (high : ℕ) :
    (blockRange lo last high).1 ≤ (blockRange lo last high).2 := by
  unfold blockRange decompose
  dsimp only
  split_ifs <;> omega

/-- A container cut to what the range `lo..=last` covers of its block. -/
def clipBlock (lo last : ℕ) (h : lo ≤ last) (high : ℕ) (c : Container) : Container :=
  c.clipToRange (blockRange lo last high).1 (blockRange lo last high).2 (blockRange_le h high)

/-- The blocks the range `lo..=last` touches. -/
def inBlocks (lo last high : ℕ) : Bool := (decompose lo).1 ≤ high && high ≤ (decompose last).1

/-- The entries of `range_and`: the left keys of the range that the right side has too. -/
def rangeAndEntries (a b : HeapStore) (lo last : ℕ) (h : lo ≤ last) : List (ℕ × Container) :=
  (a.map.filter fun e => inBlocks lo last e.1).filterMap fun e =>
    match b.get e.1, a.get e.1 with
    | some d, some c => (keepNonEmpty (clipBlock lo last h e.1 (c.and d))).map (e.1, ·)
    | _, _ => none

/-- The entries of `range_or`: those of both sides in the range, walked together. -/
def rangeOrEntries (a b : HeapStore) (lo last : ℕ) (h : lo ≤ last) : List (ℕ × Container) :=
  joinEntries (fun k c => keepNonEmpty (clipBlock lo last h k c))
    (fun k c d => keepNonEmpty (clipBlock lo last h k (c.or d)))
    (fun k d => keepNonEmpty (clipBlock lo last h k d))
    (a.map.filter fun e => inBlocks lo last e.1) (b.map.filter fun e => inBlocks lo last e.1)

/-! ### What a bitmap holds -/

/-- The values of a container that may be missing. -/
def valuesOf (o : Option Container) : List ℕ := (o.getD Container.newArray).toValues

@[simp] theorem valuesOf_none : valuesOf none = [] := rfl

@[simp] theorem valuesOf_some (c : Container) : valuesOf (some c) = c.toValues := rfl

@[simp] theorem valuesOf_keepNonEmpty (c : Container) : valuesOf (keepNonEmpty c) = c.toValues := by
  rw [keepNonEmpty]
  split_ifs with h
  · rw [Container.isEmpty_iff.mp h, valuesOf_none]
  · rfl

theorem isEmpty_of_keepNonEmpty {d : Container} (h : keepNonEmpty c = some d) :
    d.isEmpty = false := by
  rw [keepNonEmpty] at h
  split_ifs at h with hc
  rw [← Option.some.inj h, Bool.eq_false_iff.mpr hc]

theorem isEmpty_or (h : c.isEmpty = false) (d : Container) : (c.or d).isEmpty = false := by
  rw [Bool.eq_false_iff, Ne, Container.isEmpty_iff] at h ⊢
  obtain ⟨v, hv⟩ := List.exists_mem_of_ne_nil _ h
  exact List.ne_nil_of_mem ((Container.mem_toValues_or c d v).mpr (.inl hv))

theorem contains_iff (self : RoaringBitmap) (v : ℕ) :
    self.contains v = true ↔ v % 65536 ∈ valuesOf (self.store.get (v / 65536)) := by
  rw [contains]
  cases hget : self.store.get (decompose v).1 with
  | some c =>
    rw [show self.store.get (v / 65536) = some c from hget, valuesOf_some]
    simp [decompose]
  | none =>
    rw [show self.store.get (v / 65536) = none from hget, valuesOf_none]
    simp

variable {left right : ℕ → Container → Option Container}
  {both : ℕ → Container → Container → Option Container}

/-- The containers a walk stores are not empty, when its handlers keep it so. -/
theorem isEmpty_of_mem_joinEntries {as bs : List (ℕ × Container)} (ha : Ascending Prod.fst as)
    (hb : Ascending Prod.fst bs)
    (hleft : ∀ k c d, (k, c) ∈ as → left k c = some d → d.isEmpty = false)
    (hboth : ∀ k c c' d, (k, c) ∈ as → both k c c' = some d → d.isEmpty = false)
    (hright : ∀ k c d, (k, c) ∈ bs → right k c = some d → d.isEmpty = false) :
    ∀ e ∈ joinEntries left both right as bs, e.2.isEmpty = false := by
  rintro ⟨k, c⟩ he
  rw [mem_iff_lookup (ascending_joinEntries ha hb), lookup_joinEntries ha hb] at he
  cases hx : lookup k as with
  | none =>
    cases hy : lookup k bs with
    | none => simp [hx, hy, joinAt] at he
    | some d => exact hright k d c ((mem_iff_lookup hb).mpr hy) (by simpa [hx, hy, joinAt] using he)
  | some d =>
    have hmem := (mem_iff_lookup ha).mpr hx
    cases hy : lookup k bs with
    | none => exact hleft k d c hmem (by simpa [hx, hy, joinAt] using he)
    | some d' => exact hboth k d d' c hmem (by simpa [hx, hy, joinAt] using he)

theorem isEmpty_of_mem (self : RoaringBitmap) {key : ℕ} (h : (key, c) ∈ self.store.map) :
    c.isEmpty = false :=
  self.noneEmpty key c ((mem_iff_lookup self.store.sorted).mp h)

/-- A new bitmap of the given entries. -/
def ofEntries (entries : List (ℕ × Container)) (h : ∀ e ∈ entries, e.2.isEmpty = false) :
    RoaringBitmap := ⟨HeapStore.ofUpserts entries, HeapStore.noneEmpty_ofUpserts h⟩

@[simp] theorem store_ofEntries (entries : List (ℕ × Container))
    (h : ∀ e ∈ entries, e.2.isEmpty = false) :
    (ofEntries entries h).store = HeapStore.ofUpserts entries := rfl

section NonEmpty

variable (a b : RoaringBitmap)

theorem isEmpty_andEntries :
    ∀ e ∈ andEntries a.store.map b.store.map, e.2.isEmpty = false :=
  isEmpty_of_mem_joinEntries a.store.sorted b.store.sorted (by simp)
    (fun _ _ _ _ _ h => isEmpty_of_keepNonEmpty h) (by simp)

theorem isEmpty_orEntries : ∀ e ∈ orEntries a.store.map b.store.map, e.2.isEmpty = false :=
  isEmpty_of_mem_joinEntries a.store.sorted b.store.sorted
    (fun _ _ _ hmem h => Option.some.inj h ▸ a.isEmpty_of_mem hmem)
    (fun _ _ _ _ hmem h => Option.some.inj h ▸ isEmpty_or (a.isEmpty_of_mem hmem) _)
    fun _ _ _ hmem h => Option.some.inj h ▸ b.isEmpty_of_mem hmem

theorem isEmpty_andNotEntries :
    ∀ e ∈ andNotEntries a.store.map b.store.map, e.2.isEmpty = false :=
  isEmpty_of_mem_joinEntries a.store.sorted b.store.sorted
    (fun _ _ _ _ h => isEmpty_of_keepNonEmpty h)
    (fun _ _ _ _ _ h => isEmpty_of_keepNonEmpty h) (by simp)

theorem isEmpty_rangeAndEntries (h : lo ≤ last) :
    ∀ e ∈ rangeAndEntries s t lo last h, e.2.isEmpty = false := by
  intro e he
  obtain ⟨x, -, hx⟩ := List.mem_filterMap.mp he
  split at hx
  · obtain ⟨c, hc, rfl⟩ := Option.map_eq_some_iff.mp hx
    exact isEmpty_of_keepNonEmpty hc
  · cases hx

theorem isEmpty_rangeOrEntries (h : lo ≤ last) :
    ∀ e ∈ rangeOrEntries s t lo last h, e.2.isEmpty = false :=
  isEmpty_of_mem_joinEntries (s.sorted.filter _) (t.sorted.filter _)
    (fun _ _ _ _ h => isEmpty_of_keepNonEmpty h) (fun _ _ _ _ _ h => isEmpty_of_keepNonEmpty h)
    fun _ _ _ _ h => isEmpty_of_keepNonEmpty h

end NonEmpty

/-- **AND**: intersection of two bitmaps. -/
protected def and (self other : RoaringBitmap) : RoaringBitmap :=
  ofEntries (andEntries self.store.map other.store.map) (isEmpty_andEntries self other)

/-- **OR**: union of two bitmaps. -/
protected def or (self other : RoaringBitmap) : RoaringBitmap :=
  ofEntries (orEntries self.store.map other.store.map) (isEmpty_orEntries self other)

/-- **AND NOT**: elements in `self` but not in `other`. -/
def andNot (self other : RoaringBitmap) : RoaringBitmap :=
  ofEntries (andNotEntries self.store.map other.store.map) (isEmpty_andNotEntries self other)

/-- Intersection restricted to `lo..hi`. -/
def rangeAnd (self other : RoaringBitmap) (lo hi : ℕ) : RoaringBitmap :=
  if h : lo ≥ hi then new
  else
    have hle : lo ≤ hi - 1 := by omega
    ofEntries (rangeAndEntries self.store other.store lo (hi - 1) hle) (isEmpty_rangeAndEntries hle)

/-- Union restricted to `lo..hi`. -/
def rangeOr (self other : RoaringBitmap) (lo hi : ℕ) : RoaringBitmap :=
  if h : lo ≥ hi then new
  else
    have hle : lo ≤ hi - 1 := by omega
    ofEntries (rangeOrEntries self.store other.store lo (hi - 1) hle) (isEmpty_rangeOrEntries hle)

/-! ### Set operations -/

section Operations

variable (a b : RoaringBitmap) (v : ℕ)

/-- What a walk stores for the block of a value. -/
private theorem get_joinEntries (s t : HeapStore) (key : ℕ) :
    (HeapStore.ofUpserts (joinEntries left both right s.map t.map)).get key =
      joinAt left both right key (s.get key) (t.get key) := by
  rw [HeapStore.get_ofUpserts (ascending_joinEntries s.sorted t.sorted),
    lookup_joinEntries s.sorted t.sorted]
  rfl

theorem contains_and : (a.and b).contains v = true ↔ a.contains v = true ∧ b.contains v = true := by
  rw [contains_iff, contains_iff, contains_iff, RoaringBitmap.and, store_ofEntries, andEntries,
    get_joinEntries]
  cases a.store.get (v / 65536) <;> cases b.store.get (v / 65536) <;>
    simp [joinAt, Container.mem_toValues_and]

theorem contains_or : (a.or b).contains v = true ↔ a.contains v = true ∨ b.contains v = true := by
  rw [contains_iff, contains_iff, contains_iff, RoaringBitmap.or, store_ofEntries, orEntries,
    get_joinEntries]
  cases a.store.get (v / 65536) <;> cases b.store.get (v / 65536) <;>
    simp [joinAt, Container.mem_toValues_or]

/-- The containers of a key keep runs on both sides that hold the last low value. -/
def stuckAt (key : ℕ) : Bool :=
  match a.store.get key, b.store.get key with
  | some c, some d => Container.bothRunsToLast c d
  | _, _ => false

theorem contains_andNot : (a.andNot b).contains v = true ↔
    (a.contains v = true ∧ ¬ b.contains v = true) ∨
      (v % 65536 = 65535 ∧ a.stuckAt b (v / 65536) = true) := by
  rw [contains_iff, contains_iff, contains_iff, andNot, store_ofEntries, andNotEntries,
    get_joinEntries, stuckAt]
  cases a.store.get (v / 65536) <;> cases b.store.get (v / 65536) <;>
    simp [joinAt, Container.mem_toValues_andNot]

/-- A stuck key keeps its last value, though the right side holds it. -/
theorem contains_of_stuckAt {a b : RoaringBitmap} {v : ℕ} (hlow : v % 65536 = 65535)
    (h : a.stuckAt b (v / 65536) = true) :
    (a.andNot b).contains v = true ∧ b.contains v = true := by
  refine ⟨(contains_andNot a b v).mpr (.inr ⟨hlow, h⟩), ?_⟩
  rw [contains_iff, hlow]
  rw [stuckAt] at h
  split at h
  · next c d hc hd =>
    rw [hd, valuesOf_some]
    cases c with
    | array => cases h
    | bitset => cases h
    | run c =>
      cases d with
      | array => cases h
      | bitset => cases h
      | run d =>
        have hlast : c.contains 65535 = true ∧ d.contains 65535 = true := Bool.and_eq_true _ _ ▸ h
        simpa using hlast.2
  · cases h

/-- What the range `lo..=last` covers of the block of a value. -/
private theorem blockRange_iff (lo last v : ℕ) :
    (inBlocks lo last (v / 65536) = true ∧ (blockRange lo last (v / 65536)).1 ≤ v % 65536 ∧
      v % 65536 ≤ (blockRange lo last (v / 65536)).2) ↔ lo ≤ v ∧ v ≤ last := by
  unfold inBlocks blockRange decompose
  dsimp only
  rw [Bool.and_eq_true, decide_eq_true_iff, decide_eq_true_iff]
  split_ifs <;> omega

@[simp] private theorem contains_new : new.contains v = false := rfl

/-- The entries of a range at one key. -/
private theorem lookup_inBlocks (s : HeapStore) (lo last key : ℕ) :
    lookup key (s.map.filter fun e => inBlocks lo last e.1) =
      if inBlocks lo last key then s.get key else none := by
  rw [lookup, SortedMap.findBy_filter s.sorted, HeapStore.get, lookup]
  cases hfind : findBy Prod.fst key s.map with
  | none => simp
  | some e =>
    have hkey := (SortedMap.mem_of_findBy_eq_some hfind).2
    split_ifs with h <;> simp [Option.filter, hkey, h]

/-- A clipped container holds its values in the range. -/
private theorem mem_clipBlock (h : lo ≤ last) (c : Container) :
    (inBlocks lo last (v / 65536) = true ∧
        v % 65536 ∈ (clipBlock lo last h (v / 65536) c).toValues) ↔
      v % 65536 ∈ c.toValues ∧ lo ≤ v ∧ v ≤ last := by
  have hrange := blockRange_iff lo last v
  rw [clipBlock, Container.mem_toValues_clipToRange]
  tauto

private theorem get_rangeAndEntries (h : lo ≤ last) (key : ℕ) :
    (HeapStore.ofUpserts (rangeAndEntries s t lo last h)).get key =
      if inBlocks lo last key then
        joinAt (fun _ _ => none) (fun k c d => keepNonEmpty (clipBlock lo last h k (c.and d)))
          (fun _ _ => none) key (s.get key) (t.get key)
      else none := by
  have hasc : Ascending Prod.fst (rangeAndEntries s t lo last h) := by
    refine List.Pairwise.filterMap _ (fun e e' hlt x hx x' hx' => ?_) (s.sorted.filter _)
    have hkey : ∀ {e x : ℕ × Container}, (match t.get e.1, s.get e.1 with
        | some d, some c => (keepNonEmpty (clipBlock lo last h e.1 (c.and d))).map (e.1, ·)
        | _, _ => none) = some x → x.1 = e.1 := by
      intro e x hx
      split at hx
      · obtain ⟨c, -, rfl⟩ := Option.map_eq_some_iff.mp hx
        rfl
      · cases hx
    rw [hkey hx, hkey hx']
    exact hlt
  rw [HeapStore.get_ofUpserts hasc]
  ext c
  rw [← mem_iff_lookup hasc, rangeAndEntries, List.mem_filterMap]
  simp only [List.mem_filter]
  constructor
  · rintro ⟨⟨k, c'⟩, ⟨hmem, hin⟩, hx⟩
    split at hx
    · next d c'' hd hc'' =>
      obtain ⟨x, hx, heq⟩ := Option.map_eq_some_iff.mp hx
      cases heq
      rw [if_pos hin, show s.get k = some c'' from hc'', show t.get k = some d from hd]
      exact hx
    · cases hx
  · intro hx
    split_ifs at hx with hin
    cases hs : s.get key with
    | none => cases ht : t.get key <;> simp [hs, ht, joinAt] at hx
    | some c' =>
      cases ht : t.get key with
      | none => simp [hs, ht, joinAt] at hx
      | some d =>
        rw [hs, ht] at hx
        refine ⟨(key, c'), ⟨(mem_iff_lookup s.sorted).mpr hs, hin⟩, ?_⟩
        simp only [hs, ht]
        rw [show keepNonEmpty (clipBlock lo last h key (c'.and d)) = some c from hx]
        rfl

private theorem get_rangeOrEntries (h : lo ≤ last) (key : ℕ) :
    (HeapStore.ofUpserts (rangeOrEntries s t lo last h)).get key =
      if inBlocks lo last key then
        joinAt (fun k c => keepNonEmpty (clipBlock lo last h k c))
          (fun k c d => keepNonEmpty (clipBlock lo last h k (c.or d)))
          (fun k d => keepNonEmpty (clipBlock lo last h k d)) key (s.get key) (t.get key)
      else none := by
  have hs := s.sorted.filter fun e => inBlocks lo last e.1
  have ht := t.sorted.filter fun e => inBlocks lo last e.1
  rw [rangeOrEntries, HeapStore.get_ofUpserts (ascending_joinEntries hs ht),
    lookup_joinEntries hs ht, lookup_inBlocks, lookup_inBlocks]
  split_ifs <;> rfl

theorem contains_rangeAnd (lo hi : ℕ) : (a.rangeAnd b lo hi).contains v = true ↔
    (a.contains v = true ∧ b.contains v = true) ∧ lo ≤ v ∧ v < hi := by
  rw [rangeAnd]
  split_ifs with h
  · rw [contains_new]
    exact iff_of_false Bool.false_ne_true (by omega)
  · have hle : lo ≤ hi - 1 := by omega
    have hlast : v < hi ↔ v ≤ hi - 1 := by omega
    have hclip := fun c => mem_clipBlock v hle c
    have hrange := blockRange_iff lo (hi - 1) v
    rw [hlast, contains_iff, contains_iff, contains_iff, store_ofEntries, get_rangeAndEntries]
    split_ifs with hin
    · simp only [hin, true_and] at hclip
      cases a.store.get (v / 65536) <;> cases b.store.get (v / 65536) <;>
        simp [joinAt, hclip, Container.mem_toValues_and]
    · rw [valuesOf_none]
      exact iff_of_false List.not_mem_nil fun hr => hin (hrange.mpr hr.2).1

theorem contains_rangeOr (lo hi : ℕ) : (a.rangeOr b lo hi).contains v = true ↔
    (a.contains v = true ∨ b.contains v = true) ∧ lo ≤ v ∧ v < hi := by
  rw [rangeOr]
  split_ifs with h
  · rw [contains_new]
    exact iff_of_false Bool.false_ne_true (by omega)
  · have hle : lo ≤ hi - 1 := by omega
    have hlast : v < hi ↔ v ≤ hi - 1 := by omega
    have hclip := fun c => mem_clipBlock v hle c
    have hrange := blockRange_iff lo (hi - 1) v
    rw [hlast, contains_iff, contains_iff, contains_iff, store_ofEntries, get_rangeOrEntries]
    split_ifs with hin
    · simp only [hin, true_and] at hclip
      cases a.store.get (v / 65536) <;> cases b.store.get (v / 65536) <;>
        simp [joinAt, hclip, Container.mem_toValues_or]
    · rw [valuesOf_none]
      exact iff_of_false List.not_mem_nil fun hr => hin (hrange.mpr hr.2).1

end Operations

/-! ### Changes in place -/

section Changes

variable (a : RoaringBitmap)

/-- A container that says it did not change holds what it held. -/
private theorem insert_unchanged (hlow : low < 65536) (c : Container)
    (h : (c.insert low hlow).1 = false) : (c.insert low hlow).2.toValues = c.toValues := by
  obtain ⟨hflag, hmem⟩ := c.insert_spec hlow
  have hin : low ∈ c.toValues := by simpa [hflag] using h
  refine Container.toValues_eq_of_mem c.sortedLows_toValues fun x => ?_
  rw [hmem]
  exact ⟨fun hx => hx.elim (fun hx => hx ▸ hin) id, .inr⟩

private theorem remove_unchanged (hlow : low < 65536) (c : Container)
    (h : (c.remove low hlow).1 = false) : (c.remove low hlow).2.toValues = c.toValues := by
  obtain ⟨hflag, hmem⟩ := c.remove_spec hlow
  have hout : low ∉ c.toValues := by simpa [hflag] using h
  refine Container.toValues_eq_of_mem c.sortedLows_toValues fun x => ?_
  rw [hmem]
  exact ⟨And.right, fun hx => ⟨fun h => hout (h ▸ hx), hx⟩⟩

/-- One value is another, by its block and its place there. -/
private theorem eq_iff_block (v x : ℕ) : v = x ↔ v / 65536 = x / 65536 ∧ v % 65536 = x % 65536 := by
  omega

theorem contains_insert (x v : ℕ) :
    (a.insert x).2.contains v = true ↔ v = x ∨ a.contains v = true := by
  have hspec := fun c : Container => (c.insert_spec (decompose_lt x)).2 (v % 65536)
  have hvals := a.store.valuesAt_modify (decompose x).1 (insert_unchanged (decompose_lt x))
    (v / 65536)
  rw [contains_iff, contains_iff, eq_iff_block]
  rw [show valuesOf ((a.insert x).2.store.get (v / 65536)) = _ from hvals]
  split_ifs with hkey
  · rw [hspec, ← hkey]
    simp only [show v / 65536 = x / 65536 from hkey, true_and]
    rfl
  · have hne : ¬ v / 65536 = x / 65536 := hkey
    simp only [hne, false_and, false_or]
    rfl

theorem contains_remove (x v : ℕ) :
    (a.remove x).2.contains v = true ↔ v ≠ x ∧ a.contains v = true := by
  have hspec := fun c : Container => (c.remove_spec (decompose_lt x)).2 (v % 65536)
  have hempty : (Container.newArray.remove (decompose x).2 (decompose_lt x)).2.toValues = [] := rfl
  have hvals := a.store.valuesAt_modify (decompose x).1 (remove_unchanged (decompose_lt x))
    (v / 65536)
  rw [← a.store.valuesAt_modify_existing (decompose x).1 (remove_unchanged (decompose_lt x)) hempty]
    at hvals
  rw [contains_iff, contains_iff, Ne, eq_iff_block]
  rw [show valuesOf ((a.remove x).2.store.get (v / 65536)) = _ from hvals]
  split_ifs with hkey
  · rw [hspec, ← hkey]
    simp only [show v / 65536 = x / 65536 from hkey, true_and]
    rfl
  · have hne : ¬ v / 65536 = x / 65536 := hkey
    simp only [hne, false_and, not_false_eq_true, true_and]
    rfl

/-- **Optimising a bitmap** leaves its values as they are. -/
theorem contains_optimize (v : ℕ) : a.optimize.contains v = true ↔ a.contains v = true := by
  have hfold : ∀ (keys : List ℕ) (b : RoaringBitmap) (k : ℕ),
      (keys.foldl (fun b key =>
        ⟨(b.store.modify key false fun c => (true, c.optimize)).2, b.noneEmpty.modify _ _ _⟩)
        b).store.valuesAt k = b.store.valuesAt k := by
    intro keys
    induction keys with
    | nil => exact fun _ _ => rfl
    | cons key keys ih =>
      intro b k
      rw [List.foldl_cons, ih]
      have hf : ∀ c : Container, ((true, c.optimize) : Bool × Container).1 = false →
          ((true, c.optimize) : Bool × Container).2.toValues = c.toValues := fun c h => by cases h
      rw [b.store.valuesAt_modify_existing key hf
          (Container.toValues_optimize Container.newArray),
        b.store.valuesAt_modify key hf]
      split_ifs with hk
      · rw [Container.toValues_optimize, hk]
        rfl
      · rfl
  rw [contains_iff, contains_iff, optimize]
  rw [show valuesOf _ = a.store.valuesAt (v / 65536) from hfold _ a (v / 65536)]
  rfl

/-- The range spans no more blocks than a flip admits. -/
def flipAdmitted (lo hi : ℕ) : Prop := hi ≤ lo ∨ flipSpan lo hi ≤ maxFlipContainerSpan

/-- A flip is refused exactly outside the admitted span. -/
theorem flip_isSome_iff (lo hi : ℕ) : (a.flip lo hi).isSome = true ↔ flipAdmitted lo hi := by
  rw [flip, flipAdmitted]
  split_ifs with h₁ h₂ <;> simp <;> omega

/-- Flipping blocks one after the other flips each of them once. -/
private theorem mem_flipBlocks (hlow : low < 65536) (lo last : ℕ) {keys : List ℕ}
    (hkeys : keys.Nodup) (b : RoaringBitmap) (k : ℕ) :
    low ∈ (keys.foldl (fun b high =>
      (⟨(b.store.modify high true fun c =>
          (true, c.flipRange (blockRange lo last high).1 (blockRange lo last high).2)).2,
        b.noneEmpty.modify _ _ _⟩ : RoaringBitmap)) b).store.valuesAt k ↔
      if k ∈ keys then (low ∈ b.store.valuesAt k ↔
        ¬ ((blockRange lo last k).1 ≤ low ∧ low ≤ (blockRange lo last k).2))
      else low ∈ b.store.valuesAt k := by
  induction keys generalizing b with
  | nil => rfl
  | cons high keys ih =>
    obtain ⟨hhigh, hkeys⟩ := List.nodup_cons.mp hkeys
    have hvals := b.store.valuesAt_modify high (k := k) (f := fun c =>
      (true, c.flipRange (blockRange lo last high).1 (blockRange lo last high).2))
      (fun c h => by cases h)
    rw [List.foldl_cons, ih hkeys, hvals]
    by_cases hk : k = high
    · subst hk
      rw [if_neg hhigh, if_pos rfl, if_pos List.mem_cons_self]
      exact Container.mem_toValues_flipRange _ _ _ hlow
    · simp only [hk, if_false, List.mem_cons, false_or]

/-- **Flipping a range** changes for its values whether they are held, and for no others. -/
theorem contains_flip {r : RoaringBitmap} {hi : ℕ} (h : a.flip lo hi = some r) (v : ℕ) :
    r.contains v = true ↔ (a.contains v = true ↔ ¬ (lo ≤ v ∧ v < hi)) := by
  rw [flip] at h
  split_ifs at h with hnone hspan
  · have : ¬ (lo ≤ v ∧ v < hi) := by omega
    rw [← Option.some.inj h]
    simp [this]
  · have hblocks := mem_flipBlocks (Nat.mod_lt v (by norm_num : 0 < 65536)) lo (hi - 1)
      (List.nodup_range' (s := (decompose lo).1) (n := flipSpan lo hi)) a (v / 65536)
    have hrange := blockRange_iff lo (hi - 1) v
    have hin : v / 65536 ∈ List.range' (decompose lo).1 (flipSpan lo hi) ↔
        inBlocks lo (hi - 1) (v / 65536) = true := by
      rw [List.mem_range'_1, inBlocks, flipSpan, Bool.and_eq_true, decide_eq_true_iff,
        decide_eq_true_iff]
      simp only [decompose]
      omega
    have hlast : v < hi ↔ v ≤ hi - 1 := by omega
    rw [← Option.some.inj h, contains_iff, contains_iff, hlast, ← hrange]
    refine Iff.trans hblocks ?_
    rw [show a.store.valuesAt (v / 65536) = valuesOf (a.store.get (v / 65536)) from rfl]
    split_ifs with hmem
    · simp [hin.mp hmem]
    · simp [Bool.eq_false_iff.mpr (hin.not.mp hmem)]

end Changes

end RoaringBitmap

end Minnal
