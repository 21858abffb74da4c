import Minnal.Library.SortedJoin
import Minnal.Library.SortedPages
import Minnal.Lsm.MergeReads
import Minnal.Lsm.Scan

/-!
# Bounded range scans

A page of a range needs the first `limit` live keys only. `rangePointersBounded` and
`rangeKeysBounded` read everything **newer than Level 1** in range, and then of every bucket's
Level-1 file no more than `limit + 1` live entries and one more for each newer entry of the
bucket, as long as the page is small (`boundedScanLimit`).

That is enough (`rangeEntries_spec`). A key is in one bucket, so the newer entries of a
bucket hide at most as many of its Level-1 entries as there are. Where the file was cut off, more
than `limit` of the entries read are hidden by nothing, they are rows of the full result, and
everything that was not read comes after them.
-/

set_option linter.dupNamespace false

namespace Minnal

open ByteCodec FrameWalk SortedMap LastWrite SStableEntry
open List (mem_filter mem_map mem_flatMap)

/-- Pages up to this size read Level 1 only as far as they need. -/
def boundedScanLimit : ℕ := 10000

/-- One bucket's Level-0 entries in range, oldest file first. -/
def readL0Bucket (c : Crates) (b : Bucket) (start : Key) (stop : Option Key) :
    Except LSMError (List ScanEntry) :=
  scanL0Files c (fun e => inRange start stop e.key) b.captureL0 []

/-- One bucket's Level-1 entries in range, as far as `maxLive` allows. -/
def scanL1RangeInto (c : Crates) (b : Bucket) (start : Key) (stop : Option Key)
    (maxLive : Option ℕ) : Except LSMError (List ScanEntry) :=
  forEachL1EntryInRange c b.sstableFile b.sstableIndex start stop maxLive
    (fun results entry => results ++ [entry.scanEntry]) []

namespace LSMTree

/-- Everything newer than Level 1 in range, oldest first: Level 0, the sealed memtables and the
active one. -/
def newerThanL1 (c : Crates) (t : LSMTree) (start : Key) (stop : Option Key) :
    Except LSMError (List ScanEntry) :=
  let active := (t.memtable.iterRawFrom start).takeWhile fun r =>
    stop.all fun e => decide (r.key < e)
  let busyL0 := (List.range t.config.numBuckets).filter fun b => !(t.buckets b).captureL0.isEmpty
  (busyL0.mapM fun b => readL0Bucket c (t.buckets b) start stop).map fun l0 =>
    l0.flatten ++
      (t.readOnlyMemtables.flatMap fun m => (m.records.filter fun r => inRange start stop r.key).map
        KeyValueRecord.scanEntry) ++
      active.map KeyValueRecord.scanEntry

/-- How many of the newer entries are in a bucket. -/
def newerPerBucket (c : Crates) (t : LSMTree) (newerEntries : List ScanEntry) (bucket : ℕ) : ℕ :=
  newerEntries.countP fun e => decide (t.bucketOf c e.1 = bucket)

/-- How many live entries of a bucket's Level-1 file are read; a large page reads them all. -/
def l1Cap (c : Crates) (t : LSMTree) (newerEntries : List ScanEntry) (limit bucket : ℕ) :
    Option ℕ :=
  if limit ≤ boundedScanLimit then some (limit + 1 + t.newerPerBucket c newerEntries bucket)
  else none

/-- The Level-1 entries in range of every bucket that overlaps it, within the caps. -/
def l1Entries (c : Crates) (t : LSMTree) (start : Key) (stop : Option Key)
    (cap : ℕ → Option ℕ) : Except LSMError (List ScanEntry) :=
  let overlapping := (List.range t.config.numBuckets).filter fun b =>
    (t.buckets b).l1Overlaps start stop
  (overlapping.mapM fun b => scanL1RangeInto c (t.buckets b) start stop (cap b)).map List.flatten

/-- The resolution of a range: Level 1 folded first, everything newer over it. -/
def rangeEntries (c : Crates) (t : LSMTree) (start : Key) (stop : Option Key) (limit : ℕ) :
    Except LSMError ScanMap :=
  match t.newerThanL1 c start stop with
  | .error err => .error err
  | .ok newerEntries =>
    (t.l1Entries c start stop (t.l1Cap c newerEntries limit)).map fun l1 =>
      newerEntries.foldl foldNewest (l1.foldl foldNewest [])

/-- The first `limit` live keys of `[start, stop)` with pointer and sequence, in key order. -/
def rangePointersBounded (c : Crates) (t : LSMTree) (start : Key) (stop : Option Key)
    (limit : ℕ) : Except LSMError (List (Key × ℕ × ℕ)) :=
  (t.rangeEntries c start stop limit).map fun all => (all.filterMap liveRow).take limit

/-- The first `limit` live keys from `start` on. -/
def rangeKeysBounded (c : Crates) (t : LSMTree) (start : Key) (limit : ℕ) :
    Except LSMError (List Key) :=
  (t.rangeEntries c start none limit).map fun all =>
    (all.filterMap fun e => e.2.1.map fun _ => e.1).take limit

end LSMTree

/-! ### What a capped read of Level 1 gives -/

/-- A capped read is a first part of the file: all of it, or a part with the capped number of live
entries in it. -/
theorem upToLive_spec {cap seen : ℕ} (h : seen < cap) (es : List SStableEntry) :
    seen + (upToLive (some cap) seen es).countP (fun e => !e.tombstone) ≤ cap ∧
      ∃ rest, es = upToLive (some cap) seen es ++ rest ∧ (rest = [] ∨
        seen + (upToLive (some cap) seen es).countP (fun e => !e.tombstone) = cap) := by
  induction es generalizing seen with
  | nil => exact ⟨h.le, [], rfl, .inl rfl⟩
  | cons e es ih =>
    rw [upToLive]
    split_ifs with htomb hcap
    · obtain ⟨hle, rest, hes, hrest⟩ := ih h
      rw [List.countP_cons_of_neg (by simp [htomb])]
      exact ⟨hle, rest, congrArg (e :: ·) hes, hrest⟩
    · have hone : seen + 1 = cap := le_antisymm h (by simpa using hcap)
      have hcount : [e].countP (fun e => !e.tombstone) = 1 := by simp [htomb]
      rw [hcount]
      exact ⟨hone.le, es, rfl, .inr hone⟩
    · have hlt : seen + 1 < cap := by simpa using hcap
      obtain ⟨hle, rest, hes, hrest⟩ := ih hlt
      rw [List.countP_cons_of_pos (by simp [htomb])]
      refine ⟨by omega, rest, congrArg (e :: ·) hes, hrest.imp id fun heq => by omega⟩

theorem upToLive_sublist (maxLive : Option ℕ) (seen : ℕ) (es : List SStableEntry) :
    (upToLive maxLive seen es).Sublist es := by
  induction es generalizing seen with
  | nil => exact .slnil
  | cons e es ih =>
    rw [upToLive]
    split_ifs
    · exact (ih seen).cons_cons e
    · exact (List.nil_sublist es).cons_cons e
    · exact (ih (seen + 1)).cons_cons e

/-- A bucket's Level-1 entries in range. -/
def Bucket.l1InRange (c : Crates) (b : Bucket) (start : Key) (stop : Option Key) :
    List SStableEntry :=
  (entriesOf c b.sstableFile).filter fun e => inRange start stop e.key

namespace Bucket

variable {c : Crates} {numBuckets bucket : ℕ} {b : Bucket}

theorem Sound.ascending_l1InRange (hb : b.Sound c numBuckets bucket) (start : Key)
    (stop : Option Key) : Ascending key (b.l1InRange c start stop) :=
  hb.level1.sound.sorted.ascending.filter _

variable {start : Key} {stop : Option Key}

/-- A key in range has the same Level-1 copy among the entries in range. -/
theorem Sound.copyIn_l1InRange (hb : b.Sound c numBuckets bucket) {k : Key}
    (hk : inRange start stop k = true) :
    copyIn (b.l1InRange c start stop) k = b.level1Copy c k := by
  rw [copyIn, l1InRange, findBy_filter hb.level1.sound.sorted.ascending, level1Copy, copyIn]
  rcases hfind : findBy key k (entriesOf c b.sstableFile) with _ | e
  · rfl
  · have hkey : e.key = k := (mem_of_findBy_eq_some hfind).2
    rw [Option.filter_some, if_pos (by rw [hkey, hk])]

/-- A bucket whose metadata excludes the range has nothing in it. -/
theorem Sound.l1InRange_eq_nil (hb : b.Sound c numBuckets bucket)
    (h : b.l1Overlaps start stop = false) : b.l1InRange c start stop = [] := by
  refine List.filter_eq_nil_iff.mpr fun e he hin => ?_
  exact copyIn_eq_none.mp (hb.level1Copy_eq_none h hin) e he rfl

theorem Sound.scanL1RangeInto (hb : b.Sound c numBuckets bucket) (start : Key)
    (stop : Option Key) (maxLive : Option ℕ) :
    scanL1RangeInto c b start stop maxLive =
      .ok ((upToLive maxLive 0 (b.l1InRange c start stop)).map scanEntry) := by
  have hfold : ∀ (es : List SStableEntry) (acc : List ScanEntry),
      es.foldl (fun results entry => results ++ [entry.scanEntry]) acc =
        acc ++ es.map scanEntry := by
    intro es
    induction es with
    | nil => simp
    | cons e es ih =>
      intro acc
      rw [List.foldl_cons, ih]
      simp
  rw [Minnal.scanL1RangeInto, forEachL1EntryInRange_spec hb.level1.sound.holds
    hb.level1.sound.sorted.ascending (hb.hintFor_level1 start), hfold, List.nil_append]
  rfl

end Bucket

/-! ### What the layers give -/

/-- The active records in range. -/
theorem SkipList.takeWhile_iterRawFrom_range (sl : SkipList) (start : Key) (stop : Option Key) :
    ((sl.iterRawFrom start).takeWhile fun r => stop.all fun e => decide (r.key < e)) =
      sl.records.filter fun r => inRange start stop r.key := by
  have hseek : ((sl.records.dropWhile fun r => decide (r.key < start)).takeWhile fun r =>
      inRange start stop r.key) = sl.records.filter fun r => inRange start stop r.key := by
    refine sl.ascending.takeWhile_dropWhile_eq_filter (fun r => decide_eq_true_iff)
      (fun r _ hlt => by simp [inRange, hlt.not_ge]) fun r _ r' _ hle hlt hr => ?_
    simp only [inRange, hle, decide_true, Bool.true_and, Option.all_eq_false] at hr
    obtain ⟨e, rfl, he⟩ := hr
    have her : e ≤ r.key := by simpa using he
    simp [inRange, (her.trans hlt.le)]
  rw [SkipList.iterRawFrom, ← hseek]
  -- past the seek every key is at or above `start`
  have hfrom : ∀ r ∈ sl.records.dropWhile fun r => decide (r.key < start), start ≤ r.key := by
    have hdrop : (sl.records.dropWhile fun r => decide (r.key < start)) =
        sl.records.filter fun r => decide (start ≤ r.key) := by
      convert sl.ascending.dropWhile_eq_filter start
    intro r hr
    rw [hdrop] at hr
    exact of_decide_eq_true (mem_filter.mp hr).2
  generalize (sl.records.dropWhile fun r => decide (r.key < start)) = rs at hfrom
  induction rs with
  | nil => rfl
  | cons r rs ih =>
    rw [List.takeWhile_cons, List.takeWhile_cons, ih fun d hd => hfrom d (List.mem_cons_of_mem _ hd)]
    simp [inRange, hfrom r List.mem_cons_self]

namespace LSMTree

variable {c : Crates} {t : LSMTree}

/-- What is newer than Level 1 at a key. -/
def newerWinner (c : Crates) (t : LSMTree) (k : Key) : Candidate :=
  newer (t.memtable.copy k) (newer (resolve (t.readOnlyMemtables.reverse.map (·.copy k)))
    (resolve ((t.buckets (t.bucketOf c k)).liveFiles.map (·.copy c k))))

/-- The winner is the newer layers' over the copy in Level 1. -/
theorem winner_eq_newerWinner (c : Crates) (t : LSMTree) (k : Key) :
    t.winner c k = newer (t.newerWinner c k) ((t.buckets (t.bucketOf c k)).level1Copy c k) := by
  rw [winner_eq_fold, newerWinner, Bucket.layers, resolve_append, newer_assoc, newer_assoc]
  simp

/-- **The newer layers.** Everything read is in range and folds to the newer layers' winner. -/
theorem newerThanL1_spec (h : t.Sound c) (start : Key) (stop : Option Key) :
    ∃ es, t.newerThanL1 c start stop = .ok es ∧ (∀ e ∈ es, inRange start stop e.1 = true) ∧
      ∀ k, scanCopy es k = if inRange start stop k then t.newerWinner c k else none := by
  have hread : ∀ b, readL0Bucket c (t.buckets b) start stop =
      .ok ((t.buckets b).captureL0.flatMap fun f =>
        ((entriesOf c f.file).filter fun e => inRange start stop e.key).map
          scanEntry) := by
    intro b
    rw [readL0Bucket, scanL0Files_spec _ fun f hf => ((h.bucket b).captureL0 f hf).sound,
      List.nil_append]
  rw [newerThanL1, t.memtable.takeWhile_iterRawFrom_range]
  generalize hw : ((List.range t.config.numBuckets).filter fun b =>
    !(t.buckets b).captureL0.isEmpty) = busyL0
  have hnodup : busyL0.Nodup := hw ▸ List.nodup_range.filter _
  simp only [mapM_ok fun b (_ : b ∈ busyL0) => hread b, Except.map]
  rw [← List.flatMap_def]
  refine ⟨_, rfl, fun e he => ?_, fun k => ?_⟩
  · rcases List.mem_append.mp he with he | he
    · rcases List.mem_append.mp he with he | he
      · obtain ⟨b, -, he⟩ := mem_flatMap.mp he
        obtain ⟨f, -, he⟩ := mem_flatMap.mp he
        obtain ⟨d, hd, rfl⟩ := mem_map.mp he
        exact (mem_filter.mp hd).2
      · obtain ⟨m, -, he⟩ := mem_flatMap.mp he
        obtain ⟨r, hr, rfl⟩ := mem_map.mp he
        exact (mem_filter.mp hr).2
    · obtain ⟨r, hr, rfl⟩ := mem_map.mp he
      exact (mem_filter.mp hr).2
  · have hb : t.bucketOf c k < t.config.numBuckets := getBucketForKey_lt c k t.config.numBuckets_pos
    have hother : ∀ d ∈ busyL0, d ≠ t.bucketOf c k → ∀ e ∈ (t.buckets d).captureL0.flatMap
        (fun f => ((entriesOf c f.file).filter fun e => inRange start stop e.key).map
          scanEntry), e.1 ≠ k := by
      intro d _ hd e he hek
      obtain ⟨f, hf, he⟩ := mem_flatMap.mp he
      obtain ⟨x, hx, rfl⟩ := mem_map.mp he
      have hek : x.key = k := hek
      exact hd (hek ▸ ((h.bucket d).captureL0 f hf).placed x (mem_filter.mp hx).1).symm
    have hl0 := (h.bucket (t.bucketOf c k)).scanCopy_captureL0
      (p := fun e => inRange start stop e.key) (q := inRange start stop) (fun _ _ => rfl) k
    rw [scanCopy_append, scanCopy_append, t.memtable.scanCopy_filter (inRange start stop),
      scanCopy_readOnly (inRange start stop), scanCopy_flatMap hnodup hother, hl0]
    by_cases hin : t.bucketOf c k ∈ busyL0
    · rw [if_pos hin]
      cases hk : inRange start stop k <;> simp [newerWinner]
    · -- a bucket that is not busy has no files that count
      have hnone : (t.buckets (t.bucketOf c k)).liveFiles = [] := by
        rw [← hw, mem_filter, List.mem_range] at hin
        rw [← (h.bucket _).reverse_captureL0, List.reverse_eq_nil_iff]
        simpa [hb] using hin
      rw [if_neg hin]
      cases hk : inRange start stop k <;> simp [newerWinner, hnone]

/-- **Level 1.** What is read of a key is what the capped read of its bucket gives. -/
theorem l1Entries_spec (h : t.Sound c) (start : Key) (stop : Option Key) (cap : ℕ → Option ℕ) :
    ∃ es, t.l1Entries c start stop cap = .ok es ∧ ∀ k, scanCopy es k =
      copyIn (upToLive (cap (t.bucketOf c k)) 0
        ((t.buckets (t.bucketOf c k)).l1InRange c start stop)) k := by
  have hsorted : ∀ b, Ascending key
      (upToLive (cap b) 0 ((t.buckets b).l1InRange c start stop)) := fun b =>
    ((h.bucket b).ascending_l1InRange start stop).sublist (upToLive_sublist _ _ _)
  rw [l1Entries]
  generalize hw : ((List.range t.config.numBuckets).filter fun b =>
    (t.buckets b).l1Overlaps start stop) = overlapping
  have hnodup : overlapping.Nodup := hw ▸ List.nodup_range.filter _
  simp only [mapM_ok fun b (_ : b ∈ overlapping) => (h.bucket b).scanL1RangeInto start stop (cap b),
    Except.map]
  rw [← List.flatMap_def]
  refine ⟨_, rfl, fun k => ?_⟩
  have hb : t.bucketOf c k < t.config.numBuckets := getBucketForKey_lt c k t.config.numBuckets_pos
  have hother : ∀ d ∈ overlapping, d ≠ t.bucketOf c k → ∀ e ∈ (upToLive (cap d) 0
      ((t.buckets d).l1InRange c start stop)).map scanEntry, e.1 ≠ k := by
    intro d _ hd e he hek
    obtain ⟨x, hx, rfl⟩ := mem_map.mp he
    have hek : x.key = k := hek
    have hx := mem_filter.mp ((upToLive_sublist _ _ _).subset hx)
    exact hd (hek ▸ (h.bucket d).placed x hx.1).symm
  have hcopy := scanCopy_entries (hsorted (t.bucketOf c k)) (p := fun _ => true)
    (q := fun _ => true) (fun _ _ => rfl) k
  rw [List.filter_true] at hcopy
  rw [scanCopy_flatMap hnodup hother, hcopy]
  by_cases hin : t.bucketOf c k ∈ overlapping
  · rw [if_pos hin, if_pos rfl]
  · -- a bucket that is left out has nothing in range
    have hover : (t.buckets (t.bucketOf c k)).l1Overlaps start stop = false := by
      rw [← hw, mem_filter, List.mem_range] at hin
      simpa [hb] using hin
    rw [if_neg hin, (h.bucket _).l1InRange_eq_nil hover]
    rfl

/-- The rows of Level-1 entries with newer ones folded over them. -/
private theorem rows_of_folds (l1 newerEntries : List ScanEntry) :
    Ascending Prod.fst ((newerEntries.foldl foldNewest (l1.foldl foldNewest [])).filterMap liveRow) ∧
      ∀ k x, (k, x) ∈ (newerEntries.foldl foldNewest (l1.foldl foldNewest [])).filterMap liveRow ↔
        live (newer (scanCopy newerEntries k) (scanCopy l1 k)) = some x := by
  obtain ⟨hasc1, hmap1⟩ := foldl_foldNewest (m := []) ascending_nil l1
  obtain ⟨hasc, hmap⟩ := foldl_foldNewest hasc1 newerEntries
  obtain ⟨hrows, hmem⟩ := filterMap_liveRow hasc
  refine ⟨hrows, fun k x => ?_⟩
  rw [hmem, hmap, hmap1]
  change live (newer _ (newer _ none)) = _ ↔ _
  rw [newer_none]

/-! ### Why the cut does not show -/

/-- Whether no newer entry has this entry's key. -/
def unhidden (newerEntries : List ScanEntry) (e : SStableEntry) : Bool :=
  newerEntries.all fun d => decide (d.1 ≠ e.key)

variable {bucket : ℕ} {es : List SStableEntry}

/-- **Counting.** The newer entries of a bucket hide no more of its Level-1 entries than there
are newer entries. -/
theorem countP_le_unhidden (newerEntries : List ScanEntry) (hes : Ascending key es)
    (hplaced : ∀ e ∈ es, t.bucketOf c e.key = bucket) :
    es.countP (fun e => !e.tombstone) ≤
      (es.filter fun e => !e.tombstone && unhidden newerEntries e).length +
        t.newerPerBucket c newerEntries bucket := by
  have hsplit : es.countP (fun e => !e.tombstone) =
      (es.filter fun e => !e.tombstone && unhidden newerEntries e).length +
        (es.filter fun e => !e.tombstone && !unhidden newerEntries e).length := by
    induction es with
    | nil => rfl
    | cons e es ih =>
      have ih := ih (ascending_cons.mp hes).2 fun d hd => hplaced d (List.mem_cons_of_mem _ hd)
      cases htomb : e.tombstone <;> cases hun : unhidden newerEntries e <;>
        simp [htomb, hun, ih] <;> omega
  -- each hidden entry has a newer one of its own, of the same key and so of the same bucket
  have hnodup : ((es.filter fun e => !e.tombstone && !unhidden newerEntries e).map
      key).Nodup :=
    List.pairwise_map.mpr ((hes.filter _).imp fun h => h.ne)
  have hsub : (es.filter fun e => !e.tombstone && !unhidden newerEntries e).map
      key ⊆ (newerEntries.filter fun d => decide (t.bucketOf c d.1 = bucket)).map
        Prod.fst := by
    intro k hk
    obtain ⟨e, he, rfl⟩ := mem_map.mp hk
    obtain ⟨he, hhid⟩ := mem_filter.mp he
    simp only [Bool.and_eq_true, Bool.not_eq_true', unhidden, List.all_eq_false,
      decide_eq_true_eq, not_not] at hhid
    obtain ⟨-, d, hd, hdk⟩ := hhid
    refine mem_map.mpr ⟨d, mem_filter.mpr ⟨hd, ?_⟩, hdk⟩
    rw [hdk]
    exact decide_eq_true (hplaced e he)
  have hle := (List.subperm_of_subset hnodup hsub).length_le
  rw [List.length_map, List.length_map] at hle
  rw [hsplit, newerPerBucket, List.countP_eq_length_filter]
  exact Nat.add_le_add_left hle _

variable {limit : ℕ}

/-- **The cut.** If a capped read of a bucket says something else about a key than its file does,
more than `limit` of the entries read are live, hidden by nothing, and below the key. -/
theorem exists_unhidden_of_cut {newerEntries : List ScanEntry} (hes : Ascending key es)
    (hplaced : ∀ e ∈ es, t.bucketOf c e.key = bucket) {k : Key}
    (hcut : copyIn (upToLive (t.l1Cap c newerEntries limit bucket) 0 es) k ≠ copyIn es k) :
    ∃ ds : List SStableEntry, ds.Sublist es ∧ limit < ds.length ∧ ∀ d ∈ ds, d.tombstone = false ∧
      unhidden newerEntries d = true ∧ d.key < k ∧
      copyIn (upToLive (t.l1Cap c newerEntries limit bucket) 0 es) d.key = some d.copy := by
  have hsub := upToLive_sublist (t.l1Cap c newerEntries limit bucket) 0 es
  rw [l1Cap] at hcut hsub ⊢
  split_ifs at hcut hsub ⊢ with hsmall
  swap
  · exact absurd (by rw [upToLive_none]) hcut
  obtain ⟨-, rest, hsplit, hend⟩ := upToLive_spec
    (Nat.lt_of_lt_of_le (Nat.succ_pos limit) (Nat.le_add_right _ _) :
      0 < limit + 1 + t.newerPerBucket c newerEntries bucket) es
  generalize hread : upToLive (some (limit + 1 + t.newerPerBucket c newerEntries bucket)) 0 es =
    read at hcut hsub hsplit hend ⊢
  have hasc : Ascending key read := hes.sublist hsub
  have hcount : read.countP (fun e => !e.tombstone) =
      limit + 1 + t.newerPerBucket c newerEntries bucket := by
    rcases hend with rfl | hcount
    · exact absurd (by rw [hsplit, List.append_nil]) hcut
    · rwa [Nat.zero_add] at hcount
  -- the key is in the part that was not read
  obtain ⟨e, he, hek⟩ : ∃ e ∈ rest, e.key = k := by
    by_contra hnone
    have hrest : findBy key k rest = none :=
      findBy_eq_none.mpr fun e he hek => hnone ⟨e, he, hek⟩
    refine hcut ?_
    rw [hsplit, copyIn, copyIn, findBy_append, hrest, Option.or_none]
  have hbelow : ∀ d ∈ read, d.key < k := by
    intro d hd
    rw [hsplit] at hes
    exact hek ▸ (List.pairwise_append.mp hes).2.2 d hd e he
  have hmany := countP_le_unhidden newerEntries hasc fun d hd => hplaced d (hsub.subset hd)
  refine ⟨read.filter fun e => !e.tombstone && unhidden newerEntries e,
    List.filter_sublist.trans hsub, by omega, fun d hd => ?_⟩
  obtain ⟨hd, hlive⟩ := mem_filter.mp hd
  obtain ⟨htomb, hun⟩ := Bool.and_eq_true_iff.mp hlive
  exact ⟨by simpa using htomb, hun, hbelow d hd, (copyIn_eq_some hasc).mpr ⟨d, hd, rfl, rfl⟩⟩

/-- **One resolution.** However far Level 1 is read for a limit, the first `limit` rows are those
of the full resolution of the range. -/
theorem rangeEntries_spec (h : t.Sound c) (start : Key) (stop : Option Key) :
    ∃ rows, Ascending Prod.fst rows ∧
      (∀ k x, (k, x) ∈ rows ↔ inRange start stop k = true ∧ live (t.winner c k) = some x) ∧
      ∀ limit, ∃ all, t.rangeEntries c start stop limit = .ok all ∧
        (all.filterMap liveRow).take limit = rows.take limit := by
  obtain ⟨newerEntries, hnewer, hrange, hcopy⟩ := newerThanL1_spec h start stop
  obtain ⟨full, -, hfull⟩ := l1Entries_spec h start stop fun _ => none
  obtain ⟨hrows, hmem⟩ := rows_of_folds full newerEntries
  have hnone : ∀ k, inRange start stop k ≠ true →
      copyIn ((t.buckets (t.bucketOf c k)).l1InRange c start stop) k = none := fun k hk =>
    copyIn_eq_none.mpr fun e he hek => hk (hek ▸ (mem_filter.mp he).2)
  refine ⟨_, hrows, fun k x => ?_, fun limit => ?_⟩
  · rw [hmem, hfull, hcopy, upToLive_none]
    by_cases hk : inRange start stop k = true
    · rw [if_pos hk, (h.bucket _).copyIn_l1InRange hk, winner_eq_newerWinner, and_iff_right hk]
    · rw [if_neg hk, hnone k hk]
      simp [hk]
  · obtain ⟨l1, hl1, hread⟩ := l1Entries_spec h start stop (t.l1Cap c newerEntries limit)
    obtain ⟨hcut, hmemcut⟩ := rows_of_folds l1 newerEntries
    rw [rangeEntries, hnewer]
    simp only [hl1, Except.map]
    refine ⟨_, rfl, take_eq_take_of_shared hcut hrows fun ⟨k, x⟩ hdiff => ?_⟩
    -- a row only one of them has is one whose bucket was cut off before it
    have hne : copyIn (upToLive (t.l1Cap c newerEntries limit (t.bucketOf c k)) 0
        ((t.buckets (t.bucketOf c k)).l1InRange c start stop)) k ≠
        copyIn ((t.buckets (t.bucketOf c k)).l1InRange c start stop) k := by
      intro heq
      rw [hmem, hmemcut, hread, hfull, heq, upToLive_none] at hdiff
      exact hdiff.elim (fun hx => hx.2 hx.1) fun hx => hx.2 hx.1
    have hes := (h.bucket (t.bucketOf c k)).ascending_l1InRange start stop
    have hplaced : ∀ e ∈ (t.buckets (t.bucketOf c k)).l1InRange c start stop,
        t.bucketOf c e.key = t.bucketOf c k := fun e he =>
      (h.bucket (t.bucketOf c k)).placed e (mem_filter.mp he).1
    obtain ⟨ds, hds, hlen, hspec⟩ := exists_unhidden_of_cut hes hplaced hne
    have hascrow : Ascending Prod.fst (ds.map fun d : SStableEntry => (d.key, d.value, d.seq)) :=
      List.pairwise_map.mpr (hes.sublist hds)
    refine ⟨_, hascrow, by simpa using hlen.le, fun z hz => ?_⟩
    obtain ⟨d, hd, rfl⟩ := mem_map.mp hz
    obtain ⟨htomb, hun, hlt, hcopyd⟩ := hspec d hd
    have hd := hds.subset hd
    have hlive : live (some d.copy) = some (d.value, d.seq) := by simp [copy, htomb]
    have hfree : scanCopy newerEntries d.key = none :=
      scanCopy_eq_none fun e he => of_decide_eq_true (List.all_eq_true.mp hun e he)
    refine ⟨?_, ?_, hlt⟩
    · rw [hmemcut, hfree, hread, hplaced d hd, hcopyd]
      exact hlive
    · rw [hmem, hfree, hfull, hplaced d hd, upToLive_none,
        (copyIn_eq_some hes).mpr ⟨d, hd, rfl, rfl⟩]
      exact hlive

/-- A bucket's capped read, and how many live entries it reads. -/
theorem scanL1RangeInto_capped (h : t.Sound c) (start : Key) (stop : Option Key)
    (newerEntries : List ScanEntry) (hsmall : limit ≤ boundedScanLimit) (bucket : ℕ) :
    ∃ es, scanL1RangeInto c (t.buckets bucket) start stop (t.l1Cap c newerEntries limit bucket) =
        .ok es ∧
      es.countP (fun e => e.2.1.isSome) ≤ limit + 1 + t.newerPerBucket c newerEntries bucket := by
  refine ⟨_, (h.bucket bucket).scanL1RangeInto start stop _, ?_⟩
  have hle := (upToLive_spec
    (Nat.lt_of_lt_of_le (Nat.succ_pos limit) (Nat.le_add_right _ _) :
      0 < limit + 1 + t.newerPerBucket c newerEntries bucket)
    ((t.buckets bucket).l1InRange c start stop)).1
  rw [Nat.zero_add] at hle
  have hcount : ∀ es : List SStableEntry, (es.map scanEntry).countP
      (fun e => e.2.1.isSome) = es.countP fun e => !e.tombstone := by
    intro es
    rw [List.countP_map]
    refine List.countP_congr fun e _ => ?_
    simp only [Function.comp, scanEntry, copy]
    cases e.tombstone <;> simp
  rw [l1Cap, if_pos hsmall, hcount]
  exact hle

/-- **Bounded pages.** For every start, every end and every limit: the page is the first `limit`
rows of the full resolution of the range by highest sequence, and the page of keys is their keys.
For a small page no bucket's Level-1 file is read beyond `limit + 1` live entries and one more for
each newer entry in range of that bucket. -/
theorem bounded_eq_take (h : t.Sound c) (start : Key) (stop : Option Key) :
    ∃ rows, Ascending Prod.fst rows ∧
      (∀ k ptr seq, (k, ptr, seq) ∈ rows ↔
        start ≤ k ∧ (∀ e ∈ stop, k < e) ∧ live (t.winner c k) = some (ptr, seq)) ∧
      ∀ limit, t.rangePointersBounded c start stop limit = .ok (rows.take limit) ∧
        (stop = none → t.rangeKeysBounded c start limit = .ok ((rows.take limit).map Prod.fst)) ∧
        ∃ newerEntries, t.newerThanL1 c start stop = .ok newerEntries ∧
          (limit ≤ boundedScanLimit → ∀ bucket, ∃ es,
            scanL1RangeInto c (t.buckets bucket) start stop (t.l1Cap c newerEntries limit bucket) =
              .ok es ∧
            es.countP (fun e => e.2.1.isSome) ≤
              limit + 1 + t.newerPerBucket c newerEntries bucket) := by
  obtain ⟨rows, hrows, hmem, htake⟩ := rangeEntries_spec h start stop
  obtain ⟨newerEntries, hnewer, -⟩ := newerThanL1_spec h start stop
  refine ⟨rows, hrows, fun k ptr seq => ?_, fun limit => ⟨?_, ?_, newerEntries, hnewer,
    fun hsmall => scanL1RangeInto_capped h start stop newerEntries hsmall⟩⟩
  · rw [hmem]
    simp only [inRange, Bool.and_eq_true, decide_eq_true_eq, Option.all_eq_true, and_assoc,
      Option.mem_def]
  · obtain ⟨all, hall, hrow⟩ := htake limit
    rw [rangePointersBounded, hall, Except.map, hrow]
  · rintro rfl
    obtain ⟨all, hall, hrow⟩ := htake limit
    have hkeys : (all.filterMap fun e => e.2.1.map fun _ => e.1) =
        (all.filterMap liveRow).map Prod.fst := by
      rw [List.map_filterMap]
      refine List.filterMap_congr fun e _ => ?_
      rcases e with ⟨k, v, seq⟩
      cases v <;> rfl
    rw [rangeKeysBounded, hall, Except.map, hkeys, ← List.map_take, hrow]

end LSMTree

/-- Two keys in Level 1, the first of them deleted since. -/
def deletedAbove : LSMTree :=
  (LSMTree.empty .real .oneBucket).run .real
    [.insertWithSeq [0x61] 7 1, .insertWithSeq [0x62] 8 2, .flushMemtable,
      .flushRoMemtableToLevel0 0 (.quiet 1), .deferOldMemtablesCleanup, .mergeLevel0ToLevel1 0,
      .deleteWithSeq [0x61] 3]

/-- Its first page of one key. -/
theorem bounded_eq_take_deletedAbove :
    deletedAbove.Sound .real ∧ ∃ rows, Ascending Prod.fst rows ∧
      deletedAbove.rangePointersBounded .real [] none 1 = .ok (rows.take 1) ∧
      deletedAbove.rangeKeysBounded .real [] 1 = .ok ((rows.take 1).map Prod.fst) ∧
      rows.take 1 = [([0x62], 8, 2)] := by
  have hsound : deletedAbove.Sound .real := (LSMTree.sound_empty _ _).run _
  obtain ⟨rows, hrows, -, hpage⟩ := LSMTree.bounded_eq_take hsound [] none
  obtain ⟨hpointers, hkeys, -⟩ := hpage 1
  have hrun : deletedAbove.rangePointersBounded .real [] none 1 = .ok [([0x62], 8, 2)] := by
    decide +kernel
  exact ⟨hsound, rows, hrows, hpointers, hkeys rfl, Except.ok.inj (hpointers.symm.trans hrun)⟩

end Minnal
