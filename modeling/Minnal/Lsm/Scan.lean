import Minnal.Lsm.Read

/-!
# Scans

A scan reads every layer for a range of keys and folds what it finds, oldest layer first,
into one map from keys to their newest copy so far (`foldNewest`); a key whose newest copy is
a tombstone is left out of the result. `scanPrefix` reads Level 1 through its sparse index and
Level 0 whole, with a match on the stored 8-byte prefix; `keyPointerPairs` reads everything.

Neither looks at one key at a time, and both are proved to agree with the point lookup, which
does: the result is in ascending key order, and a key of the range is in it exactly when
`getWithSeq` finds it. The bridge is `scanCopy`, the copy a key ends up with when a list of
entries is folded: it distributes over the concatenation of layers, and other buckets have
nothing to say about a key.
-/

set_option linter.dupNamespace false

namespace Minnal

open ByteCodec FrameWalk SortedMap LastWrite SStableEntry
open List (mem_map mem_filter nil_append flatMap_cons map_append foldl_cons)

/-! ### Folding layers -/

/-- One layer's copy of a key during a scan. -/
abbrev ScanEntry := Key × Copy

/-- A scan's running view: the newest copy of each key seen so far, by key. -/
abbrev ScanMap := List ScanEntry

def KeyValueRecord.scanEntry (r : KeyValueRecord) : ScanEntry := (r.key, r.copy)

def SStableEntry.scanEntry (e : SStableEntry) : ScanEntry := (e.key, e.copy)

/-- An entry against what the map has at its key: the newer or equal one stays. -/
def newestEntry (entry : ScanEntry) : Option ScanEntry → ScanEntry
  | none => entry
  | some old => if seqNewerOrEq entry.2.2 old.2.2 then entry else old

/-- Fold one layer's copy of a key into the running view. -/
def foldNewest (map : ScanMap) (entry : ScanEntry) : ScanMap :=
  upsertBy Prod.fst entry.1 (newestEntry entry) map

/-- A live entry as a result row. -/
def liveRow (e : ScanEntry) : Option (Key × ℕ × ℕ) := (live (some e.2)).map fun x => (e.1, x)

/-! ### Reading the layers -/

/-- The records from the first key at or above `start` on. -/
def SkipList.iterRawFrom (sl : SkipList) (start : Key) : List KeyValueRecord :=
  sl.records.dropWhile fun r => decide (r.key < start)

namespace Bucket

/-- Whether the Level-1 file may hold a key of `[start, stop)`, going by its metadata. -/
def l1Overlaps (b : Bucket) (start : Key) (stop : Option Key) : Bool :=
  b.sstableMetadata.any fun m =>
    decide (0 < m.entryCount) && decide (start ≤ m.maxKey) && stop.all fun e => decide (m.minKey < e)

def hasNonobsoleteL0 (b : Bucket) : Bool := b.level0Files.any fun e => !e.obsolete

/-- The Level-0 files a scan captures, oldest first. -/
def captureL0 (b : Bucket) : List L0FileEntry :=
  oldestFirst (b.level0Files.filter fun e => !e.obsolete)

end Bucket

/-- Visit the entries of a Level-1 file with keys in `[start, stop)`, entering at the hint for
`start`; `maxLive` ends the scan after that many live entries. -/
def forEachL1EntryInRange {β : Type*} (c : Crates) (file : Bytes) (index : Option SparseIndex)
    (start : Key) (stop : Option Key) (maxLive : Option ℕ) (visit : β → SStableEntry → β) (b : β) :
    Except LSMError β :=
  let startOffset := (index.map (·.blockStart start)).getD 0
  let offset := if startOffset ≠ 0 ∧ validScanStart c file startOffset start = true then startOffset
    else sstableDataStart
  (walk (nextBuffered c file)
    (fun entry (acc : β × ℕ) =>
      if stop.any fun e => decide (e ≤ entry.key) then .stop acc
      else if start ≤ entry.key then
        let b := visit acc.1 entry
        if entry.tombstone then .next (b, acc.2)
        else if maxLive.any fun m => decide (m ≤ acc.2 + 1) then .stop (b, acc.2 + 1)
        else .next (b, acc.2 + 1)
      else .next acc)
    (file.length + 1) offset (b, 0)).map Prod.fst

/-- Whether an entry's key starts with the prefix, by the stored 8-byte prefix where that is
enough. The stored prefix is zero-padded, so a shorter key is rejected first. -/
def matchesPrefix (pre : Bytes) (entry : SStableEntry) : Bool :=
  if entry.key.length < pre.length then false
  else if pre.length ≤ 8 then (beBytes 8 entry.keyPrefix).take pre.length == pre
  else pre.isPrefixOf entry.key

/-- Append what the files hold of the keys `keep` accepts, reading each file to its end. -/
def scanL0Files (c : Crates) (keep : SStableEntry → Bool) : List L0FileEntry → List ScanEntry →
    Except LSMError (List ScanEntry)
  | [], results => .ok results
  | f :: files, results =>
    match walk (nextSequential c f.file)
        (fun entry (acc : List ScanEntry) =>
          .next (if keep entry then acc ++ [entry.scanEntry] else acc))
        (f.file.length + 1) sstableDataStart results with
    | .error err => .error err
    | .ok results => scanL0Files c keep files results

/-- One bucket's entries under a prefix: Level 1 first, then Level 0 oldest file first. -/
def scanPrefixInBucket (c : Crates) (b : Bucket) (pre : Bytes) (upper : Option Key) :
    Except LSMError (List ScanEntry) :=
  let l1 : Except LSMError (List ScanEntry) :=
    if b.l1Overlaps pre upper then
      forEachL1EntryInRange c b.sstableFile b.sstableIndex pre upper none
        (fun results entry => results ++ [entry.scanEntry]) []
    else .ok []
  match l1 with
  | .error err => .error err
  | .ok results => scanL0Files c (matchesPrefix pre) b.captureL0 results

/-- A buffer resized to `size` bytes: what it held stays. -/
def resizeBuffer (buffer : Bytes) (size : ℕ) : Bytes :=
  buffer.take size ++ List.replicate (size - buffer.length) 0

/-- What the reader's buffer holds after the frame at `offset`. -/
def frameBuffer (file buffer : Bytes) (offset : ℕ) : Bytes :=
  let size := leNat (readAt file offset 4)
  let got := readAt file (offset + 4) size
  if got = [] then resizeBuffer buffer size else got

/-- The live entries of a Level-1 file, read through one buffer that is never cleared. -/
def scanBucketKeyPointersFrom (c : Crates) (file : Bytes) :
    ℕ → ℕ → Bytes → List ScanEntry → Except LSMError (List ScanEntry)
  | 0, _, _, kvs => .ok kvs
  | fuel + 1, offset, buffer, kvs =>
    match nextPositionalWith c file (resizeBuffer buffer) offset with
    | .error err => .error err
    | .ok none => .ok kvs
    | .ok (some (entry, offset')) =>
      scanBucketKeyPointersFrom c file fuel offset' (frameBuffer file buffer offset)
        (if entry.tombstone then kvs else kvs ++ [entry.scanEntry])

def scanBucketKeyPointers (c : Crates) (file : Bytes) : Except LSMError (List ScanEntry) :=
  scanBucketKeyPointersFrom c file (file.length + 1) sstableDataStart [] []

namespace LSMTree

/-- Fold the memtables, oldest first, into what the files gave. -/
def foldMemtables (keep : Key → Bool) (ro : List ReadOnlyMemTable) (active : List KeyValueRecord)
    (map : ScanMap) : ScanMap :=
  let map := (ro.flatMap fun m => (m.records.filter fun r => keep r.key).map
    KeyValueRecord.scanEntry).foldl foldNewest map
  (active.map KeyValueRecord.scanEntry).foldl foldNewest map

/-- All live keys under a prefix, with pointer and sequence, in key order. -/
def scanPrefix (c : Crates) (t : LSMTree) (pre : Bytes) :
    Except LSMError (List (Key × ℕ × ℕ)) :=
  let active := (t.memtable.iterRawFrom pre).takeWhile fun r => pre.isPrefixOf r.key
  let upper := prefixUpperBound pre
  let wanted := (List.range t.config.numBuckets).filter fun b =>
    (t.buckets b).hasNonobsoleteL0 || (t.buckets b).l1Overlaps pre upper
  (wanted.mapM fun b => scanPrefixInBucket c (t.buckets b) pre upper).map fun entries =>
    (foldMemtables pre.isPrefixOf t.readOnlyMemtables active
      (entries.flatten.foldl foldNewest [])).filterMap liveRow

/-- All live keys of the qualifying buckets with their pointers, in key order. -/
def keyPointerPairs (c : Crates) (t : LSMTree) (qualifying : ℕ → Bool) :
    Except LSMError (List (Key × ℕ)) :=
  let keep := fun k : Key => qualifying (t.bucketOf c k)
  let active := t.memtable.records.filter fun r => keep r.key
  let toRead := (List.range t.config.numBuckets).filter qualifying
  match toRead.mapM fun b => scanBucketKeyPointers c (t.buckets b).sstableFile with
  | .error err => .error err
  | .ok l1 =>
    (toRead.mapM fun b => scanL0Files c (fun _ => true) (t.buckets b).captureL0 []).map fun l0 =>
      ((foldMemtables keep t.readOnlyMemtables active
        (l0.flatten.foldl foldNewest (l1.flatten.foldl foldNewest []))).filterMap liveRow).map
          fun row => (row.1, row.2.1)

end LSMTree

/-! ### What folding leaves -/

/-- The copy a key ends up with when the entries are folded in order. -/
def scanCopy (es : List ScanEntry) (k : Key) : Candidate :=
  resolve ((es.filter fun e => decide (e.1 = k)).map fun e => some e.2).reverse

/-- The copy a map has of a key. -/
def mapCopy (m : ScanMap) (k : Key) : Candidate := (findBy Prod.fst k m).map Prod.snd

@[simp] theorem scanCopy_nil (k : Key) : scanCopy [] k = none := rfl

theorem scanCopy_append (es fs : List ScanEntry) (k : Key) :
    scanCopy (es ++ fs) k = newer (scanCopy fs k) (scanCopy es k) := by
  rw [scanCopy, List.filter_append, map_append, List.reverse_append, resolve_append]
  rfl

theorem scanCopy_singleton (e : ScanEntry) (k : Key) :
    scanCopy [e] k = if e.1 = k then some e.2 else none := by
  by_cases h : e.1 = k <;> simp [scanCopy, h]

theorem scanCopy_cons (e : ScanEntry) (es : List ScanEntry) (k : Key) :
    scanCopy (e :: es) k = newer (scanCopy es k) (if e.1 = k then some e.2 else none) := by
  rw [← List.singleton_append, scanCopy_append, scanCopy_singleton]

variable {k : Key}

theorem scanCopy_eq_none {es : List ScanEntry} (h : ∀ e ∈ es, e.1 ≠ k) : scanCopy es k = none := by
  have hnil : es.filter (fun e => decide (e.1 = k)) = [] :=
    List.filter_eq_nil_iff.mpr fun e he => by simpa using h e he
  rw [scanCopy, hnil]
  rfl

/-- In a list sorted by key the copy is the one of the entry found. -/
theorem scanCopy_of_ascending {es : List ScanEntry} (hes : Ascending Prod.fst es) (k : Key) :
    scanCopy es k = mapCopy es k := by
  induction es with
  | nil => rfl
  | cons e es ih =>
    obtain ⟨hlt, hes'⟩ := ascending_cons.mp hes
    rw [scanCopy_cons, mapCopy, findBy_cons]
    split_ifs with hk
    · rw [scanCopy_eq_none fun d hd => hk ▸ (hlt d hd).ne']
      rfl
    · rw [newer_none, ih hes']
      rfl

variable {q : Key → Bool}

/-- Sorted records or entries, filtered by key and mapped to scan entries. -/
theorem scanCopy_map {α : Type*} {key : α → Key} {copy : α → Copy} {l : List α}
    (hl : Ascending key l) {p : α → Bool} (hp : ∀ a ∈ l, p a = q (key a)) (k : Key) :
    scanCopy ((l.filter p).map fun a => (key a, copy a)) k =
      if q k then (findBy key k l).map copy else none := by
  have hasc : Ascending Prod.fst ((l.filter p).map fun a => (key a, copy a)) :=
    List.pairwise_map.mpr (hl.filter p)
  have hfind : ∀ l : List α, findBy Prod.fst k (l.map fun a => (key a, copy a)) =
      (findBy key k l).map fun a => (key a, copy a) := by
    intro l
    induction l with
    | nil => rfl
    | cons a l ih =>
      rw [List.map_cons, findBy_cons, findBy_cons, ih]
      split_ifs <;> rfl
  rw [scanCopy_of_ascending hasc, mapCopy, hfind, Option.map_map, findBy_filter hl]
  cases hk : findBy key k l with
  | none => simp
  | some a =>
    obtain ⟨ha, hkey⟩ := mem_of_findBy_eq_some hk
    have hpa := hp a ha
    rw [hkey] at hpa
    by_cases hq : q k = true
    · simp [Option.filter, hpa, hq]
    · simp [Option.filter, hpa, hq]

/-- Of the buckets read, only the key's own can say something about it. -/
theorem scanCopy_flatMap {bs : List ℕ} (hbs : bs.Nodup) {f : ℕ → List ScanEntry} {b : ℕ}
    (hother : ∀ d ∈ bs, d ≠ b → ∀ e ∈ f d, e.1 ≠ k) :
    scanCopy (bs.flatMap f) k = if b ∈ bs then scanCopy (f b) k else none := by
  induction bs with
  | nil => rfl
  | cons d bs ih =>
    obtain ⟨hd, hbs'⟩ := List.nodup_cons.mp hbs
    have hrest := ih hbs' fun e he => hother e (List.mem_cons_of_mem _ he)
    rw [flatMap_cons, scanCopy_append, hrest]
    by_cases hdb : d = b
    · subst hdb
      simp [hd]
    · rw [scanCopy_eq_none (hother d List.mem_cons_self hdb), newer_none]
      simp [Ne.symm hdb]

private theorem keepsKey_newestEntry (entry : ScanEntry) :
    KeepsKey Prod.fst entry.1 (newestEntry entry) := by
  intro o ho
  rcases o with _ | old
  · rfl
  · rw [newestEntry]
    split_ifs
    · rfl
    · exact ho old rfl

variable {m : ScanMap}

/-- Folding keeps the map sorted and folds, into each key, its copy among the entries. -/
theorem foldl_foldNewest (hm : Ascending Prod.fst m) (es : List ScanEntry) :
    Ascending Prod.fst (es.foldl foldNewest m) ∧
      ∀ k, mapCopy (es.foldl foldNewest m) k = newer (scanCopy es k) (mapCopy m k) := by
  induction es generalizing m with
  | nil => exact ⟨hm, fun k => by simp⟩
  | cons e es ih =>
    have hkeeps := keepsKey_newestEntry e
    obtain ⟨hasc, hcopy⟩ := ih (m := foldNewest m e) (hm.upsertBy hkeeps)
    refine ⟨hasc, fun k => ?_⟩
    rw [foldl_cons, hcopy, scanCopy_cons, newer_assoc]
    refine congrArg (newer _) ?_
    rw [mapCopy, foldNewest, findBy_upsertBy hkeeps hm]
    by_cases hk : k = e.1
    · subst hk
      rw [if_pos rfl, if_pos rfl, mapCopy]
      rcases hold : findBy Prod.fst e.1 m with _ | old
      · rfl
      · simp only [Option.map_some, newestEntry, seqNewerOrEq, decide_eq_true_eq, newer_some_some]
        by_cases hle : old.2.2 ≤ e.2.2
        · rw [if_pos hle, if_neg hle.not_gt]
        · rw [if_neg hle, if_pos (not_le.mp hle)]
    · rw [if_neg hk, if_neg (Ne.symm hk), none_newer, mapCopy]

/-- The rows of a sorted map: in key order, one for each live copy. -/
theorem filterMap_liveRow (hm : Ascending Prod.fst m) :
    Ascending Prod.fst (m.filterMap liveRow) ∧
      ∀ k x, (k, x) ∈ m.filterMap liveRow ↔ live (mapCopy m k) = some x := by
  have hkey : ∀ {e : ScanEntry} {row : Key × ℕ × ℕ}, liveRow e = some row →
      row.1 = e.1 ∧ live (some e.2) = some row.2 := by
    intro e row hrow
    obtain ⟨x, hx, rfl⟩ := Option.map_eq_some_iff.mp hrow
    exact ⟨rfl, hx⟩
  refine ⟨?_, fun k x => ⟨fun hmem => ?_, fun hlive => ?_⟩⟩
  · refine List.pairwise_filterMap.mpr (hm.imp fun {a b} hab ra hra rb hrb => ?_)
    rw [(hkey hra).1, (hkey hrb).1]
    exact hab
  · obtain ⟨e, he, hrow⟩ := List.mem_filterMap.mp hmem
    obtain ⟨hk, hx⟩ := hkey hrow
    have hfind : findBy Prod.fst k m = some e := (findBy_eq_some_iff hm).mpr ⟨he, hk.symm⟩
    rw [mapCopy, hfind]
    exact hx
  · rcases hfind : findBy Prod.fst k m with _ | e
    · simp [mapCopy, hfind] at hlive
    · obtain ⟨he, hk⟩ := mem_of_findBy_eq_some hfind
      rw [mapCopy, hfind] at hlive
      refine List.mem_filterMap.mpr ⟨e, he, ?_⟩
      rw [liveRow, show live (some e.2) = some x from hlive, ← hk]
      rfl

/-! ### What each reader finds -/

/-- The part of a range scan's test that concerns the key. -/
def inRange (start : Key) (stop : Option Key) (k : Key) : Bool :=
  decide (start ≤ k) && stop.all fun e => decide (k < e)

/-- The entries up to the one that reaches the limit of live entries, `seen` having been met. -/
def upToLive (maxLive : Option ℕ) : ℕ → List SStableEntry → List SStableEntry
  | _, [] => []
  | seen, e :: es =>
    if e.tombstone then e :: upToLive maxLive seen es
    else if maxLive.any fun m => decide (m ≤ seen + 1) then [e]
    else e :: upToLive maxLive (seen + 1) es

@[simp] theorem upToLive_none (seen : ℕ) (es : List SStableEntry) : upToLive none seen es = es := by
  induction es generalizing seen with
  | nil => rfl
  | cons e es ih =>
    rw [upToLive, ih, ih]
    split_ifs <;> simp_all

variable {es : List SStableEntry} {start : Key} {β : Type*} {stop : Option Key}

private theorem visitAll_range {maxLive : Option ℕ} (visit : β → SStableEntry → β)
    (hes : Ascending SStableEntry.key es) (acc : β × ℕ) :
    ((visitAll (fun entry (acc : β × ℕ) =>
      if stop.any fun e => decide (e ≤ entry.key) then .stop acc
      else if start ≤ entry.key then
        if entry.tombstone then .next (visit acc.1 entry, acc.2)
        else if maxLive.any fun m => decide (m ≤ acc.2 + 1) then
          .stop (visit acc.1 entry, acc.2 + 1)
        else .next (visit acc.1 entry, acc.2 + 1)
      else .next acc) es acc).value).1 =
      (upToLive maxLive acc.2 (es.filter fun e => inRange start stop e.key)).foldl visit acc.1 := by
  induction es generalizing acc with
  | nil => rfl
  | cons e es ih =>
    obtain ⟨hlt, hes'⟩ := ascending_cons.mp hes
    rw [visitAll_cons]
    by_cases hstop : (stop.any fun s => decide (s ≤ e.key)) = true
    · -- past the end of the range nothing qualifies any more
      have hnone : ∀ d ∈ e :: es, inRange start stop d.key = false := by
        obtain ⟨s, rfl, hs⟩ := (Option.any_eq_true ..).mp hstop
        have hse : s ≤ e.key := of_decide_eq_true hs
        intro d hd
        have hsd : s ≤ d.key := by
          rcases List.mem_cons.mp hd with rfl | hd
          · exact hse
          · exact hse.trans (hlt d hd).le
        simp [inRange, hsd]
      rw [if_pos hstop, List.filter_eq_nil_iff.mpr fun d hd => by simp [hnone d hd]]
      rfl
    · have hall : (stop.all fun s => decide (e.key < s)) = true := by
        rw [Option.all_eq_true]
        intro s hs
        rw [Bool.not_eq_true, Option.any_eq_false] at hstop
        simpa using hstop s hs
      rw [if_neg hstop]
      by_cases hstart : start ≤ e.key
      · have hin : inRange start stop e.key = true := by simp [inRange, hstart, hall]
        rw [if_pos hstart, List.filter_cons_of_pos (p := fun e : SStableEntry =>
          inRange start stop e.key) hin, upToLive]
        split_ifs
        · exact ih hes' _
        · rfl
        · exact ih hes' _
      · have hin : inRange start stop e.key = false := by simp [inRange, hstart]
        rw [if_neg hstart, List.filter_cons_of_neg (by simp [hin])]
        exact ih hes' acc

variable {c : Crates} {file : Bytes}

/-- **Range scan of Level 1.** From any sound hint, exactly the entries of the range are
visited, in order, up to the one that reaches the limit of live entries. -/
theorem forEachL1EntryInRange_spec (hfile : HoldsEntries c file es)
    (hes : Ascending SStableEntry.key es) {index : Option SparseIndex}
    (hhint : HintFor c file es start ((index.map (·.blockStart start)).getD 0)) (stop : Option Key)
    (maxLive : Option ℕ) (visit : β → SStableEntry → β) (b : β) :
    forEachL1EntryInRange c file index start stop maxLive visit b =
      .ok ((upToLive maxLive 0 (es.filter fun e => inRange start stop e.key)).foldl visit b) := by
  have hwalk : ∀ {offset : ℕ} {rest : List SStableEntry}, FramesAt c file offset rest →
      Ascending SStableEntry.key rest →
      rest.filter (fun e => inRange start stop e.key) =
        es.filter (fun e => inRange start stop e.key) →
      (walk (nextBuffered c file)
        (fun entry (acc : β × ℕ) =>
          if stop.any fun e => decide (e ≤ entry.key) then .stop acc
          else if start ≤ entry.key then
            if entry.tombstone then .next (visit acc.1 entry, acc.2)
            else if maxLive.any fun m => decide (m ≤ acc.2 + 1) then
              .stop (visit acc.1 entry, acc.2 + 1)
            else .next (visit acc.1 entry, acc.2 + 1)
          else .next acc)
        (file.length + 1) offset (b, 0)).map Prod.fst =
          .ok ((upToLive maxLive 0 (es.filter fun e => inRange start stop e.key)).foldl visit b) := by
    intro offset rest hframes hrest heq
    have hlen : rest.length < file.length + 1 := by
      have hle := hframes.length_le
      omega
    rw [walk_eq_ok hframes.reads_buffered hlen]
    exact congrArg Except.ok ((visitAll_range visit hrest (b, 0)).trans (by rw [heq]))
  rw [forEachL1EntryInRange]
  simp only
  split_ifs with hoff
  · obtain ⟨hne, -⟩ := hoff
    obtain hzero | ⟨done, e, rest, rfl, hle, hframes⟩ := hhint
    · exact absurd hzero hne
    · -- what lies before the hint is below the range
      obtain ⟨-, hrest, hbefore⟩ := List.pairwise_append.mp hes
      refine hwalk hframes hrest ?_
      have hnone : done.filter (fun e => inRange start stop e.key) = [] := by
        refine List.filter_eq_nil_iff.mpr fun d hd => ?_
        have hlt : d.key < start := (hbefore d hd e List.mem_cons_self).trans_le hle
        simp [inRange, hlt.not_ge]
      rw [List.filter_append, hnone, nil_append]
  · exact hwalk hfile hes rfl

/-- Level-0 files read whole. -/
theorem scanL0Files_spec (keep : SStableEntry → Bool) {files : List L0FileEntry}
    (hfiles : ∀ f ∈ files, FileSound c f.file) (results : List ScanEntry) :
    scanL0Files c keep files results = .ok (results ++ files.flatMap fun f =>
      ((entriesOf c f.file).filter keep).map scanEntry) := by
  have hfold : ∀ (es : List SStableEntry) (acc : List ScanEntry),
      es.foldl (fun acc entry => if keep entry then acc ++ [entry.scanEntry] else acc) acc =
        acc ++ (es.filter keep).map scanEntry := by
    intro es
    induction es with
    | nil => simp
    | cons e es ih =>
      intro acc
      rw [foldl_cons, ih]
      cases hkeep : keep e <;> simp [hkeep]
  induction files generalizing results with
  | nil => simp [scanL0Files]
  | cons f files ih =>
    have hf := hfiles f List.mem_cons_self
    have hlen : (entriesOf c f.file).length < f.file.length + 1 := by
      have hle := hf.holds.length_le
      omega
    have hreads : Reads (nextSequential c f.file) sstableDataStart (entriesOf c f.file) (.ok ()) :=
      FramesAt.reads_sequential hf.holds
    rw [scanL0Files, walk_eq_ok hreads hlen, visitAll_next
      (fun acc entry => if keep entry then acc ++ [entry.scanEntry] else acc), Visit.value_next,
      hfold]
    simp only
    rw [ih (fun g hg => hfiles g (List.mem_cons_of_mem _ hg)), flatMap_cons,
      List.append_assoc]

/-- The buffer does not matter in a file that is not cut. -/
theorem scanBucketKeyPointersFrom_spec {fuel offset : ℕ} (h : FramesAt c file offset es)
    (hfuel : es.length < fuel) (buffer : Bytes) (kvs : List ScanEntry) :
    scanBucketKeyPointersFrom c file fuel offset buffer kvs =
      .ok (kvs ++ (es.filter fun e => !e.tombstone).map scanEntry) := by
  induction es generalizing fuel offset buffer kvs with
  | nil =>
    obtain ⟨fuel, rfl⟩ := Nat.exists_eq_succ_of_ne_zero (by omega : fuel ≠ 0)
    simp [scanBucketKeyPointersFrom, (h.next_nil (resizeBuffer buffer)).1]
  | cons e es ih =>
    obtain ⟨fuel, rfl⟩ := Nat.exists_eq_succ_of_ne_zero (by omega : fuel ≠ 0)
    have hlen : es.length < fuel := by
      rw [List.length_cons] at hfuel
      omega
    rw [scanBucketKeyPointersFrom, h.nextPositionalWith_cons]
    simp only
    rw [ih h.tail hlen]
    cases htomb : e.tombstone <;> simp [htomb]

theorem scanBucketKeyPointers_spec (h : FileSound c file) :
    scanBucketKeyPointers c file =
      .ok (((entriesOf c file).filter fun e => !e.tombstone).map scanEntry) := by
  have hle := h.holds.length_le
  rw [scanBucketKeyPointers, scanBucketKeyPointersFrom_spec h.holds (by omega), nil_append]

/-! ### One bucket -/

variable {p : SStableEntry → Bool}

/-- Entries of a sorted file, those with keys `q` accepts. -/
theorem scanCopy_entries (hes : Ascending SStableEntry.key es) (hp : ∀ e ∈ es, p e = q e.key)
    (k : Key) :
    scanCopy ((es.filter p).map scanEntry) k = if q k then copyIn es k else none :=
  scanCopy_map hes hp k

/-- Files folded oldest first resolve newest first. -/
theorem scanCopy_files (files : List L0FileEntry) (g : L0FileEntry → List ScanEntry) (k : Key) :
    scanCopy (files.flatMap g) k = resolve (files.reverse.map fun f => scanCopy (g f) k) := by
  induction files with
  | nil => rfl
  | cons f files ih =>
    rw [flatMap_cons, scanCopy_append, ih, List.reverse_cons, map_append, resolve_append]
    simp

namespace Bucket

variable {c : Crates} {numBuckets bucket : ℕ} {b : Bucket}

theorem Sound.reverse_captureL0 (hb : b.Sound c numBuckets bucket) :
    b.captureL0.reverse = b.liveFiles := by
  have hnodup : ((b.level0Files.filter fun e => !e.obsolete).map (·.createdAtMs)).Nodup :=
    hb.stamps.sublist (List.filter_sublist.map _)
  rw [captureL0, reverse_oldestFirst hnodup, ← filter_newestFirst hb.stamps]
  rfl

theorem Sound.captureL0 (hb : b.Sound c numBuckets bucket) :
    ∀ f ∈ b.captureL0, f.Sound c numBuckets bucket := by
  intro f hf
  exact hb.level0 f (mem_filter.mp ((List.mem_insertionSort _).mp hf)).1

/-- What a bucket's captured files hold of the keys `q` accepts. -/
theorem Sound.scanCopy_captureL0 (hb : b.Sound c numBuckets bucket)
    (hp : ∀ e : SStableEntry, e.keyPrefix = keyPrefixOf e.key → p e = q e.key) (k : Key) :
    scanCopy (b.captureL0.flatMap fun f =>
      ((entriesOf c f.file).filter p).map scanEntry) k =
        if q k then resolve (b.liveFiles.map (·.copy c k)) else none := by
  rw [scanCopy_files, hb.reverse_captureL0]
  have hcopy : ∀ f ∈ b.liveFiles, scanCopy (((entriesOf c f.file).filter p).map
      scanEntry) k = if q k then f.copy c k else none := by
    intro f hf
    have hsorted := (hb.level0 f (mem_liveFiles.mp hf).1).sound.sorted
    exact scanCopy_entries hsorted.ascending (fun e he => hp e (hsorted.keyPrefix e he)) k
  rw [List.map_congr_left hcopy]
  cases hq : q k with
  | true => rfl
  | false =>
    refine resolve_eq_none.mpr fun x hx => ?_
    obtain ⟨-, -, rfl⟩ := mem_map.mp hx
    rfl

/-- A range the metadata excludes holds no key of the file. -/
theorem Sound.level1Copy_eq_none (hb : b.Sound c numBuckets bucket)
    (h : b.l1Overlaps start stop = false) (hk : inRange start stop k = true) :
    b.level1Copy c k = none := by
  refine copyIn_eq_none.mpr fun e he hek => ?_
  rcases hm : b.sstableMetadata with _ | m
  · rw [hb.level1.undescribed hm] at he
    cases he
  · obtain ⟨hrange, hcount, -⟩ := hb.level1.described m hm
    obtain ⟨hlo, hhi⟩ := hrange e he
    have hpos : 0 < m.entryCount := by
      rw [hcount]
      exact List.length_pos_of_mem he
    rw [hek] at hlo hhi
    simp only [inRange, Bool.and_eq_true, decide_eq_true_eq, Option.all_eq_true] at hk
    have hover : b.l1Overlaps start stop = true := by
      simp only [l1Overlaps, hm, Option.any_some, hpos, hk.1.trans hhi, decide_true,
        Bool.true_and, Option.all_eq_true, decide_eq_true_eq]
      exact fun s hs => hlo.trans_lt (hk.2 s hs)
    rw [h] at hover
    cases hover

theorem Sound.hintFor_level1 (hb : b.Sound c numBuckets bucket) (k : Key) :
    HintFor c b.sstableFile (entriesOf c b.sstableFile) k
      ((b.sstableIndex.map (·.blockStart k)).getD 0) := by
  rcases hi : b.sstableIndex with _ | i
  · exact .inl rfl
  · exact (hb.level1.indexed i hi).hintFor k

end Bucket

theorem matchesPrefix_eq {pre : Bytes} {e : SStableEntry} (he : e.keyPrefix = keyPrefixOf e.key) :
    matchesPrefix pre e = pre.isPrefixOf e.key := by
  rw [matchesPrefix]
  split_ifs with hshort hlen
  · have hnot : ¬ pre <+: e.key := fun h => absurd h.length_le (not_le.mpr hshort)
    exact (Bool.eq_false_iff.mpr fun h => hnot (List.isPrefixOf_iff_prefix.mp h)).symm
  · rw [Bool.eq_iff_iff, beq_iff_eq, List.isPrefixOf_iff_prefix, he,
      take_beBytes_keyPrefixOf hlen (not_lt.mp hshort)]
  · rfl

theorem inRange_upperBound (pre k : Bytes) :
    inRange pre (prefixUpperBound pre) k = pre.isPrefixOf k := by
  rw [Bool.eq_iff_iff, List.isPrefixOf_iff_prefix, isPrefix_iff_range]
  simp [inRange, Option.all_eq_true]

/-- **One bucket under a prefix.** The entries found fold to the bucket's winner. -/
theorem scanPrefixInBucket_spec {numBuckets bucket : ℕ} {b : Bucket}
    (hb : b.Sound c numBuckets bucket) (pre : Bytes) :
    ∃ es, scanPrefixInBucket c b pre (prefixUpperBound pre) = .ok es ∧
      (∀ e ∈ es, getBucketForKey c e.1 numBuckets = bucket) ∧
      ∀ k, scanCopy es k = if pre.isPrefixOf k then resolve (b.layers c k) else none := by
  have hl0 := scanL0Files_spec (matchesPrefix pre) fun f hf => (hb.captureL0 f hf).sound
  have hplaced : ∀ e ∈ b.captureL0.flatMap (fun f =>
      ((entriesOf c f.file).filter (matchesPrefix pre)).map scanEntry),
      getBucketForKey c e.1 numBuckets = bucket := by
    intro e he
    obtain ⟨f, hf, he⟩ := List.mem_flatMap.mp he
    obtain ⟨d, hd, rfl⟩ := mem_map.mp he
    exact (hb.captureL0 f hf).placed d (mem_filter.mp hd).1
  have hcopy0 := hb.scanCopy_captureL0 (p := matchesPrefix pre) (q := pre.isPrefixOf)
    fun e he => matchesPrefix_eq he
  have hlayers : ∀ k, resolve (b.layers c k) =
      newer (resolve (b.liveFiles.map (·.copy c k))) (b.level1Copy c k) := by
    intro k
    simp [Bucket.layers, resolve_append]
  rw [scanPrefixInBucket]
  by_cases hover : b.l1Overlaps pre (prefixUpperBound pre) = true
  · have hscan := forEachL1EntryInRange_spec hb.level1.sound.holds hb.level1.sound.sorted.ascending
      (hb.hintFor_level1 pre) (prefixUpperBound pre) none
      (fun (results : List ScanEntry) entry => results ++ [entry.scanEntry]) []
    have hfold : ∀ (es : List SStableEntry) (acc : List ScanEntry),
        es.foldl (fun results entry => results ++ [entry.scanEntry]) acc =
          acc ++ es.map scanEntry := by
      intro es
      induction es with
      | nil => simp
      | cons e es ih =>
        intro acc
        rw [foldl_cons, ih]
        simp
    rw [upToLive_none, hfold, nil_append] at hscan
    simp only [if_pos hover, hscan, hl0]
    refine ⟨_, rfl, fun e he => ?_, fun k => ?_⟩
    · rcases List.mem_append.mp he with he | he
      · obtain ⟨d, hd, rfl⟩ := mem_map.mp he
        exact hb.placed d (mem_filter.mp hd).1
      · exact hplaced e he
    · have hl1 := scanCopy_entries hb.level1.sound.sorted.ascending
        (p := fun e => inRange pre (prefixUpperBound pre) e.key) (fun e _ => inRange_upperBound pre e.key) k
      rw [scanCopy_append, hcopy0, hl1, hlayers]
      split_ifs <;> rfl
  · simp only [if_neg hover, hl0, nil_append]
    refine ⟨_, rfl, hplaced, fun k => ?_⟩
    rw [hcopy0, hlayers]
    split_ifs with hk
    · rw [hb.level1Copy_eq_none (by simpa using hover) (by rw [inRange_upperBound, hk]), newer_none]
    · rfl

/-! ### The memtables -/

/-- The active records under a prefix. -/
theorem SkipList.takeWhile_iterRawFrom (sl : SkipList) (pre : Bytes) :
    ((sl.iterRawFrom pre).takeWhile fun r => pre.isPrefixOf r.key) =
      sl.records.filter fun r => pre.isPrefixOf r.key := by
  have hiff : ∀ k : Key, pre.isPrefixOf k = true ↔ pre ≤ k ∧ ∀ u ∈ prefixUpperBound pre, k < u :=
    fun k => List.isPrefixOf_iff_prefix.trans (isPrefix_iff_range pre k)
  refine sl.ascending.takeWhile_dropWhile_eq_filter (fun r => decide_eq_true_iff)
    (fun r _ hlt => ?_) ?_
  · exact Bool.eq_false_iff.mpr fun h => absurd ((hiff r.key).mp h).1 (not_le.mpr hlt)
  · intro r _ r' _ hle hlt hr
    refine Bool.eq_false_iff.mpr fun h => Bool.eq_false_iff.mp hr ((hiff r.key).mpr ⟨hle, ?_⟩)
    exact fun u hu => hlt.trans (((hiff r'.key).mp h).2 u hu)

theorem SkipList.scanCopy_filter (sl : SkipList) (keep : Key → Bool) (k : Key) :
    scanCopy ((sl.records.filter fun r => keep r.key).map KeyValueRecord.scanEntry) k =
      if keep k then sl.copy k else none :=
  scanCopy_map sl.ascending (fun _ _ => rfl) k

/-- The sealed memtables, oldest first. -/
theorem scanCopy_readOnly (keep : Key → Bool) (ro : List ReadOnlyMemTable) (k : Key) :
    scanCopy (ro.flatMap fun m => (m.records.filter fun r => keep r.key).map
      KeyValueRecord.scanEntry) k = if keep k then resolve (ro.reverse.map (·.copy k)) else none := by
  induction ro with
  | nil => simp
  | cons m ro ih =>
    have hone : scanCopy ((m.records.filter fun r => keep r.key).map KeyValueRecord.scanEntry) k =
        if keep k then m.copy k else none :=
      scanCopy_map m.ascending (fun r _ => rfl) k
    rw [flatMap_cons, scanCopy_append, hone, ih, List.reverse_cons, map_append,
      resolve_append]
    cases keep k <;> simp

variable {active : List KeyValueRecord} {map : ScanMap}

/-- The copy of a key after the memtables are folded onto what the files gave. -/
theorem foldMemtables_spec {keep : Key → Bool} (ro : List ReadOnlyMemTable) {memtable : SkipList}
    (hactive : ∀ k, scanCopy (active.map KeyValueRecord.scanEntry) k =
      if keep k then memtable.copy k else none) (hmap : Ascending Prod.fst map) :
    Ascending Prod.fst (LSMTree.foldMemtables keep ro active map) ∧
      ∀ k, mapCopy (LSMTree.foldMemtables keep ro active map) k =
        if keep k then newer (memtable.copy k)
          (newer (resolve (ro.reverse.map (·.copy k))) (mapCopy map k))
        else mapCopy map k := by
  rw [LSMTree.foldMemtables]
  obtain ⟨hasc, hcopy⟩ := foldl_foldNewest hmap (ro.flatMap fun m =>
    (m.records.filter fun r => keep r.key).map KeyValueRecord.scanEntry)
  obtain ⟨hasc', hcopy'⟩ := foldl_foldNewest hasc (active.map KeyValueRecord.scanEntry)
  refine ⟨hasc', fun k => ?_⟩
  rw [hcopy', hcopy, scanCopy_readOnly, hactive]
  cases keep k <;> rfl

/-! ### Whole scans -/

/-- No Level-1 file holds a tombstone, as a merge never writes one. -/
def LSMTree.Level1Live (c : Crates) (t : LSMTree) : Prop :=
  ∀ b, ∀ e ∈ entriesOf c (t.buckets b).sstableFile, e.tombstone = false

namespace LSMTree

variable {c : Crates} {t : LSMTree}

/-- The winner as a scan puts it together. -/
theorem winner_eq_fold (c : Crates) (t : LSMTree) (k : Key) :
    t.winner c k = newer (t.memtable.copy k) (newer
      (resolve (t.readOnlyMemtables.reverse.map (·.copy k)))
      (resolve ((t.buckets (t.bucketOf c k)).layers c k))) := by
  change resolve (_ :: _ ++ _) = _
  rw [List.cons_append, resolve_cons, resolve_append]

/-- What the rows of a scan are once the files' part of its map is known. -/
private theorem rows_spec (keep : Key → Bool)
    (hactive : active = t.memtable.records.filter fun r => keep r.key)
    (hmap : Ascending Prod.fst map) (hcopy : ∀ k, mapCopy map k = if keep k then
      resolve ((t.buckets (t.bucketOf c k)).layers c k) else none) :
    Ascending Prod.fst ((foldMemtables keep t.readOnlyMemtables active map).filterMap liveRow) ∧
      ∀ k x, (k, x) ∈ (foldMemtables keep t.readOnlyMemtables active map).filterMap liveRow ↔
        keep k = true ∧ live (t.winner c k) = some x := by
  obtain ⟨hasc, hfold⟩ := foldMemtables_spec t.readOnlyMemtables
    (hactive ▸ t.memtable.scanCopy_filter keep) hmap
  obtain ⟨hrows, hmem⟩ := filterMap_liveRow hasc
  refine ⟨hrows, fun k x => ?_⟩
  rw [hmem, hfold, hcopy, winner_eq_fold c t k]
  cases keep k <;> simp

/-- **Prefix scan.** The rows are in key order, and a key is among them with a pointer and a
sequence exactly when it starts with the prefix and these are its live winner. -/
theorem scanPrefix_spec (h : t.Sound c) (pre : Bytes) :
    ∃ rows, t.scanPrefix c pre = .ok rows ∧ Ascending Prod.fst rows ∧
      ∀ k x, (k, x) ∈ rows ↔ pre <+: k ∧ live (t.winner c k) = some x := by
  choose es hscan hplaced hcopy using fun b => scanPrefixInBucket_spec (h.bucket b) pre
  rw [scanPrefix]
  generalize hw : ((List.range t.config.numBuckets).filter fun b =>
    (t.buckets b).hasNonobsoleteL0 || (t.buckets b).l1Overlaps pre (prefixUpperBound pre)) = wanted
  have hnodup : wanted.Nodup := hw ▸ List.nodup_range.filter _
  simp only [mapM_ok fun b (_ : b ∈ wanted) => hscan b, Except.map]
  rw [← List.flatMap_def]
  obtain ⟨hasc, hmap⟩ := foldl_foldNewest (m := []) ascending_nil (wanted.flatMap es)
  refine ⟨_, rfl, ?_⟩
  have hpre : ∀ k, pre <+: k ↔ pre.isPrefixOf k = true := fun k => List.isPrefixOf_iff_prefix.symm
  simp only [hpre]
  refine rows_spec pre.isPrefixOf (t.memtable.takeWhile_iterRawFrom pre) hasc fun k => ?_
  have hb : t.bucketOf c k < t.config.numBuckets := getBucketForKey_lt c k t.config.numBuckets_pos
  have hother : ∀ d ∈ wanted, d ≠ t.bucketOf c k → ∀ e ∈ es d, e.1 ≠ k := by
    intro d _ hd e he hek
    exact hd (hek ▸ hplaced d e he).symm
  rw [hmap, scanCopy_flatMap hnodup hother, hcopy]
  change newer _ none = _
  rw [newer_none]
  by_cases hin : t.bucketOf c k ∈ wanted
  · rw [if_pos hin]
  · -- a bucket that is skipped holds nothing of the range
    rw [if_neg hin]
    split_ifs with hk
    · rw [← hw, mem_filter, List.mem_range] at hin
      have hskip : ((t.buckets (t.bucketOf c k)).hasNonobsoleteL0 ||
          (t.buckets (t.bucketOf c k)).l1Overlaps pre (prefixUpperBound pre)) = false := by
        simpa [hb] using hin
      obtain ⟨hl0, hl1⟩ := Bool.or_eq_false_iff.mp hskip
      refine (resolve_eq_none.mpr fun x hx => ?_).symm
      rcases List.mem_append.mp hx with hx | hx
      · obtain ⟨f, hf, rfl⟩ := mem_map.mp hx
        obtain ⟨hf, hobs⟩ := Bucket.mem_liveFiles.mp hf
        have hno := List.any_eq_false.mp hl0 f hf
        simp [hobs] at hno
      · rw [List.mem_singleton.mp hx]
        exact (h.bucket _).level1Copy_eq_none hl1 (by rw [inRange_upperBound, hk])
    · rfl

/-- **Everything.** The same for the scan of all keys of the qualifying buckets, provided no
tombstone is in Level 1, which that scan does not expect there. -/
theorem keyPointerPairs_spec (h : t.Sound c) (hl1 : t.Level1Live c) (qualifying : ℕ → Bool) :
    ∃ rows, t.keyPointerPairs c qualifying = .ok rows ∧ Ascending Prod.fst rows ∧
      ∀ k ptr, (k, ptr) ∈ rows ↔ qualifying (t.bucketOf c k) = true ∧
        ∃ seq, live (t.winner c k) = some (ptr, seq) := by
  have hscan1 : ∀ b, scanBucketKeyPointers c (t.buckets b).sstableFile =
      .ok ((entriesOf c (t.buckets b).sstableFile).map scanEntry) := by
    intro b
    rw [scanBucketKeyPointers_spec (h.bucket b).level1.sound,
      List.filter_eq_self.mpr fun e he => by simp [hl1 b e he]]
  have hscan0 : ∀ b, scanL0Files c (fun _ => true) (t.buckets b).captureL0 [] =
      .ok ((t.buckets b).captureL0.flatMap fun f =>
        ((entriesOf c f.file).filter fun _ => true).map scanEntry) := by
    intro b
    rw [scanL0Files_spec _ fun f hf => ((h.bucket b).captureL0 f hf).sound, nil_append]
  rw [keyPointerPairs]
  generalize hw : (List.range t.config.numBuckets).filter qualifying = toRead
  have hnodup : toRead.Nodup := hw ▸ List.nodup_range.filter _
  simp only [mapM_ok fun b (_ : b ∈ toRead) => hscan1 b,
    mapM_ok fun b (_ : b ∈ toRead) => hscan0 b, Except.map]
  rw [← List.flatMap_def, ← List.flatMap_def]
  obtain ⟨hasc1, hmap1⟩ := foldl_foldNewest (m := []) ascending_nil (toRead.flatMap fun b =>
    (entriesOf c (t.buckets b).sstableFile).map scanEntry)
  obtain ⟨hasc0, hmap0⟩ := foldl_foldNewest hasc1 (toRead.flatMap fun b =>
    (t.buckets b).captureL0.flatMap fun f =>
      ((entriesOf c f.file).filter fun _ => true).map scanEntry)
  have hrows := rows_spec (t := t) (c := c) (fun k => qualifying (t.bucketOf c k)) rfl hasc0
    fun k => by
      have hb : t.bucketOf c k < t.config.numBuckets :=
        getBucketForKey_lt c k t.config.numBuckets_pos
      have hmem : t.bucketOf c k ∈ toRead ↔ qualifying (t.bucketOf c k) = true := by
        rw [← hw, mem_filter, List.mem_range]
        exact and_iff_right hb
      have hother1 : ∀ d ∈ toRead, d ≠ t.bucketOf c k → ∀ e ∈
          (entriesOf c (t.buckets d).sstableFile).map scanEntry, e.1 ≠ k := by
        intro d _ hd e he hek
        obtain ⟨x, hx, rfl⟩ := mem_map.mp he
        have hek : x.key = k := hek
        exact hd (hek ▸ (h.bucket d).placed x hx).symm
      have hother0 : ∀ d ∈ toRead, d ≠ t.bucketOf c k → ∀ e ∈
          (t.buckets d).captureL0.flatMap (fun f =>
            ((entriesOf c f.file).filter fun _ => true).map scanEntry), e.1 ≠ k := by
        intro d _ hd e he hek
        obtain ⟨f, hf, he⟩ := List.mem_flatMap.mp he
        obtain ⟨x, hx, rfl⟩ := mem_map.mp he
        have hek : x.key = k := hek
        exact hd (hek ▸ ((h.bucket d).captureL0 f hf).placed x (mem_filter.mp hx).1).symm
      have hcopy1 := scanCopy_entries (h.bucket (t.bucketOf c k)).level1.sound.sorted.ascending
        (p := fun _ => true) (q := fun _ => true) (fun _ _ => rfl) k
      have hcopy0 := (h.bucket (t.bucketOf c k)).scanCopy_captureL0 (p := fun _ => true)
        (q := fun _ => true) (fun _ _ => rfl) k
      rw [List.filter_true] at hcopy1
      rw [hmap0, hmap1, scanCopy_flatMap hnodup hother0, scanCopy_flatMap hnodup hother1, hcopy0,
        hcopy1]
      change newer _ (newer _ none) = _
      rw [newer_none]
      by_cases hq : qualifying (t.bucketOf c k) = true
      · rw [if_pos (hmem.mpr hq), if_pos (hmem.mpr hq), if_pos hq]
        simp [Bucket.layers, Bucket.level1Copy, resolve_append]
      · rw [if_neg (hmem.not.mpr hq), if_neg (hmem.not.mpr hq), if_neg hq]
        rfl
  obtain ⟨hasc, hmem⟩ := hrows
  refine ⟨_, rfl, List.pairwise_map.mpr hasc, fun k ptr => ?_⟩
  rw [mem_map]
  constructor
  · rintro ⟨⟨k', ptr', seq⟩, hrow, heq⟩
    cases heq
    obtain ⟨hq, hlive⟩ := (hmem _ _).mp hrow
    exact ⟨hq, seq, hlive⟩
  · rintro ⟨hq, seq, hlive⟩
    exact ⟨(k, ptr, seq), (hmem k (ptr, seq)).mpr ⟨hq, hlive⟩, rfl⟩

end LSMTree

end Minnal
