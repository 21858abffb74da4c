import Minnal.Db.SegmentCollection
import Minnal.Lsm.RangeBounded
import Minnal.ValueLog.BatchReads

/-!
# Batch scans

A batch scan asks the tree once for keys and pointers, in key order, reads the values bucket by
bucket, and reads those keys again, one by one, whose **segment was removed** in between. The
values found by these second reads are appended, where a scan over several prefixes puts each
value in its row's place. So the pairs come in key order exactly when no scanned key that lost its
segment is before one that did not (`batchScans_deliver_iff`); which pairs come
is right in any case (`Stored.readEntries_eq`).
-/

set_option linter.dupNamespace false

namespace Minnal

open ByteCodec LastWrite ValueLog SortedMap StepRun

/-- A scanned key and the record its pointer names. -/
abbrev ResolvedEntry := Key × ShardedValuePointer

abbrev KeyValue := Key × Bytes

/-- The largest limit there is. -/
def usizeMax : UInt64 := 0xFFFFFFFFFFFFFFFF

namespace KVStore

variable (c : Crates)

def resolveEntriesFromPointers (keyPointers : List (Key × ℕ × ℕ)) : List ResolvedEntry :=
  keyPointers.filterMap fun row => (decodeShardedPointer row.2.1).map fun p => (row.1, p)

/-- What is to be read of a bucket, with the entries' indices. -/
def bucketWork (entries : List ResolvedEntry) (bucket : ℕ) : List BatchEntry :=
  entries.zipIdx.filterMap fun e =>
    if e.1.2.bucket = bucket then some (e.2, e.1.2.location) else none

/-- The values of the entries, each put at its index. -/
def batchValues (s : KVStore) (g : Grouping) (entries : List ResolvedEntry) : List (Option Bytes) :=
  let results := (List.range s.numBuckets).flatMap fun bucket =>
    (s.logs bucket).readValuesBatch c.crc32 g (bucketWork entries bucket)
  results.foldl (fun values r => values.set r.1 r.2) (List.replicate entries.length none)

/-- The pairs whose value was read, and the keys whose value was not. -/
def batchReadFromEntries (s : KVStore) (g : Grouping) (entries : List ResolvedEntry) :
    List KeyValue × List Key :=
  let read := entries.zip (s.batchValues c g entries)
  (read.filterMap fun x => x.2.map fun v => (x.1.1, v),
    read.filterMap fun x => if x.2.isNone then some x.1.1 else none)

/-- Read the keys again whose segment was gone, and append what is found. -/
def refetchDropped (s : KVStore) (pairs : List KeyValue) :
    List Key → Except KVError (List KeyValue)
  | [] => .ok pairs
  | key :: retry =>
    match s.get c key with
    | .error e => .error e
    | .ok none => s.refetchDropped pairs retry
    | .ok (some v) => s.refetchDropped (pairs ++ [(key, v)]) retry

/-- The values of scanned rows: the batch is read in one state of the store, and what it missed in
a later one. -/
def readEntries (read later : KVStore) (g : Grouping) (keyPointers : List (Key × ℕ × ℕ)) :
    Except KVError (List KeyValue) :=
  let entries := resolveEntriesFromPointers keyPointers
  let batch := read.batchReadFromEntries c g entries
  later.refetchDropped c batch.1 batch.2

/-- Scan a prefix in one state of the store and read the values in later ones. -/
def scanPrefixBatch (s read later : KVStore) (g : Grouping) (pre : Bytes) :
    Except KVError (List KeyValue) :=
  match s.lsm.scanPrefix c pre with
  | .error e => .error (.lsm e)
  | .ok keyPointers => readEntries c read later g keyPointers

/-- Scan `[start, stop)`. -/
def scanRangeBatch (s read later : KVStore) (g : Grouping) (start : Key) (stop : Option Key) :
    Except KVError (List KeyValue) :=
  match s.lsm.rangePointersBounded c start stop usizeMax.toNat with
  | .error e => .error (.lsm e)
  | .ok keyPointers => readEntries c read later g keyPointers

/-- One page of `[cursor, stop)`, and the first key behind it. -/
def scanPageBatch (s read later : KVStore) (g : Grouping) (cursor stop : Option Key)
    (limit : UInt64) : Except KVError (List KeyValue × Option Key) :=
  let limit := max limit 1
  -- the sum wraps
  match s.lsm.rangePointersBounded c (cursor.getD []) stop (limit + 1).toNat with
  | .error e => .error (.lsm e)
  | .ok keyPointers =>
    let nextCursor := keyPointers[limit.toNat]?.map Prod.fst
    (readEntries c read later g (keyPointers.take limit.toNat)).map fun pairs =>
      (pairs, nextCursor)

end KVStore

/-! ### The batch read -/

/-- Writing entries of a list to their places gives the list, once each place was written or was
right before. -/
theorem foldl_set_eq {α : Type*} {target : List α} {results : List (ℕ × α)} {l : List α}
    (hlen : l.length = target.length) (hresults : ∀ r ∈ results, target[r.1]? = some r.2)
    (hrest : ∀ i, i ∉ results.map Prod.fst → l[i]? = target[i]?) :
    results.foldl (fun values r => values.set r.1 r.2) l = target := by
  induction results generalizing l with
  | nil => exact List.ext_getElem? fun i => hrest i (by simp)
  | cons r results ih =>
    refine ih (by rw [List.length_set, hlen])
      (fun r' hr' => hresults r' (List.mem_cons_of_mem _ hr')) fun i hi => ?_
    by_cases hri : r.1 = i
    · subst hri
      have htarget := hresults r List.mem_cons_self
      obtain ⟨hlt, -⟩ := List.getElem?_eq_some_iff.mp htarget
      rw [List.getElem?_set_self (hlen ▸ hlt), htarget]
    · rw [List.getElem?_set_ne hri]
      exact hrest i (by simpa [Ne.symm hri] using hi)

variable {entries : List ResolvedEntry} {rows : List (Key × ℕ × ℕ)} {read : KVStore}
  {acts : List GcAct}

namespace KVStore

/-- The value a pointer names, if its record can be read. -/
def valueAt (c : Crates) (s : KVStore) (p : ShardedValuePointer) : Option Bytes :=
  ((s.logs p.bucket).readValue c.crc32 p.location).toOption

variable {c : Crates} {s : KVStore}

theorem mem_bucketWork {bucket idx : ℕ} {location : ValueLocation} :
    (idx, location) ∈ bucketWork entries bucket ↔
      ∃ e, entries[idx]? = some e ∧ e.2.bucket = bucket ∧ e.2.location = location := by
  simp only [bucketWork, List.mem_filterMap, Prod.exists, List.mem_zipIdx_iff_getElem?,
    Option.ite_none_right_eq_some, Option.some.injEq, Prod.mk.injEq]
  constructor
  · rintro ⟨k, p, i, hget, hbucket, rfl, hlocation⟩
    exact ⟨k, p, hget, hbucket, hlocation⟩
  · rintro ⟨k, p, hget, hbucket, hlocation⟩
    exact ⟨k, p, idx, hget, hbucket, rfl, hlocation⟩

/-- **Batch values.** Whatever order the buckets are read in, each entry has its own value. -/
theorem batchValues_eq (s : KVStore) (g : Grouping)
    (hbuckets : ∀ e ∈ entries, e.2.bucket < s.numBuckets) :
    s.batchValues c g entries = entries.map fun e => s.valueAt c e.2 := by
  have hperm := fun bucket => readValuesBatch_perm c.crc32 (s.logs bucket) g
    (bucketWork entries bucket)
  refine foldl_set_eq (by simp) (fun r hr => ?_) fun i hi => ?_
  · obtain ⟨bucket, -, hr⟩ := List.mem_flatMap.mp hr
    obtain ⟨⟨idx, location⟩, hwork, rfl⟩ := List.mem_map.mp ((hperm bucket).mem_iff.mp hr)
    obtain ⟨e, hget, rfl, rfl⟩ := mem_bucketWork.mp hwork
    simp only [readOne, List.getElem?_map, hget, Option.map_some, valueAt]
  · rcases hget : entries[i]? with _ | e
    · rw [List.getElem?_map, hget, Option.map_none, List.getElem?_eq_none]
      rw [List.length_replicate]
      exact List.getElem?_eq_none_iff.mp hget
    · refine absurd (List.mem_map.mpr ⟨(i, s.valueAt c e.2), List.mem_flatMap.mpr ⟨e.2.bucket, ?_, ?_⟩,
        rfl⟩) hi
      · exact List.mem_range.mpr (hbuckets e (List.mem_of_getElem? hget))
      · refine (hperm e.2.bucket).mem_iff.mpr (List.mem_map.mpr ⟨(i, e.2.location), ?_, rfl⟩)
        exact mem_bucketWork.mpr ⟨e, hget, rfl, rfl⟩

/-- The batch gives the pairs that can be read, in their order, and the other keys. -/
theorem batchReadFromEntries_eq (s : KVStore) (g : Grouping)
    (hbuckets : ∀ e ∈ entries, e.2.bucket < s.numBuckets) :
    s.batchReadFromEntries c g entries =
      (entries.filterMap fun e => (s.valueAt c e.2).map fun v => (e.1, v),
        (entries.filter fun e => (s.valueAt c e.2).isNone).map Prod.fst) := by
  have hzip : entries.zip (entries.map fun e => s.valueAt c e.2) =
      entries.map fun e => (e, s.valueAt c e.2) := by
    simpa using List.zip_map' (f := id) (g := fun e : ResolvedEntry => s.valueAt c e.2) (l := entries)
  simp only [batchReadFromEntries, batchValues_eq s g hbuckets]
  rw [hzip, List.filterMap_map, List.filterMap_map, ← List.filterMap_eq_filter, List.map_filterMap]
  refine Prod.ext rfl (List.filterMap_congr fun e _ => ?_)
  by_cases h : s.valueAt c e.2 = none <;> simp [Option.guard, h]

/-- The second reads append what they find. -/
theorem refetchDropped_eq {value : Key → Option Bytes} (hvalue : ∀ key, s.get c key = .ok (value key))
    (pairs : List KeyValue) (retry : List Key) :
    s.refetchDropped c pairs retry =
      .ok (pairs ++ retry.filterMap fun key => (value key).map fun v => (key, v)) := by
  induction retry generalizing pairs with
  | nil => rw [refetchDropped, List.filterMap_nil, List.append_nil]
  | cons key retry ih =>
    rw [refetchDropped, hvalue]
    rcases hkey : value key with _ | v
    · rw [List.filterMap_cons_none (by rw [hkey, Option.map_none])]
      exact ih pairs
    · rw [List.filterMap_cons_some (by rw [hkey, Option.map_some]), List.append_cons]
      exact ih _

/-! ### What a collection does to a scan -/

variable (c) in
/-- The key's record is in a segment that the steps remove. -/
def lost (s : KVStore) (acts : List GcAct) (key : Key) : Bool :=
  (s.pointer c key).any fun p => decide (Removes acts p.bucket p.location.segmentId)

/-- A key is live if it can be read. -/
theorem Stored.live_iff (h : s.Stored c) (key : Key) :
    (∃ x, live (s.lsm.winner c key) = some x) ↔ ∃ v, s.get c key = .ok (some v) := by
  rw [h.get_eq]
  rcases hp : s.pointer c key with _ | p
  · simp [h.pointer_eq_none.mp hp]
  · obtain ⟨v, hv⟩ := h.readValue hp
    have hlive : live (s.lsm.winner c key) ≠ none := fun hnone => by
      rw [h.pointer_eq_none.mpr hnone] at hp
      cases hp
    simp [hv, Except.map, Option.ne_none_iff_exists'.mp hlive]

/-- The scanned rows are resolved to the keys' pointers. -/
theorem Stored.resolve_spec (h : s.Stored c)
    (hrows : ∀ row ∈ rows, live (s.lsm.winner c row.1) = some row.2) :
    (resolveEntriesFromPointers rows).map Prod.fst = rows.map Prod.fst ∧
      ∀ e ∈ resolveEntriesFromPointers rows, s.pointer c e.1 = some e.2 := by
  induction rows with
  | nil => exact ⟨rfl, by simp [resolveEntriesFromPointers]⟩
  | cons row rows ih =>
    obtain ⟨hkeys, hpointers⟩ := ih fun r hr => hrows r (List.mem_cons_of_mem _ hr)
    have hlive := hrows row List.mem_cons_self
    obtain ⟨p, hp, -⟩ := h.decoded row.1 row.2 hlive
    have hcons : resolveEntriesFromPointers (row :: rows) =
        (row.1, p) :: resolveEntriesFromPointers rows := by
      rw [resolveEntriesFromPointers, List.filterMap_cons_some (by rw [hp, Option.map_some])]
      rfl
    rw [hcons]
    refine ⟨by rw [List.map_cons, List.map_cons, hkeys], fun e he => ?_⟩
    rcases List.mem_cons.mp he with rfl | he
    · rw [pointer, hlive, Option.bind_some, hp]
    · exact hpointers e he

/-- After a collection, a pointer names its key's value, or nothing if its segment is gone. -/
theorem Stored.valueAt_eq (h : s.Stored c) (hcarried : Carried c (Removes acts) s read) {key : Key}
    {p : ShardedValuePointer} (hp : s.pointer c key = some p) {v : Bytes}
    (hv : s.get c key = .ok (some v)) :
    read.valueAt c p = if s.lost c acts key then none else some v := by
  have hbucket := h.pointer_bucket hp
  obtain ⟨contents, stored, hholds, -, hbacked⟩ := h.backed p.bucket hbucket
  obtain ⟨r, -, hr⟩ := hbacked key p hp rfl
  have hvalue : r.value = v := by
    rw [h.get_eq_some hp hholds hr] at hv
    exact Option.some.inj (Except.ok.inj hv)
  simp only [lost, hp, Option.any_some, decide_eq_true_eq, valueAt, ValueLog.readValue]
  split_ifs with hremoved
  · have hgone := (hcarried.gone p.bucket hbucket p.location.segmentId (.inl hremoved)).2
    have hmissing : (read.logs p.bucket).segmentFile p.location.segmentId =
        .error (.segmentMissing p.location.segmentId) := by
      rw [segmentFile, hgone]
    rw [readValueAndMeta, hmissing]
    split_ifs <;> rfl
  · obtain ⟨contents', stored', hholds', hkept⟩ :=
      hcarried.records p.bucket hbucket contents stored hholds
    rw [hholds'.toDirHolds.readValueAndMeta (hkept _ hr hremoved), ← hvalue]
    rfl

/-- **What a batch read returns.** The keys that kept their segment with their values, and behind
them the others with theirs. -/
theorem Stored.readEntries_eq (h : s.Stored c) {later : KVStore} (g : Grouping)
    (hcarried : Carried c (Removes acts) s read) (hlater : ∀ key, later.get c key = s.get c key)
    (hrows : ∀ row ∈ rows, live (s.lsm.winner c row.1) = some row.2) :
    ∃ value : Key → Bytes, (∀ key ∈ rows.map Prod.fst, later.get c key = .ok (some (value key))) ∧
      readEntries c read later g rows =
        .ok (((rows.map Prod.fst).filter (fun key => !s.lost c acts key) ++
          (rows.map Prod.fst).filter (s.lost c acts)).map fun key => (key, value key)) := by
  obtain ⟨hkeys, hpointers⟩ := h.resolve_spec hrows
  have hget : ∀ key, ∃ v, s.get c key = .ok v := by
    intro key
    rw [h.get_eq]
    rcases hp : s.pointer c key with _ | p
    · exact ⟨none, rfl⟩
    · obtain ⟨v, hv⟩ := h.readValue hp
      exact ⟨some v, by simp only [hv, Except.map]⟩
  choose found hfound using hget
  have hsome : ∀ key ∈ rows.map Prod.fst, found key = some ((found key).getD []) := by
    intro key hkey
    obtain ⟨row, hrow, rfl⟩ := List.mem_map.mp hkey
    obtain ⟨v, hv⟩ := (h.live_iff row.1).mp ⟨_, hrows row hrow⟩
    rw [Except.ok.inj ((hfound row.1).symm.trans hv)]
    rfl
  refine ⟨fun key => (found key).getD [], fun key hkey => ?_, ?_⟩
  · rw [hlater, hfound, ← hsome key hkey]
  generalize hentries : resolveEntriesFromPointers rows = entries at hkeys hpointers
  rw [readEntries, hentries, ← hkeys]
  have hmem : ∀ e ∈ entries, found e.1 = some ((found e.1).getD []) := fun e he =>
    hsome e.1 (hkeys ▸ List.mem_map_of_mem he)
  have hat : ∀ e ∈ entries, read.valueAt c e.2 =
      if s.lost c acts e.1 then none else some ((found e.1).getD []) := fun e he =>
    h.valueAt_eq hcarried (hpointers e he) ((hfound e.1).trans (congrArg _ (hmem e he)))
  have hbuckets : ∀ e ∈ entries, e.2.bucket < read.numBuckets := fun e he =>
    hcarried.buckets ▸ h.pointer_bucket (hpointers e he)
  simp only [batchReadFromEntries_eq read g hbuckets]
  rw [refetchDropped_eq fun key => (hlater key).trans (hfound key), List.map_append]
  refine congrArg Except.ok (congrArg₂ (· ++ ·) ?_ ?_)
  · rw [List.filter_map, List.map_map, ← List.filterMap_eq_map, List.filterMap_filter]
    refine List.filterMap_congr fun e he => ?_
    rw [hat e he]
    cases hlost : s.lost c acts e.1 <;> simp [hlost]
  · have hfilter : (entries.filter fun e => (read.valueAt c e.2).isNone).map Prod.fst =
        (entries.map Prod.fst).filter (s.lost c acts) := by
      rw [List.filter_map]
      refine congrArg _ (List.filter_congr fun e he => ?_)
      rw [hat e he, Function.comp_apply]
      cases s.lost c acts e.1 <;> rfl
    have hfetched : ∀ key ∈ (entries.map Prod.fst).filter (s.lost c acts),
        (found key).map (fun v => (key, v)) = some (key, (found key).getD []) := by
      intro key hkey
      obtain ⟨e, he, rfl⟩ := List.mem_map.mp (List.mem_filter.mp hkey).1
      rw [hmem e he]
      rfl
    rw [hfilter, List.filterMap_congr hfetched]
    exact congrFun List.filterMap_eq_map _

/-! ### Order -/

variable (c) in
/-- **A right result** for the scanned keys: pairs in strictly ascending key order, of exactly those
keys that are live, with their values. -/
def Delivers (later : KVStore) (keys : List Key) (result : Except KVError (List KeyValue)) : Prop :=
  ∃ pairs, result = .ok pairs ∧ Ascending Prod.fst pairs ∧
    ∀ key v, (key, v) ∈ pairs ↔ key ∈ keys ∧ later.get c key = .ok (some v)

/-- The keys of a page: as many as the limit says, found by a scan for one more. -/
def pageKeys (keys : List Key) (limit : UInt64) : List Key :=
  (keys.take (max limit 1 + 1).toNat).take (max limit 1).toNat

variable (c) in
/-- Behind a key whose segment is removed there is none whose segment is not. -/
def InOrder (s : KVStore) (acts : List GcAct) (keys : List Key) : Prop :=
  keys.Pairwise fun a b => s.lost c acts a = true → s.lost c acts b = true

/-- The values of scanned keys come in their order if no removal is before a key that stays. -/
theorem Stored.readEntries_delivers_iff (h : s.Stored c) {later : KVStore} (g : Grouping)
    (hcarried : Carried c (Removes acts) s read) (hlater : ∀ key, later.get c key = s.get c key)
    (hasc : Ascending Prod.fst rows)
    (hrows : ∀ row ∈ rows, live (s.lsm.winner c row.1) = some row.2) :
    Delivers c later (rows.map Prod.fst) (readEntries c read later g rows) ↔
      s.InOrder c acts (rows.map Prod.fst) := by
  obtain ⟨value, hvalue, heq⟩ := h.readEntries_eq g hcarried hlater hrows
  generalize hkeys : rows.map Prod.fst = keys at hvalue heq
  have hkeysAsc : Ascending id keys := by
    rw [← hkeys, Ascending, List.pairwise_map]
    exact hasc
  rw [InOrder, ← ascending_filter_append_iff hkeysAsc, heq]
  generalize hput : keys.filter (fun key => !s.lost c acts key) ++ keys.filter (s.lost c acts) = put
  have hmem : ∀ key, key ∈ put ↔ key ∈ keys := by
    intro key
    rw [← hput, List.mem_append, List.mem_filter, List.mem_filter]
    cases s.lost c acts key <;> simp
  have hpairs : Ascending Prod.fst (put.map fun key => (key, value key)) ↔ Ascending id put := by
    rw [Ascending, List.pairwise_map]
    rfl
  constructor
  · rintro ⟨pairs, hok, hpairsAsc, -⟩
    obtain rfl := Except.ok.inj hok
    exact hpairs.mp hpairsAsc
  · intro hputAsc
    refine ⟨_, rfl, hpairs.mpr hputAsc, fun key v => ?_⟩
    simp only [List.mem_map, Prod.mk.injEq, hmem]
    constructor
    · rintro ⟨key', hkey', rfl, rfl⟩
      exact ⟨hkey', hvalue key' hkey'⟩
    · rintro ⟨hkey, hv⟩
      refine ⟨key, hkey, rfl, ?_⟩
      exact Option.some.inj (Except.ok.inj ((hvalue key hkey).symm.trans hv))

/-- The keys of ascending rows that are the live ones in some range. -/
theorem Stored.keys_of_rows (h : s.Stored c) {P : Key → Prop} (hasc : Ascending Prod.fst rows)
    (hmem : ∀ k x, (k, x) ∈ rows ↔ P k ∧ live (s.lsm.winner c k) = some x) :
    Ascending id (rows.map Prod.fst) ∧
      ∀ key, key ∈ rows.map Prod.fst ↔ P key ∧ ∃ v, s.get c key = .ok (some v) := by
  refine ⟨?_, fun key => ?_⟩
  · rw [Ascending, List.pairwise_map]
    exact hasc
  · rw [← h.live_iff, List.mem_map]
    constructor
    · rintro ⟨⟨k, x⟩, hrow, rfl⟩
      exact ⟨((hmem k x).mp hrow).1, x, ((hmem k x).mp hrow).2⟩
    · rintro ⟨hP, x, hx⟩
      exact ⟨(key, x), (hmem key x).mpr ⟨hP, hx⟩, rfl⟩

/-- **Batch scans.** Let a collection remove segments between the scan of the tree and the reads of
the values, and go on before what the reads missed is read again. Then a prefix scan, a range scan
and a page return the live keys they scanned with their values in strictly ascending order if and
only if no scanned key that lost its segment is before one that did not. -/
theorem batchScans_deliver_iff (h : s.Stored c) (g : Grouping) {acts acts' : List GcAct}
    {read later : KVStore} (hsafe : along (gcStep c) gcSafe s acts = true)
    (hread : run (gcStep c) s acts = some read) (hsafe' : along (gcStep c) gcSafe read acts' = true)
    (hlater : run (gcStep c) read acts' = some later) :
    (∀ pre, ∃ keys, Ascending id keys ∧
      (∀ key, key ∈ keys ↔ pre <+: key ∧ ∃ v, s.get c key = .ok (some v)) ∧
      (Delivers c later keys (scanPrefixBatch c s read later g pre) ↔ s.InOrder c acts keys)) ∧
    ∀ start stop, ∃ keys, Ascending id keys ∧
      (∀ key, key ∈ keys ↔
        (start ≤ key ∧ ∀ e ∈ stop, key < e) ∧ ∃ v, s.get c key = .ok (some v)) ∧
      (Delivers c later (keys.take usizeMax.toNat)
          (scanRangeBatch c s read later g start stop) ↔
        s.InOrder c acts (keys.take usizeMax.toNat)) ∧
      ∀ cursor limit, cursor.getD [] = start →
        (Delivers c later (pageKeys keys limit)
            ((scanPageBatch c s read later g cursor stop limit).map Prod.fst) ↔
          s.InOrder c acts (pageKeys keys limit)) := by
  obtain ⟨hstored, hcarried⟩ := h.gcRun hsafe hread
  have hget : ∀ key, later.get c key = s.get c key := fun key =>
    ((hstored.gcRun hsafe' hlater).2.values key).trans (hcarried.values key)
  refine ⟨fun pre => ?_, fun start stop => ?_⟩
  · obtain ⟨rows, hscan, hasc, hmem⟩ := LSMTree.scanPrefix_spec h.sound pre
    obtain ⟨hkeys, hlive⟩ := h.keys_of_rows hasc hmem
    refine ⟨_, hkeys, hlive, ?_⟩
    simp only [scanPrefixBatch, hscan]
    exact h.readEntries_delivers_iff g hcarried hget hasc fun row hrow => ((hmem _ _).mp hrow).2
  · obtain ⟨rows, hasc, hmem, htake⟩ := LSMTree.rangeEntries_spec h.sound start stop
    have hscan : ∀ limit, s.lsm.rangePointersBounded c start stop limit = .ok (rows.take limit) := by
      intro limit
      obtain ⟨all, hall, hrow⟩ := htake limit
      rw [LSMTree.rangePointersBounded, hall, Except.map, hrow]
    have hrange : ∀ key, inRange start stop key = true ↔ start ≤ key ∧ ∀ e ∈ stop, key < e := by
      intro key
      simp only [inRange, Bool.and_eq_true, decide_eq_true_eq, Option.all_eq_true, Option.mem_def]
    obtain ⟨hkeys, hlive⟩ := h.keys_of_rows hasc fun k x =>
      (hmem k x).trans (and_congr_left' (hrange k))
    have hpart : ∀ part : List (Key × ℕ × ℕ), part.Sublist rows →
        (Delivers c later (part.map Prod.fst) (readEntries c read later g part) ↔
          s.InOrder c acts (part.map Prod.fst)) := fun part hsub =>
      h.readEntries_delivers_iff g hcarried hget (hasc.sublist hsub) fun row hrow =>
        ((hmem _ _).mp (hsub.subset hrow)).2
    refine ⟨_, hkeys, hlive, ?_, fun cursor limit hcursor => ?_⟩
    · simp only [scanRangeBatch, hscan, ← List.map_take]
      exact hpart _ (List.take_sublist _ _)
    · subst hcursor
      simp only [scanPageBatch, pageKeys, hscan, ← List.map_take]
      have hresult : ∀ r : Except KVError (List KeyValue), ∀ cursor : Option Key,
          (r.map fun pairs => (pairs, cursor)).map Prod.fst = r := by
        rintro (e | pairs) cursor <;> rfl
      rw [hresult]
      exact hpart _ ((List.take_sublist _ _).trans (List.take_sublist _ _))

/-- Three of the four records of the first segment are garbage. -/
def mostlyGarbage : KVStore :=
  (run (step .real) oneBucket [.putToStorageSeq [0x61] [1] 1 0, .putToStorageSeq [0x67] [2] 2 0,
    .putToStorageSeq [0x67] [3] 3 0, .deleteFromStorageSeq [0x67] 4]).get (by decide +kernel)

/-- The collection has closed the segment, and a second key has come into the next. -/
def scanned : KVStore :=
  (run (step .real) (mostlyGarbage.rollTail 0) [.putToStorageSeq [0x62] [4] 5 0]).get
    (by decide +kernel)

/-- The live record of the first segment is copied, and the segment removed. -/
def collection : List GcAct := [.relocate 0 1 0, .unlinkSegment 0 1]

/-- The store the values are read from. -/
def collected : KVStore := (run (gcStep .real) scanned collection).get (by decide +kernel)

theorem stored_scanned : scanned.Stored .real := by
  have hstart : oneBucket.Stored .real :=
    @stored_empty .real .oneBucket (by decide) 65536 newLog rfl
  have hgarbage : mostlyGarbage.Stored .real :=
    stored_run hstart (by decide +kernel) (Option.some_get _).symm
  exact stored_run (hgarbage.rollTail (by decide +kernel)).1 (by decide +kernel) (Option.some_get _).symm

/-- The pages of `scanned` are right while the collection goes on. -/
theorem batchScans_deliver_iff_scanned :
    ∃ keys, Ascending id keys ∧
      (∀ key, key ∈ keys ↔ [] <+: key ∧ ∃ v, scanned.get .real key = .ok (some v)) ∧
      (Delivers .real collected keys
          (scanPrefixBatch .real scanned collected collected .inOrder []) ↔
        scanned.InOrder .real collection keys) := by
  have hread : run (gcStep .real) scanned collection = some collected := (Option.some_get _).symm
  have hdone : along (gcStep .real) gcSafe collected [] = true := rfl
  exact (batchScans_deliver_iff stored_scanned .inOrder (by decide +kernel) hread hdone rfl).1 []

/-- The key whose segment is gone comes last. -/
theorem scanPrefixBatch_disordered :
    scanned.Stored .real ∧ along (gcStep .real) gcSafe scanned collection = true ∧
      run (gcStep .real) scanned collection = some collected ∧
      scanPrefixBatch .real scanned collected collected .inOrder [] =
        .ok [([0x62], [4]), ([0x61], [1])] ∧
      ∀ keys, ¬ Delivers .real collected keys
        (scanPrefixBatch .real scanned collected collected .inOrder []) := by
  have hscan : scanPrefixBatch .real scanned collected collected .inOrder [] =
      .ok [([0x62], [4]), ([0x61], [1])] := by decide +kernel
  refine ⟨stored_scanned, by decide +kernel, (Option.some_get _).symm, hscan, ?_⟩
  rintro keys ⟨pairs, hpairs, hasc, -⟩
  obtain rfl := Except.ok.inj (hpairs.symm.trans hscan)
  exact absurd hasc (by unfold Ascending; decide)

end KVStore

end Minnal
