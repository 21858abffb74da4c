import Minnal.Lsm.Memtable

/-!
# The LSM tree: state and maintenance

A key's copies live in an active memtable, in sealed memtables, in the Level-0 files of the
key's bucket and in the bucket's one Level-1 file. This module has the state and everything
that moves copies down: writes, sealing (`flushMemtable`), flushing a sealed memtable to
Level 0 (`flushRoMemtableToLevel0`), merging Level 0 into Level 1 (`mergeLevel0ToLevel1`)
and the two clean-ups.

A Level-0 file is written once and unlinked only when its registry entry goes, so an entry
carries the file's bytes. A merge works on a **snapshot** of the registry taken before it
reads anything; files registered later are not its business. The snapshot is the list of the
stamps that name the files.
-/

set_option linter.dupNamespace false

namespace Minnal

open ByteCodec FrameWalk SortedMap LastWrite

/-! ### State -/

structure LSMConfig where
  compactionThresholdPercent : ℕ
  numBuckets : ℕ
  skipListCapacity : ℕ
  numBuckets_pos : 0 < numBuckets
  skipListCapacity_pos : 0 < skipListCapacity

/-- A registered Level-0 file. The stamp is its name and its place in the flush order. -/
structure L0FileEntry where
  createdAtMs : ℕ
  file : Bytes
  summary : Option L0Summary
  readerCount : ℕ
  obsolete : Bool
  deriving DecidableEq, Repr

namespace L0FileEntry

def new (createdAtMs : ℕ) (file : Bytes) (summary : Option L0Summary) : L0FileEntry where
  createdAtMs := createdAtMs
  file := file
  summary := summary
  readerCount := 0
  obsolete := false

/-- Whether the key could be in this file; without a summary, read it to find out. -/
def mayContain (c : Crates) (entry : L0FileEntry) (key : Key) : Bool :=
  entry.summary.all fun s =>
    decide (s.minKey ≤ key) && decide (key ≤ s.maxKey) && s.bloom.contains c key

/-- Whether every entry of this file is at most `seq`. -/
def cannotBeat (entry : L0FileEntry) (seq : ℕ) : Bool :=
  entry.summary.any fun s => seqNewerOrEq seq s.maxSeq

/-- Where to start scanning this file for `key`. -/
def scanStart (entry : L0FileEntry) (key : Key) : ℕ :=
  ((entry.summary.bind (·.index)).map (·.blockStart key)).getD 0

end L0FileEntry

/-- Files by flush order, the latest flush first. -/
def newestFirst (files : List L0FileEntry) : List L0FileEntry :=
  files.insertionSort fun a b => b.createdAtMs ≤ a.createdAtMs

/-- Files by flush order, the earliest flush first. -/
def oldestFirst (files : List L0FileEntry) : List L0FileEntry :=
  files.insertionSort fun a b => a.createdAtMs ≤ b.createdAtMs

/-- One bucket: its Level-0 registry, its Level-1 file and what is known of that file. -/
structure Bucket where
  level0Files : List L0FileEntry
  sstableFile : Bytes
  sstableMetadata : Option SStableMetadata
  sstableBloom : Option BloomFilter
  sstableIndex : Option SparseIndex
  deriving DecidableEq, Repr

/-- A bucket with nothing in it: an empty Level-1 file gets an empty filter. -/
def Bucket.empty (c : Crates) : Bucket where
  level0Files := []
  sstableFile := []
  sstableMetadata := none
  sstableBloom := some (.build c [] 0)
  sstableIndex := none

structure LSMTree where
  config : LSMConfig
  memtable : SkipList
  /-- Oldest first. -/
  readOnlyMemtables : List ReadOnlyMemTable
  pendingOldMemtables : List ReadOnlyMemTable
  buckets : ℕ → Bucket
  /-- Upper bound on the sequence of every entry outside the active memtable. -/
  maxLowerSeq : ℕ
  roMemtableVersion : ℕ
  lastL0Stamp : ℕ

/-- A tree over empty directories. -/
def LSMTree.empty (c : Crates) (config : LSMConfig) : LSMTree where
  config := config
  memtable := .withCapacity config.skipListCapacity
  readOnlyMemtables := []
  pendingOldMemtables := []
  buckets := fun _ => .empty c
  maxLowerSeq := 0
  roMemtableVersion := 0
  lastL0Stamp := 0

/-- The bucket of a key. -/
def LSMTree.bucketOf (c : Crates) (t : LSMTree) (key : Key) : ℕ :=
  getBucketForKey c key t.config.numBuckets

/-! ### Writes and sealing -/

namespace LSMTree

/-- Fold a sequence into the bound on the lower layers. -/
def noteLowerSeq (bound seq : ℕ) : ℕ := if seqNewer seq bound then seq else bound

/-- Seal the active memtable into the read-only list and start an empty one. -/
def flushMemtable (t : LSMTree) : LSMTree :=
  let ro := ReadOnlyMemTable.ofSkipList t.memtable t.roMemtableVersion
  { t with
    maxLowerSeq := (newestSeq (ro.records.map (·.seq))).elim t.maxLowerSeq
      (noteLowerSeq t.maxLowerSeq)
    roMemtableVersion := t.roMemtableVersion + 1
    readOnlyMemtables := t.readOnlyMemtables ++ [ro]
    memtable := .withCapacity t.config.skipListCapacity }

/-- Seal the memtable first if it is due. -/
def flushIfDue (t : LSMTree) : LSMTree :=
  if t.memtable.shouldFlush t.config.compactionThresholdPercent then t.flushMemtable else t

/-- Insert a value carrying an explicit sequence. -/
def insertWithSeq (t : LSMTree) (key : Key) (value seq : ℕ) : LSMTree × Except LSMError Unit :=
  let t := t.flushIfDue
  let r := t.memtable.tryInsertWithSeq key value seq
  ({ t with memtable := r.1 },
    match r.2 with
    | .ok _ => .ok ()
    | .error .capacityExceeded => .error .capacityExceeded)

/-- Tombstone a key with an explicit sequence. -/
def deleteWithSeq (t : LSMTree) (key : Key) (seq : ℕ) : LSMTree × Except LSMError Unit :=
  let t := t.flushIfDue
  let r := t.memtable.insertTombstoneWithSeq key seq
  ({ t with memtable := r.1 },
    match r.2 with
    | .ok _ => .ok ()
    | .error .capacityExceeded => .error .capacityExceeded)

end LSMTree

/-! ### Flushing to Level 0 -/

/-- The SSTable entry of a memtable record. -/
def SStableEntry.ofRecord (r : KeyValueRecord) : SStableEntry where
  key := r.key
  keyPrefix := keyPrefixOf r.key
  value := r.value
  tombstone := r.tombstone
  seq := r.seq

/-- Write one bucket's Level-0 file for `records`, `none` when the bucket has none. -/
def writeLevel0FileForRecords (c : Crates) (numBuckets bucket : ℕ) (records : List KeyValueRecord)
    (timestamp : ℕ) : Except LSMError (Option L0FileEntry) :=
  let bucketRecords := records.filter fun r => getBucketForKey c r.key numBuckets = bucket
  if bucketRecords.isEmpty then .ok none
  else
    let sorted := bucketRecords.insertionSort fun a b => a.key ≤ b.key
    let summary := L0Summary.ofSorted c (sorted.map fun r => (r.key, r.seq))
    (writeSstable c (sorted.map .ofRecord)).map fun w =>
      let index := if w.2.isEmpty then none else some w.2
      some (.new timestamp w.1 (summary.map fun s => { s with index := index }))

/-- What the outside decides about a flush: the clock, and whether an observer or a write
fails. -/
structure FlushEnv where
  nowMs : ℕ
  onRoMemtableFlushing : Except IoKind Unit
  writeError : ℕ → Option IoKind
  onRoMemtableWritten : Except IoKind Unit

/-- Write every bucket's file, stopping at the first failure. -/
def writeLevel0Files (c : Crates) (env : FlushEnv) (numBuckets : ℕ)
    (records : List KeyValueRecord) (timestamp : ℕ) :
    List ℕ → Except LSMError (List (ℕ × L0FileEntry))
  | [] => .ok []
  | bucket :: rest =>
    match env.writeError bucket with
    | some kind => .error (.io kind)
    | none =>
      match writeLevel0FileForRecords c numBuckets bucket records timestamp with
      | .error err => .error err
      | .ok file =>
        (writeLevel0Files c env numBuckets records timestamp rest).map fun written =>
          (file.map fun f => (bucket, f)).toList ++ written

/-- Add a file to the registry, unless its name is taken. -/
def Bucket.registerLevel0File (b : Bucket) (f : L0FileEntry) : Bucket :=
  if b.level0Files.any fun e => e.createdAtMs = f.createdAtMs then b
  else { b with level0Files := b.level0Files ++ [f] }

namespace LSMTree

/-- The stamp for the next flush: above every stamp issued or found on disk. -/
def nextL0Stamp (t : LSMTree) (candidate : ℕ) : ℕ := max candidate (t.lastL0Stamp + 1)

/-- Register the files of a flush. -/
def registerLevel0Files (t : LSMTree) (written : List (ℕ × L0FileEntry)) : LSMTree :=
  { t with
    buckets := fun b =>
      match written.lookup b with
      | some f => (t.buckets b).registerLevel0File f
      | none => t.buckets b }

/-- Mark the sealed memtable of this version flushed. -/
def markFlushedToLevel0 (t : LSMTree) (version : ℕ) : LSMTree :=
  { t with
    readOnlyMemtables := t.readOnlyMemtables.map fun ro =>
      if ro.version = version then { ro with flushedToLevel0 := true } else ro }

/-- Flush the sealed memtable of the given version to Level 0: every bucket's file is
written before any is registered. -/
def flushRoMemtableToLevel0 (c : Crates) (t : LSMTree) (version : ℕ) (env : FlushEnv) :
    LSMTree × Except LSMError Unit :=
  match t.readOnlyMemtables.find? fun ro => ro.version = version with
  | none => (t, .ok ())
  | some ro =>
    if ro.flushedToLevel0 then (t, .ok ())
    else
      match env.onRoMemtableFlushing with
      | .error kind => (t, .error (.io kind))
      | .ok () =>
        let timestamp := t.nextL0Stamp (env.nowMs * 1000000 + version)
        let t := { t with lastL0Stamp := timestamp }
        match writeLevel0Files c env t.config.numBuckets ro.records timestamp
            (List.range t.config.numBuckets) with
        | .error err => (t, .error err)
        | .ok written =>
          match env.onRoMemtableWritten with
          | .error kind => (t, .error (.io kind))
          | .ok () => ((t.registerLevel0Files written).markFlushedToLevel0 version, .ok ())

end LSMTree

/-! ### Merging Level 0 into Level 1 -/

/-- The entry the merge rebuilds from an archived one. -/
def SStableEntry.ofArchived (e : SStableEntry) : SStableEntry :=
  { e with keyPrefix := keyPrefixOf e.key }

/-- Read all entries of a Level-0 file, as the merge does. -/
def readSstableEntriesFromPath (c : Crates) (file : Bytes) : Except LSMError (List SStableEntry) :=
  walk (nextSequential c file)
    (fun e acc => .next (acc ++ [.ofArchived e]))
    (file.length + 1) sstableDataStart []

/-- Read all entries of the Level-1 file. -/
def readSstableEntriesFromFile (c : Crates) (file : Bytes) : Except LSMError (List SStableEntry) :=
  walk (nextPositional c file)
    (fun e acc => .next (acc ++ [.ofArchived e]))
    (file.length + 1) sstableDataStart []

/-- A collapsed Level-0 entry as a record of the two-way merge. -/
def SStableEntry.toRecord (e : SStableEntry) : KeyValueRecord where
  key := e.key
  value := e.value
  tombstone := e.tombstone
  seq := e.seq

/-- A record against what the merge's map has at its key: the newer or equal one stays. -/
def newerRecord (record : SStableEntry) : Option SStableEntry → SStableEntry
  | none => record
  | some e => if seqNewerOrEq record.seq e.seq then record else e

/-- Fold a record into the merge's map. -/
def foldRecord (byKey : List SStableEntry) (record : SStableEntry) : List SStableEntry :=
  upsertBy SStableEntry.key record.key (newerRecord record) byKey

/-- Collapse the files, oldest first, skipping obsolete ones. -/
def collapseLevel0 (c : Crates) : List L0FileEntry → List SStableEntry →
    Except LSMError (List SStableEntry)
  | [], byKey => .ok byKey
  | entry :: entries, byKey =>
    if entry.obsolete then collapseLevel0 c entries byKey
    else
      match readSstableEntriesFromPath c entry.file with
      | .error err => .error err
      | .ok records => collapseLevel0 c entries (records.foldl foldRecord byKey)

/-- An entry the merge keeps, unless it is a tombstone. -/
def keepLive (e : SStableEntry) : List SStableEntry := if e.tombstone then [] else [e]

/-- The merge of `e :: es` with the new records, given the merge of `es` with any. -/
def mergeEntry (e : SStableEntry) (es : List SStableEntry)
    (mergeRest : List KeyValueRecord → List SStableEntry) :
    List KeyValueRecord → List SStableEntry
  | [] => (e :: es).flatMap keepLive
  | r :: rs =>
    if e.key < r.key then keepLive e ++ mergeRest (r :: rs)
    else if e.key = r.key then
      (if seqNewerOrEq r.seq e.seq then keepLive (.ofRecord r) else keepLive e) ++ mergeRest rs
    else keepLive (.ofRecord r) ++ mergeEntry e es mergeRest rs

/-- Two-way merge by key; a conflict goes to the newer or equal new record, and a winning
tombstone is dropped. -/
def twoWayMerge : List SStableEntry → List KeyValueRecord → List SStableEntry
  | [], newRecords => newRecords.flatMap fun r => keepLive (.ofRecord r)
  | e :: es, newRecords => mergeEntry e es (twoWayMerge es) newRecords

/-- What a merge publishes for its bucket. -/
structure MergedSstable where
  file : Bytes
  metadata : Option SStableMetadata
  bloom : Option BloomFilter
  index : Option SparseIndex

/-- Write the merged entries; none leave an empty file behind. -/
def writeMergedSstable (c : Crates) (entries : List SStableEntry) : Except LSMError MergedSstable :=
  match entries with
  | [] => .ok { file := [], metadata := none, bloom := some (.build c [] 0), index := none }
  | first :: rest =>
    (writeSstable c entries).map fun w =>
      { file := w.1
        metadata := some
          { minKey := first.key
            maxKey := ((first :: rest).getLast (List.cons_ne_nil first rest)).key
            entryCount := entries.length
            maxSeq := newestSeq (entries.map (·.seq)) }
        bloom := some (.build c (entries.map (·.key)) entries.length)
        index := if w.2.isEmpty then none else some w.2 }

namespace Bucket

/-- The publication steps of a merge, in the order in which they take effect. -/
def installFile (b : Bucket) (m : MergedSstable) : Bucket := { b with sstableFile := m.file }

def publishMetadata (b : Bucket) (m : MergedSstable) : Bucket :=
  { b with sstableMetadata := m.metadata }

def publishBloom (b : Bucket) (m : MergedSstable) : Bucket := { b with sstableBloom := m.bloom }

def publishIndex (b : Bucket) (m : MergedSstable) : Bucket := { b with sstableIndex := m.index }

/-- Mark the files of the snapshot obsolete. -/
def markObsolete (b : Bucket) (snapshot : List ℕ) : Bucket :=
  { b with
    level0Files := b.level0Files.map fun e =>
      if e.createdAtMs ∈ snapshot then { e with obsolete := true } else e }

/-- Publish a merge of the snapshot. -/
def publish (b : Bucket) (m : MergedSstable) (snapshot : List ℕ) : Bucket :=
  ((((b.installFile m).publishMetadata m).publishBloom m).publishIndex m).markObsolete snapshot

/-- The registry as a merge snapshots it. -/
def level0EntriesSnapshot (b : Bucket) : List ℕ := b.level0Files.map (·.createdAtMs)

/-- The files of a snapshot, oldest first. -/
def snapshotFiles (b : Bucket) (snapshot : List ℕ) : List L0FileEntry :=
  oldestFirst (b.level0Files.filter fun e => e.createdAtMs ∈ snapshot)

/-- Read the inputs of a merge and write its output, `none` when there is nothing to merge. -/
def prepareMerge (c : Crates) (b : Bucket) (snapshot : List ℕ) :
    Except LSMError (Option MergedSstable) :=
  match collapseLevel0 c (b.snapshotFiles snapshot) [] with
  | .error err => .error err
  | .ok byKey =>
    if byKey.isEmpty then .ok none
    else
      let level0Records := byKey.map SStableEntry.toRecord
      match readSstableEntriesFromFile c b.sstableFile with
      | .error err => .error err
      | .ok level1Entries =>
        (writeMergedSstable c (twoWayMerge level1Entries level0Records)).map some

/-- Merge the files of a snapshot into Level 1. -/
def mergeSnapshot (c : Crates) (b : Bucket) (snapshot : List ℕ) : Bucket × Except LSMError Unit :=
  match b.prepareMerge c snapshot with
  | .error err => (b, .error err)
  | .ok none => (b, .ok ())
  | .ok (some m) => (b.publish m snapshot, .ok ())

end Bucket

namespace LSMTree

/-- Replace one bucket. -/
def setBucket (t : LSMTree) (bucket : ℕ) (b : Bucket) : LSMTree :=
  { t with buckets := Function.update t.buckets bucket b }

/-- Merge a bucket's Level-0 files, as a snapshot lists them, into its Level-1 file. -/
def mergeLevel0ToLevel1From (c : Crates) (t : LSMTree) (bucket : ℕ) (snapshot : List ℕ) :
    LSMTree × Except LSMError Unit :=
  let r := (t.buckets bucket).mergeSnapshot c snapshot
  (t.setBucket bucket r.1, r.2)

/-- Merge all Level-0 files of a bucket into its Level-1 file. -/
def mergeLevel0ToLevel1 (c : Crates) (t : LSMTree) (bucket : ℕ) : LSMTree × Except LSMError Unit :=
  t.mergeLevel0ToLevel1From c bucket (t.buckets bucket).level0EntriesSnapshot

/-! ### Clean-up -/

/-- Unlink the obsolete files nobody reads. -/
def cleanupObsoleteLevel0Files (t : LSMTree) : LSMTree :=
  { t with
    buckets := fun b =>
      { t.buckets b with
        level0Files := (t.buckets b).level0Files.filter fun e =>
          !(e.obsolete && e.readerCount == 0) } }

/-- Drop the sealed memtables that have been flushed; one still being read is set aside. -/
def deferOldMemtablesCleanup (t : LSMTree) : LSMTree :=
  let old := t.readOnlyMemtables.filter fun ro => ro.version < t.roMemtableVersion
  let new := t.readOnlyMemtables.filter fun ro => ¬ ro.version < t.roMemtableVersion
  { t with
    readOnlyMemtables := old.filter (fun ro => !ro.flushedToLevel0) ++ new
    pendingOldMemtables := t.pendingOldMemtables ++
      old.filter fun ro => ro.flushedToLevel0 && ro.readerCount != 0 }

end LSMTree

end Minnal
