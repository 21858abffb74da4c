import Minnal.Library.SortedMap
import Minnal.ValueLog.Record

/-!
# One bucket's value log

A bucket's values live in a series of **segment files**, of which the newest, the active tail,
is appended to. A record that does not fit into the tail starts a new segment, and segment ids
are handed out in ascending order and never again. For every segment the log counts how many of
its bytes the index still points at and how many a newer write has displaced.

`ValueLog.openLog` takes what exists from the files and the counts from the **metadata file**, where
a crash may have left an older state of it or none at all. A segment whose length is not the
counted one is taken to be all live, and the log is flagged so that the counts are rebuilt from
the index.
-/

set_option linter.dupNamespace false

namespace Minnal

open ByteCodec SortedMap CrashDisk

namespace ValueLog

/-- Live and garbage accounting for one segment. -/
structure SegmentStats where
  id : ℕ
  /-- Record bytes written into the segment. -/
  totalBytes : ℕ
  /-- Bytes still referenced by the index, as tracked by writers. -/
  liveBytes : ℕ
  /-- Bytes displaced by an overwrite or a delete. -/
  garbageBytes : ℕ
  sealed : Bool
  deriving DecidableEq, Repr

/-- Durable per-bucket state. -/
structure ValueLogMetadata where
  nextSegmentId : ℕ
  segments : List SegmentStats
  deriving DecidableEq, Repr

def ValueLogMetadata.new : ValueLogMetadata := ⟨1, []⟩

/-- What is found in the place of the metadata file. -/
inductive MetadataFile where
  | absent
  | corrupt
  | saved (m : ValueLogMetadata)
  deriving DecidableEq, Repr

/-- A bucket's directory: its segment files in id order, and its metadata file. -/
structure Dir where
  files : List (ℕ × List UInt8)
  metadata : MetadataFile

namespace Dir

def file (dir : Dir) (id : ℕ) : Option (List UInt8) := (findBy Prod.fst id dir.files).map Prod.snd

/-- Replace or create a segment file. -/
def put (dir : Dir) (id : ℕ) (content : List UInt8) : Dir :=
  { dir with files := upsertBy Prod.fst id (fun _ => (id, content)) dir.files }

/-- Record bytes of each segment file. -/
def onDisk (dir : Dir) : List (ℕ × ℕ) := dir.files.map fun x => (x.1, x.2.length - segmentHeaderSize)

end Dir

/-- Smallest, largest and aligned segment sizes. -/
def validateSegmentSize (segmentSize : ℕ) : Except ValueLogError Unit :=
  if segmentSize < 64 * 1024 ∨ 2 ^ 32 - 1 < segmentSize ∨ segmentSize % 4096 ≠ 0 then
    .error (.invalidSegmentSize segmentSize)
  else .ok ()

/-- The file header of a segment. -/
def segmentHeader (id : ℕ) : List UInt8 :=
  [0x56, 0x53, 0x47, 0x31] ++ leBytes 4 1 ++ leBytes 4 id ++ leBytes 4 0

/-- Change the counts of one segment. -/
def modifyStats (id : ℕ) (f : SegmentStats → SegmentStats) (segments : List SegmentStats) :
    List SegmentStats :=
  segments.map fun s => if s.id = id then f s else s

/-- Put in the counts of one segment. -/
def insertStats (s : SegmentStats) (segments : List SegmentStats) : List SegmentStats :=
  upsertBy SegmentStats.id s.id (fun _ => s) segments

end ValueLog

open ValueLog

/-- One bucket's value log: its directory, the segment inventory and the tail it appends to. -/
structure ValueLog where
  segmentSize : ℕ
  dir : Dir
  nextSegmentId : ℕ
  segments : List SegmentStats
  activeId : ℕ
  /-- Offset in the active segment where the next record goes. -/
  activeOffset : ℕ
  /-- How far into the active segment is known to be on stable storage. -/
  syncedOffset : ℕ
  verifyChecksumsOnRead : Bool
  /-- Counts could not be loaded and must be recomputed from the index. -/
  statsNeedRebuild : Bool

namespace ValueLog

variable (crc32 : List UInt8 → UInt32)

/-! ### Appending -/

/-- Make an empty segment the active one. -/
def startSegment (log : ValueLog) (id : ℕ) : ValueLog :=
  { log with
    dir := log.dir.put id (segmentHeader id)
    segments := insertStats ⟨id, 0, 0, 0, false⟩ log.segments
    activeId := id
    activeOffset := segmentHeaderSize
    syncedOffset := segmentHeaderSize }

/-- Seal the tail and allocate the next segment id. -/
def sealTail (log : ValueLog) : ValueLog :=
  { log with
    segments := modifyStats log.activeId (fun s => { s with sealed := true }) log.segments
    nextSegmentId := log.nextSegmentId + 1 }

/-- Seal the tail and open a fresh segment as the new one. -/
def rollActiveSegment (log : ValueLog) : ValueLog := log.sealTail.startSegment log.nextSegmentId

/-- Roll if the record does not fit into the tail. -/
def makeRoom (log : ValueLog) (recordLen : ℕ) : ValueLog :=
  if log.segmentSize < log.activeOffset + recordLen then log.rollActiveSegment else log

/-- Write a record at the tail. -/
def writeRecord (log : ValueLog) (r : Record) (sync : Bool) : ValueLog :=
  let file := (log.dir.file log.activeId).getD []
  { log with
    dir := log.dir.put log.activeId (writeAt file log.activeOffset (r.bytes crc32))
    activeOffset := log.activeOffset + r.len
    syncedOffset := if sync then log.activeOffset + r.len else log.syncedOffset
    segments := modifyStats log.activeId (fun s =>
      { s with totalBytes := s.totalBytes + r.len, liveBytes := s.liveBytes + r.len }) log.segments }

/-- Append a record, rolling to a new segment if the tail is full. -/
def append (log : ValueLog) (r : Record) (sync : Bool) :
    Except ValueLogError (ValueLog × ValueLocation) :=
  if log.segmentSize < segmentHeaderSize + r.len then
    .error (.valueTooLarge r.len log.segmentSize)
  else
    let log := log.makeRoom r.len
    .ok (log.writeRecord crc32 r sync, ⟨log.activeId, log.activeOffset, r.value.length⟩)

/-- Append records one after the other, with the locations of those that are accepted. -/
def appendAll (log : ValueLog) :
    List (Record × Bool) → ValueLog × List (Record × ValueLocation)
  | [] => (log, [])
  | (r, sync) :: rest =>
    match log.append crc32 r sync with
    | .error _ => log.appendAll rest
    | .ok (log', location) =>
      let (last, stored) := log'.appendAll rest
      (last, (r, location) :: stored)

/-- Account for a record that a newer write or a delete has displaced. -/
def noteDisplaced (log : ValueLog) (location : ValueLocation) (keyLen : ℕ) : ValueLog :=
  if location.segmentId = 0 then log
  else
    let bytes := ValueRecordHeader.recordLen keyLen location.valueLen
    let displace : SegmentStats → SegmentStats := fun s =>
      { s with liveBytes := s.liveBytes - bytes, garbageBytes := s.garbageBytes + bytes }
    { log with segments := modifyStats location.segmentId displace log.segments }

/-- Make every record appended so far durable. -/
def sync (log : ValueLog) : ValueLog := { log with syncedOffset := log.activeOffset }

/-! ### Reading -/

def segmentFile (log : ValueLog) (id : ℕ) : Except ValueLogError (List UInt8) :=
  match log.dir.file id with
  | some file => .ok file
  | none => .error (.segmentMissing id)

/-- A record's value and its metadata. -/
def readValueAndMeta (log : ValueLog) (location : ValueLocation) :
    Except ValueLogError (List UInt8 × ValueRecordMeta) :=
  if location.segmentId = 0 then .error .invalidLocation
  else
    match log.segmentFile location.segmentId with
    | .error e => .error e
    | .ok file => readValueFromFile crc32 log.verifyChecksumsOnRead file location

/-- A record's metadata only: a read of its header. -/
def readRecordMeta (log : ValueLog) (location : ValueLocation) :
    Except ValueLogError ValueRecordMeta :=
  if location.segmentId = 0 then .error .invalidLocation
  else
    match log.segmentFile location.segmentId with
    | .error e => .error e
    | .ok file =>
      match ValueRecordHeader.fromBytes (readAt file location.recOffset ValueRecordHeader.size) with
      | none => .error .corruptedLog
      | some header => .ok header.info

/-- Every record of a segment in write order. -/
def forEachRecord (log : ValueLog) (segmentId : ℕ) :
    Except ValueLogError (List (Record × ValueLocation)) :=
  match log.segmentFile segmentId with
  | .error e => .error e
  | .ok file => forEachRecordIn file segmentId

/-! ### Metadata -/

def metadataSnapshot (log : ValueLog) : ValueLogMetadata := ⟨log.nextSegmentId, log.segments⟩

def flushMetadata (log : ValueLog) : ValueLog :=
  { log with dir := { log.dir with metadata := .saved log.metadataSnapshot } }

/-- Replace the counts by a recomputation: `live` says how many bytes of a segment the index
points at. -/
def rebuildStats (log : ValueLog) (live : ℕ → ℕ) : ValueLog :=
  { log with
    segments := log.segments.map fun s =>
      { s with
        liveBytes := min (live s.id) s.totalBytes
        garbageBytes := s.totalBytes - min (live s.id) s.totalBytes }
    statsNeedRebuild := false }

/-! ### Opening -/

/-- The counts last saved, and whether they are to be trusted. -/
def loadMetadata (dir : Dir) : ValueLogMetadata × Bool :=
  match dir.metadata with
  | .saved m => (m, true)
  | .corrupt => (.new, false)
  | .absent => (.new, dir.files.isEmpty)

/-- A segment taken to be all live. -/
def allLive (id total : ℕ) (sealed : Bool) : SegmentStats := ⟨id, total, total, 0, sealed⟩

/-- Counts survive for a segment whose file is there and has the counted length. -/
def keepStats (onDisk : List (ℕ × ℕ)) (acc : List SegmentStats × Bool) (s : SegmentStats) :
    List SegmentStats × Bool :=
  match findBy Prod.fst s.id onDisk with
  | none => acc
  | some x =>
    if s.totalBytes = x.2 then (insertStats s acc.1, acc.2)
    else (insertStats (allLive s.id x.2 s.sealed) acc.1, true)

/-- A file without counts is taken to be all live. -/
def addUnknown (acc : List SegmentStats × Bool) (x : ℕ × ℕ) : List SegmentStats × Bool :=
  if (findBy SegmentStats.id x.1 acc.1).isSome then acc
  else (insertStats (allLive x.1 x.2 true) acc.1, true)

/-- The counts for what is on disk, and whether they must be rebuilt. -/
def reconcile (onDisk : List (ℕ × ℕ)) (persisted : List SegmentStats) : List SegmentStats × Bool :=
  onDisk.foldl addUnknown (persisted.foldl (keepStats onDisk) ([], false))

/-- The counts of a reused tail of `newTotal` record bytes, and whether they were wrong. -/
def fixTail (id newTotal : ℕ) (segments : List SegmentStats) : List SegmentStats × Bool :=
  (modifyStats id (fun s => if s.totalBytes = newTotal then s
      else { s with totalBytes := newTotal, liveBytes := newTotal, garbageBytes := 0 }) segments,
    (findBy SegmentStats.id id segments).any fun s => decide (s.totalBytes ≠ newTotal))

/-- Exactly the active segment is unsealed; counts that need a rebuild are not saved. -/
def finishOpen (log : ValueLog) : ValueLog :=
  let log := { log with segments := log.segments.map fun s =>
    { s with sealed := decide (s.id ≠ log.activeId) } }
  if log.statsNeedRebuild then log else log.flushMetadata

/-- Open the value log of a bucket. -/
def openLog (dir : Dir) (segmentSize : ℕ) : Except ValueLogError ValueLog :=
  match validateSegmentSize segmentSize with
  | .error e => .error e
  | .ok () =>
    let (persisted, statsLoaded) := loadMetadata dir
    -- an unreadable metadata file is moved aside
    let dir := if dir.metadata = .corrupt then { dir with metadata := .absent } else dir
    let (segments, flagged) := reconcile dir.onDisk persisted.segments
    let needRebuild := !statsLoaded || flagged
    let maxExisting := (dir.files.getLast?.map Prod.fst).getD 0
    let nextId := max (max persisted.nextSegmentId (maxExisting + 1)) 1
    let base : ValueLog :=
      { segmentSize := segmentSize
        dir := dir
        nextSegmentId := nextId
        segments := segments
        activeId := 0
        activeOffset := segmentHeaderSize
        syncedOffset := segmentHeaderSize
        verifyChecksumsOnRead := false
        statsNeedRebuild := needRebuild }
    match dir.files.getLast?.filter fun x => decide
        (segmentHeaderSize + (x.2.length - segmentHeaderSize) < segmentSize) with
    | some (id, file) =>
      let physicalLen := segmentHeaderSize + (file.length - segmentHeaderSize)
      match validRecordEnd file physicalLen with
      | .error e => .error e
      | .ok validEnd =>
        let (segments, wrong) := fixTail id (validEnd - segmentHeaderSize) segments
        .ok { base with
          dir := if validEnd < physicalLen then dir.put id (file.take validEnd) else dir
          segments := segments
          activeId := id
          activeOffset := validEnd
          syncedOffset := validEnd
          statsNeedRebuild := needRebuild || wrong }.finishOpen
    | none =>
      .ok ({ base with nextSegmentId := nextId + 1 }.startSegment nextId).finishOpen

end ValueLog

end Minnal
