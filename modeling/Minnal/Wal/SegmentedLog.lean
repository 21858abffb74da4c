import Minnal.Library.CrashDisk
import Minnal.Library.StepRun
import Minnal.Wal.SegmentFormat

/-!
# The segmented log

A log is a directory of segments with contiguous ids. Appends go to the last, **active**
segment; a full segment is sealed with the end marker and fsynced before the next one is
created, header first. `openLog` reads the directory after a restart: every earlier segment
must end in its marker, the last one is read up to where its records end, everything past that
point is zeroed, and if the saved progress names a position further on, the segment is sealed
and a new one started, so that new records land above every such position.

An operation is a list of system calls (`CrashDisk.Step`) and what it returns. `step` runs
an operation whole, or cuts it off after any of its calls with a power loss, so a run is any
sequence of operations, crashes and reopens. Next to the log a run carries what the log is
supposed to hold: the records (`Sys.records`) and the position below which they are committed.
-/

set_option linter.dupNamespace false

namespace Minnal

open ByteCodec CrashDisk

namespace SegmentedLog

/-! ### Errors and progress -/

inductive LogError where
  | segmentMissing (segmentId : ℕ)
  | cutBelowOldest (cut oldest : ℕ)
  | noProgressSaved (oldest : ℕ)
  | shorterThanHeader (segmentId : ℕ)
  | noHeader (segmentId : ℕ)
  | wrongVersion (segmentId version : ℕ)
  | wrongSegment (segmentId held : ℕ)
  | notSealed (segmentId : ℕ)
  | damaged (segmentId byte : ℕ)
  | endsUnexpectedly (segmentId : ℕ)
  | progressPastLast (furthest segmentId : ℕ)
  | segmentIdsExhausted
  | recordTooLarge (len max : ℕ)
  deriving DecidableEq, Repr

/-- Where reading starts at an open. -/
structure OpenFrom where
  /-- Records below it are never read again; none when no progress was ever saved. -/
  cut : Option ℕ
  /-- The furthest position the saved progress names. -/
  furthest : ℕ

/-- Saved retirement progress: the cut, and offsets of namespaces that are further. -/
structure Progress where
  cut : ℕ
  safe : List (ℕ × ℕ)
  deriving DecidableEq

namespace Progress

/-- The positions the progress names. -/
def named (p : Progress) : List ℕ := p.cut :: p.safe.map Prod.snd

/-- Where replay starts for a namespace; `safe` is sorted by namespace. -/
def replayFrom (p : Progress) (ns : ℕ) : ℕ :=
  match p.safe.find? fun e => decide (e.1 = ns) with
  | some e => max e.2 p.cut
  | none => p.cut

/-- The furthest position the progress names. -/
def furthest (p : Progress) : ℕ := (p.safe.map Prod.snd).foldl max p.cut

def openFrom : Option Progress → OpenFrom
  | none => ⟨none, 0⟩
  | some p => ⟨some p.cut, p.furthest⟩

theorem le_furthest (p : Progress) : ∀ x ∈ p.named, x ≤ p.furthest := by
  have hfold : ∀ (l : List ℕ) (a : ℕ), a ≤ l.foldl max a ∧ ∀ x ∈ l, x ≤ l.foldl max a := by
    intro l
    induction l with
    | nil => exact fun a => ⟨le_rfl, by simp⟩
    | cons b l ih =>
      intro a
      obtain ⟨hinit, hmem⟩ := ih (max a b)
      refine ⟨(le_max_left a b).trans hinit, fun x hx => ?_⟩
      rcases List.mem_cons.mp hx with rfl | hx
      · exact (le_max_right a x).trans hinit
      · exact hmem x hx
  intro x hx
  rcases List.mem_cons.mp hx with rfl | hx
  · exact (hfold _ _).1
  · exact (hfold _ _).2 x hx

end Progress

variable (k : LogKind)

/-! ### Opening -/

/-- Check a segment's header. -/
def checkHeader (file : List UInt8) (segmentId : ℕ) : Except LogError Unit :=
  let version := leNat (readAt file 4 4)
  let id := leNat (readAt file 8 8)
  if readAt file 0 4 ≠ k.format.magic then .error (.noHeader segmentId)
  else if version ≠ k.format.version then .error (.wrongVersion segmentId version)
  else if id ≠ segmentId then .error (.wrongSegment segmentId id)
  else .ok ()

/-- Whether a segment's header is all zeros. -/
def headerIsBlank (file : List UInt8) : Bool := (readAt file 0 segmentHeaderLen).all (· == 0)

def checkSegmentId (segmentId : ℕ) : Except LogError Unit :=
  if 2 ^ 32 ≤ segmentId then .error .segmentIdsExhausted else .ok ()

/-- Create a segment with its header, at its full size. -/
def createSegment (segmentId size : ℕ) : List Step :=
  [.create segmentId, .write segmentId 0 (headerBytes k segmentId), .setLen segmentId size,
    .sync segmentId, .syncDir]

/-- Zero every byte from the tail to the end of the file. -/
def zeroPast (segmentId pos len segmentSize : ℕ) : List Step :=
  (if pos < len then [Step.setLen segmentId pos] else []) ++
    [Step.setLen segmentId (max len segmentSize)]

/-- The end marker of a sealed segment, when it lies at or below `start`. -/
def sealedAtOrBelow (file : List UInt8) (start : ℕ) : Option ℕ :=
  let w := walkSegment k file segmentHeaderLen (min (start + endMarkerLen) file.length)
  if w.stop = .sealed ∧ w.pos ≤ start then some w.pos else none

/-- A walk's records at their positions, those at or above the cut. -/
def visitFromCut (cut segmentId : ℕ) (records : List (ℕ × List UInt8)) : List (ℕ × List UInt8) :=
  (records.map fun r => (position segmentId r.1, r.2)).filter fun r => decide (cut ≤ r.1)

/-- Where reading starts in a segment. -/
def startIn (cut segmentId : ℕ) : ℕ :=
  if segmentId = segmentOf cut then max (byteOf cut) segmentHeaderLen else segmentHeaderLen

/-- Read one sealed segment: complete, ending in the end marker. -/
def walkSealed (cut segmentId : ℕ) (file : List UInt8) :
    Except LogError (List (ℕ × List UInt8)) :=
  if file.length < segmentHeaderLen then .error (.shorterThanHeader segmentId)
  else
    match checkHeader k file segmentId with
    | .error e => .error e
    | .ok () =>
      if segmentId < segmentOf cut then .ok []
      else
        let start := startIn cut segmentId
        let w := walkSegment k file start file.length
        match w.stop with
        | .sealed => .ok (visitFromCut cut segmentId w.records)
        | .unwritten =>
          -- unwritten space where reading starts, past the end marker
          if (sealedAtOrBelow k file start).isSome ∧ w.pos = start ∧ segmentHeaderLen < start then
            .ok (visitFromCut cut segmentId w.records)
          else .error (.notSealed segmentId)
        | .torn _ => .error (.damaged segmentId w.pos)

def walkAllSealed (cut : ℕ) : List (ℕ × List UInt8) → Except LogError (List (ℕ × List UInt8))
  | [] => .ok []
  | (id, file) :: files =>
    match walkSealed k cut id file with
    | .error e => .error e
    | .ok visited => (walkAllSealed cut files).map fun more => visited ++ more

/-- An open log: the size of new segments, the active segment and its next byte. -/
structure Log where
  segmentSize : ℕ
  segmentId : ℕ
  pos : ℕ
  deriving DecidableEq

/-- Position of the next append. -/
def Log.tail (log : Log) : ℕ := position log.segmentId log.pos

/-- What an open found. -/
structure Opened where
  log : Log
  visited : List (ℕ × List UInt8)
  /-- Where the records found end. -/
  recordsEnd : ℕ
  tornBytesDropped : ℕ

/-- What is known once the last segment is read: the active segment, where its records end,
and so on. -/
structure LastRead where
  segmentId : ℕ
  pos : ℕ
  visited : List (ℕ × List UInt8)
  recordsEnd : ℕ
  tornBytesDropped : ℕ

/-- Read the last segment, in full, and make it ready for appends. -/
def readLast (segmentSize cut : ℕ) : Option (ℕ × List UInt8) →
    List Step × Except LogError LastRead
  | none => (createSegment k 0 segmentSize, .ok ⟨0, segmentHeaderLen, [], segmentHeaderLen, 0⟩)
  | some (id, file) =>
    if file.length < segmentHeaderLen ∨ headerIsBlank file = true then
      match checkSegmentId id with
      | .error e => ([], .error e)
      | .ok () => (createSegment k id segmentSize,
          .ok ⟨id, segmentHeaderLen, [], position id segmentHeaderLen,
            min file.length segmentHeaderLen⟩)
    else
      match checkHeader k file id with
      | .error e => ([], .error e)
      | .ok () =>
        let w := walkSegment k file segmentHeaderLen file.length
        let visited := visitFromCut cut id w.records
        match w.stop with
        | .unwritten => (zeroPast id w.pos file.length segmentSize,
            .ok ⟨id, w.pos, visited, position id w.pos, 0⟩)
        | .torn bytes => (zeroPast id w.pos file.length segmentSize,
            .ok ⟨id, w.pos, visited, position id w.pos, bytes⟩)
        | .sealed =>
          -- a crash after sealing, before the next segment existed
          match checkSegmentId (id + 1) with
          | .error e => ([], .error e)
          | .ok () => (createSegment k (id + 1) segmentSize,
              .ok ⟨id + 1, segmentHeaderLen, visited, position id w.pos, 0⟩)

/-- Move past every position the saved progress names. -/
def passFurthest (segmentSize furthest : ℕ) (r : LastRead) : List Step × Except LogError LastRead :=
  if r.segmentId < segmentOf furthest then ([], .error (.progressPastLast furthest r.segmentId))
  else if position r.segmentId r.pos < furthest then
    match checkSegmentId (r.segmentId + 1) with
    | .error e => ([.write r.segmentId r.pos endMarkerBytes, .sync r.segmentId], .error e)
    | .ok () =>
      ([.write r.segmentId r.pos endMarkerBytes, .sync r.segmentId] ++
        createSegment k (r.segmentId + 1) segmentSize,
        .ok { r with segmentId := r.segmentId + 1, pos := segmentHeaderLen })
  else ([], .ok r)

/-- Segments in id order, without gaps, starting where the progress says. -/
def checkSegments (cut : Option ℕ) (files : List (ℕ × List UInt8)) : Except LogError Unit :=
  match (files.zip files.tail).find? fun w => decide (w.2.1 ≠ w.1.1 + 1) with
  | some w => .error (.segmentMissing (w.1.1 + 1))
  | none =>
    match cut, files.head? with
    | some cut, some oldest =>
      if segmentOf cut < oldest.1 then .error (.cutBelowOldest cut oldest.1) else .ok ()
    | none, some oldest => if 0 < oldest.1 then .error (.noProgressSaved oldest.1) else .ok ()
    | _, none => .ok ()

/-- Open the log: the system calls made and what is returned. -/
def openLog (found : List (ℕ × List UInt8)) (segmentSize : ℕ) (openFrom : OpenFrom) :
    List Step × Except LogError Opened :=
  let segmentSize := max segmentSize minSegmentSize
  let files := found.insertionSort fun a b => a.1 ≤ b.1
  let cut := openFrom.cut.getD 0
  match checkSegments openFrom.cut files with
  | .error e => ([], .error e)
  | .ok () =>
    match walkAllSealed k cut files.dropLast with
    | .error e => ([], .error e)
    | .ok visited =>
      match readLast k segmentSize cut files.getLast? with
      | (steps, .error e) => (steps, .error e)
      | (steps, .ok r) =>
        let steps := steps ++ [.sync r.segmentId]
        match passFurthest k segmentSize openFrom.furthest r with
        | (more, .error e) => (steps ++ more, .error e)
        | (more, .ok active) =>
          (steps ++ more, .ok ⟨⟨segmentSize, active.segmentId, active.pos⟩, visited ++ r.visited,
            r.recordsEnd, r.tornBytesDropped⟩)

/-! ### Appending, committing, reading -/

namespace Log

/-- The largest framed record a segment holds. -/
def maxFrameLen (log : Log) : ℕ := log.segmentSize - segmentHeaderLen - endMarkerLen

/-- Seal the active segment and start the next; `prepared` if that was zero-filled ahead. -/
def rotate (log : Log) (prepared : Bool) : List Step × Except LogError Log :=
  let sealing := [.write log.segmentId log.pos endMarkerBytes, .sync log.segmentId]
  let next := log.segmentId + 1
  match checkSegmentId next with
  | .error e => (sealing, .error e)
  | .ok () =>
    (sealing ++ (if prepared then
      [.install next (resize (headerBytes k next) log.segmentSize), .syncDir]
      else createSegment k next log.segmentSize),
      .ok { log with segmentId := next, pos := segmentHeaderLen })

/-- Rotate if the frame does not fit, then find where it goes. -/
def makeRoom (log : Log) (body : List UInt8) (prepared : Bool) : List Step × Except LogError Log :=
  let frameLen := frameHeaderLen + body.length
  if log.maxFrameLen < frameLen then ([], .error (.recordTooLarge frameLen log.maxFrameLen))
  else if log.segmentSize < log.pos + frameLen + endMarkerLen then log.rotate k prepared
  else ([], .ok log)

/-- The log after a frame was written. -/
def advance (log : Log) (body : List UInt8) : Log :=
  { log with pos := log.pos + (frameHeaderLen + body.length) }

end Log

/-- One segment's part of a read of `[start, stop)`: the records handed over and how it ends. -/
def readSegment (start stop segmentId : ℕ) (file : List UInt8) :
    List (ℕ × List UInt8) × Except LogError Unit :=
  match checkHeader k file segmentId with
  | .error e => ([], .error e)
  | .ok () =>
    let from_ := startIn start segmentId
    let limit := if segmentId = segmentOf stop then min (byteOf stop) file.length else file.length
    let w := walkSegment k file from_ limit
    (w.records.map fun r => (position segmentId r.1, r.2), match w.stop with
      | .sealed => .ok ()
      | .unwritten =>
        if segmentId = segmentOf stop ∨ (w.pos = from_ ∧ segmentHeaderLen < from_ ∧
            (sealedAtOrBelow k file from_).isSome) then .ok ()
        else .error (.endsUnexpectedly segmentId)
      | .torn _ => .error (.damaged segmentId w.pos))

/-- Read the segments in turn, up to the first that fails. -/
def readSegments (files : List (ℕ × List UInt8)) (start stop : ℕ) :
    List ℕ → List (ℕ × List UInt8) × Except LogError Unit
  | [] => ([], .ok ())
  | id :: ids =>
    let read := match files.find? fun x : ℕ × List UInt8 => decide (x.1 = id) with
      | some x => readSegment k start stop id x.2
      | none =>
        -- retired and deleted: skipped up to the oldest segment
        match files.head? with
        | some oldest => if id < oldest.1 then ([], .ok ()) else ([], .error (.segmentMissing id))
        | none => ([], .error (.segmentMissing id))
    match read with
    | (records, .error e) => (records, .error e)
    | (records, .ok ()) =>
      let more := readSegments files start stop ids
      (records ++ more.1, more.2)

/-- Every record in `[start, stop)`, in log order: those handed over and how the read ends. -/
def forEach (found : List (ℕ × List UInt8)) (start stop : ℕ) :
    List (ℕ × List UInt8) × Except LogError Unit :=
  if stop ≤ start then ([], .ok ())
  else readSegments k (found.insertionSort fun a b => a.1 ≤ b.1) start stop
    (List.range' (segmentOf start) (segmentOf stop + 1 - segmentOf start))

/-! ### Runs -/

/-- An operation on the log. -/
inductive Op where
  | openLog (segmentSize : ℕ)
  | append (body : List UInt8) (prepared : Bool)
  /-- An append that fails: `written` bytes of the frame are in the file. -/
  | failAppend (body : List UInt8) (prepared : Bool) (written : ℕ)
  | commit

/-- After so many of its calls, what the operation commits is durable. -/
def Op.settled : Op → ℕ
  | .openLog _ => 0
  | .append _ _ => 2
  | .failAppend _ _ _ => 2
  | .commit => 1

/-- The log on its disk, the progress saved beside it, and what the log is supposed to hold:
the records appended (and not lost), and the position below which they are committed. -/
structure Sys where
  disk : Disk
  log : Option Log
  saved : Option Progress
  records : List (ℕ × List UInt8)
  committed : ℕ

/-- Nothing on the disk. -/
def Sys.init : Sys := ⟨[], none, none, [], 0⟩

/-- An operation that returns without an error: its system calls and the state it leaves. -/
def exec (s : Sys) : Op → Option (List Step × Sys)
  | .openLog segmentSize =>
    if s.log.isSome ∨ 2 ^ 32 ≤ segmentSize then none
    else
      match openLog k (files s.disk) segmentSize (Progress.openFrom s.saved) with
      | (_, .error _) => none
      | (steps, .ok opened) =>
        some (steps, { s with
          disk := applyAll s.disk steps
          log := some opened.log
          records := s.records.filter fun r => decide (r.1 < opened.recordsEnd)
          committed := opened.log.tail })
  | .append body prepared =>
    if body = [] then none
    else
      s.log.bind fun log =>
        match log.makeRoom k body prepared with
        | (_, .error _) => none
        | (steps, .ok room) =>
          let steps := steps ++ [.write room.segmentId room.pos (frameBytes k body)]
          some (steps, { s with
            disk := applyAll s.disk steps
            log := some (room.advance body)
            records := s.records ++ [(room.tail, body)]
            committed := if room = log then s.committed else log.tail })
  | .failAppend body prepared written =>
    if frameHeaderLen + body.length ≤ written then none
    else
      s.log.bind fun log =>
        match log.makeRoom k body prepared with
        | (_, .error _) => none
        | (steps, .ok room) =>
          let steps := steps ++ [.write room.segmentId room.pos ((frameBytes k body).take written)]
          some (steps, { s with
            disk := applyAll s.disk steps
            log := some room
            committed := if room = log then s.committed else log.tail })
  | .commit =>
    s.log.map fun log =>
      ([.sync log.segmentId],
        { s with disk := applyAll s.disk [.sync log.segmentId], committed := log.tail })

/-- What a run does next. -/
inductive Act where
  | run (op : Op)
  /-- A power loss after so many of an operation's calls; before the first call of a commit,
  the log is idle. -/
  | crash (op : Op) (calls : ℕ) (images : List (ℕ × List UInt8))
  | save (p : Progress)

/-- The frame at a byte of a file holds this record. -/
def frameAt (file : List UInt8) (r : ℕ × List UInt8) : Bool :=
  match nextFrame k (file.drop r.1) with
  | .ok (body, _) => decide (body = r.2)
  | .error _ => false

/-- **The checksum detects damage**: a frame the walk of an image accepts was in the file as a
whole at some time since its last fsync. -/
def undamaged (d : Disk) (images : List (ℕ × List UInt8)) : Bool :=
  images.all fun x => (walkSegment k x.2 segmentHeaderLen x.2.length).records.all fun r =>
    d.any fun y => decide (y.1 = x.1) && y.2.contents.any fun c => frameAt k c r

/-- A position saved progress may name: where a segment or a record starts, the tail, or a
position named before. -/
def Sys.nameable (s : Sys) (log : Log) (pos : ℕ) : Bool :=
  decide (pos ≤ log.tail) && (decide (byteOf pos ≤ segmentHeaderLen) || decide (pos = log.tail) ||
    s.records.any (fun r => decide (r.1 = pos)) ||
    s.saved.any fun p => decide (pos ∈ p.named))

/-- One step of a run. -/
def step (s : Sys) : Act → Option Sys
  | .run op => (exec k s op).map Prod.snd
  | .crash op calls images =>
    (exec k s op).bind fun (steps, done) =>
      let disk := applyAll s.disk (steps.take calls)
      if survivors segmentHeaderLen disk images && undamaged k disk images then
        some { done with
          disk := restart images
          log := none
          committed := if calls < op.settled then s.committed else done.committed }
      else none
  | .save p =>
    s.log.bind fun log =>
      if p.named.all (s.nameable log) then some { s with saved := some p } else none

end SegmentedLog

end Minnal
