import Minnal.Db.WalProgress

/-!
# The vector index WAL

The vector worker's writes skip the main WAL and are logged in a log of their own. An append
registers the write as **in flight** before the log publishes its new tail, then raises the end of
the namespace's latest record, and only then is the write applied to the memtable and released. A
record is **retired** once the memtable that holds it is in level 0: a seal records the
namespace's ceiling, and the written event of the memtable raises the namespace's **safe offset**
to it and saves a **marker** with the cut and the safe offsets above it, before the level-0 files
are registered. When the marker cannot be saved the event fails, and the files are deleted again.

The code is cut where it takes a lock. A crash keeps the synced part of the log, and any further
part up to some position; the open that follows rebuilds what is tracked from the marker and the
log, replays each namespace's records from where the marker says, flushes them and retires them.

A marker is written to a file beside the old one, which is renamed over it, and the directory is
synced. The rename may take effect and the sync fail (`Outcome.halfway`).
-/

set_option linter.dupNamespace false

namespace Minnal

open StepRun

namespace VectorWal

open SegmentedLog (Progress)
open WalProgress (walCutCeiling)

/-! ### Records -/

/-- Where the write of a record stands. -/
inductive Stage where
  /-- Registered as in flight; the tail is not published yet. -/
  | appended
  | published
  /-- The namespace is tracked up to the record. -/
  | tracked
  /-- In the memtable of this version. -/
  | applied (version : ℕ)
  /-- Found in the log or in level 0 by an open. -/
  | found
  deriving DecidableEq

/-- The write is in a memtable. -/
def Stage.isApplied : Stage → Bool
  | .applied _ => true
  | _ => false

/-- A logged write, at bytes `[start, stop)`. -/
structure Logged where
  seq : ℕ
  ns : ℕ
  start : ℕ
  stop : ℕ
  stage : Stage
  /-- Whether its writer still holds the registration. -/
  registered : Bool
  /-- Whether a level-0 file that an open would register holds the write. -/
  stored : Bool
  /-- Whether the log still has the record. -/
  inLog : Bool
  deriving DecidableEq

/-! ### Retirement -/

/-- A seal record: the namespace's ceiling at the seal, and whether the memtable is in level 0. -/
structure PendingFlush where
  ceiling : ℕ
  flushed : Bool
  deriving DecidableEq

/-- Seal records by namespace and memtable version. -/
abbrev Seals := AList fun _ : ℕ × ℕ => PendingFlush

/-- A namespace's seal records in version order. -/
def sealsOf (seals : Seals) (ns : ℕ) : List (ℕ × PendingFlush) :=
  ((seals.entries.filter fun e => decide (e.1.1 = ns)).map fun e => (e.1.2, e.2)).insertionSort
    fun a b => a.1 ≤ b.1

/-- The records that a flush completes: a namespace's versions up to the first that is not
flushed. -/
def fold (seals : Seals) (ns : ℕ) : List (ℕ × PendingFlush) :=
  (sealsOf seals ns).takeWhile fun e => e.2.flushed

/-- The highest ceiling of the records. -/
def highest (folded : List (ℕ × PendingFlush)) : ℕ :=
  (folded.map fun e => e.2.ceiling).foldl max 0

/-- Mark a memtable's seal record as flushed, made with no ceiling if it is not there. -/
def markFlushed (seals : Seals) (ns version : ℕ) : Seals :=
  seals.insert (ns, version)
    { (seals.lookup (ns, version)).getD ⟨0, false⟩ with flushed := true }

/-- Take the mark back; a record that was made for it goes. -/
def unmark (seals : Seals) (ns version : ℕ) (recorded : Bool) : Seals :=
  if recorded then
    match seals.lookup (ns, version) with
    | some p => seals.insert (ns, version) { p with flushed := false }
    | none => seals
  else seals.erase (ns, version)

/-- Without the records of these keys. -/
def eraseAll (seals : Seals) (keys : List (ℕ × ℕ)) : Seals :=
  keys.foldl (fun m k => m.erase k) seals

/-! ### Seals, flushes and events under way -/

/-- A seal that holds the memtable's lock. -/
inductive Sealing where
  /-- The memtable of this version is swapped out and visible to flushes. -/
  | swapped (version : ℕ)
  | tailRead (version tail : ℕ)
  deriving DecidableEq

def Sealing.version : Sealing → ℕ
  | .swapped v => v
  | .tailRead v _ => v

/-- A flush of a namespace's oldest memtable that is not flushed. -/
inductive Flushing where
  /-- The log is durable up to the namespace's latest record. -/
  | checked
  /-- The level-0 files are durable. -/
  | written
  /-- The written event is under way. -/
  | reporting
  deriving DecidableEq

/-- What the holder of the retirement lock saves the marker for. -/
inductive Job where
  /-- A written event: whether there was a seal record, the versions it completes and the safe
  offset before. -/
  | written (ns version : ℕ) (recorded : Bool) (folded : List ℕ) (before : Option ℕ)
  /-- A namespace was dropped. -/
  | forget
  deriving DecidableEq

/-- How far it has got. -/
inductive Phase where
  | marked
  | tailRead (tail : ℕ)
  | ceiling (ceiling : ℕ)
  | computed (next : Progress)
  | done
  | failed
  deriving DecidableEq

structure Event where
  job : Job
  phase : Phase
  deriving DecidableEq

/-- How saving a marker ends. -/
inductive Outcome where
  | ok
  | failed
  /-- It fails after its rename took effect. -/
  | halfway
  deriving DecidableEq

/-- The log, its retirement, the memtables and everything under way. -/
structure Sys where
  /-- An open is replaying the log. -/
  recovering : Bool
  /-- The records, the oldest first. -/
  log : List Logged
  /-- The published tail. -/
  tail : ℕ
  durable : ℕ
  /-- The end of each tracked namespace's latest record. -/
  lastWrite : AList fun _ : ℕ => ℕ
  seals : Seals
  forgotten : List ℕ
  safe : AList fun _ : ℕ => ℕ
  /-- What the marker on disk says, as far as the log knows. -/
  written : Progress
  retiredCut : ℕ
  /-- The marker that the open read. -/
  openedProgress : Progress
  /-- The marker on disk. -/
  marker : Progress
  /-- Namespaces removed from the registry. -/
  dropped : List ℕ
  /-- The version of each namespace's active memtable. -/
  version : ℕ → ℕ
  /-- Memtables of lower version are registered in level 0. -/
  flushed : ℕ → ℕ
  sealing : ℕ → Option Sealing
  flushing : ℕ → Option Flushing
  event : Option Event

namespace Sys

variable (s : Sys)

/-- The record of this sequence. -/
def find (seq : ℕ) : Option Logged := s.log.find? fun r => decide (r.seq = seq)

/-- Replace the record of this sequence. -/
def set (r : Logged) : Sys :=
  { s with log := s.log.map fun a => if a.seq = r.seq then r else a }

def setSealing (ns : ℕ) (x : Option Sealing) : Sys :=
  { s with sealing := Function.update s.sealing ns x }

def setFlushing (ns : ℕ) (x : Option Flushing) : Sys :=
  { s with flushing := Function.update s.flushing ns x }

@[simp] theorem sealing_setSealing (ns : ℕ) (x : Option Sealing) :
    (s.setSealing ns x).sealing = Function.update s.sealing ns x := rfl

@[simp] theorem flushing_setFlushing (ns : ℕ) (x : Option Flushing) :
    (s.setFlushing ns x).flushing = Function.update s.flushing ns x := rfl

/-- The starts of the appends not yet applied, of one namespace or of all. -/
def inFlight (ns : Option ℕ) : List ℕ :=
  (s.log.filter fun r => r.registered && ns.all fun n => decide (r.ns = n)).map Logged.start

/-- Namespaces with records no flush has covered, with their safe offsets. -/
def holders : List (ℕ × ℕ) :=
  s.lastWrite.entries.filterMap fun e =>
    let safe := (s.safe.lookup e.1).getD 0
    if safe < e.2 then some (e.1, safe) else none

/-- What is saved: the lowest safe offset of a holder, capped at the ceiling, and the safe
offsets above it. The cut only moves forward. -/
def progress (ceiling : ℕ) : Progress :=
  let slowest := (s.holders.map Prod.snd).min?
  let cut := max (match slowest with
    | some safe => min safe ceiling
    | none => ceiling) s.retiredCut
  ⟨cut, ((s.safe.entries.filter fun e => decide (cut < e.2)).map fun e => (e.1, e.2)).insertionSort
    fun a b => a.1 < b.1 ∨ (a.1 = b.1 ∧ a.2 ≤ b.2)⟩

/-- Whether the flush's marker is on disk and the event is to return. -/
def retiring (ns : ℕ) : Bool :=
  match s.event with
  | some ⟨.written n _ _ _ _, .done⟩ => decide (n = ns)
  | _ => false

/-- The write is in a level-0 file that is durable and registered, or about to be. -/
def inLevel0 (r : Logged) : Bool :=
  r.stored && match r.stage with
    | .found => true
    | .applied v => decide (v < s.flushed r.ns) || (decide (v = s.flushed r.ns) && s.retiring r.ns)
    | _ => false

/-- The files of a flush are deleted, all but those of these records. -/
def unstore (ns : ℕ) (keep : List ℕ) : Sys :=
  { s with log := s.log.map fun r =>
      if r.ns = ns ∧ r.stage = .applied (s.flushed ns) ∧ r.seq ∉ keep then
        { r with stored := false } else r }

/-- The flush of the namespace's oldest memtable is over. -/
def register (ns : ℕ) : Sys :=
  { s.setFlushing ns none with flushed := Function.update s.flushed ns (s.flushed ns + 1) }

/-- A written event that is not about to fail marks its memtable, and raises the safe offset to
the highest ceiling of the versions it completes. -/
def mark (ns : ℕ) : Sys :=
  let v := s.flushed ns
  let seals := markFlushed s.seals ns v
  let folded := fold seals ns
  let before := s.safe.lookup ns
  { s.setFlushing ns (some .reporting) with
    seals := seals
    safe := s.safe.insert ns (max (before.getD 0) (highest folded))
    event := some ⟨.written ns v (s.seals.lookup (ns, v)).isSome (folded.map Prod.fst) before,
      .marked⟩ }

/-- The event returns. -/
def finish (e : Event) : Sys :=
  match e.job with
  | .written ns _ _ folded _ =>
    { s.register ns with
      seals := eraseAll s.seals (folded.map fun v => (ns, v))
      event := none }
  | .forget => { s with event := none }

/-- The event has failed. -/
def undo (e : Event) (keep : List ℕ) : Sys :=
  match e.job with
  | .written ns version recorded _ before =>
    { (s.unstore ns keep).setFlushing ns none with
      safe := match before with
        | some safe => s.safe.insert ns safe
        | none => s.safe.erase ns
      seals := unmark s.seals ns version recorded
      event := none }
  | .forget => { s with event := none }

/-- A dropped namespace is never tracked again. -/
def forget (ns : ℕ) : Sys :=
  { s with
    forgotten := ns :: s.forgotten
    lastWrite := s.lastWrite.erase ns
    seals := eraseAll s.seals (s.seals.keys.filter fun k => decide (k.1 = ns))
    safe := s.safe.erase ns
    event := some ⟨.forget, .marked⟩ }

end Sys

/-! ### Opening the log -/

/-- The end of each namespace's last record in the log at or above the cut. -/
def lastEnds (cut : ℕ) (log : List Logged) : AList fun _ : ℕ => ℕ :=
  (log.filter fun r => r.inLog && decide (cut ≤ r.start)).foldl
    (fun m r => m.insert r.ns (max ((m.lookup r.ns).getD r.stop) r.stop)) ∅

/-- Those with a record above where their replay starts. -/
def unretired (p : Progress) (log : List Logged) : List (ℕ × ℕ) :=
  ((lastEnds p.cut log).entries.map fun e => (e.1, e.2)).filter fun e =>
    decide (p.replayFrom e.1 < e.2)

/-- The log as an open finds it, with a marker. -/
def opened (log : List Logged) (tail : ℕ) (p : Progress) (dropped : List ℕ) : Sys where
  recovering := true
  log := log
  tail := tail
  durable := tail
  lastWrite := (unretired p log).foldl (fun m e => m.insert e.1 e.2) ∅
  seals := ∅
  forgotten := []
  safe := (unretired p log).foldl
    (fun m e => if (m.lookup e.1).isSome then m else m.insert e.1 (p.replayFrom e.1))
    (p.safe.foldl (fun m e => m.insert e.1 e.2) ∅)
  written := p
  retiredCut := p.cut
  openedProgress := p
  marker := p
  dropped := dropped
  version := fun _ => 0
  flushed := fun _ => 0
  sealing := fun _ => none
  flushing := fun _ => none
  event := none

/-- A new log. -/
def init : Sys := opened [] SegmentedLog.segmentHeaderLen ⟨0, []⟩ []

namespace Sys

variable (s : Sys)

/-- A record as an open finds it, when the log has kept everything below `kept`. -/
def survivor (kept : ℕ) (r : Logged) : Logged :=
  { r with stage := .found, registered := false, inLog := r.inLog && decide (r.stop ≤ kept) }

/-- The process stops, the log keeps everything below `kept`, and it is opened again. -/
def reopen (kept gap : ℕ) : Sys :=
  opened ((s.log.filter fun r => r.stored || (r.inLog && decide (r.stop ≤ kept))).map
    (survivor kept)) (max kept s.marker.furthest + gap) s.marker s.dropped

/-- Replay applies the record. -/
def replays (r : Logged) : Bool :=
  r.inLog && decide (r.ns ∉ s.dropped ∧ s.openedProgress.replayFrom r.ns ≤ r.start)

/-- The namespaces that recovery flushes. -/
def holding : List ℕ := (s.holders.map Prod.fst).filter fun ns => decide (ns ∉ s.dropped)

/-- Everything replayed into the namespaces that recovery flushes is in level 0. -/
def replayFlushed : Bool :=
  s.log.all fun r => !(s.replays r && decide (r.ns ∈ s.holding)) || r.stored

/-- The namespaces that recovery has flushed are safe up to the tail. -/
def raised : Sys :=
  { s with
    safe := s.holding.foldl (fun m ns => m.insert ns (max ((m.lookup ns).getD 0) s.tail)) s.safe }

/-- What is visible after recovery, from level 0 and from the replay. -/
def visible : List Logged :=
  s.log.filter fun r => decide (r.ns ∉ s.dropped) && (r.stored || s.replays r)

end Sys

/-! ### Steps -/

/-- One step of a writer, a sync, a seal, a flush, a drop, the log's collector or an open. -/
inductive Act where
  | append (ns seq start len : ℕ)
  | publish (seq : ℕ)
  | track (seq : ℕ)
  | apply (seq : ℕ)
  | release (seq : ℕ)
  | sync (upTo : ℕ)
  | swap (ns : ℕ)
  | sealReadTail (ns : ℕ)
  | sealRecord (ns : ℕ)
  | flushCheck (ns : ℕ)
  | store (seq : ℕ)
  | written (ns : ℕ)
  /-- The flush fails before its written event; the files of these records stay. -/
  | abandon (ns : ℕ) (keep : List ℕ)
  | mark (ns : ℕ)
  | readTail
  | readInFlight
  | compute
  /-- The marker on disk says the same already. -/
  | skip
  | save (outcome : Outcome)
  | finish
  | undo (keep : List ℕ)
  | drop (ns : ℕ)
  | forget (ns : ℕ)
  | collect (upTo : ℕ)
  | crash (kept gap : ℕ)
  | retire
  /-- Saving the marker at the end of recovery fails, and the open with it. -/
  | retireFails (renamed : Bool) (kept gap : ℕ)
  deriving DecidableEq

/-- The marker of a written event or of a drop does not fail after its rename took effect. -/
def Act.careful : Act → Bool
  | .save .halfway => false
  | _ => true

/-- One step, where it is enabled. -/
def step (s : Sys) : Act → Option Sys
  | .append ns seq start len =>
    -- one append at a time holds the log's lock; a rotation may leave a gap before the frame
    if s.recovering = false ∧ (∀ r ∈ s.log, r.stage ≠ .appended ∧ r.seq ≠ seq) ∧ s.tail ≤ start ∧
        0 < len then
      some { s with
        log := s.log ++ [⟨seq, ns, start, start + len, .appended, true, false, true⟩] }
    else none
  | .publish seq =>
    match s.find seq with
    | some r =>
      if r.stage = .appended then
        some { s.set { r with stage := .published } with tail := r.stop }
      else none
    | none => none
  | .track seq =>
    match s.find seq with
    | some r =>
      if r.stage = .published then
        some { s.set { r with stage := .tracked } with
          lastWrite :=
            if r.ns ∈ s.forgotten then s.lastWrite
            else s.lastWrite.insert r.ns (max ((s.lastWrite.lookup r.ns).getD r.stop) r.stop) }
      else none
    | none => none
  | .apply seq =>
    match s.find seq with
    | some r =>
      -- the memtable's lock is free
      if r.stage = .tracked ∧ s.sealing r.ns = none then
        some (s.set { r with stage := .applied (s.version r.ns) })
      else none
    | none => none
  | .release seq =>
    match s.find seq with
    | some r =>
      -- the store of a dropped namespace may be gone
      if r.stage.isApplied = true ∨ (r.stage = .tracked ∧ r.ns ∈ s.dropped) then
        some (s.set { r with registered := false })
      else none
    | none => none
  | .sync upTo =>
    if upTo ≤ s.tail then some { s with durable := max s.durable upTo } else none
  | .swap ns =>
    if s.recovering = false ∧ s.sealing ns = none then
      some { s.setSealing ns (some (.swapped (s.version ns))) with
        version := Function.update s.version ns (s.version ns + 1) }
    else none
  | .sealReadTail ns =>
    match s.sealing ns with
    | some (.swapped v) =>
      some (s.setSealing ns
        (if (s.lastWrite.lookup ns).isSome then some (.tailRead v s.tail) else none))
    | _ => none
  | .sealRecord ns =>
    match s.sealing ns with
    | some (.tailRead v tail) =>
      some { s.setSealing ns none with
        seals :=
          if (s.seals.lookup (ns, v)).isSome then s.seals
          else s.seals.insert (ns, v) ⟨walCutCeiling tail (s.inFlight (some ns)), false⟩ }
    | _ => none
  | .flushCheck ns =>
    -- memtables are flushed in version order; the log was synced if it had to be
    if s.flushing ns = none ∧ s.flushed ns < s.version ns ∧
        (s.lastWrite.lookup ns).all (fun last => decide (last ≤ s.durable)) = true then
      some (s.setFlushing ns (some .checked))
    else none
  | .store seq =>
    match s.find seq with
    | some r =>
      if (s.flushing r.ns = some .checked ∧ r.stage = .applied (s.flushed r.ns)) ∨
          (s.recovering = true ∧ s.replays r = true) then
        some (s.set { r with stored := true })
      else none
    | none => none
  | .written ns =>
    if s.flushing ns = some .checked ∧
        ∀ r ∈ s.log, r.ns = ns → r.stage = .applied (s.flushed ns) → r.stored = true then
      some (s.setFlushing ns (some .written))
    else none
  | .abandon ns keep =>
    if s.flushing ns = some .checked ∨ s.flushing ns = some .written then
      some ((s.unstore ns keep).setFlushing ns none)
    else none
  | .mark ns =>
    if s.flushing ns = some .written ∧ s.event = none then
      if (s.lastWrite.lookup ns).isSome then some (s.mark ns)
      else some { s.register ns with seals := s.seals.erase (ns, s.flushed ns) }
    else none
  | .readTail =>
    match s.event with
    | some ⟨job, .marked⟩ => some { s with event := some ⟨job, .tailRead s.tail⟩ }
    | _ => none
  | .readInFlight =>
    match s.event with
    | some ⟨job, .tailRead tail⟩ =>
      some { s with event := some ⟨job, .ceiling (walCutCeiling tail (s.inFlight none))⟩ }
    | _ => none
  | .compute =>
    match s.event with
    | some ⟨job, .ceiling c⟩ => some { s with event := some ⟨job, .computed (s.progress c)⟩ }
    | _ => none
  | .skip =>
    match s.event with
    | some ⟨job, .computed next⟩ =>
      if next = s.written then some { s with event := some ⟨job, .done⟩ } else none
    | _ => none
  | .save outcome =>
    match s.event with
    | some ⟨job, .computed next⟩ =>
      if next = s.written then none
      else match outcome with
        | .ok => some { s with
            marker := next, written := next, retiredCut := next.cut, event := some ⟨job, .done⟩ }
        | .failed => some { s with event := some ⟨job, .failed⟩ }
        | .halfway => some { s with marker := next, event := some ⟨job, .failed⟩ }
    | _ => none
  | .finish =>
    match s.event with
    | some ⟨job, .done⟩ => some (s.finish ⟨job, .done⟩)
    | _ => none
  | .undo keep =>
    match s.event with
    | some ⟨job, .failed⟩ => some (s.undo ⟨job, .failed⟩ keep)
    | _ => none
  | .drop ns => if s.recovering = false then some { s with dropped := ns :: s.dropped } else none
  | .forget ns => if ns ∈ s.dropped ∧ s.event = none then some (s.forget ns) else none
  | .collect upTo =>
    if upTo ≤ s.retiredCut then
      some { s with log := s.log.map fun r => if r.stop ≤ upTo then { r with inLog := false } else r }
    else none
  | .crash kept gap => if s.durable ≤ kept then some (s.reopen kept gap) else none
  | .retire =>
    if s.recovering = true ∧ s.event = none ∧ s.replayFlushed = true then
      let next := s.raised.progress s.tail
      if s.holding = [] then some { s with recovering := false }
      else if next = s.written then some { s.raised with recovering := false }
      else some { s.raised with
        recovering := false, marker := next, written := next, retiredCut := next.cut }
    else none
  | .retireFails renamed kept gap =>
    if s.recovering = true ∧ s.event = none ∧ s.replayFlushed = true ∧ s.durable ≤ kept then
      some ({ s with marker := if renamed then s.raised.progress s.tail else s.marker }.reopen
        kept gap)
    else none

end VectorWal

end Minnal
