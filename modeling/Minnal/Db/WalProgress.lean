import Minnal.Wal.SegmentedLog

/-!
# Retirement of the main WAL

A write of a namespace is appended to the log and applied to the namespace's memtable; once the
memtable is in level 0 the log no longer needs it. The **observer** keeps how far each namespace
has got, its safe offset, and the **cut** below which the whole log is retired, and saves both:
after a crash, recovery replays what lies at or above them.

The code is cut where it takes a lock. A writer appends and registers its write as in flight, notes
it in the namespace's progress, fsyncs, applies it and drops the registration. A seal swaps the
memtable and then, in two reads, finds the **ceiling**: the tail, lowered to the oldest write in
flight. A flush writes the level-0 files, reads a ceiling of its own for the case that there is no
seal record yet, and then, holding the persist lock, marks its record, clones the progress, reads
the ceiling again, saves and commits or aborts. A memtable is named by its version; the active
one of a namespace is the next version.
-/

set_option linter.dupNamespace false

namespace Minnal

open StepRun Function

namespace WalProgress

open SegmentedLog (Progress)

/-! ### Writes -/

/-- How far a write has got. -/
inductive Stage where
  | appended
  | noted
  | synced
  /-- In the memtable of this version. -/
  | applied (version : ℕ)
  /-- Applying failed on every attempt; the caller is told that the write succeeded. -/
  | failed
  /-- The namespace's store is gone. -/
  | refused
  deriving DecidableEq

/-- A write in the log, at bytes `[start, stop)`. A value of none is a delete. -/
structure Logged where
  ns : ℕ
  key : List UInt8
  value : Option (List UInt8)
  start : ℕ
  stop : ℕ
  stage : Stage
  /-- Whether its writer still holds the in-flight registration. -/
  registered : Bool
  deriving DecidableEq

/-! ### The observer -/

/-- How far one namespace's writes have made it onto disk. -/
structure NsFlushProgress where
  safeOffset : ℕ
  lastWriteOffset : ℕ
  deriving DecidableEq

namespace NsFlushProgress

def default : NsFlushProgress := ⟨0, 0⟩

def hasUnflushed (p : NsFlushProgress) : Bool := decide (p.safeOffset < p.lastWriteOffset)

end NsFlushProgress

/-- The progress of all namespaces, a hash map. -/
abbrev NsProgress := List (ℕ × NsFlushProgress)

/-- Change a namespace's entry, made if it is not there. -/
def entry (ns : ℕ) (f : NsFlushProgress → NsFlushProgress) : NsProgress → NsProgress
  | [] => [(ns, f .default)]
  | (n, p) :: rest => if n = ns then (n, f p) :: rest else (n, p) :: entry ns f rest

/-- A seal record: the ceiling when the memtable was sealed, and whether it is in level 0. -/
structure WalFlushState where
  ns : ℕ
  version : ℕ
  tail : ℕ
  flushed : Bool
  deriving DecidableEq

/-- The tail, lowered to exclude every write in flight. -/
def walCutCeiling (tail : ℕ) (inFlight : List ℕ) : ℕ :=
  match inFlight.min? with
  | some oldest => min tail oldest
  | none => tail

/-- The lowest safe offset among namespaces with unflushed writes, capped at the ceiling and
never below the cut that is live. -/
def computeCut (progress : NsProgress) (ceiling cut : ℕ) : ℕ :=
  let slowest := ((progress.filter fun e => e.2.hasUnflushed).map fun e => e.2.safeOffset).min?
  max (match slowest with
    | some offset => min offset ceiling
    | none => ceiling) cut

/-- What is saved for a progress: the cut, and the safe offsets above it by namespace. -/
def progressSnapshot (progress : NsProgress) (ceiling cut : ℕ) : Progress :=
  let cut := computeCut progress ceiling cut
  ⟨cut, ((progress.filter fun e => decide (cut < e.2.safeOffset)).map fun e =>
    (e.1, e.2.safeOffset)).insertionSort fun a b => a.1 < b.1 ∨ (a.1 = b.1 ∧ a.2 ≤ b.2)⟩

/-! ### Seals, flushes and saves under way -/

/-- A seal that holds the memtable's lock. -/
inductive Sealing where
  /-- The memtable of this version is swapped out and visible to flushes. -/
  | swapped (version : ℕ)
  | tailRead (version tail : ℕ)
  | ceiling (version ceiling : ℕ)
  deriving DecidableEq

namespace Sealing

def version : Sealing → ℕ
  | swapped v => v
  | tailRead v _ => v
  | ceiling v _ => v

end Sealing

/-- A flush of a namespace's oldest memtable that is not flushed. -/
inductive Flushing where
  /-- Its level-0 files are durable. -/
  | written
  | tailRead (tail : ℕ)
  | ceiling (ceiling : ℕ)
  /-- It holds the persist lock. -/
  | preparing
  deriving DecidableEq

/-- What a save is for. -/
inductive Job where
  /-- A flush: whether it found no seal record, the records it completes, the new safe offset
  and the progress before. -/
  | written (ns version : ℕ) (fresh : Bool) (folded : List (ℕ × ℕ)) (newSafe : ℕ)
      (previous : Progress)
  /-- A namespace was dropped. -/
  | forget
  deriving DecidableEq

/-- Where the holder of the persist lock is. -/
inductive Saving where
  | marked (job : Job)
  | cloned (job : Job) (progress : NsProgress)
  | tailRead (job : Job) (progress : NsProgress) (tail : ℕ)
  | computed (job : Job) (snapshot : Progress)
  | saved (job : Job) (snapshot : Progress)
  deriving DecidableEq

/-- The log, the observer, the memtables and everything under way. -/
structure Sys where
  tail : ℕ
  log : List Logged
  /-- The starts of writes in flight, each as often as it is registered. -/
  inFlight : List ℕ
  progress : NsProgress
  pending : List WalFlushState
  /-- The cut and safe offsets in memory. -/
  live : Progress
  /-- The cut and safe offsets on disk. -/
  saved : Progress
  /-- Namespaces removed from the registry. -/
  dropped : List ℕ
  /-- The version of each namespace's active memtable. -/
  version : ℕ → ℕ
  /-- Memtables of lower version are flushed. -/
  flushed : ℕ → ℕ
  sealing : ℕ → Option Sealing
  flushing : ℕ → Option Flushing
  saving : Option Saving
  poisoned : Bool

/-- The database after an open: no write waits for a flush, and the log's tail is at or above
every position the saved progress names and past the first segment's header. -/
def opened (p : Progress) (past : ℕ) : Sys where
  tail := max p.furthest SegmentedLog.segmentHeaderLen + past
  log := []
  inFlight := []
  progress := []
  pending := []
  live := p
  saved := p
  dropped := []
  version := fun _ => 0
  flushed := fun _ => 0
  sealing := fun _ => none
  flushing := fun _ => none
  saving := none
  poisoned := false

namespace Sys

/-- The write is in level-0 files that are durable. -/
def inLevel0 (s : Sys) (w : Logged) : Bool :=
  match w.stage with
  | .applied v =>
    decide (v < s.flushed w.ns) || (decide (v = s.flushed w.ns) && (s.flushing w.ns).isSome)
  | _ => false

/-- The write that starts at `start`. -/
def find (s : Sys) (start : ℕ) : Option Logged := s.log.find? fun w => decide (w.start = start)

/-- Replace the write that starts at `start`. -/
def set (s : Sys) (start : ℕ) (w : Logged) : Sys :=
  { s with log := s.log.map fun a => if a.start = start then w else a }

def move (s : Sys) (w : Logged) (stage : Stage) : Sys := s.set w.start { w with stage := stage }

def setSealing (s : Sys) (ns : ℕ) (x : Option Sealing) : Sys :=
  { s with sealing := Function.update s.sealing ns x }

def setFlushing (s : Sys) (ns : ℕ) (x : Option Flushing) : Sys :=
  { s with flushing := Function.update s.flushing ns x }

@[simp] theorem sealing_setSealing_self (s : Sys) (ns : ℕ) (x : Option Sealing) :
    (s.setSealing ns x).sealing ns = x :=
  update_self ..

@[simp] theorem sealing_setSealing_of_ne (s : Sys) {ns ns' : ℕ} (h : ns' ≠ ns)
    (x : Option Sealing) : (s.setSealing ns x).sealing ns' = s.sealing ns' :=
  update_of_ne h ..

@[simp] theorem flushing_setFlushing_self (s : Sys) (ns : ℕ) (x : Option Flushing) :
    (s.setFlushing ns x).flushing ns = x :=
  update_self ..

@[simp] theorem flushing_setFlushing_of_ne (s : Sys) {ns ns' : ℕ} (h : ns' ≠ ns)
    (x : Option Flushing) : (s.setFlushing ns x).flushing ns' = s.flushing ns' :=
  update_of_ne h ..

/-- The seal record of a memtable. -/
def sealRecord (s : Sys) (ns version : ℕ) : Option WalFlushState :=
  s.pending.find? fun r => decide (r.ns = ns ∧ r.version = version)

/-- Take the flush mark of a memtable back. -/
def withdraw (s : Sys) (ns version : ℕ) (fresh : Bool) : Sys :=
  { s with pending :=
      if fresh then s.pending.filter fun r => decide (¬ (r.ns = ns ∧ r.version = version))
      else s.pending.map fun r =>
        if r.ns = ns ∧ r.version = version then { r with flushed := false } else r }

/-- A flush is undone: its level-0 files are deleted and the memtable is kept. -/
def undo (s : Sys) (ns version : ℕ) (fresh : Bool) : Sys :=
  { (s.withdraw ns version fresh).setFlushing ns none with saving := none }

end Sys

/-- Recovery replays a write whose namespace is registered and that lies at or above where the
saved progress says. -/
def Sys.replays (s : Sys) (w : Logged) : Bool :=
  decide (w.ns ∉ s.dropped ∧ s.saved.replayFrom w.ns ≤ w.start)

/-- The writes a crash and a reopen leave: those in level 0, and those replayed from the log,
which has kept everything below `durable`. -/
def Sys.reopened (s : Sys) (durable : ℕ) : List Logged :=
  s.log.filter fun w => s.inLevel0 w || (decide (w.stop ≤ durable) && s.replays w)

/-- One step of a writer, a seal, a flush or a drop. -/
inductive Act where
  | append (ns : ℕ) (key : List UInt8) (value : Option (List UInt8)) (start len : ℕ)
  | note (start : ℕ)
  | sync (start : ℕ)
  | apply (start : ℕ)
  | failApply (start : ℕ)
  | refuse (start : ℕ)
  | release (start : ℕ)
  | swap (ns : ℕ)
  | sealReadTail (ns : ℕ)
  | sealReadInFlight (ns : ℕ)
  | sealRecord (ns : ℕ)
  | writeLevel0 (ns : ℕ)
  | flushReadTail (ns : ℕ)
  | flushReadInFlight (ns : ℕ)
  | abandon (ns : ℕ)
  | mark (ns : ℕ)
  | clone
  | readTail
  | readInFlight
  | save (ok : Bool)
  | commit
  | abort (ok : Bool)
  | drop (ns : ℕ)
  | forget (ns : ℕ)
  deriving DecidableEq

/-- The step with which an apply fails. -/
def Act.fails : Act → Bool
  | .failApply _ => true
  | _ => false

/-- The seal records of a namespace that a flush completes, in version order. -/
def fold (pending : List WalFlushState) (ns : ℕ) : List WalFlushState :=
  ((pending.filter fun r => decide (r.ns = ns)).insertionSort fun a b => a.version ≤ b.version)
    |>.takeWhile fun r => r.flushed

/-- Mark a memtable's record as flushed, made if it is not there. -/
def markFlushed (pending : List WalFlushState) (ns version ceiling : ℕ) : List WalFlushState :=
  if pending.any fun r => decide (r.ns = ns ∧ r.version = version) then
    pending.map fun r =>
      if r.ns = ns ∧ r.version = version then
        { r with tail := if r.tail = 0 then ceiling else r.tail, flushed := true }
      else r
  else pending ++ [⟨ns, version, ceiling, true⟩]

/-- What the holder of the persist lock clones. -/
def Job.raise (job : Job) (progress : NsProgress) : NsProgress :=
  match job with
  | .written ns _ _ _ newSafe _ =>
    if 0 < newSafe then
      entry ns (fun p => { p with safeOffset := max p.safeOffset newSafe }) progress
    else progress
  | .forget => progress

/-- One step, where it is enabled. -/
def step (s : Sys) : Act → Option Sys
  | .append ns key value start len =>
    -- a rotation may leave a gap before the frame
    if s.tail ≤ start ∧ 0 < len ∧ s.poisoned = false then
      some { s with
        tail := start + len
        log := s.log ++ [⟨ns, key, value, start, start + len, .appended, true⟩]
        inFlight := start :: s.inFlight }
    else none
  | .note start =>
    match s.find start with
    | some w =>
      if w.stage = .appended then
        some { s.move w .noted with
          progress := entry w.ns
            (fun p => { p with lastWriteOffset := max p.lastWriteOffset w.stop }) s.progress }
      else none
    | none => none
  | .sync start =>
    match s.find start with
    | some w => if w.stage = .noted then some (s.move w .synced) else none
    | none => none
  | .apply start =>
    match s.find start with
    | some w =>
      -- the memtable's lock is free
      if w.stage = .synced ∧ s.sealing w.ns = none then
        some (s.move w (.applied (s.version w.ns)))
      else none
    | none => none
  | .failApply start =>
    match s.find start with
    | some w => if w.stage = .synced then some (s.move w .failed) else none
    | none => none
  | .refuse start =>
    match s.find start with
    | some w =>
      if w.stage = .synced ∧ w.ns ∈ s.dropped then some (s.move w .refused) else none
    | none => none
  | .release start =>
    match s.find start with
    | some w =>
      if w.stage ≠ .appended ∧ w.stage ≠ .noted ∧ w.stage ≠ .synced ∧ w.registered = true then
        some { s.set start { w with registered := false } with inFlight := s.inFlight.erase start }
      else none
    | none => none
  | .swap ns =>
    if s.sealing ns = none then
      some { s.setSealing ns (some (.swapped (s.version ns))) with
        version := Function.update s.version ns (s.version ns + 1) }
    else none
  | .sealReadTail ns =>
    match s.sealing ns with
    | some (.swapped v) => some (s.setSealing ns (some (.tailRead v s.tail)))
    | _ => none
  | .sealReadInFlight ns =>
    match s.sealing ns with
    | some (.tailRead v tail) =>
      some (s.setSealing ns (some (.ceiling v (walCutCeiling tail s.inFlight))))
    | _ => none
  | .sealRecord ns =>
    match s.sealing ns with
    | some (.ceiling v c) =>
      some { s.setSealing ns none with
        pending := match s.sealRecord ns v with
          | some _ => s.pending
          | none => s.pending ++ [⟨ns, v, c, false⟩] }
    | _ => none
  | .writeLevel0 ns =>
    -- memtables are flushed in version order
    if s.flushing ns = none ∧ s.flushed ns < s.version ns then
      some (s.setFlushing ns (some .written))
    else none
  | .flushReadTail ns =>
    match s.flushing ns with
    | some .written => some (s.setFlushing ns (some (.tailRead s.tail)))
    | _ => none
  | .flushReadInFlight ns =>
    match s.flushing ns with
    | some (.tailRead tail) =>
      some (s.setFlushing ns (some (.ceiling (walCutCeiling tail s.inFlight))))
    | _ => none
  | .abandon ns =>
    -- the value log could not be synced
    match s.flushing ns with
    | some .written => some (s.setFlushing ns none)
    | _ => none
  | .mark ns =>
    match s.flushing ns, s.saving with
    | some (.ceiling c), none =>
      let v := s.flushed ns
      let pending := markFlushed s.pending ns v c
      let folded := fold pending ns
      some { s.setFlushing ns (some .preparing) with
        pending := pending
        saving := some (.marked (.written ns v (s.sealRecord ns v).isNone
          (folded.map fun r => (r.ns, r.version)) ((folded.map fun r => r.tail).foldl max 0)
          s.live)) }
    | _, _ => none
  | .clone =>
    match s.saving with
    | some (.marked job) => some { s with saving := some (.cloned job (job.raise s.progress)) }
    | _ => none
  | .readTail =>
    match s.saving with
    | some (.cloned job progress) =>
      some { s with saving := some (.tailRead job progress s.tail) }
    | _ => none
  | .readInFlight =>
    match s.saving with
    | some (.tailRead job progress tail) =>
      some { s with saving := some (.computed job
        (progressSnapshot progress (walCutCeiling tail s.inFlight) s.live.cut)) }
    | _ => none
  | .save ok =>
    match s.saving with
    | some (.computed (.written ns v fresh folded newSafe previous) snapshot) =>
      if ok then
        some { s with
          saved := snapshot
          saving := some (.saved (.written ns v fresh folded newSafe previous) snapshot) }
      else some (s.undo ns v fresh)
    | some (.computed .forget snapshot) =>
      if ok then some { s with saved := snapshot, live := snapshot, saving := none }
      else some { s with saving := none }
    | _ => none
  | .commit =>
    match s.saving with
    | some (.saved (.written ns v fresh folded newSafe previous) snapshot) =>
      some { s.setFlushing ns none with
        pending := s.pending.filter fun r => decide ((r.ns, r.version) ∉ folded)
        progress := (Job.written ns v fresh folded newSafe previous).raise s.progress
        live := snapshot
        flushed := Function.update s.flushed ns (v + 1)
        saving := none }
    | _ => none
  | .abort ok =>
    match s.saving with
    | some (.saved (.written ns v fresh _ _ previous) _) =>
      if ok then some { s.undo ns v fresh with saved := previous }
      else some { s.undo ns v fresh with poisoned := true }
    | _ => none
  | .drop ns => some { s with dropped := ns :: s.dropped }
  | .forget ns =>
    if s.saving = none ∧ ns ∈ s.dropped then
      some { s with
        progress := s.progress.filter fun e => decide (e.1 ≠ ns)
        pending := s.pending.filter fun r => decide (r.ns ≠ ns)
        saving := some (.marked .forget) }
    else none

/-- The steps, one constructor for each way a step can go. -/
inductive Step (s : Sys) : Act → Sys → Prop where
  | append {ns start len : ℕ} {key : List UInt8} {value : Option (List UInt8)}
      (hstart : s.tail ≤ start) (hlen : 0 < len) :
      Step s (.append ns key value start len) { s with
        tail := start + len
        log := s.log ++ [⟨ns, key, value, start, start + len, .appended, true⟩]
        inFlight := start :: s.inFlight }
  | note {start : ℕ} {w : Logged} (hw : s.find start = some w) (hstage : w.stage = .appended) :
      Step s (.note start) { s.move w .noted with
        progress := entry w.ns
          (fun p => { p with lastWriteOffset := max p.lastWriteOffset w.stop }) s.progress }
  | sync {start : ℕ} {w : Logged} (hw : s.find start = some w) (hstage : w.stage = .noted) :
      Step s (.sync start) (s.move w .synced)
  | apply {start : ℕ} {w : Logged} (hw : s.find start = some w) (hstage : w.stage = .synced)
      (hfree : s.sealing w.ns = none) :
      Step s (.apply start) (s.move w (.applied (s.version w.ns)))
  | failApply {start : ℕ} {w : Logged} (hw : s.find start = some w) (hstage : w.stage = .synced) :
      Step s (.failApply start) (s.move w .failed)
  | refuse {start : ℕ} {w : Logged} (hw : s.find start = some w) (hstage : w.stage = .synced)
      (hdropped : w.ns ∈ s.dropped) :
      Step s (.refuse start) (s.move w .refused)
  | release {start : ℕ} {w : Logged} (hw : s.find start = some w) (happended : w.stage ≠ .appended)
      (hnoted : w.stage ≠ .noted) (hsynced : w.stage ≠ .synced) :
      Step s (.release start)
        { s.set start { w with registered := false } with inFlight := s.inFlight.erase start }
  | swap {ns : ℕ} (hfree : s.sealing ns = none) :
      Step s (.swap ns) { s.setSealing ns (some (.swapped (s.version ns))) with
        version := Function.update s.version ns (s.version ns + 1) }
  | sealReadTail {ns v : ℕ} (hns : s.sealing ns = some (.swapped v)) :
      Step s (.sealReadTail ns) (s.setSealing ns (some (.tailRead v s.tail)))
  | sealReadInFlight {ns v tail : ℕ} (hns : s.sealing ns = some (.tailRead v tail)) :
      Step s (.sealReadInFlight ns)
        (s.setSealing ns (some (.ceiling v (walCutCeiling tail s.inFlight))))
  | sealAgain {ns v c : ℕ} {r : WalFlushState} (hns : s.sealing ns = some (.ceiling v c))
      (hr : s.sealRecord ns v = some r) :
      Step s (.sealRecord ns) (s.setSealing ns none)
  | sealRecord {ns v c : ℕ} (hns : s.sealing ns = some (.ceiling v c))
      (hr : s.sealRecord ns v = none) :
      Step s (.sealRecord ns) { s.setSealing ns none with
        pending := s.pending ++ [⟨ns, v, c, false⟩] }
  | writeLevel0 {ns : ℕ} (hfree : s.flushing ns = none) (hv : s.flushed ns < s.version ns) :
      Step s (.writeLevel0 ns) (s.setFlushing ns (some .written))
  | flushReadTail {ns : ℕ} (hns : s.flushing ns = some .written) :
      Step s (.flushReadTail ns) (s.setFlushing ns (some (.tailRead s.tail)))
  | flushReadInFlight {ns tail : ℕ} (hns : s.flushing ns = some (.tailRead tail)) :
      Step s (.flushReadInFlight ns)
        (s.setFlushing ns (some (.ceiling (walCutCeiling tail s.inFlight))))
  | abandon {ns : ℕ} (hns : s.flushing ns = some .written) :
      Step s (.abandon ns) (s.setFlushing ns none)
  | mark {ns c : ℕ} {pending folded : List WalFlushState}
      (hns : s.flushing ns = some (.ceiling c)) (hfree : s.saving = none)
      (hpending : pending = markFlushed s.pending ns (s.flushed ns) c)
      (hfolded : folded = fold pending ns) :
      Step s (.mark ns) { s.setFlushing ns (some .preparing) with
        pending := pending
        saving := some (.marked (.written ns (s.flushed ns) (s.sealRecord ns (s.flushed ns)).isNone
          (folded.map fun r => (r.ns, r.version)) ((folded.map fun r => r.tail).foldl max 0)
          s.live)) }
  | clone {job : Job} (hsaving : s.saving = some (.marked job)) :
      Step s .clone { s with saving := some (.cloned job (job.raise s.progress)) }
  | readTail {job : Job} {progress : NsProgress} (hsaving : s.saving = some (.cloned job progress)) :
      Step s .readTail { s with saving := some (.tailRead job progress s.tail) }
  | readInFlight {job : Job} {progress : NsProgress} {tail : ℕ}
      (hsaving : s.saving = some (.tailRead job progress tail)) :
      Step s .readInFlight { s with saving := some (.computed job
        (progressSnapshot progress (walCutCeiling tail s.inFlight) s.live.cut)) }
  | save {ns v newSafe : ℕ} {fresh : Bool} {folded : List (ℕ × ℕ)} {previous snapshot : Progress}
      (hsaving : s.saving =
        some (.computed (.written ns v fresh folded newSafe previous) snapshot)) :
      Step s (.save true) { s with
        saved := snapshot
        saving := some (.saved (.written ns v fresh folded newSafe previous) snapshot) }
  | failSave {ns v newSafe : ℕ} {fresh : Bool} {folded : List (ℕ × ℕ)}
      {previous snapshot : Progress}
      (hsaving : s.saving =
        some (.computed (.written ns v fresh folded newSafe previous) snapshot)) :
      Step s (.save false) (s.undo ns v fresh)
  | saveForget {snapshot : Progress} (hsaving : s.saving = some (.computed .forget snapshot)) :
      Step s (.save true) { s with saved := snapshot, live := snapshot, saving := none }
  | failSaveForget {snapshot : Progress} (hsaving : s.saving = some (.computed .forget snapshot)) :
      Step s (.save false) { s with saving := none }
  | commit {ns v newSafe : ℕ} {fresh : Bool} {folded : List (ℕ × ℕ)} {previous snapshot : Progress}
      (hsaving : s.saving = some (.saved (.written ns v fresh folded newSafe previous) snapshot)) :
      Step s .commit { s.setFlushing ns none with
        pending := s.pending.filter fun r => decide ((r.ns, r.version) ∉ folded)
        progress := (Job.written ns v fresh folded newSafe previous).raise s.progress
        live := snapshot
        flushed := Function.update s.flushed ns (v + 1)
        saving := none }
  | abort {ns v newSafe : ℕ} {fresh : Bool} {folded : List (ℕ × ℕ)} {previous snapshot : Progress}
      (hsaving : s.saving = some (.saved (.written ns v fresh folded newSafe previous) snapshot)) :
      Step s (.abort true) { s.undo ns v fresh with saved := previous }
  | failAbort {ns v newSafe : ℕ} {fresh : Bool} {folded : List (ℕ × ℕ)}
      {previous snapshot : Progress}
      (hsaving : s.saving = some (.saved (.written ns v fresh folded newSafe previous) snapshot)) :
      Step s (.abort false) { s.undo ns v fresh with poisoned := true }
  | drop {ns : ℕ} : Step s (.drop ns) { s with dropped := ns :: s.dropped }
  | forget {ns : ℕ} (hfree : s.saving = none) (hns : ns ∈ s.dropped) :
      Step s (.forget ns) { s with
        progress := s.progress.filter fun e => decide (e.1 ≠ ns)
        pending := s.pending.filter fun r => decide (r.ns ≠ ns)
        saving := some (.marked .forget) }

theorem step_cases {s t : Sys} {a : Act} (h : step s a = some t) : Step s a t := by
  cases a with
  | append ns key value start len =>
    rw [step] at h
    split_ifs at h with hguard
    obtain rfl := Option.some.inj h
    exact .append hguard.1 hguard.2.1
  | note start =>
    rw [step] at h
    split at h
    case h_1 w hw =>
      split_ifs at h with hstage
      obtain rfl := Option.some.inj h
      exact .note hw hstage
    case h_2 => cases h
  | sync start =>
    rw [step] at h
    split at h
    case h_1 w hw =>
      split_ifs at h with hstage
      obtain rfl := Option.some.inj h
      exact .sync hw hstage
    case h_2 => cases h
  | apply start =>
    rw [step] at h
    split at h
    case h_1 w hw =>
      split_ifs at h with hguard
      obtain rfl := Option.some.inj h
      exact .apply hw hguard.1 hguard.2
    case h_2 => cases h
  | failApply start =>
    rw [step] at h
    split at h
    case h_1 w hw =>
      split_ifs at h with hstage
      obtain rfl := Option.some.inj h
      exact .failApply hw hstage
    case h_2 => cases h
  | refuse start =>
    rw [step] at h
    split at h
    case h_1 w hw =>
      split_ifs at h with hguard
      obtain rfl := Option.some.inj h
      exact .refuse hw hguard.1 hguard.2
    case h_2 => cases h
  | release start =>
    rw [step] at h
    split at h
    case h_1 w hw =>
      split_ifs at h with hguard
      obtain rfl := Option.some.inj h
      exact .release hw hguard.1 hguard.2.1 hguard.2.2.1
    case h_2 => cases h
  | swap ns =>
    rw [step] at h
    split_ifs at h with hfree
    obtain rfl := Option.some.inj h
    exact .swap hfree
  | sealReadTail ns =>
    rw [step] at h
    split at h
    case h_1 v hns =>
      obtain rfl := Option.some.inj h
      exact .sealReadTail hns
    case h_2 => cases h
  | sealReadInFlight ns =>
    rw [step] at h
    split at h
    case h_1 v tail hns =>
      obtain rfl := Option.some.inj h
      exact .sealReadInFlight hns
    case h_2 => cases h
  | sealRecord ns =>
    rw [step] at h
    split at h
    case h_1 v c hns =>
      obtain rfl := Option.some.inj h
      cases hr : s.sealRecord ns v with
      | some r => exact .sealAgain hns hr
      | none => exact .sealRecord hns hr
    case h_2 => cases h
  | writeLevel0 ns =>
    rw [step] at h
    split_ifs at h with hguard
    obtain rfl := Option.some.inj h
    exact .writeLevel0 hguard.1 hguard.2
  | flushReadTail ns =>
    rw [step] at h
    split at h
    case h_1 hns =>
      obtain rfl := Option.some.inj h
      exact .flushReadTail hns
    case h_2 => cases h
  | flushReadInFlight ns =>
    rw [step] at h
    split at h
    case h_1 tail hns =>
      obtain rfl := Option.some.inj h
      exact .flushReadInFlight hns
    case h_2 => cases h
  | abandon ns =>
    rw [step] at h
    split at h
    case h_1 hns =>
      obtain rfl := Option.some.inj h
      exact .abandon hns
    case h_2 => cases h
  | mark ns =>
    rw [step] at h
    split at h
    case h_1 c hns hfree =>
      obtain rfl := Option.some.inj h
      exact .mark hns hfree rfl rfl
    case h_2 => cases h
  | clone =>
    rw [step] at h
    split at h
    case h_1 job hsaving =>
      obtain rfl := Option.some.inj h
      exact .clone hsaving
    case h_2 => cases h
  | readTail =>
    rw [step] at h
    split at h
    case h_1 job progress hsaving =>
      obtain rfl := Option.some.inj h
      exact .readTail hsaving
    case h_2 => cases h
  | readInFlight =>
    rw [step] at h
    split at h
    case h_1 job progress tail hsaving =>
      obtain rfl := Option.some.inj h
      exact .readInFlight hsaving
    case h_2 => cases h
  | save ok =>
    rw [step] at h
    split at h
    case h_1 ns v fresh folded newSafe previous snapshot hsaving =>
      split_ifs at h with hok
      · obtain rfl := Option.some.inj h
        exact hok ▸ .save hsaving
      · obtain rfl := Option.some.inj h
        exact Bool.eq_false_iff.mpr hok ▸ .failSave hsaving
    case h_2 snapshot hsaving =>
      split_ifs at h with hok
      · obtain rfl := Option.some.inj h
        exact hok ▸ .saveForget hsaving
      · obtain rfl := Option.some.inj h
        exact Bool.eq_false_iff.mpr hok ▸ .failSaveForget hsaving
    case h_3 => cases h
  | commit =>
    rw [step] at h
    split at h
    case h_1 ns v fresh folded newSafe previous snapshot hsaving =>
      obtain rfl := Option.some.inj h
      exact .commit hsaving
    case h_2 => cases h
  | abort ok =>
    rw [step] at h
    split at h
    case h_1 ns v fresh folded newSafe previous snapshot hsaving =>
      split_ifs at h with hok
      · obtain rfl := Option.some.inj h
        exact hok ▸ .abort hsaving
      · obtain rfl := Option.some.inj h
        exact Bool.eq_false_iff.mpr hok ▸ .failAbort hsaving
    case h_2 => cases h
  | drop ns =>
    obtain rfl := Option.some.inj h
    exact .drop
  | forget ns =>
    rw [step] at h
    split_ifs at h with hguard
    obtain rfl := Option.some.inj h
    exact .forget hguard.1 hguard.2

end WalProgress

end Minnal
